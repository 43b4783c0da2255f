import Avos.Bootloader.Services

/-! # Filling In the Information Record

  The functions `Multiboot_Save*` of `bootloader/multiboot/src/multiboot.c`. Each of them
  finds the place of its tag (`saveTag`), writes the tag over the terminator, and ends it with
  `Multiboot_TerminateTag`. When the BIOS has nothing to store, the size of the tag is set to 0
  before that.
-/

open ByteMemory Walks

namespace Avos.Multiboot

/-- `struct BootInfo_KernelInfo`. -/
structure KernelInfo where
  bootDriveId : BitVec 32
  bootPartition : BitVec 32
  blocklistPtr : BitVec 32
  start : BitVec 32
  size : BitVec 32
  bssSize : BitVec 32
  multibootHeader : BitVec 32
  entry : BitVec 32
  fileAddr : BitVec 32
  fileSize : BitVec 32

/-! ## Section 1: The Header of the Kernel -/

/-- `header_magic->header_length`. -/
def headerLength (m : Memory) (header : BitVec 32) : BitVec 32 := load32 m (header + 8)

/-- `(uint32_t)header_tag < multiboot_header_ptr + header_magic->header_length`. -/
def InHeader (m : Memory) (header tag : BitVec 32) : Prop := tag < header + headerLength m header

instance (m : Memory) (header : BitVec 32) : DecidablePred (InHeader m header) :=
  fun _ => inferInstanceAs (Decidable (_ < _))

/-- `header_tag->type`. -/
def headerTagType (m : Memory) (tag : BitVec 32) : BitVec 16 := load16 m tag

/-- `header_tag->size`. -/
def headerTagSize (m : Memory) (tag : BitVec 32) : BitVec 32 := load32 m (tag + 4)

/-- `(header_tag->flags & 1) == 0`. -/
def isMandatory (m : Memory) (tag : BitVec 32) : Bool := load16 m (tag + 2) &&& 1 = 0

/-- `(uint32_t)header_tag + header_tag->size`. -/
def nextHeaderTag (m : Memory) (tag : BitVec 32) : BitVec 32 := tag + headerTagSize m tag

/-- `nrequests`. -/
def numRequests (m : Memory) (tag : BitVec 32) : Nat := (headerTagSize m tag - 8).toNat / 4

/-- `&header_requests->requests[i]`. -/
def requestAddr (tag : BitVec 32) (i : Nat) : BitVec 32 := tag + 8 + BitVec.ofNat 32 (4 * i)

/-- The information types that a tag requests. -/
def requests (m : Memory) (tag : BitVec 32) : List (BitVec 32) :=
  (List.range (numRequests m tag)).map fun i => load32 m (requestAddr tag i)

/-- What the tags say about graphics. -/
structure GraphicsRequest where
  graphicsMandatory : Bool
  egaTextSupported : Bool
  vbeRequested : Bool
  vbeMandatory : Bool
  framebufferRequested : Bool
  framebufferMandatory : Bool
  width : BitVec 32
  height : BitVec 32
  depth : BitVec 32

/-- A request for a VBE tag or a framebuffer tag. -/
def requestGraphics (mandatory : Bool) (g : GraphicsRequest) (type : BitVec 32) :
    GraphicsRequest :=
  if type = 7 then { g with vbeRequested := true, vbeMandatory := mandatory }
  else if type = 8 then { g with framebufferRequested := true, framebufferMandatory := mandatory }
  else g

/-- A tag of the header, in `Multiboot_SaveGraphicsInfo`. -/
def graphicsTag (m : Memory) (tag : BitVec 32) (g : GraphicsRequest) : GraphicsRequest :=
  if headerTagType m tag = 1 then
    (requests m tag).foldl (requestGraphics (isMandatory m tag)) g
  else if headerTagType m tag = 4 then
    let flags := load32 m (tag + 8)
    { g with
      graphicsMandatory := if flags &&& 1 ≠ 0 then true else g.graphicsMandatory
      egaTextSupported := if flags &&& 2 ≠ 0 then true else g.egaTextSupported }
  else if headerTagType m tag = 5 then
    { g with
      width := load32 m (tag + 8)
      height := load32 m (tag + 12)
      depth := load32 m (tag + 16) }
  else g

/-- The loop over the tags in `Multiboot_SaveGraphicsInfo`. -/
def scanGraphics (m : Memory) (fuel : Nat) (header : BitVec 32) :
    Option (Except Empty GraphicsRequest) :=
  whileLoop (InHeader m header) (nextHeaderTag m) (fun tag g => .ok (graphicsTag m tag g)) fuel
    (header + 16) ⟨false, false, false, false, false, false, 0, 0, 0⟩

/-! ## Section 2: Tags of Fixed Size -/

section savers

variable {β : Type*} (B : Bios β) (fuel : Nat) (mbi : BitVec 32)

/-- What every saver begins with: the tag is to be written over the terminator, unless there
    is one of its type. -/
def saveTag (type : BitVec 32) (s : Loader β)
    (write : BitVec 32 → Option (Bool × Loader β)) : Option (Bool × Loader β) :=
  match findMbiTagAddress fuel s.mem mbi type with
  | none => none
  | some tag =>
      if tag = memoryNullPtr ∨ load32 s.mem tag ≠ 0 then some (false, s) else write tag

/-- `tag->type = type; tag->size = size;`. -/
def writeTag (m : Memory) (tag type size : BitVec 32) : Memory :=
  store32 (store32 m tag type) (tag + 4) size

/-- `Multiboot_TerminateTag`, and the result of the saver. -/
def finishTag (tag : BitVec 32) (result : Bool) (s : Loader β) : Option (Bool × Loader β) :=
  some (result, { s with mem := (terminateTag s.mem mbi tag).2 })

/-- `tag->size = 0;`, `Multiboot_TerminateTag`, and the result of the saver. -/
def dropTag (tag : BitVec 32) (result : Bool) (s : Loader β) : Option (Bool × Loader β) :=
  finishTag mbi tag result { s with mem := store32 s.mem (tag + 4) 0 }

/-- `Multiboot_SaveBootLoaderInfo`. -/
def saveBootLoaderInfo (s : Loader β) : Option (Bool × Loader β) :=
  saveTag fuel mbi 2 s fun tag => withRoom tag 24 <|
    let m := writeTag s.mem tag 2 16
    let m := storeBytes m (tag + 8) [0x41, 0x56, 0x42, 0x4C, 0]
    finishTag mbi tag (terminateTag m mbi tag).1 { s with mem := m }

/-- `Multiboot_SaveBasicMemoryInfo`. -/
def saveBasicMemoryInfo (s : Loader β) : Option (Bool × Loader β) :=
  saveTag fuel mbi 4 s fun tag => withRoom tag 24 <|
    let m := writeTag s.mem tag 4 16
    let m := store32 m (tag + 8) 0
    let m := store32 m (tag + 12) 0
    finishTag mbi tag true (storeBasicInfo B (8 + tag) { s with mem := m }).2

/-- The loop of `Multiboot_SaveBootDeviceInfo`: the first of the places 16 bytes apart with
    `0xAA55`, or the place behind them. -/
def findSignature (m : Memory) (part : BitVec 32) : Nat → BitVec 32
  | 0 => part
  | n + 1 => if load16 m part = 0xAA55 then part else findSignature m (part + 16) n

/-- `Multiboot_SaveBootDeviceInfo`. -/
def saveBootDeviceInfo (info : KernelInfo) (s : Loader β) : Option (Bool × Loader β) :=
  saveTag fuel mbi 5 s fun tag => withRoom tag 32 <|
    let part := findSignature s.mem info.bootPartition 5
    if load16 s.mem part ≠ 0xAA55 then some (false, s)
    else
      let m := writeTag s.mem tag 5 24
      let m := store32 m (tag + 8) info.bootDriveId
      let m := store32 m (tag + 12) (4 - (part - info.bootPartition) / 16)
      let m := store32 m (tag + 16) 0xFFFFFFFF
      finishTag mbi tag true { s with mem := m }

/-- `Multiboot_SaveLoadBaseAddress`. -/
def saveLoadBaseAddress (info : KernelInfo) (s : Loader β) : Option (Bool × Loader β) :=
  saveTag fuel mbi 21 s fun tag => withRoom tag 24 <|
    let m := writeTag s.mem tag 21 16
    let m := store32 m (tag + 8) info.start
    let m := store32 m (tag + 12) 0
    finishTag mbi tag true { s with mem := m }

/-- `Multiboot_SaveAPMInfo`. -/
def saveApmInfo (s : Loader β) : Option (Bool × Loader β) :=
  saveTag fuel mbi 10 s fun tag => withRoom tag 40 <|
    let (last, s) := storeApmInfo B (tag + 8) { s with mem := writeTag s.mem tag 10 32 }
    if last = tag + 8 then dropTag mbi tag false s
    else
      let m := store16 s.mem (tag + 28) 0
      let m := store16 m (tag + 30) 0
      finishTag mbi tag true { s with mem := m }

/-- `Multiboot_SaveACPIInfo`. -/
def saveAcpiInfo (old : Bool) (s : Loader β) : Option (Bool × Loader β) :=
  let type : BitVec 32 := if old then 14 else 15
  saveTag fuel mbi type s fun tag => withRoom tag 56 <|
    let m := writeTag s.mem tag type (if old then 32 else 48)
    match storeAcpiInfo fuel (8 + tag) old m with
    | none => none
    | some (last, m) =>
        if last = 8 + tag then dropTag mbi tag false { s with mem := m }
        else finishTag mbi tag true { s with mem := m }

/-! ## Section 3: Tags of Variable Size -/

/-- The length of a string, with a bound. -/
def stringLength (m : Memory) (string : BitVec 32) : Nat → Nat → Option Nat
  | 0, _ => none
  | n + 1, i =>
      if m (string + BitVec.ofNat 32 i) = 0 then some i else stringLength m string n (i + 1)

/-- `Multiboot_SaveBootCommand`. The command is ended by a zero, and further zeros make the size
    a multiple of eight. -/
def saveBootCommand (s : Loader β) : Option (Bool × Loader β) :=
  saveTag fuel mbi 1 s fun tag => withRoom tag 1056 <|
    match readCommand B fuel (tag + 8) { s with mem := writeTag s.mem tag 1 8 } with
    | none => none
    | some s =>
        match stringLength s.mem (tag + 8) fuel 0 with
        | none => none
        | some n =>
            let size := 8 + n + 1
            let padding := (8 - size % 8) % 8
            let m := memset s.mem (tag + 8 + BitVec.ofNat 32 (n + 1)) 0 padding
            let m := store32 m (tag + 4) (BitVec.ofNat 32 (size + padding))
            finishTag mbi tag (terminateTag m mbi tag).1 { s with mem := m }

/-- `Multiboot_SaveSMBIOSInfo`. -/
def saveSmbiosInfo (s : Loader β) : Option (Bool × Loader β) :=
  saveTag fuel mbi 13 s fun tag => withRoom tag 0x10200 <|
    -- only the type is written before the size is known
    let (last, m) := storeSmbiosInfo (8 + tag) (store32 s.mem tag 13)
    let size := last - tag
    let s := { s with mem := store32 m (tag + 4) size }
    if size ≤ 8 then dropTag mbi tag false s else finishTag mbi tag true s

/-- The last fields of a memory map: its size and type, and those of its entries. -/
def writeMap (m : Memory) (tag type size entrySize : BitVec 32) : Memory :=
  let m := store32 m (tag + 4) size
  let m := store32 m tag type
  let m := store32 m (tag + 8) entrySize
  store32 m (tag + 12) 0

/-- A list of the blocks of RAM, made from the memory map. -/
def saveBlocks (type : BitVec 32) (pageAlign : Bool) (table : BitVec 32) (n : Nat)
    (s : Loader β) : Option (Bool × Loader β) :=
  saveTag fuel mbi type s fun tag => withRoom tag 24 <|
    match storeInfo fuel (16 + tag) pageAlign table n s.mem with
    | none => none
    | some (last, m) =>
        finishTag mbi tag true { s with mem := writeMap m tag type (last - tag) 16 }

/-- `Multiboot_SaveMemoryMaps`. -/
def saveMemoryMaps (s : Loader β) : Option (Bool × Loader β) :=
  saveTag fuel mbi 6 s fun tag => withRoom tag 24 <|
    match storeE820Info B fuel (16 + tag) s with
    | none => none
    | some (last, s) =>
        let m := writeMap s.mem tag 6 (last - tag) 24
        let s := { s with mem := (terminateTag m mbi tag).2 }
        let size := load32 s.mem (tag + 4)
        let n := ((size - 16) / load32 s.mem (tag + 8)).toNat
        if size = 16 then some (false, s)
        else
          match saveBlocks fuel mbi 98 false (16 + tag) n s with
          | none => none
          | some (false, s) => some (false, s)
          | some (true, s) => saveBlocks fuel mbi 99 true (16 + tag) n s

/-! ## Section 4: Graphics -/

/-- The tag for the framebuffer, from the information on the mode at `mode`. -/
def writeFramebuffer (m : Memory) (tag mode : BitVec 32) : Memory :=
  let m := store32 m tag 8
  let m := store64 m (tag + 8) ((load32 m (mode + 40)).setWidth 64)
  let m := store32 m (tag + 16) ((load16 m (mode + 16)).setWidth 32)
  let m := store32 m (tag + 20) ((load16 m (mode + 18)).setWidth 32)
  let m := store32 m (tag + 24) ((load16 m (mode + 20)).setWidth 32)
  let m := store8 m (tag + 28) (m (mode + 25))
  let m := store8 m (tag + 29) (if load16 m mode &&& 0x10 = 0 then 2 else 1)
  let m := if m (tag + 29) = 2 then store8 m (tag + 28) 0x10 else m
  let m := store16 m (tag + 30) 0
  let m := store8 m (tag + 32) (m (mode + 32))
  let m := store8 m (tag + 33) (m (mode + 31))
  let m := store8 m (tag + 34) (m (mode + 34))
  let m := store8 m (tag + 35) (m (mode + 33))
  let m := store8 m (tag + 36) (m (mode + 36))
  -- the source takes the position of green for the mask of blue
  let m := store8 m (tag + 37) (m (mode + 34))
  store32 m (tag + 4) 40

/-- The part of `Multiboot_SaveGraphicsInfo` behind the VBE tag. -/
def saveFramebuffer (mode : BitVec 32) (preferred : BitVec 16) (s : Loader β) :
    Option (Bool × Loader β) :=
  saveTag fuel mbi 8 s fun tag => withRoom tag 48 <|
    let m := writeFramebuffer s.mem tag mode
    let s := { s with mem := (terminateTag m mbi tag).2 }
    some (vbeSetMode B preferred s)

/-- The choice of a mode. `uninitialized` is what `preferred_mode` holds at first. -/
def preferredMode (g : GraphicsRequest) (modes buffer : BitVec 32) (uninitialized : BitVec 16)
    (s : Loader β) : Option (BitVec 16 × Loader β) :=
  let text :=
    if g.egaTextSupported ∧ g.depth = 0 then vbeGetTextMode B fuel modes buffer 80 25 s
    else some (uninitialized, s)
  let any :=
    match text with
    | none => none
    | some (mode, s) =>
        if mode = 0xFFFF then vbeGetMode B fuel modes buffer g.width g.height g.depth s
        else some (mode, s)
  match any with
  | none => none
  | some (mode, s) => some (if mode = 0xFFFF then vbeGetCurrentMode B s else (mode, s))

/-- The VBE tag up to `vbe_control_info`. `none` when the BIOS has no such service. -/
def writeVbe (tag : BitVec 32) (s : Loader β) : Bool × Loader β :=
  let m := writeTag s.mem tag 7 784
  let m := memset m (tag + 16) 0 0x200
  let m := memset m (tag + 528) 0 0x100
  let (last, s) := vbeStoreInfo B (16 + tag) { s with mem := m }
  if last - (16 + tag) = 0 then (false, s)
  else
    let m := store16 s.mem (tag + 8) 0xFFFF
    let m := store16 m (tag + 10) 0
    let m := store16 m (tag + 12) 0
    let m := store16 m (tag + 14) 0
    (true, (vbeStorePModeInfo B (tag + 10) { s with mem := m }).2)

/-- `video_modes`, of the VBE information at `vbe`. -/
def videoModes (m : Memory) (vbe : BitVec 32) : BitVec 32 :=
  let modes := load32 m (vbe + 14)
  (modes >>> 16) <<< 4 + (modes &&& 0xFFFF)

/-- A mode is chosen, and the information on it is stored in the VBE tag. -/
def chooseMode (g : GraphicsRequest) (tag buffer : BitVec 32) (uninitialized : BitVec 16)
    (s : Loader β) : Option (Option (BitVec 16) × Loader β) :=
  match preferredMode B fuel g (videoModes s.mem (16 + tag)) buffer uninitialized s with
  | none => none
  | some (mode, s) =>
      let (known, s) := vbeGetModeInfo B mode (tag + 528) s
      if mode = 0xFFFF ∨ ¬known then some (none, s)
      else some (some mode, { s with mem := store16 s.mem (tag + 8) mode })

/-- The part of `Multiboot_SaveGraphicsInfo` behind the loop. -/
def saveGraphics (g : GraphicsRequest) (buffer : BitVec 32) (uninitialized : BitVec 16)
    (s : Loader β) : Option (Bool × Loader β) :=
  let optional := ¬g.graphicsMandatory ∧ ¬g.vbeMandatory ∧ ¬g.framebufferMandatory
  saveTag fuel mbi 7 s fun tag => withRoom tag 792 <|
    match writeVbe B tag s with
    | (false, s) => dropTag mbi tag optional s
    | (true, s) =>
        match chooseMode B fuel g tag buffer uninitialized s with
        | none => none
        | some (none, s) => dropTag mbi tag optional s
        | some (some mode, s) =>
            let s := { s with mem := (terminateTag s.mem mbi tag).2 }
            if ¬g.graphicsMandatory ∧ ¬g.framebufferRequested then some (true, s)
            else saveFramebuffer B fuel mbi (tag + 528) mode s

/-- `Multiboot_SaveGraphicsInfo`. `buffer` is the address of the local `VBE_ModeBuffer`. -/
def saveGraphicsInfo (info : KernelInfo) (buffer : BitVec 32) (uninitialized : BitVec 16)
    (s : Loader β) : Option (Bool × Loader β) :=
  if info.multibootHeader = 0 then some (false, s)
  else
    match scanGraphics s.mem fuel info.multibootHeader with
    | none => none
    | some (.error e) => nomatch e
    | some (.ok g) =>
        if ¬g.graphicsMandatory ∧ ¬g.vbeRequested ∧ ¬g.framebufferRequested then some (true, s)
        else saveGraphics B fuel mbi g buffer uninitialized s

end savers

end Avos.Multiboot
