import Avos.Bootloader.Record
import Mathlib.Data.List.GetD

/-! # The Services of the Boot Loader

  The functions that fill in the tags of the information record: `Memory_*`, `System_*`,
  `VBE_*` and `Console_ReadCommand` of `bootloader/multiboot/src`. They ask the BIOS.

  The BIOS is a machine with a state of its own that answers an interrupt by registers, and by
  bytes that it leaves in the buffer it was given (`Bios`). The buffer is passed to the model
  by its address as well as by `ES:DI`. The screen and the cursor are left out; the local
  variables are not in the memory of the model.

  Loops that the hardware or the contents of memory end have a bound on their rounds, and
  the sizes that are stored are assumed to stay inside the address space (`withRoom`): there
  is no result otherwise.
-/

open ByteMemory

namespace Avos.Multiboot

/-! ## Section 1: The BIOS -/

/-- `struct BIOS_Registers`. -/
structure Registers where
  eax : BitVec 32
  ebx : BitVec 32
  ecx : BitVec 32
  edx : BitVec 32
  esi : BitVec 32
  edi : BitVec 32
  es : BitVec 16
  flags : BitVec 16

/-- `BIOS_ClearRegistry`. -/
def clearRegistry : Registers := ⟨0, 0, 0, 0, 0, 0, 0, 0⟩

namespace Registers

variable (r : Registers)

def ax : BitVec 16 := r.eax.setWidth 16
def al : BitVec 8 := r.eax.setWidth 8
def ah : BitVec 8 := r.eax.extractLsb' 8 8
def bx : BitVec 16 := r.ebx.setWidth 16
def bl : BitVec 8 := r.ebx.setWidth 8
def bh : BitVec 8 := r.ebx.extractLsb' 8 8
def cx : BitVec 16 := r.ecx.setWidth 16
def dx : BitVec 16 := r.edx.setWidth 16
def si : BitVec 16 := r.esi.setWidth 16
def di : BitVec 16 := r.edi.setWidth 16

/-- `regs.ax = v`. -/
def withAx (v : BitVec 16) : Registers := { r with eax := r.eax.extractLsb' 16 16 ++ v }

/-- `regs.flags & 1`. -/
def Carry : Prop := r.flags &&& 1 = 1

instance : Decidable r.Carry := inferInstanceAs (Decidable (_ = _))

end Registers

theorem ax_withAx {r : Registers} {v : BitVec 16} : (r.withAx v).ax = v := by
  show (r.eax.extractLsb' 16 16 ++ v).setWidth 16 = v
  rw [BitVec.setWidth_append]
  simp

/-- Registers that are clear but for `AX`. -/
def service (ax : BitVec 16) : Registers := clearRegistry.withAx ax

/-- The BIOS. An interrupt leaves bytes in a buffer, sets the registers, and changes the state.
    The memory map service keeps `ESI`. -/
structure Bios (β : Type*) where
  interrupt : β → BitVec 8 → Registers → List (BitVec 8) × Registers × β
  keeps_esi : ∀ b r, r.eax = 0xE820 → (interrupt b 0x15 r).2.1.esi = r.esi

/-- The boot loader: the memory and the BIOS. -/
structure Loader (β : Type*) where
  mem : Memory
  bios : β

section services

variable {β : Type*} (B : Bios β)

/-- `BIOS_Interrupt`. -/
def biosInterrupt (id : BitVec 8) (r : Registers) (s : Loader β) : Registers × Loader β :=
  let answer := B.interrupt s.bios id r
  (answer.2.1, { s with bios := answer.2.2 })

/-- `BIOS_Interrupt`, for a routine that fills a buffer of `size` bytes. -/
def biosStore (id : BitVec 8) (r : Registers) (buffer : BitVec 32) (size : Nat) (s : Loader β) :
    Registers × Loader β :=
  let answer := B.interrupt s.bios id r
  (answer.2.1, ⟨storeBytes s.mem buffer (answer.1.take size), answer.2.2⟩)

/-- The `n` bytes from `a` on are inside the address space. -/
def withRoom {α : Type*} (a : BitVec 32) (n : Nat) (k : Option α) : Option α :=
  if a.toNat + n < 2 ^ 32 then k else none

/-! ## Section 2: Memory -/

/-- `Memory_StoreBasicInfo`. -/
def storeBasicInfo (addr : BitVec 32) (s : Loader β) : BitVec 32 × Loader β :=
  let (regs, s) := biosInterrupt B 0x12 clearRegistry s
  if regs.Carry then (addr, s)
  else
    let s := { s with mem := store32 s.mem addr (regs.ax.setWidth 32) }
    if regs.ax = 0 then (addr, s)
    else
      let s := { s with mem := store32 s.mem (addr + 4) 0 }
      let (regs, s) := biosInterrupt B 0x15 (service 0xE801) s
      let known := ¬regs.Carry ∧ regs.ah ≠ 0x86 ∧ regs.ah ≠ 0x80
      if known ∧ regs.cx ≠ 0 then
        let upper := regs.cx.setWidth 32 + regs.dx.setWidth 32 * 0x40
        (addr + 8, { s with mem := store32 s.mem (addr + 4) upper })
      else if known ∧ regs.ax ≠ 0 then
        let upper := regs.ax.setWidth 32 + regs.bx.setWidth 32 * 0x40
        (addr + 8, { s with mem := store32 s.mem (addr + 4) upper })
      else
        let (regs, s) := biosInterrupt B 0x15 (service 0x88) s
        if regs.Carry then (addr, s)
        else (addr + 8, { s with mem := store32 s.mem (addr + 4) (regs.ax.setWidth 32) })

/-- The loop of `Memory_StoreE820Info`: the entry to fill next. -/
def e820Loop (addr : BitVec 32) : Nat → BitVec 32 → Registers → Loader β →
    Option (BitVec 32 × Loader β)
  | 0, _, _, _ => none
  | n + 1, entry, regs, s => withRoom entry 32 <|
      let regs := { regs with eax := 0xE820, ecx := 0x18, edx := 0x534D4150 }
      let s := { s with mem := store32 s.mem (entry + 20) 1 }
      let (regs, s) := biosStore B 0x15 regs entry 24 s
      if regs.Carry ∨ regs.eax ≠ 0x534D4150 ∨ regs.ebx = 0 then some (addr + regs.esi, s)
      else if (regs.ecx ≤ 20 ∨ load32 s.mem (entry + 20) &&& 3 = 1) ∧
          0 < load64 s.mem (entry + 8) then
        e820Loop addr n (entry + 24)
          { regs with esi := regs.esi + 0x18, edi := regs.edi + 0x18 } s
      else e820Loop addr n entry regs s

/-- `Memory_StoreE820Info`. -/
def storeE820Info (fuel : Nat) (addr : BitVec 32) (s : Loader β) :
    Option (BitVec 32 × Loader β) :=
  e820Loop B addr fuel addr
    { clearRegistry with edi := addr &&& 0xF, es := (addr >>> 4).setWidth 16 } s

/-- The entry `i` of the memory map. -/
def e820Entry (table : BitVec 32) (i : Nat) : BitVec 32 := table + BitVec.ofNat 32 (24 * i)

/-- The entry is available memory. -/
def IsAvailable (m : Memory) (entry : BitVec 32) : Prop :=
  load32 m (entry + 20) = 1 ∧ load32 m (entry + 16) = 1

instance (m : Memory) (entry : BitVec 32) : Decidable (IsAvailable m entry) :=
  inferInstanceAs (Decidable (_ ∧ _))

/-- The lowest base, from `address` on, among the first `n` entries. -/
def closestBoundary (m : Memory) (table : BitVec 32) (address : BitVec 64) : Nat → BitVec 64
  | 0 => ~~~0
  | n + 1 =>
      let closest := closestBoundary m table address n
      let base := load64 m (e820Entry table n)
      if IsAvailable m (e820Entry table n) ∧ address ≤ base ∧ base < closest then base else closest

/-- The size of the block at `address`, by the first `n` entries. -/
def blockSize (m : Memory) (table : BitVec 32) (address : BitVec 64) : Nat → BitVec 64
  | 0 => 0
  | n + 1 =>
      let size := blockSize m table address n
      let base := load64 m (e820Entry table n)
      let entryEnd := base + load64 m (e820Entry table n + 8)
      let blockEnd := address + size
      if IsAvailable m (e820Entry table n) ∧ blockEnd ≤ entryEnd ∧ base ≤ blockEnd then
        entryEnd - address
      else size

/-- The block `i` of a list of blocks of RAM. -/
def blockEntry (addr : BitVec 32) (i : Nat) : BitVec 32 := addr + BitVec.ofNat 32 (16 * i)

/-- The first loop of `Memory_StoreInfo`, with `count` blocks done. -/
def storeBlocks (table : BitVec 32) (n : Nat) (addr : BitVec 32) : Nat → Nat → Memory →
    Option (Nat × Memory)
  | 0, _, _ => none
  | fuel + 1, count, m => withRoom (blockEntry addr count) 24 <|
      let ptr := blockEntry addr count
      let closest := closestBoundary m table (load64 m ptr) n
      if closest = ~~~0 then some (count, m)
      else
        let m := store64 m ptr closest
        let m := store64 m (ptr + 8) 0
        let size := blockSize m table closest n
        let m := store64 m (ptr + 8) size
        let m := store64 m (ptr + 16) (closest + size)
        storeBlocks table n addr fuel (count + 1) m

/-- Round the first `n` blocks to whole pages. -/
def pageAlignBlocks (addr : BitVec 32) (m : Memory) : Nat → Memory
  | 0 => m
  | n + 1 =>
      let m := pageAlignBlocks addr m n
      let ptr := blockEntry addr n
      let address := load64 m ptr
      let low := address &&& ~~~0xFFF
      let high := (address + load64 m (ptr + 8)) &&& ~~~0xFFF
      let low := if low < address then low + 0x1000 else low
      let m := store64 m ptr (if low < high then low else 0)
      store64 m (ptr + 8) (if low < high then high - low else 0)

/-- The loop that removes blocks of size 0, from the block `i` on; `rounds` is a bound. -/
def removeEmpty (addr : BitVec 32) : Nat → Nat → Nat → Memory → Nat × Memory
  | 0, _, count, m => (count, m)
  | rounds + 1, i, count, m =>
      if count ≤ i then (count, m)
      else if load64 m (blockEntry addr i + 8) = 0 then
        removeEmpty addr rounds (i + 1) (count - 1)
          (memmove m (blockEntry addr i) (blockEntry addr (i + 1))
            (BitVec.ofNat 32 ((count - i - 1) * 16)))
      else removeEmpty addr rounds (i + 1) count m

/-- `Memory_StoreInfo`. -/
def storeInfo (fuel : Nat) (addr : BitVec 32) (pageAlign : Bool) (table : BitVec 32) (n : Nat)
    (m : Memory) : Option (BitVec 32 × Memory) :=
  withRoom addr 16 <|
    match storeBlocks table n addr fuel 0 (store64 (store64 m addr 0) (addr + 8) 0) with
    | none => none
    | some (count, m) =>
        let m := if pageAlign then pageAlignBlocks addr m count else m
        let r := removeEmpty addr count 0 count m
        some (blockEntry addr r.1, r.2)

/-! ## Section 3: System Tables -/

/-- `System_StoreAPMInfo`. -/
def storeApmInfo (addr : BitVec 32) (s : Loader β) : BitVec 32 × Loader β :=
  let (regs, s) := biosInterrupt B 0x15 (service 0x5300) s
  if regs.Carry then (addr, s)
  else if regs.bh ≠ 0x50 ∨ regs.bl ≠ 0x4D then (addr, s)
  else
    let version := regs.ax
    let flags := regs.cx
    let (regs, s) := biosInterrupt B 0x15 (regs.withAx 0x5304) s
    if regs.Carry ∨ regs.ah ≠ 3 then (addr, s)
    else
      let (regs, s) := biosInterrupt B 0x15 (service 0x5303) s
      if regs.Carry then (addr, s)
      else
        let m := store16 s.mem addr version
        let m := store16 m (addr + 2) regs.ax
        let m := store32 m (addr + 4) regs.ebx
        let m := store16 m (addr + 8) regs.cx
        let m := store16 m (addr + 10) regs.dx
        let m := store16 m (addr + 12) flags
        let m := store16 m (addr + 14) regs.si
        let m := store16 m (addr + 16) (regs.esi.extractLsb' 16 16)
        let m := store16 m (addr + 18) regs.di
        (addr + 20, { s with mem := m })

/-- The sum of `n` bytes. -/
def checksum (m : Memory) (a : BitVec 32) : Nat → BitVec 8
  | 0 => 0
  | n + 1 => checksum m a n + m (a + BitVec.ofNat 32 n)

/-- The bytes at `a` are these. -/
def HasBytes (m : Memory) (a : BitVec 32) (l : List (BitVec 8)) : Prop :=
  ∀ i < l.length, m (a + BitVec.ofNat 32 i) = l.getD i 0

instance (m : Memory) (a : BitVec 32) (l : List (BitVec 8)) : Decidable (HasBytes m a l) :=
  inferInstanceAs (Decidable (∀ _ < _, _))

/-- The 32-bit word at an offset of a list of bytes. -/
def word32 (l : List (BitVec 8)) (i : Nat) : BitVec 32 :=
  l.getD (i + 3) 0 ++ l.getD (i + 2) 0 ++ l.getD (i + 1) 0 ++ l.getD i 0

section bytes

variable {m : Memory} {a : BitVec 32} {l : List (BitVec 8)} {i : Nat}

theorem HasBytes.load32 (h : HasBytes m a l) (hi : i + 4 ≤ l.length) :
    load32 m (a + BitVec.ofNat 32 i) = word32 l i := by
  have hbyte : ∀ j < 4, m (a + BitVec.ofNat 32 i + BitVec.ofNat 32 j) = l.getD (i + j) 0 := by
    intro j hj
    rw [BitVec.add_assoc, ← BitVec.ofNat_add]
    exact h _ (by omega)
  have h0 : m (a + BitVec.ofNat 32 i) = l.getD i 0 := h i (by omega)
  rw [ByteMemory.load32, word32, ← hbyte 3 (by decide), ← hbyte 2 (by decide),
    ← hbyte 1 (by decide), h0]
  rfl

theorem HasBytes.load64 (h : HasBytes m a l) (hi : i + 8 ≤ l.length) :
    load64 m (a + BitVec.ofNat 32 i) = word32 l (i + 4) ++ word32 l i := by
  have hhigh : ByteMemory.load32 m (a + BitVec.ofNat 32 i + 4) = word32 l (i + 4) := by
    rw [← h.load32 (by omega), BitVec.ofNat_add, ← BitVec.add_assoc]
    rfl
  rw [ByteMemory.load64, hhigh, h.load32 (by omega)]

/-- Bytes that a change leaves alone. -/
theorem HasBytes.of_eq {m' : Memory} (h : HasBytes m a l)
    (heq : ∀ i < l.length, m' (a + BitVec.ofNat 32 i) = m (a + BitVec.ofNat 32 i)) :
    HasBytes m' a l :=
  fun i hi => (heq i hi).trans (h i hi)

theorem HasBytes.append {l' : List (BitVec 8)} (h : HasBytes m a l)
    (h' : HasBytes m (a + BitVec.ofNat 32 l.length) l') : HasBytes m a (l ++ l') := by
  intro i hi
  rw [List.length_append] at hi
  rcases Nat.lt_or_ge i l.length with hlt | hge
  · rw [List.getD_append _ _ _ _ hlt]
    exact h i hlt
  · obtain ⟨j, rfl⟩ := Nat.exists_eq_add_of_le hge
    rw [List.getD_append_right _ _ _ _ hge, Nat.add_sub_cancel_left, BitVec.ofNat_add,
      ← BitVec.add_assoc]
    exact h' j (by omega)

theorem hasBytes_one : HasBytes (store32 m a 1) a [1, 0, 0, 0] := by
  intro i hi
  have hi' : i < 4 := hi
  rw [store32_apply hi']
  obtain rfl | rfl | rfl | rfl : i = 0 ∨ i = 1 ∨ i = 2 ∨ i = 3 := by omega
  · rfl
  · rfl
  · rfl
  · rfl

end bytes

/-- An entry point table of the SMBIOS: `_SM_`, and the sum of its bytes is 0. -/
def IsSmbios (m : Memory) (a : BitVec 32) : Prop :=
  HasBytes m a [0x5F, 0x53, 0x4D, 0x5F] ∧ checksum m a (m (a + 5)).toNat = 0

instance (m : Memory) (a : BitVec 32) : Decidable (IsSmbios m a) :=
  inferInstanceAs (Decidable (_ ∧ _))

/-- The first entry point table between `0xF0000` and `0x100000`. -/
def findSmbios (m : Memory) : Option (BitVec 32) :=
  ((List.range 0x1000).map fun i => 0xF0000 + BitVec.ofNat 32 (0x10 * i)).find?
    fun a => IsSmbios m a

/-- `System_StoreSMBIOSInfo`. -/
def storeSmbiosInfo (addr : BitVec 32) (m : Memory) : BitVec 32 × Memory :=
  match findSmbios m with
  | none => (addr, m)
  | some ept =>
      let m := store8 m addr (m (ept + 6))
      let m := store8 m (addr + 1) (m (ept + 7))
      let m := memset m (addr + 2) 0 6
      let dst := addr + 8
      let m := memmove m dst ept ((m (ept + 5)).setWidth 32)
      let dst := dst + (m (ept + 5)).setWidth 32
      let m := memmove m dst (load32 m (ept + 21)) ((load16 m (ept + 19)).setWidth 32)
      let last := dst + (load16 m (ept + 19)).setWidth 32
      if last % 8 ≠ 0 then (last + (8 - last % 8), memset m last 0 (8 - last % 8).toNat)
      else (last, m)

/-- An RSDP: its signature, and sums of its bytes. The second sum stops before it starts. -/
def IsRsdp (m : Memory) (a : BitVec 32) (old : Bool) : Prop :=
  HasBytes m a [0x52, 0x53, 0x44, 0x20, 0x50, 0x54, 0x52, 0x20] ∧ checksum m a 20 = 0 ∧
    (old ∨ m (a + 15) = 2)

instance (m : Memory) (a : BitVec 32) (old : Bool) : Decidable (IsRsdp m a old) :=
  inferInstanceAs (Decidable (_ ∧ _))

/-- The loop of `System_StoreACPIInfo`, over a part of the EBDA and then from `0xE0000` on. -/
def findRsdp (m : Memory) (old : Bool) (ebdaEnd : BitVec 32) : Nat → BitVec 32 →
    Option (Option (BitVec 32))
  | 0, _ => none
  | n + 1, ptr =>
      if ¬ptr < 0x100000 then some none
      else if IsRsdp m ptr old then some (some ptr)
      else findRsdp m old ebdaEnd n (if ptr + 0x10 = ebdaEnd then 0xE0000 else ptr + 0x10)

/-- `System_StoreACPIInfo`. -/
def storeAcpiInfo (fuel : Nat) (addr : BitVec 32) (old : Bool) (m : Memory) :
    Option (BitVec 32 × Memory) :=
  let ebda := (load16 m 0x40E).setWidth 32 <<< 4
  match findRsdp m old (ebda + 0x400) fuel ebda with
  | none => none
  | some none => some (addr, m)
  | some (some ptr) =>
      let len : BitVec 32 := if old then 20 else 36
      some (addr + len, memmove m addr ptr len)

/-! ## Section 4: Video -/

/-- `VBE_StoreInfo`. -/
def vbeStoreInfo (addr : BitVec 32) (s : Loader β) : BitVec 32 × Loader β :=
  let s := { s with mem := storeBytes s.mem addr [0x56, 0x42, 0x45, 0x32] }
  let (regs, s) := biosStore B 0x10
    { service 0x4F00 with edi := addr &&& 0xF, es := (addr >>> 4).setWidth 16 } addr 512 s
  if regs.ax ≠ 0x4F then (addr, s)
  else if ¬HasBytes s.mem addr [0x56, 0x45, 0x53, 0x41] then (addr, s)
  else (addr + 512, s)

/-- The registers of `VBE_GetModeInfo`. -/
def modeInfoRegisters (mode : BitVec 16) (addr : BitVec 32) : Registers :=
  { service 0x4F01 with
    ecx := mode.setWidth 32, edi := addr &&& 0xF, es := (addr >>> 4).setWidth 16 }

/-- `VBE_GetModeInfo`. -/
def vbeGetModeInfo (mode : BitVec 16) (addr : BitVec 32) (s : Loader β) : Bool × Loader β :=
  if mode = 0xFFFF then (false, s)
  else
    let (regs, s) := biosStore B 0x10 (modeInfoRegisters mode addr) addr 256 s
    (regs.ax = 0x4F, s)

/-- `VBE_SetMode`. -/
def vbeSetMode (mode : BitVec 16) (s : Loader β) : Bool × Loader β :=
  if mode = 0xFFFF then (false, s)
  else
    let (regs, s) := biosInterrupt B 0x10 { service 0x4F02 with ebx := mode.setWidth 32 } s
    (regs.ax = 0x4F, s)

/-- `VBE_GetCurrentMode`. -/
def vbeGetCurrentMode (s : Loader β) : BitVec 16 × Loader β :=
  let (regs, s) := biosInterrupt B 0x10 (service 0x4F03) s
  (if regs.ax ≠ 0x4F then 0xFFFF else regs.bx, s)

/-- `VBE_StorePModeInfo`. -/
def vbeStorePModeInfo (addr : BitVec 32) (s : Loader β) : BitVec 32 × Loader β :=
  let (regs, s) := biosInterrupt B 0x10 (service 0x4F0A) s
  if regs.ax ≠ 0x4F ∨ regs.Carry then (addr, s)
  else
    let m := store16 s.mem addr regs.es
    let m := store16 m (addr + 2) regs.di
    let m := store16 m (addr + 4) regs.cx
    (addr + 512, { s with mem := m })

/-- What the search for a mode reads of `VBE_ModeBuffer`. -/
structure ModeInfo where
  attributes : BitVec 16
  width : BitVec 16
  height : BitVec 16
  bpp : BitVec 8

/-- The local buffer, from the bytes that the BIOS has left in it. -/
def modeBuffer (bytes : List (BitVec 8)) : ModeInfo where
  attributes := bytes.getD 1 0 ++ bytes.getD 0 0
  width := bytes.getD 19 0 ++ bytes.getD 18 0
  height := bytes.getD 21 0 ++ bytes.getD 20 0
  bpp := bytes.getD 25 0

/-- A mode without `attributes & 0x10` is a text mode. -/
def ModeInfo.IsText (info : ModeInfo) : Prop := info.attributes &&& 0x10 = 0

instance (info : ModeInfo) : Decidable info.IsText := inferInstanceAs (Decidable (_ = _))

/-- The width and the height are as requested; 0 is any. -/
def ModeInfo.HasSize (info : ModeInfo) (width height : BitVec 32) : Prop :=
  (width = 0 ∨ info.width.setWidth 32 = width) ∧ (height = 0 ∨ info.height.setWidth 32 = height)

instance (info : ModeInfo) (width height : BitVec 32) : Decidable (info.HasSize width height) :=
  inferInstanceAs (Decidable (_ ∧ _))

/-- A loop over `video_modes`: the modes it looks at, the information it wants, and the bits it
    sets in the mode that it finds. -/
structure ModeLoop where
  candidate : BitVec 16 → Bool
  wanted : ModeInfo → Bool
  bits : BitVec 16

/-- A loop over `video_modes`: the first mode, from the mode `i` on, that is a `candidate` and
    whose information is as wanted. -/
def searchModes (modes : BitVec 32) (buffer : BitVec 32) (candidate : BitVec 16 → Bool)
    (wanted : ModeInfo → Bool) : Nat → Nat → Loader β → Option (Option (BitVec 16) × Loader β)
  | 0, _, _ => none
  | n + 1, i, s =>
      let mode := load16 s.mem (modes + BitVec.ofNat 32 (2 * i))
      if mode = 0xFFFF then some (none, s)
      else if ¬candidate mode then searchModes modes buffer candidate wanted n (i + 1) s
      else
        let answer := B.interrupt s.bios 0x10 (modeInfoRegisters mode buffer)
        let s := { s with bios := answer.2.2 }
        if answer.2.1.ax = 0x4F ∧ wanted (modeBuffer answer.1) then some (some mode, s)
        else searchModes modes buffer candidate wanted n (i + 1) s

/-- Loops one after the other: the first mode that one of them finds, with the bits that it
    sets. -/
def searchLoops (fuel : Nat) (modes buffer : BitVec 32) : List ModeLoop → Loader β →
    Option (BitVec 16 × Loader β)
  | [], s => some (0xFFFF, s)
  | l :: loops, s =>
      match searchModes B modes buffer l.candidate l.wanted fuel 0 s with
      | none => none
      | some (some mode, s) => some (mode ||| l.bits, s)
      | some (none, s) => searchLoops fuel modes buffer loops s

/-- The loops of a search for a text mode of any size. -/
def anyTextLoops : List ModeLoop :=
  let standard : ModeInfo → Bool := fun info => info.IsText ∧ info.width = 80 ∧ info.height = 25
  [⟨fun mode => mode = 3, standard, 0⟩, ⟨fun _ => true, standard, 0⟩,
    ⟨fun _ => true, fun info => info.IsText, 0⟩]

/-- `VBE_GetTextMode`. -/
def vbeGetTextMode (fuel : Nat) (modes buffer width height : BitVec 32) (s : Loader β) :
    Option (BitVec 16 × Loader β) :=
  if width = 0 ∧ height = 0 then searchLoops B fuel modes buffer anyTextLoops s
  else
    searchLoops B fuel modes buffer
      [⟨fun _ => true, fun info => info.IsText ∧ info.HasSize width height, 0⟩] s

/-- `VBE_GetMode`. -/
def vbeGetMode (fuel : Nat) (modes buffer width height depth : BitVec 32) (s : Loader β) :
    Option (BitVec 16 × Loader β) :=
  if width = 0 ∧ height = 0 ∧ depth = 0 then
    searchLoops B fuel modes buffer
      (anyTextLoops ++ [⟨fun _ => true, fun _ => true, 0x4000⟩]) s
  else if (width ≠ 0 ∨ height ≠ 0) ∧ depth = 0 then
    match vbeGetTextMode B fuel modes buffer width height s with
    | none => none
    | some (mode, s) =>
        if mode ≠ 0xFFFF then some (mode, s)
        else
          searchLoops B fuel modes buffer
            [⟨fun _ => true, fun info => info.HasSize width height, 0x4000⟩] s
  else
    searchLoops B fuel modes buffer
      [⟨fun _ => true,
        fun info => info.HasSize width height ∧ info.bpp.setWidth 32 = depth, 0x4000⟩] s

/-! ## Section 5: The Command Line -/

/-- `Console_ReadChar`. -/
def readChar (s : Loader β) : BitVec 8 × Loader β :=
  let (regs, s) := biosInterrupt B 0x16 clearRegistry s
  (if regs.Carry then 0 else regs.al, s)

/-- `while (Console_ReadChar() != CONSOLE_KEY_ENTER) {}`. -/
def waitForEnter : Nat → Loader β → Option (Loader β)
  | 0, _ => none
  | n + 1, s =>
      let (c, s) := readChar B s
      if c = 0x0D then some s else waitForEnter n s

/-- What a character does in `Console_ReadCommand`: the next place on the screen, the next
    place in the buffer, and memory. -/
def typeChar (buffer : BitVec 32) (c : BitVec 8) (line column pos : Nat) (m : Memory) :
    Nat × Nat × Nat × Memory :=
  if 0x20 ≤ c ∧ c < 0x7F then
    let m := store8 m (buffer + BitVec.ofNat 32 pos) c
    if column = 79 then (line + 1, 0, pos + 1, m) else (line, column + 1, pos + 1, m)
  else if c = 8 then
    if column = 0 then (line - 1, 79, pos - 1, m) else (line, column - 1, pos - 1, m)
  else (line, column, pos, m)

/-- The loop of `Console_ReadCommand`, with the next character to go to `buffer[pos]` and to the
    given place on the screen. -/
def readLoop (buffer : BitVec 32) : Nat → Nat → Nat → Nat → Loader β → Option (Loader β)
  | 0, _, _, _, _ => none
  | n + 1, line, column, pos, s =>
      let (c, s) := readChar B s
      -- no backspace over the prompt
      if c = 8 ∧ line = 2 ∧ column = 7 then readLoop buffer n line column pos s
      else if c = 0x0D then
        some { s with mem := store8 s.mem (buffer + BitVec.ofNat 32 pos) 0 }
      else
        let (line, column, pos, m) := typeChar buffer c line column pos s.mem
        let s := { s with mem := m }
        if line = 14 ∧ column = 70 then
          match waitForEnter B n s with
          | none => none
          | some s => some { s with mem := store8 s.mem (buffer + BitVec.ofNat 32 pos) 0 }
        else readLoop buffer n line column pos s

/-- `Console_ReadCommand`. The first character goes behind a prompt of seven. -/
def readCommand (fuel : Nat) (buffer : BitVec 32) (s : Loader β) : Option (Loader β) :=
  readLoop B buffer fuel 2 7 0 s

end services

end Avos.Multiboot
