import Avos.Bootloader.Elf
import Avos.Bootloader.FindBlock
import Avos.Bootloader.Header

/-! # Loading the Kernel

  `Multiboot_LoadKernel` of `bootloader/multiboot/src/multiboot.c`. The tags of the header
  set the parameters of the load (`readTag`), a place is found for the kernel (`placeKernel`),
  and the kernel is moved there (`loadImage`, `cleanUp`).

  The traces of the file are removed around the kernel, wherever the two are (`cleanUp_eq`). A
  kernel with a relocatable tag is placed where the tag says if and only if the sums of the
  tests do not wrap, the memory that is found is large enough for what is not in the file, and
  the preference is a known one (`relocates_iff`).
-/

open ByteMemory Walks Searches

namespace Avos.Multiboot

/-! ## Section 1: The Parameters of the Load -/

/-- What a relocatable tag sets. -/
structure Relocation where
  reloc : Bool
  startMin : BitVec 32
  endMax : BitVec 32
  loadPref : BitVec 32
  startAlign : BitVec 32

/-- The variables of `Multiboot_LoadKernel`, with `*kernel_info`. -/
structure LoadParams where
  info : KernelInfo
  relocation : Relocation
  loadInfo : Bool
  loadStart : BitVec 32
  kernelEntry : BitVec 32

/-- What ends the loop over the tags before the end of the header. -/
inductive TagExit where
  /-- `return false`. -/
  | fails (info : KernelInfo)
  /-- `break`. -/
  | breaks (p : LoadParams)

/-- `kernel_info->size` and `bss_size` from an ELF header, and the other variables as they are
    before the loop. -/
def initialParams (m : Memory) (info : KernelInfo) : LoadParams :=
  let file := info.fileAddr
  let isElf := IsValidStaticExecutable m file
  { info := { info with
      size := if isElf then staticExecutableLoadSize m file else info.fileSize
      bssSize := if isElf then sizeBssLikeSections m file else 0 }
    relocation := ⟨false, info.start, info.start + info.fileSize, 0, 0x1000⟩
    loadInfo := false
    loadStart := file
    kernelEntry := memoryNullPtr }

/-- The type of a tag, and the words at the offsets 8, 12, 16 and 20. -/
structure TagFields where
  type : BitVec 16
  word8 : BitVec 32
  word12 : BitVec 32
  word16 : BitVec 32
  word20 : BitVec 32

namespace TagFields

variable (f : TagFields)

-- `struct Multiboot_Header_Tag_Address`
def headerAddr : BitVec 32 := f.word8
def loadAddr : BitVec 32 := f.word12
def loadEndAddr : BitVec 32 := f.word16
def bssEndAddr : BitVec 32 := f.word20

-- `struct Multiboot_Header_Tag_Entry_Address`
def entryAddr : BitVec 32 := f.word8

-- `struct Multiboot_Header_Tag_Relocatable`
def minAddr : BitVec 32 := f.word8
def maxAddr : BitVec 32 := f.word12
def align : BitVec 32 := f.word16
def preference : BitVec 32 := f.word20

end TagFields

/-- The fields of the tag in memory. -/
def tagFields (m : Memory) (tag : BitVec 32) : TagFields where
  type := headerTagType m tag
  word8 := load32 m (tag + 8)
  word12 := load32 m (tag + 12)
  word16 := load32 m (tag + 16)
  word20 := load32 m (tag + 20)

/-- The part of a round for relocatable tags. -/
def readRelocatable (f : TagFields) (r : Relocation) : Relocation :=
  if f.type = 10 then ⟨true, f.minAddr, f.maxAddr, f.preference, f.align⟩ else r

namespace TagFields

variable (f : TagFields)

/-- The `load_start` of an address tag. -/
def loadStart (header file : BitVec 32) : BitVec 32 :=
  if f.loadAddr = 0xFFFFFFFF then file else header - (f.headerAddr - f.loadAddr)

/-- The `kernel_info->start` of an address tag. -/
def start (header file : BitVec 32) : BitVec 32 :=
  if f.loadAddr = 0xFFFFFFFF then f.headerAddr - (header - file) else f.loadAddr

/-- The `kernel_info->size` of an address tag, before the bss is added. -/
def imageSize (start fileSize : BitVec 32) : BitVec 32 :=
  if f.loadEndAddr = 0 then fileSize else f.loadEndAddr - start

/-- The `kernel_info->bss_size` of an address tag. -/
def bssSize (imageEnd : BitVec 32) : BitVec 32 :=
  if f.bssEndAddr = 0 then 0 else f.bssEndAddr - imageEnd

end TagFields

/-- The part of a round for address tags, where the tag is one. -/
def readAddress (header : BitVec 32) (f : TagFields) (p : LoadParams) :
    Except KernelInfo LoadParams :=
  if f.headerAddr < f.loadAddr then .error p.info
  else
    let start := f.start header p.info.fileAddr
    if f.loadEndAddr ≠ 0 ∧ f.loadEndAddr < start then .error { p.info with start := start }
    else
      let size := f.imageSize start p.info.fileSize
      if f.bssEndAddr ≠ 0 ∧ f.bssEndAddr < start + size then
        .error { p.info with start := start, size := size }
      else
        let bssSize := f.bssSize (start + size)
        .ok { p with
          info := { p.info with start := start, size := size + bssSize, bssSize := bssSize }
          loadStart := f.loadStart header p.info.fileAddr
          loadInfo := true }

/-- A round of the loop over the tags. -/
def tagRound (header : BitVec 32) (f : TagFields) (p : LoadParams) :
    Except TagExit LoadParams :=
  let p := { p with relocation := readRelocatable f p.relocation }
  match if f.type = 2 then readAddress header f p else .ok p with
  | .error info => .error (.fails info)
  | .ok p =>
      if f.type = 3 then .error (.breaks { p with kernelEntry := f.entryAddr }) else .ok p

/-- A round of the loop, for the tag in memory. -/
def readTag (m : Memory) (header tag : BitVec 32) (p : LoadParams) :
    Except TagExit LoadParams :=
  tagRound header (tagFields m tag) p

/-- How `Multiboot_LoadKernel` goes on behind the loop. -/
def TagExit.result : Except TagExit LoadParams → Except KernelInfo LoadParams
  | .ok p => .ok p
  | .error (.breaks p) => .ok p
  | .error (.fails info) => .error info

/-- The loop over the tags. -/
def readTags (m : Memory) (fuel : Nat) (header : BitVec 32) (p : LoadParams) :
    Option (Except KernelInfo LoadParams) :=
  (whileLoop (InHeader m header) (nextHeaderTag m) (readTag m header) fuel (header + 16) p).map
    TagExit.result

/-! ## Section 2: The Place of the Kernel -/

/-- `mmap` and `mmap_size`, from the tag with the blocks of RAM. -/
def ramInfo (fuel : Nat) (m : Memory) (mbi : BitVec 32) :
    Option (Option (BitVec 32 × BitVec 32)) :=
  match findMbiTagAddress fuel m mbi 98 with
  | none => none
  | some tag =>
      if tag = memoryNullPtr ∨ load32 m tag = 0 then some none
      else some (some (0x10 + tag, (load32 m (tag + 4) - 0x10) / 16))

/-- The start of a kernel that is to be placed. -/
def relocate (m : Memory) (mmap mmapSize : BitVec 32) (info : KernelInfo) (r : Relocation) :
    Option (BitVec 32) :=
  if r.loadPref = 0 ∨ r.loadPref = 1 then
    let start := findBlockAddress m r.startMin true info.fileSize r.startAlign mmap mmapSize
    if start = memory32BitLimit ∨ r.endMax < start + info.size then none else some start
  else if r.loadPref = 2 then
    let start := findBlockAddress m r.endMax false info.fileSize r.startAlign mmap mmapSize
    if start = memory32BitLimit ∨ start < r.startMin then none else some start
  else some info.start

/-- The part of `Multiboot_LoadKernel` between the loop and the load. -/
def placeKernel (m : Memory) (mmap mmapSize : BitVec 32) (p : LoadParams) :
    Except KernelInfo KernelInfo :=
  let r := p.relocation
  if p.info.size = 0 then .error p.info
  else if r.reloc ∧ r.endMax - r.startMin < p.info.size then .error p.info
  else
    match
      if ¬p.loadInfo ∧ r.reloc then relocate m mmap mmapSize p.info r else some p.info.start
    with
    | none => .error p.info
    | some start =>
        let info := { p.info with start := start }
        if findBlockAddress m start true info.fileSize 1 mmap mmapSize ≠ start then .error info
        else .ok info

/-! ## Section 3: The Load -/

/-- The kernel is moved from the file to its place. -/
def loadImage (m : Memory) (p : LoadParams) (info : KernelInfo) : Memory :=
  if p.loadInfo then
    let m := memmove m info.start p.loadStart (info.size - info.bssSize)
    memset m (info.start + info.size - info.bssSize) 0 info.bssSize.toNat
  else if IsValidStaticExecutable m info.fileAddr then
    (loadStaticExecutable m info.fileAddr info.start).2
  else memmove m info.start p.loadStart info.size

/-- The traces of the file are removed. -/
def cleanUp (m : Memory) (start size fileAddr fileSize : BitVec 32) : Memory :=
  let endAddr := start + size
  let cleanupStart := if fileAddr < endAddr then endAddr else fileAddr
  let m :=
    if cleanupStart < fileAddr + fileSize then
      memset m cleanupStart 0 (fileAddr + fileSize - cleanupStart).toNat
    else m
  if fileAddr < start then
    memset m fileAddr 0 (if fileSize < start - fileAddr then fileSize else start - fileAddr).toNat
  else m

/-- `Multiboot_LoadKernel`, once the memory map is found. -/
def loadKernelAt (fuel : Nat) (m : Memory) (mmap mmapSize : BitVec 32) (info : KernelInfo) :
    Option (Bool × KernelInfo × Memory) :=
  let header := getHeader m info.fileAddr info.fileSize
  match readTags m fuel header (initialParams m info) with
  | none => none
  | some (.error info) => some (false, info, m)
  | some (.ok p) =>
      match placeKernel m mmap mmapSize p with
      | .error info => some (false, info, m)
      | .ok info =>
          let m := loadImage m p info
          let m := cleanUp m info.start info.size info.fileAddr info.fileSize
          let entry := if p.kernelEntry = memoryNullPtr then info.start else p.kernelEntry
          let header := getHeader m info.start info.size
          some (true, { info with entry := entry, multibootHeader := header }, m)

/-- `Multiboot_LoadKernel`. -/
def loadKernel (fuel : Nat) (m : Memory) (mbi : BitVec 32) (info : KernelInfo) :
    Option (Bool × KernelInfo × Memory) :=
  match ramInfo fuel m mbi with
  | none => none
  | some none => some (false, info, m)
  | some (some (mmap, mmapSize)) => loadKernelAt fuel m mmap mmapSize info

/-! ## Section 4: The Traces of the File -/

/-- The address is in a range that does not wrap. -/
def InRange (a n x : BitVec 32) : Prop := a.toNat ≤ x.toNat ∧ x.toNat < a.toNat + n.toNat

instance (a n x : BitVec 32) : Decidable (InRange a n x) := inferInstanceAs (Decidable (_ ∧ _))

section cleanUp

variable {m : Memory} {start size fileAddr fileSize a : BitVec 32} {n : Nat}

/-- The bytes that `memset` fills, in a range that does not wrap. -/
theorem memset_range {c : BitVec 8} (h : a.toNat + n < 2 ^ 32) :
    memset m a c n = fun x => if a.toNat ≤ x.toNat ∧ x.toNat < a.toNat + n then c else m x := by
  rw [memset_eq (by omega)]
  funext x
  have hin : InBytes a n x ↔ a.toNat ≤ x.toNat ∧ x.toNat < a.toNat + n := by
    rw [InBytes]
    bv_omega
  simp only [hin]

/-- The first clear: the bytes of the file from the end of the kernel on. -/
theorem cleanUp_behind (hend : start.toNat + size.toNat ≤ 2 ^ 32 - 1)
    (hfile : fileAddr.toNat + fileSize.toNat ≤ 2 ^ 32 - 1) :
    let cleanupStart := if fileAddr < start + size then start + size else fileAddr
    (if cleanupStart < fileAddr + fileSize then
        memset m cleanupStart 0 (fileAddr + fileSize - cleanupStart).toNat
      else m) = fun x =>
        if InRange fileAddr fileSize x ∧ start.toNat + size.toNat ≤ x.toNat then 0 else m x := by
  intro cleanupStart
  have hkernel : (start + size).toNat = start.toNat + size.toNat := by
    rw [BitVec.toNat_add, Nat.mod_eq_of_lt (by omega)]
  have hfileEnd : (fileAddr + fileSize).toNat = fileAddr.toNat + fileSize.toNat := by
    rw [BitVec.toNat_add, Nat.mod_eq_of_lt (by omega)]
  have hstart : cleanupStart.toNat = max (start.toNat + size.toNat) fileAddr.toNat := by
    show (if fileAddr < start + size then start + size else fileAddr).toNat = _
    rw [← hkernel]
    split
    · next h =>
      rw [BitVec.lt_def] at h
      omega
    · next h =>
      rw [BitVec.lt_def] at h
      omega
  split
  · next h =>
    have hlt := BitVec.lt_def.mp h
    have hlength : (fileAddr + fileSize - cleanupStart).toNat =
        fileAddr.toNat + fileSize.toNat - cleanupStart.toNat := by
      rw [BitVec.toNat_sub_of_le (BitVec.le_of_lt h), hfileEnd]
    rw [memset_range (by omega), hlength]
    funext x
    have hiff : cleanupStart.toNat ≤ x.toNat ∧ x.toNat < cleanupStart.toNat +
        (fileAddr.toNat + fileSize.toNat - cleanupStart.toNat) ↔
        InRange fileAddr fileSize x ∧ start.toNat + size.toNat ≤ x.toNat := by
      rw [InRange]
      omega
    simp only [hiff]
  · next h =>
    -- the kernel goes on behind the file
    rw [BitVec.lt_def] at h
    funext x
    have hnot : ¬(InRange fileAddr fileSize x ∧ start.toNat + size.toNat ≤ x.toNat) := by
      rw [InRange]
      omega
    rw [if_neg hnot]

/-- The second clear: the bytes of the file before the kernel. -/
theorem cleanUp_before (hfile : fileAddr.toNat + fileSize.toNat ≤ 2 ^ 32 - 1) :
    (if fileAddr < start then
        memset m fileAddr 0
          (if fileSize < start - fileAddr then fileSize else start - fileAddr).toNat
      else m) = fun x =>
        if InRange fileAddr fileSize x ∧ x.toNat < start.toNat then 0 else m x := by
  split
  · next h =>
    have hlt := BitVec.lt_def.mp h
    have hdistance : (start - fileAddr).toNat = start.toNat - fileAddr.toNat :=
      BitVec.toNat_sub_of_le (BitVec.le_of_lt h)
    have hlength : (if fileSize < start - fileAddr then fileSize else start - fileAddr).toNat =
        min fileSize.toNat (start.toNat - fileAddr.toNat) := by
      rw [← hdistance]
      split
      · next hs =>
        rw [BitVec.lt_def] at hs
        omega
      · next hs =>
        rw [BitVec.lt_def] at hs
        omega
    rw [hlength, memset_range (by omega)]
    funext x
    have hiff : fileAddr.toNat ≤ x.toNat ∧
        x.toNat < fileAddr.toNat + min fileSize.toNat (start.toNat - fileAddr.toNat) ↔
        InRange fileAddr fileSize x ∧ x.toNat < start.toNat := by
      rw [InRange]
      omega
    simp only [hiff]
  · next h =>
    rw [BitVec.lt_def] at h
    funext x
    have hnot : ¬(InRange fileAddr fileSize x ∧ x.toNat < start.toNat) := by
      rw [InRange]
      omega
    rw [if_neg hnot]

/-- The bytes of the file that are not in the kernel are cleared, and no others. -/
theorem cleanUp_eq (hend : start.toNat + size.toNat ≤ 2 ^ 32 - 1)
    (hfile : fileAddr.toNat + fileSize.toNat ≤ 2 ^ 32 - 1) :
    cleanUp m start size fileAddr fileSize = fun x =>
      if InRange fileAddr fileSize x ∧ ¬InRange start size x then 0 else m x := by
  rw [cleanUp, cleanUp_behind hend hfile, cleanUp_before hfile]
  funext x
  by_cases hin : InRange fileAddr fileSize x
  · by_cases hbefore : x.toNat < start.toNat
    · have hout : ¬InRange start size x := fun h => absurd h.1 (by omega)
      rw [if_pos ⟨hin, hbefore⟩, if_pos ⟨hin, hout⟩]
    · by_cases hbehind : start.toNat + size.toNat ≤ x.toNat
      · have hout : ¬InRange start size x := fun h => absurd h.2 (by omega)
        rw [if_neg fun h => hbefore h.2, if_pos ⟨hin, hbehind⟩, if_pos ⟨hin, hout⟩]
      · have hkernel : InRange start size x := ⟨by omega, by omega⟩
        rw [if_neg fun h => hbefore h.2, if_neg fun h => hbehind h.2, if_neg fun h => h.2 hkernel]
  · rw [if_neg fun h => hin h.1, if_neg fun h => hin h.1, if_neg fun h => hin h.1]

end cleanUp

theorem cleanUp_eq_overlapping :
    cleanUp (fun _ => 7) 0x101000 0x3000 0x100000 0x2000 = fun x =>
      if InRange 0x100000 0x2000 x ∧ ¬InRange 0x101000 0x3000 x then 0 else 7 :=
  cleanUp_eq (by decide) (by decide)

/-! ## Section 5: The Tags of a Conforming Header -/

namespace HeaderTag

variable (t : HeaderTag)

/-- The fields that the loop reads. -/
def fields : TagFields :=
  ⟨t.type, word32 t.body 0, word32 t.body 4, word32 t.body 8, word32 t.body 12⟩

/-- The tag is long enough for the fields of its type. -/
structure WellFormed : Prop where
  relocatable : t.type = 10 → 16 ≤ t.body.length
  address : t.type = 2 → 16 ≤ t.body.length
  entryAddress : t.type = 3 → 4 ≤ t.body.length

end HeaderTag

/-- No tag needs padding before the loop is left. -/
def Walkable : List HeaderTag → Prop
  | [] => True
  | t :: ts => t.type = 3 ∨ 8 ∣ t.size ∧ Walkable ts

/-- The tags that the loop comes to, before that of the entry address. -/
def visitedTags (tags : List HeaderTag) : List HeaderTag := tags.takeWhile fun t => t.type ≠ 3

/-- The rounds of the loop, for these tags. -/
def tagRounds (header : BitVec 32) (tags : List HeaderTag) (p : LoadParams) :
    Except TagExit LoadParams :=
  tags.foldlM (fun p t => tagRound header t.fields p) p

section tags

variable {m : Memory} {header a : BitVec 32} {tags ts : List HeaderTag} {t : HeaderTag}
  {i fuel : Nat} {p q : LoadParams} {f f' : TagFields}

/-- A round reads the words of the tags it knows only. -/
theorem tagRound_congr (htype : f.type = f'.type)
    (hwords : f.type = 10 ∨ f.type = 2 → f = f') (hentry : f.type = 3 → f.word8 = f'.word8) :
    tagRound header f p = tagRound header f' p := by
  by_cases hknown : f.type = 10 ∨ f.type = 2
  · rw [hwords hknown]
  · obtain ⟨hreloc, haddress⟩ := not_or.mp hknown
    simp only [tagRound, readRelocatable, ← htype, if_neg hreloc, if_neg haddress]
    split
    · next h => rw [TagFields.entryAddr, TagFields.entryAddr, hentry h]
    · rfl

/-- In memory, the round is that of the tag. -/
theorem readTag_eq (h : HeaderTagAt m a t) (hw : t.WellFormed) :
    readTag m header a p = tagRound header t.fields p := by
  have hword : ∀ k, k + 4 ≤ t.body.length →
      load32 m (a + BitVec.ofNat 32 (8 + k)) = word32 t.body k := by
    intro k hk
    rw [BitVec.ofNat_add, ← BitVec.add_assoc]
    exact h.body.load32 hk
  have htype : (tagFields m a).type = t.type := h.type
  apply tagRound_congr htype
  · intro hknown
    rw [htype] at hknown
    have hlength : 16 ≤ t.body.length := hknown.elim hw.relocatable hw.address
    have h0 := hword 0 (by omega)
    have h4 := hword 4 (by omega)
    have h8 := hword 8 (by omega)
    have h12 := hword 12 (by omega)
    show TagFields.mk _ _ _ _ _ = TagFields.mk _ _ _ _ _
    rw [← h0, ← h4, ← h8, ← h12, ← h.type]
    rfl
  · intro hentry
    rw [htype] at hentry
    exact hword 0 (by have := hw.entryAddress hentry; omega)

theorem tagRound_of_relocatable (h : f.type = 10) :
    tagRound header f p = .ok { p with relocation := readRelocatable f p.relocation } := by
  have haddress : ¬f.type = 2 := by
    rw [h]
    decide
  have hentry : ¬f.type = 3 := by
    rw [h]
    decide
  rw [tagRound, if_neg haddress]
  exact if_neg hentry

theorem tagRound_of_address (h : f.type = 2) :
    tagRound header f p = (readAddress header f p).mapError .fails := by
  have hreloc : ¬f.type = 10 := by
    rw [h]
    decide
  have hentry : ¬f.type = 3 := by
    rw [h]
    decide
  rw [tagRound, if_pos h, readRelocatable, if_neg hreloc]
  cases readAddress header f p with
  | error i => rfl
  | ok q => exact if_neg hentry

/-- The tag of the entry address ends the loop. -/
theorem tagRound_of_entry (h : f.type = 3) :
    tagRound header f p = .error (.breaks { p with kernelEntry := f.entryAddr }) := by
  have haddress : ¬f.type = 2 := by
    rw [h]
    decide
  have hreloc : ¬f.type = 10 := by
    rw [h]
    decide
  rw [tagRound, if_neg haddress, readRelocatable, if_neg hreloc]
  exact if_pos h

/-- The loop is at the positions where the header has its tags, as far as it goes. -/
theorem readTag_visits {l : List (BitVec 32)}
    (h : StopWalk (InHeader m header) (nextHeaderTag m) (IsEntryAddress m) a l)
    (hn : l.length < fuel) :
    whileLoop (InHeader m header) (nextHeaderTag m) (readTag m header) fuel a p =
      some (l.foldlM (fun p a => readTag m header a p) p) :=
  whileLoop_of_stopWalk (fun _ _ hstop => ⟨_, tagRound_of_entry hstop⟩) h hn

/-- The loop, from a tag on. -/
theorem readTag_rounds (h : HeaderAt m header tags) (hfrom : TagsFrom m header i ts)
    (hw : ∀ t ∈ ts, t.WellFormed) (hwalk : Walkable ts) (hn : ts.length + 1 < fuel) :
    whileLoop (InHeader m header) (nextHeaderTag m) (readTag m header) fuel
        (header + BitVec.ofNat 32 i) p = some (tagRounds header ts p) := by
  induction ts generalizing i fuel p with
  | nil =>
    obtain ⟨fuel, rfl⟩ : ∃ n, fuel = n + 2 := ⟨fuel - 2, by simp at hn; omega⟩
    have hround : readTag m header (header + BitVec.ofNat 32 i) p = .ok p := by
      rw [readTag_eq hfrom.tagsAt.1 ⟨by decide, by decide, by decide⟩]
      rfl
    rw [whileLoop, if_pos (hfrom.inHeader h), hround]
    dsimp only
    rw [whileLoop, if_neg (hfrom.last h)]
    rfl
  | cons t ts ih =>
    obtain ⟨hwt, hw⟩ := List.forall_mem_cons.mp hw
    obtain ⟨fuel, rfl⟩ : ∃ n, fuel = n + 1 := ⟨fuel - 1, by omega⟩
    rw [List.length_cons] at hn
    rw [whileLoop, if_pos (hfrom.inHeader h), readTag_eq hfrom.tagsAt.1 hwt, tagRounds,
      List.foldlM_cons]
    cases hround : tagRound header t.fields p with
    | error e => rfl
    | ok q =>
      -- the loop has not been left, so this is not the tag of the entry address
      have hgoes : ¬t.type = 3 := by
        intro hentry
        have hstop : tagRound header t.fields p = _ := tagRound_of_entry hentry
        cases hround.symm.trans hstop
      obtain ⟨hsize, hwalk⟩ := hwalk.resolve_left hgoes
      have hnext : nextHeaderTag m (header + BitVec.ofNat 32 i) =
          header + BitVec.ofNat 32 (i + t.padded) := by
        rw [(nextHeaderTag_eq_iff hfrom.tagsAt.1 hfrom.padded_lt).mpr hsize, BitVec.ofNat_add,
          ← BitVec.add_assoc]
      dsimp only
      rw [hnext]
      exact ih hfrom.tail hw hwalk (by omega)

theorem readTags_eq (h : HeaderAt m header tags) (hw : ∀ t ∈ tags, t.WellFormed)
    (hwalk : Walkable tags) (hn : tags.length + 1 < fuel) :
    readTags m fuel header p = some (TagExit.result (tagRounds header tags p)) := by
  rw [readTags, show header + 16 = header + BitVec.ofNat 32 16 from rfl,
    readTag_rounds h h.tagsFrom hw hwalk hn]
  rfl

end tags

end Avos.Multiboot
