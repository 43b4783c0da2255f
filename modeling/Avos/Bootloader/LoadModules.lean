import Avos.Bootloader.LoadKernelFile

/-! # Loading the Modules

  `Multiboot_LoadModules` of `bootloader/multiboot/src/multiboot.c`. The lists of blocks that are
  not that of the kernel file are those of modules. Memory is found for every module, its blocks
  are read, and a tag is added to the record.

  The loop that copies the name of a module tests the index of the block that the list is in,
  where it means that of the character. It never ends, so that modules are loaded only where
  there are none (`loadsModules_iff`).
-/

open ByteMemory Walks Loops

namespace Avos.Multiboot

/-! ## Section 1: Loading the Modules -/

/-- `BLOCKLIST_MAXBLOCKS272`. -/
def blocklistMaxBlocks272 : Nat := 21

/-- The list is that of a module. -/
def IsModuleList (m : Memory) (list : BitVec 32) : Prop :=
  load32 m list = 0x9001FDE9 ∧ ¬HasBytes m (list + 14) kernelMarker

instance (m : Memory) (list : BitVec 32) : Decidable (IsModuleList m list) :=
  inferInstanceAs (Decidable (_ ∧ _))

/-- The loop over the tags of the header. -/
def readModuleAlign (m : Memory) (fuel : Nat) (header : BitVec 32) :
    Option (Except Empty Bool) :=
  whileLoop (InHeader m header) (nextHeaderTag m)
    (fun tag pageAlign => .ok (if headerTagType m tag = 6 then true else pageAlign)) fuel
    (header + 16) false

/-- The variables of `Multiboot_LoadModules`. -/
structure ModuleLoad (β : Type*) where
  modAddr : BitVec 32
  modSize : BitVec 32
  loader : Loader β

/-- The memory. -/
def ModuleLoad.mem {β : Type*} (st : ModuleLoad β) : Memory := st.loader.mem

section load

variable {β : Type*} (B : DiskBios β) (buffer blocklist mmap mmapSize : BitVec 32) (fuel : Nat)
  (mbi : BitVec 32) (info : KernelInfo) (pageAlign : Bool)

/-- The condition of the loops over the blocks of a module. -/
def HasBlock (list : BitVec 32) (k : Nat) (st : ModuleLoad β) : Prop :=
  k < blocklistMaxBlocks272 ∧ 0 < blockSectors st.mem list k

instance (list : BitVec 32) (k : Nat) (st : ModuleLoad β) : Decidable (HasBlock list k st) :=
  inferInstanceAs (Decidable (_ ∧ _))

/-- `blocklist272->blocks[k].num_sectors*blocklist272->sector_size`. -/
def blockBytes (m : Memory) (list : BitVec 32) (k : Nat) : BitVec 32 :=
  blockSectors m list k * (listSectorSize m list).setWidth 32

/-- The loop over the blocks of a module that adds up their sizes. -/
def addModuleSizes (list : BitVec 32) (st : ModuleLoad β) : Run (ModuleLoad β) (ModuleLoad β) :=
  forLoop (HasBlock list)
    (fun k st => pure { st with modSize := st.modSize + blockBytes st.mem list k })
    (blocklistMaxBlocks272 + 1) 0 { st with modSize := 0 }

/-- The loop that reads the blocks of a module. -/
def readModuleBlocks (list : BitVec 32) (st : ModuleLoad β) : Run (ModuleLoad β) (ModuleLoad β) :=
  forLoop (HasBlock list)
    (fun k st =>
      let out := readFromDisk B buffer (info.bootDriveId.setWidth 8) st.modAddr
        (blockLba st.mem list k) (blockSectors st.mem list k) st.loader
      let st := { st with loader := out.2 }
      if out.1 ≠ blockBytes st.mem list k then throw st else pure st)
    (blocklistMaxBlocks272 + 1) 0 st

/-- The loop that copies the name of a module to its tag. It tests `i`, and not `k`. -/
def copyModuleString (list tag : BitVec 32) (i : Nat) (st : ModuleLoad β) :
    Run (ModuleLoad β) (ModuleLoad β) :=
  forLoop (fun _ _ => i < 240)
    (fun k st => pure { st with
      loader.mem := store8 st.mem (tag + 16 + BitVec.ofNat 32 k)
        (st.mem (list + 272 + BitVec.ofNat 32 k)) })
    fuel 0 st

/-- The tag of a module is written over the terminator. -/
def saveModule (list : BitVec 32) (i : Nat) (st : ModuleLoad β) :
    Run (ModuleLoad β) (ModuleLoad β) :=
  match findMbiTagAddress fuel st.mem mbi 3 with
  | none => ExceptT.mk none
  | some tag =>
      if tag = memoryNullPtr ∨ load32 st.mem tag ≠ 0 then throw st
      else
        let m := store32 (store32 st.mem tag 3) (tag + 4) 256
        let m := store32 m (tag + 8) st.modAddr
        let m := store32 m (tag + 12) (st.modAddr + st.modSize - 1)
        copyModuleString fuel list tag i { st with loader.mem := m } >>= fun st =>
          let out := terminateTag st.mem mbi tag
          let st := { st with loader.mem := out.2 }
          if out.1 = false then throw st
          else pure { st with modAddr := st.modAddr + st.modSize }

/-- The list of a module is found. -/
def loadModule (list : BitVec 32) (i : Nat) (st : ModuleLoad β) :
    Run (ModuleLoad β) (ModuleLoad β) :=
  addModuleSizes list st >>= fun st =>
    if st.modSize = 0 then pure st
    else
      let modAddr := findBlockAddress st.mem info.start true info.fileSize
        (if pageAlign then 0x1000 else 1) mmap mmapSize
      let st := { st with modAddr := modAddr }
      if modAddr = memory32BitLimit then throw st
      else readModuleBlocks B buffer info list st >>= saveModule fuel mbi list i

/-- The loop over the lists in a sector; `blocklist` is the local buffer with the sector. -/
def scanModules (i : Nat) (st : ModuleLoad β) : Run (ModuleLoad β) (ModuleLoad β) :=
  forLoop (fun s st => s < (listSectorSize st.mem info.blocklistPtr).toNat / 0x200)
    (fun s st =>
      let list := blocklist + BitVec.ofNat 32 (0x200 * s)
      if IsModuleList st.mem list then
        loadModule B buffer mmap mmapSize fuel mbi info pageAlign list i st
      else pure st)
    0x80 0 st

/-- A sector of lists is read. -/
def readModuleSector (i j : Nat) (st : ModuleLoad β) : Run (ModuleLoad β) (ModuleLoad β) :=
  let out := readFromDisk B buffer (info.bootDriveId.setWidth 8) blocklist
    (blockLba st.mem info.blocklistPtr i + BitVec.ofNat 64 j) 1 st.loader
  let st := { st with loader := out.2 }
  if out.1 = 0 ∨ out.1 ≠ (listSectorSize st.mem info.blocklistPtr).setWidth 32 ∨
      0x1000 < out.1 then throw st
  else scanModules B buffer blocklist mmap mmapSize fuel mbi info pageAlign i st

/-- The loops over the sectors with lists. -/
def readModuleLists (st : ModuleLoad β) : Run (ModuleLoad β) (ModuleLoad β) :=
  forLoop (fun i st => i < blocklistMaxBlocks128 ∧ 0 < blockSectors st.mem info.blocklistPtr i)
    (fun i st =>
      forLoop (fun j st => j < (blockSectors st.mem info.blocklistPtr i).toNat)
        (readModuleSector B buffer blocklist mmap mmapSize fuel mbi info pageAlign i) (2 ^ 32) 0 st)
    (blocklistMaxBlocks128 + 1) 0 st

end load

/-- `Multiboot_LoadModules`. -/
def loadModules {β : Type*} (B : DiskBios β) (buffer blocklist : BitVec 32) (fuel : Nat)
    (mbi : BitVec 32) (info : KernelInfo) (s : Loader β) : Option (Bool × Loader β) :=
  match readModuleAlign s.mem fuel info.multibootHeader with
  | none => none
  | some (.error e) => nomatch e
  | some (.ok pageAlign) =>
      match ramInfo fuel s.mem mbi with
      | none => none
      | some none => some (false, s)
      | some (some (mmap, mmapSize)) =>
          match (readModuleLists B buffer blocklist mmap mmapSize fuel mbi info pageAlign
            ⟨info.start + info.size, 0, s⟩).run with
          | none => none
          | some (.error st) => some (false, st.loader)
          | some (.ok st) => some (true, st.loader)

/-! ## Section 2: The Lists on Disk -/

/-- The bytes are a list that is not marked as that of the kernel file. -/
def IsModuleBytes (l : List (BitVec 8)) : Prop := word32 l 0 = 0x9001FDE9 ∧ ¬IsKernelBytes l

instance : DecidablePred IsModuleBytes := fun _ => inferInstanceAs (Decidable (_ ∧ _))

/-- The lists of modules in the sectors of the blocks `master`, with the blocks of the
    modules. -/
structure HasModuleLists (sector : BitVec 64 → List (BitVec 8)) (sectorSize : BitVec 16)
    (master : List DiskBlock) (modules : List (List DiskBlock)) : Prop where
  lists : List.Forall₂ (fun l file => ListsBlocks l blocklistMaxBlocks272 sectorSize file)
    ((listsOnDisk sector master).filter fun l => IsModuleBytes l) modules
  count : ∀ file ∈ modules, 1 ≤ file.length ∧ file.length ≤ 20

/-- A walk over the tags of the header comes to its end. -/
def HeaderEnds (m : Memory) (header : BitVec 32) : Prop :=
  ∃ l, Walk (InHeader m header) (nextHeaderTag m) (header + 16) l

/-- The header has a tag that asks for modules at the boundaries of pages. -/
def AsksForPages (m : Memory) (header : BitVec 32) : Prop :=
  ∃ l, Walk (InHeader m header) (nextHeaderTag m) (header + 16) l ∧
    ∃ tag ∈ l, headerTagType m tag = 6

/-- Ranges of addresses, with their sizes, in which modules may be: in available memory, apart
    from each other and from the kernel. -/
structure ModulePlaces (blocks : List BlockRam) (info : KernelInfo) (pages : Prop)
    (ranges : List (Nat × Nat)) : Prop where
  fits : ∀ r ∈ ranges, Fits blocks r.2 r.1
  aligned : pages → ∀ r ∈ ranges, 0x1000 ∣ r.1
  kernel : ∀ r ∈ ranges, r.1 + r.2 ≤ info.start.toNat ∨ info.start.toNat + info.size.toNat ≤ r.1
  apart : ranges.Pairwise fun r r' => r.1 + r.2 ≤ r'.1 ∨ r'.1 + r'.2 ≤ r.1

/-- The sizes of the files of modules. -/
def moduleSizes (sector : BitVec 64 → List (BitVec 8)) (modules : List (List DiskBlock)) :
    List Nat :=
  modules.map fun file => (fileBytes sector file).length

/-- The disk, the record and the kernel, for a call. The files of the modules fit in the memory
    above the kernel. -/
structure ModuleDisk {β : Type*} (B : DiskBios β) (ok : β → Prop) (sectorSize : BitVec 16)
    (sector : BitVec 64 → List (BitVec 8)) (m : Memory) (info : KernelInfo)
    (buffer blocklist mmap mmapSize mbi : BitVec 32) (master : List DiskBlock)
    (modules : List (List DiskBlock)) (tags : List MbiTag) : Prop where
  disk : Serves B ok (info.bootDriveId.setWidth 8) sectorSize sector
  layout : LowLayout info.blocklistPtr buffer blocklist mmap mmapSize
  masterList : ∃ w, w.length = 128 ∧ HasBytes m info.blocklistPtr w ∧
    ListsBlocks w blocklistMaxBlocks128 sectorSize master
  moduleLists : HasModuleLists sector sectorSize master modules
  record : IsRecord m mbi tags
  noModules : ∀ t ∈ tags, t.type ≠ 3
  recordBuffer : Apart mbi (16 + tagBytes tags) buffer 0x1000
  recordBlocklist : Apart mbi (16 + tagBytes tags) blocklist 0x1000
  ram : ∃ fuel, ramInfo fuel m mbi = some (some (mmap, mmapSize))
  room : ∃ ranges, ModulePlaces (mapBlocks m mmap mmapSize) info
      (AsksForPages m info.multibootHeader) ranges ∧
    ranges.map Prod.snd = moduleSizes sector modules ∧
      ∀ r ∈ ranges, info.start.toNat + info.size.toNat ≤ r.1

/-- The tags of modules in a record. -/
def moduleTags (m : Memory) (mbi : BitVec 32) (tags : List MbiTag) : List (BitVec 32) :=
  (tagAddrs (mbi + 8) tags).filter fun tag => load32 m tag = 3

/-- `mod_start` and the number of bytes up to `mod_end`. -/
def moduleRange (m : Memory) (tag : BitVec 32) : Nat × Nat :=
  ((load32 m (tag + 8)).toNat, (load32 m (tag + 12)).toNat + 1 - (load32 m (tag + 8)).toNat)

/-- The record has a tag for every module, with the memory that its file is in. -/
structure HasModules (sector : BitVec 64 → List (BitVec 8)) (blocks : List BlockRam)
    (info : KernelInfo) (pages : Prop) (mbi : BitVec 32) (modules : List (List DiskBlock))
    (m : Memory) (tags : List MbiTag) : Prop where
  record : IsRecord m mbi tags
  files : List.Forall₂ (fun tag file =>
      (moduleRange m tag).2 = (fileBytes sector file).length ∧
        HasBytes m (load32 m (tag + 8)) (fileBytes sector file))
    (moduleTags m mbi tags) modules
  places : ModulePlaces blocks info pages ((moduleTags m mbi tags).map (moduleRange m))

/-- The function returns true, and has loaded all modules. -/
def LoadsModules {β : Type*} (B : DiskBios β) (buffer blocklist mmap mmapSize mbi : BitVec 32)
    (sector : BitVec 64 → List (BitVec 8)) (info : KernelInfo) (modules : List (List DiskBlock))
    (s : Loader β) : Prop :=
  ∃ fuel s' tags, loadModules B buffer blocklist fuel mbi info s = some (true, s') ∧
    HasModules sector (mapBlocks s.mem mmap mmapSize) info (AsksForPages s.mem info.multibootHeader)
      mbi modules s'.mem tags

/-! ## Section 3: The Lists of Modules -/

section scanning

variable {β : Type*} {B : DiskBios β} {ok : β → Prop} {sectorSize : BitVec 16}
  {sector : BitVec 64 → List (BitVec 8)} {buffer blocklist mmap mmapSize mbi list : BitVec 32}
  {m : Memory} {info : KernelInfo} {bytes l w : List (BitVec 8)} {master file : List DiskBlock}
  {modules : List (List DiskBlock)} {tags : List MbiTag} {st st' : ModuleLoad β}
  {fuel i j : Nat} {pageAlign : Bool}

/-- Only the two buffers have changed. -/
structure ModulesScanned (ok : β → Prop) (m : Memory) (buffer blocklist : BitVec 32)
    (st : ModuleLoad β) : Prop where
  bios : ok st.loader.bios
  mem : ∀ x, ¬InBytes buffer 0x1000 x → ¬InBytes blocklist 0x1000 x → st.mem x = m x

/-- The list of the lists has not changed. -/
theorem ModulesScanned.hasBytes {mst : BitVec 32} (h : ModulesScanned ok m buffer blocklist st)
    (hlow : LowLayout mst buffer blocklist mmap mmapSize) (hw : w.length ≤ 128)
    (hbytes : HasBytes m mst w) : HasBytes st.mem mst w := by
  apply hbytes.of_eq
  intro i hi
  have hin : InBytes mst 128 (mst + BitVec.ofNat 32 i) := inBytes_add (by omega) (by decide)
  exact h.mem _ (hlow.mstBuffer _ hin) (hlow.mstBlocklist _ hin)

theorem HasBytes.isModuleList_iff (h : HasBytes m list l) (hl : 20 ≤ l.length) :
    IsModuleList m list ↔ IsModuleBytes l := by
  have hkernel := h.isKernelList_iff hl
  have hjump : ByteMemory.load32 m list = word32 l 0 := by
    rw [← h.load32 (by omega), BitVec.add_zero]
  rw [IsModuleList, IsModuleBytes, ← hkernel, IsKernelList, ← hjump]
  exact and_congr_right fun hj => not_congr ⟨fun hk => ⟨hj, hk⟩, And.right⟩

/-- A list on disk that is that of a module has the blocks of one. -/
theorem HasModuleLists.exists_file (h : HasModuleLists sector sectorSize master modules)
    (hmem : l ∈ listsOnDisk sector master) (hl : IsModuleBytes l) :
    ∃ file ∈ modules, ListsBlocks l blocklistMaxBlocks272 sectorSize file := by
  have hin : l ∈ (listsOnDisk sector master).filter fun l => IsModuleBytes l :=
    List.mem_filter.mpr ⟨hmem, decide_eq_true hl⟩
  obtain ⟨n, hn, rfl⟩ := List.getElem_of_mem hin
  have hn' : n < modules.length := h.lists.length_eq ▸ hn
  exact ⟨modules[n], List.getElem_mem hn', h.lists.get hn hn'⟩

theorem HasModuleLists.eq_nil_iff (h : HasModuleLists sector sectorSize master modules) :
    modules = [] ↔ ∀ l ∈ listsOnDisk sector master, ¬IsModuleBytes l := by
  have hlength := h.lists.length_eq
  have hnone : modules = [] ↔
      ((listsOnDisk sector master).filter fun l => IsModuleBytes l) = [] := by
    rw [← List.length_eq_zero_iff, ← List.length_eq_zero_iff, hlength]
  rw [hnone, List.filter_eq_nil_iff]
  apply forall₂_congr
  intro l _
  rw [decide_eq_true_iff]

/-- The file of a module is not empty, and its size does not wrap. -/
theorem ModuleDisk.file_length (h : ModuleDisk B ok sectorSize sector m info buffer blocklist mmap
      mmapSize mbi master modules tags) (hfile : file ∈ modules)
    (hlist : ListsBlocks l blocklistMaxBlocks272 sectorSize file) :
    0 < (fileBytes sector file).length ∧ (fileBytes sector file).length < 2 ^ 32 := by
  constructor
  · obtain ⟨hcount, -⟩ := h.moduleLists.count file hfile
    obtain ⟨b, hb⟩ := List.exists_mem_of_length_pos hcount
    have hsectors := BitVec.lt_def.mp (hlist.notEmpty b hb)
    have hblock := h.disk.block_le hb
    have hpos : 0 < b.sectors.toNat * sectorSize.toNat := Nat.mul_pos hsectors h.disk.pos
    omega
  · obtain ⟨ranges, hplaces, hsizes, -⟩ := h.room
    have hmem : (fileBytes sector file).length ∈ moduleSizes sector modules :=
      List.mem_map.mpr ⟨file, hfile, rfl⟩
    rw [← hsizes] at hmem
    obtain ⟨r, hr, hsize⟩ := List.mem_map.mp hmem
    have hle := (hplaces.fits r hr).add_le
    omega

/-- The first loop adds up the sizes of the blocks of a module. -/
theorem addModuleSizes_meets {drive : BitVec 8} {E : ModuleLoad β → Prop}
    (hdisk : Serves B ok drive sectorSize sector)
    (hlist : ListsBlocks l blocklistMaxBlocks272 sectorSize file)
    (hbytes : HasBytes st.mem list l) (hle : file.length < blocklistMaxBlocks272) :
    Meets (fun st' => st' =
        { st with modSize := BitVec.ofNat 32 (fileBytes sector file).length }) E
      (addModuleSizes list st) := by
  let I : Nat → ModuleLoad β → Prop := fun k st' => st' =
    { st with modSize := BitVec.ofNat 32 (fileBytes sector (file.take k)).length }
  have hloop : Meets (I file.length) E (addModuleSizes list st) := by
    apply forLoop_meets (I := I)
    · intro k st' hk hst'
      have hmem : st'.mem = st.mem := by rw [hst']; rfl
      rw [HasBlock, hmem, hlist.sectors_pos_iff hbytes hk (by omega)]
      omega
    · intro k st' hk hst'
      have hmem : st'.mem = st.mem := by rw [hst']; rfl
      apply meets_pure.mpr
      show ModuleLoad.mk _ _ _ = ModuleLoad.mk _ _ _
      rw [hmem, ← hlist.size_succ hdisk hbytes hk, hst']
      rfl
    · exact Nat.zero_le _
    · omega
    · rfl
  have hI : I file.length = fun st' => st' =
      { st with modSize := BitVec.ofNat 32 (fileBytes sector file).length } := by
    funext st'
    show (st' = _) = (st' = _)
    rw [List.take_length]
  rw [← hI]
  exact hloop

/-- The list of a module is in one of the first blocks, so that the loop over its name does not
    end. -/
theorem saveModule_run_ne (hi : i < blocklistMaxBlocks128) :
    (saveModule fuel mbi list i st).run ≠ some (.ok st') := by
  intro hrun
  rw [saveModule] at hrun
  split at hrun
  · exact nomatch hrun
  split at hrun
  · exact nomatch hrun
  · obtain ⟨st₁, hcopy, -⟩ := run_bind_ok hrun
    have hlimit : blocklistMaxBlocks128 = 9 := rfl
    exact forLoop_endless (fun _ _ => by omega) hcopy

/-- The list of a module does not come to its end. -/
theorem loadModule_run_ne (h : ModuleDisk B ok sectorSize sector m info buffer blocklist mmap
      mmapSize mbi master modules tags) (hi : i < blocklistMaxBlocks128)
    (hmem : l ∈ listsOnDisk sector master) (hl : IsModuleBytes l)
    (hbytes : HasBytes st.mem list l) :
    (loadModule B buffer mmap mmapSize fuel mbi info pageAlign list i st).run ≠ some (.ok st') := by
  intro hrun
  obtain ⟨file, hfile, hlist⟩ := h.moduleLists.exists_file hmem hl
  obtain ⟨hpos, hlt⟩ := h.file_length hfile hlist
  obtain ⟨-, hcount⟩ := h.moduleLists.count file hfile
  have hlimit : blocklistMaxBlocks272 = 21 := rfl
  rw [loadModule] at hrun
  obtain ⟨st₁, hsizes, hrest⟩ := run_bind_ok hrun
  obtain rfl := (addModuleSizes_meets (E := fun _ => True) h.disk hlist hbytes (by omega)).ok hsizes
  have hne : ¬BitVec.ofNat 32 (fileBytes sector file).length = 0 := by
    bv_omega
  dsimp only at hrest
  rw [if_neg hne] at hrest
  generalize (if pageAlign = true then 0x1000 else 1 : BitVec 32) = align at hrest
  split at hrest
  · exact nomatch hrest
  · obtain ⟨st₂, -, hsave⟩ := run_bind_ok hrest
    exact saveModule_run_ne hi hsave

/-- The lists in a sector are worked through if there is none of a module. -/
theorem scanModules_meetsIff (h : ModuleDisk B ok sectorSize sector m info buffer blocklist mmap
      mmapSize mbi master modules tags) (hi : i < blocklistMaxBlocks128)
    (hlists : ∀ l ∈ sectorLists bytes, l ∈ listsOnDisk sector master)
    (hlength : bytes.length = sectorSize.toNat) (hbytes : HasBytes st.mem blocklist bytes)
    (hst : ModulesScanned ok m buffer blocklist st) :
    MeetsIff (∀ l ∈ sectorLists bytes, ¬IsModuleBytes l) (ModulesScanned ok m buffer blocklist)
      (fun _ => False)
      (scanModules B buffer blocklist mmap mmapSize fuel mbi info pageAlign i st) := by
  obtain ⟨w, hw, hmst, hmaster⟩ := h.masterList
  have hsize := BitVec.le_def.mp h.disk.le
  have hmax : diskIOMaxSectorSize.toNat = 0x1000 := rfl
  have hcount : (sectorLists bytes).length = sectorSize.toNat / 0x200 := by
    rw [sectorLists, List.length_map, List.length_range, hlength]
  have hloop : MeetsIff (∀ l ∈ sectorLists bytes, ¬IsModuleBytes l)
      (fun st => ModulesScanned ok m buffer blocklist st ∧ HasBytes st.mem blocklist bytes)
      (fun _ => False)
      (scanModules B buffer blocklist mmap mmapSize fuel mbi info pageAlign i st) := by
    apply forLoop_meetsIff
    · intro k st' hk hst'
      have hmst' := hst'.1.hasBytes h.layout (by omega) hmst
      rw [hmst'.listSectorSize (by omega), hmaster.sectorSize, hcount]
    · intro k hk st' hst'
      let list := blocklist + BitVec.ofNat 32 (0x200 * k)
      have hget : (sectorLists bytes)[k] = (bytes.drop (0x200 * k)).take 0x200 := by
        simp only [sectorLists, List.getElem_map, List.getElem_range]
      have hpart : HasBytes st'.mem list (sectorLists bytes)[k] := by
        rw [hget]
        exact hst'.2.part
      have hl : (sectorLists bytes)[k].length = 0x200 := by
        rw [hget, List.length_take, List.length_drop]
        omega
      have hiff := hpart.isModuleList_iff (by omega)
      constructor
      · intro hnot
        show Meets _ _ (if IsModuleList st'.mem list then _ else _)
        rw [if_neg fun hlist => hnot (hiff.mp hlist)]
        exact hst'
      · intro hmodule s'
        show (if IsModuleList st'.mem list then
          loadModule B buffer mmap mmapSize fuel mbi info pageAlign list i st' else _).run ≠ _
        have hmodule := Classical.not_not.mp hmodule
        rw [if_pos (hiff.mpr hmodule)]
        exact loadModule_run_ne h hi (hlists _ (List.getElem_mem hk)) hmodule hpart
    · rw [hcount]
      omega
    · exact ⟨hst, hbytes⟩
  exact ⟨fun hall => (hloop.1 hall).mono (fun _ h => h.1) fun _ h => h, hloop.2⟩

/-- A sector of lists is read to its buffer and worked through. -/
theorem readModuleSector_meetsIff {addr : BitVec 64}
    (h : ModuleDisk B ok sectorSize sector m info buffer blocklist mmap mmapSize mbi master modules
      tags) (hi : i < master.length) (haddr : addr = master[i].lba + BitVec.ofNat 64 j)
    (hlists : ∀ l ∈ sectorLists (sector addr), l ∈ listsOnDisk sector master)
    (hst : ModulesScanned ok m buffer blocklist st) :
    MeetsIff (∀ l ∈ sectorLists (sector addr), ¬IsModuleBytes l)
      (ModulesScanned ok m buffer blocklist) (fun _ => False)
      (readModuleSector B buffer blocklist mmap mmapSize fuel mbi info pageAlign i j st) := by
  obtain ⟨w, hw, hmst, hmaster⟩ := h.masterList
  have hle := hmaster.le
  have hlimit : blocklistMaxBlocks128 = 9 := rfl
  have hlba : blockLba st.mem info.blocklistPtr i = master[i].lba := by
    have hblock := (hst.hasBytes h.layout (by omega) hmst).block (k := i) (by omega)
    rw [hmaster.block i hi] at hblock
    exact congrArg DiskBlock.lba hblock
  rw [readModuleSector, hlba, ← haddr]
  obtain ⟨haccepted, hok, hbytes, hframe⟩ := h.layout.readSector h.disk addr hst.bios
  generalize readFromDisk B buffer (info.bootDriveId.setWidth 8) blocklist addr 1 st.loader = out
    at *
  let st' : ModuleLoad β := { st with loader := out.2 }
  have hst' : ModulesScanned ok m buffer blocklist st' := by
    refine ⟨hok, ?_⟩
    intro x hbuffer hblocklist
    rw [← hst.mem x hbuffer hblocklist]
    exact hframe x hbuffer hblocklist
  have hsectorSize : listSectorSize st'.mem info.blocklistPtr = sectorSize := by
    rw [(hst'.hasBytes h.layout (by omega) hmst).listSectorSize (by omega), hmaster.sectorSize]
  show MeetsIff _ _ _ (if out.1 = 0 ∨ out.1 ≠
    (listSectorSize st'.mem info.blocklistPtr).setWidth 32 ∨ 0x1000 < out.1 then _ else _)
  rw [hsectorSize, if_neg haccepted]
  exact scanModules_meetsIff h (by omega) hlists (h.disk.length addr) hbytes hst'

/-- All lists are worked through if there is none of a module. -/
theorem readModuleLists_meetsIff {s : Loader β} {modAddr modSize : BitVec 32}
    (h : ModuleDisk B ok sectorSize sector s.mem info buffer blocklist mmap mmapSize mbi master
      modules tags) (hok : ok s.bios) :
    MeetsIff (modules = []) (ModulesScanned ok s.mem buffer blocklist) (fun _ => False)
      (readModuleLists B buffer blocklist mmap mmapSize fuel mbi info pageAlign
        ⟨modAddr, modSize, s⟩) := by
  obtain ⟨w, hw, hmst, hmaster⟩ := h.masterList
  have hle := hmaster.le
  have hlimit : blocklistMaxBlocks128 = 9 := rfl
  have hsectors : ∀ {st} (i : Nat) (hi : i < master.length),
      ModulesScanned ok s.mem buffer blocklist st →
        blockSectors st.mem info.blocklistPtr i = master[i].sectors := by
    intro st i hi hst
    have hblock := (hst.hasBytes h.layout (by omega) hmst).block (k := i) (by omega)
    rw [hmaster.block i hi] at hblock
    exact congrArg DiskBlock.sectors hblock
  have hloop : MeetsIff (∀ b ∈ master, ∀ a ∈ b.addrs, ∀ l ∈ sectorLists (sector a),
      ¬IsModuleBytes l) (ModulesScanned ok s.mem buffer blocklist) (fun _ => False)
      (readModuleLists B buffer blocklist mmap mmapSize fuel mbi info pageAlign
        ⟨modAddr, modSize, s⟩) := by
    apply forLoop_meetsIff
    · intro i st hi hst
      have hbytes := hst.hasBytes h.layout (by omega) hmst
      constructor
      · rintro ⟨hlt, hpos⟩
        exact (hmaster.sectors_pos_iff hbytes hi hlt).mp hpos
      · intro hlt
        exact ⟨by omega, (hmaster.sectors_pos_iff hbytes hi (by omega)).mpr hlt⟩
    · intro i hi st hst
      have hlength : master[i].addrs.length = master[i].sectors.toNat := by
        rw [DiskBlock.addrs, List.length_map, List.length_range]
      apply forLoop_meetsIff
      · intro j st' _ hst'
        rw [hsectors i hi hst', hlength]
      · intro j hj st' hst'
        apply readModuleSector_meetsIff h hi ?_ ?_ hst'
        · simp only [DiskBlock.addrs, List.getElem_map, List.getElem_range]
        · intro l hl
          exact List.mem_flatMap.mpr ⟨_, List.getElem_mem hi,
            List.mem_flatMap.mpr ⟨_, List.getElem_mem hj, hl⟩⟩
      · rw [hlength]
        exact master[i].sectors.isLt
      · exact hst
    · omega
    · exact ⟨hok, fun _ _ _ => rfl⟩
  have hnone : modules = [] ↔ ∀ b ∈ master, ∀ a ∈ b.addrs, ∀ l ∈ sectorLists (sector a),
      ¬IsModuleBytes l := by
    rw [h.moduleLists.eq_nil_iff, listsOnDisk]
    simp only [List.mem_flatMap]
    constructor
    · intro hall b hb a ha l hl
      exact hall l ⟨b, hb, a, ha, hl⟩
    · rintro hall l ⟨b, hb, a, ha, hl⟩
      exact hall b hb a ha l hl
  rw [hnone]
  exact hloop

end scanning

/-! ## Section 4: Modules in Memory -/

section modules

variable {β : Type*} {B : DiskBios β} {ok : β → Prop} {sectorSize : BitVec 16}
  {sector : BitVec 64 → List (BitVec 8)} {buffer blocklist mmap mmapSize mbi header : BitVec 32}
  {m m' : Memory} {info : KernelInfo} {master : List DiskBlock} {modules : List (List DiskBlock)}
  {tags : List MbiTag} {s s' : Loader β} {fuel n : Nat} {pageAlign : Bool}

/-- A larger bound does not change the memory map that is found. -/
theorem ramInfo_mono {map : Option (BitVec 32 × BitVec 32)}
    (h : ramInfo fuel m mbi = some map) (hle : fuel ≤ n) : ramInfo n m mbi = some map := by
  rw [ramInfo] at h ⊢
  cases hfind : findMbiTagAddress fuel m mbi 98 with
  | none =>
    rw [hfind] at h
    exact nomatch h
  | some tag =>
    rw [hfind] at h
    rw [findMbiTagAddress_mono hfind hle]
    exact h

/-- The loop over the tags of the header comes to its end if a walk over them does. -/
theorem headerEnds_iff : HeaderEnds m header ↔
    ∃ fuel pageAlign, readModuleAlign m fuel header = some (.ok pageAlign) := by
  constructor
  · rintro ⟨l, hwalk⟩
    cases hout : readModuleAlign m (l.length + 1) header with
    | none =>
      rw [readModuleAlign, whileLoop_of_walk hwalk (Nat.lt_succ_self _)] at hout
      exact nomatch hout
    | some out =>
      cases out with
      | error e => exact e.elim
      | ok pageAlign => exact ⟨_, pageAlign, hout⟩
  · rintro ⟨fuel, pageAlign, hout⟩
    obtain ⟨l, hwalk, -, -⟩ := whileLoop_ok.mp hout
    exact ⟨l, hwalk⟩

/-- What the function returns true after. -/
theorem loadModules_true (h : loadModules B buffer blocklist fuel mbi info s = some (true, s')) :
    ∃ pageAlign mmap mmapSize st,
      readModuleAlign s.mem fuel info.multibootHeader = some (.ok pageAlign) ∧
        ramInfo fuel s.mem mbi = some (some (mmap, mmapSize)) ∧
          (readModuleLists B buffer blocklist mmap mmapSize fuel mbi info pageAlign
            ⟨info.start + info.size, 0, s⟩).run = some (.ok st) ∧ s' = st.loader := by
  rw [loadModules] at h
  split at h
  · exact nomatch h
  · next e _ => exact e.elim
  · next pageAlign halign =>
    split at h
    · exact nomatch h
    · exact nomatch h
    · next mmap mmapSize hmap =>
      split at h
      · exact nomatch h
      · exact nomatch h
      · next st hrun =>
        exact ⟨pageAlign, mmap, mmapSize, st, halign, hmap, hrun,
          (Prod.mk.inj (Option.some.inj h)).2.symm⟩

/-- No tag of the record is that of a module. -/
theorem moduleTags_eq_nil (h : IsRecord m mbi tags) (hnone : ∀ t ∈ tags, t.type ≠ 3) :
    moduleTags m mbi tags = [] := by
  rw [moduleTags, List.filter_eq_nil_iff]
  intro tag htag
  obtain ⟨l₁, t, l₂, rfl, rfl⟩ := mem_tagAddrs htag
  obtain ⟨htype, -⟩ := (tagsAt_append.mp h.tags).2
  rw [htype, decide_eq_true_iff]
  exact hnone t (List.mem_append_right _ List.mem_cons_self)

/-- Without modules, and where the walk over the header ends, the function returns true. -/
theorem ModuleDisk.loadModules_eq (h : ModuleDisk B ok sectorSize sector s.mem info buffer blocklist
      mmap mmapSize mbi master modules tags) (hok : ok s.bios) (hnone : modules = [])
    (hends : HeaderEnds s.mem info.multibootHeader) :
    ∃ fuel s', loadModules B buffer blocklist fuel mbi info s = some (true, s') ∧
      ∀ x, ¬InBytes buffer 0x1000 x → ¬InBytes blocklist 0x1000 x → s'.mem x = s.mem x := by
  obtain ⟨n, pageAlign, halign⟩ := headerEnds_iff.mp hends
  obtain ⟨k, hmap⟩ := h.ram
  have halign' : readModuleAlign s.mem (n + k) info.multibootHeader = some (.ok pageAlign) :=
    whileLoop_mono halign (Nat.le_add_right n k)
  have hmap' := ramInfo_mono hmap (Nat.le_add_left k n)
  have hlists : MeetsIff (modules = []) (ModulesScanned ok s.mem buffer blocklist)
      (fun _ => False) (readModuleLists B buffer blocklist mmap mmapSize (n + k) mbi info pageAlign
        ⟨info.start + info.size, 0, s⟩) := readModuleLists_meetsIff h hok
  obtain ⟨st, hrun, hst⟩ | ⟨_, _, hfalse⟩ := (hlists.1 hnone).cases
  · refine ⟨n + k, st.loader, ?_, hst.mem⟩
    simp only [loadModules, halign', hmap', hrun]
  · exact hfalse.elim

/-- A module is never loaded. -/
theorem ModuleDisk.modules_eq_nil (h : ModuleDisk B ok sectorSize sector s.mem info buffer blocklist
      mmap mmapSize mbi master modules tags) (hok : ok s.bios)
    (htrue : loadModules B buffer blocklist fuel mbi info s = some (true, s')) : modules = [] := by
  obtain ⟨pageAlign, mmap', mmapSize', st, -, hmap', hrun, -⟩ := loadModules_true htrue
  obtain ⟨k, hmap⟩ := h.ram
  have hsame : some (some (mmap', mmapSize')) = some (some (mmap, mmapSize)) :=
    (ramInfo_mono hmap' (Nat.le_add_right fuel k)).symm.trans
      (ramInfo_mono hmap (Nat.le_add_left k fuel))
  obtain ⟨rfl, rfl⟩ := Prod.mk.inj (Option.some.inj (Option.some.inj hsame))
  by_contra hne
  exact (readModuleLists_meetsIff h hok).2 hne st hrun

/-- The modules are loaded if and only if there are none, and the walk over the tags of the
    header ends. -/
theorem loadsModules_iff (h : ModuleDisk B ok sectorSize sector s.mem info buffer blocklist mmap
      mmapSize mbi master modules tags) (hok : ok s.bios) :
    LoadsModules B buffer blocklist mmap mmapSize mbi sector info modules s ↔
      modules = [] ∧ HeaderEnds s.mem info.multibootHeader := by
  constructor
  · rintro ⟨fuel, s', -, htrue, -⟩
    obtain ⟨pageAlign, -, -, -, halign, -⟩ := loadModules_true htrue
    exact ⟨h.modules_eq_nil hok htrue, headerEnds_iff.mpr ⟨fuel, pageAlign, halign⟩⟩
  · rintro ⟨hnone, hends⟩
    obtain ⟨fuel, s', htrue, hmem⟩ := h.loadModules_eq hok hnone hends
    -- the record is in neither of the buffers
    have hrecord : IsRecord s'.mem mbi tags := h.record.congr fun x hx =>
      hmem x (h.recordBuffer x hx) (h.recordBlocklist x hx)
    have htags := moduleTags_eq_nil hrecord h.noModules
    refine ⟨fuel, s', tags, htrue, hrecord, ?_, ?_⟩
    · rw [htags, hnone]
      exact .nil
    · rw [htags]
      exact ⟨fun _ h => absurd h List.not_mem_nil, fun _ _ h => absurd h List.not_mem_nil,
        fun _ h => absurd h List.not_mem_nil, .nil⟩

end modules

/-! ### A disk without modules, and with one of one block -/

/-- The list of a module with this block. -/
def moduleListBytes (b : DiskBlock) : List (BitVec 8) :=
  listBytes 0x9001FDE9 (List.replicate 6 0) blocklistMaxBlocks272 [b] ++ List.replicate 240 0

/-- The first sector has such lists, and the others are full of ones. -/
def moduleSector (first : List (BitVec 8)) (a : BitVec 64) : List (BitVec 8) :=
  if a = 0 then first else List.replicate 512 1

/-- A kernel at 1 MiB, with a header that asks for modules at the boundaries of pages. -/
def moduleMemory : Memory := bytesAt 0x100000 (headerBytes [⟨6, 0, []⟩]) diskMemory

def moduleInfo : KernelInfo :=
  { diskInfo with start := 0x100000, size := 0x1000, multibootHeader := 0x100000 }

theorem isRecord_moduleMemory : IsRecord moduleMemory 0x8000 [ramTag] :=
  ⟨by decide, by decide, by decide +kernel, by decide +kernel,
    ⟨by decide +kernel, by decide +kernel, trivial⟩, by decide +kernel, by decide +kernel⟩

theorem headerEnds_moduleMemory : HeaderEnds moduleMemory 0x100000 := by
  have h : (readModuleAlign moduleMemory 3 0x100000).isSome = true := by decide +kernel
  obtain ⟨out, hout⟩ := Option.isSome_iff_exists.mp h
  cases out with
  | error e => exact e.elim
  | ok pageAlign => exact headerEnds_iff.mpr ⟨3, pageAlign, hout⟩

section disk

variable {first : List (BitVec 8)} {modules : List (List DiskBlock)}

/-- With lists that fit in the first page behind the kernel. -/
theorem moduleDisk_first (hlength : first.length = 512)
    (hlists : HasModuleLists (moduleSector first) 0x200 [⟨0, 1⟩] modules)
    (hsizes : moduleSizes (moduleSector first) modules = List.replicate modules.length 512)
    (hone : modules.length ≤ 1) :
    ModuleDisk (sectorsBios (moduleSector first)) (fun _ => True) 0x200 (moduleSector first)
      moduleMemory moduleInfo 0x10000 0x20000 0x8018 1 0x8000 [⟨0, 1⟩] modules [ramTag] := by
  have hsector : ∀ a, (moduleSector first a).length = 512 := by
    intro a
    rw [moduleSector]
    split
    · exact hlength
    · exact List.length_replicate
  have hmaster : diskLists.length = 128 := length_listBytes (by decide)
  have hblocks : mapBlocks moduleMemory 0x8018 1 = [⟨0x100000, 0x200000⟩] := by decide +kernel
  have hapart : ∀ {b : BitVec 32} {k : Nat}, 0x8030 ≤ b.toNat → b.toNat + k < 2 ^ 32 →
      Apart 0x8000 (16 + tagBytes [ramTag]) b k := by
    intro b k hle hlt x ha hb
    have htags : tagBytes [ramTag] = 32 := rfl
    rw [InBytes] at ha hb
    bv_omega
  refine ⟨serves_sectorsBios hsector, lowLayout_disk, ⟨diskLists, hmaster, ?_, ?_⟩, hlists,
    isRecord_moduleMemory, by decide, hapart (by decide) (by decide),
    hapart (by decide) (by decide), ⟨41, by decide +kernel⟩, List.replicate modules.length (0x101000, 512), ?_, ?_, ?_⟩
  · intro i hi
    rw [hmaster] at hi
    have hbytes : ∀ i < 128, moduleMemory (0x9000 + BitVec.ofNat 32 i) = diskLists.getD i 0 := by
      decide +kernel
    exact hbytes i hi
  · exact ⟨Nat.le_of_eq hmaster.symm, by decide +kernel, by decide, by decide +kernel, by decide,
      fun _ => by decide +kernel⟩
  · rw [hblocks]
    refine ⟨?_, ?_, ?_, ?_⟩
    · intro r hr
      obtain rfl := List.eq_of_mem_replicate hr
      exact ⟨_, List.mem_singleton_self _, by decide, by decide⟩
    · intro _ r hr
      obtain rfl := List.eq_of_mem_replicate hr
      decide
    · intro r hr
      obtain rfl := List.eq_of_mem_replicate hr
      decide
    · apply List.pairwise_iff_getElem.mpr
      intro i j hi hj hlt
      rw [List.length_replicate] at hi hj
      omega
  · rw [List.map_replicate, hsizes]
  · intro r hr
    obtain rfl := List.eq_of_mem_replicate hr
    decide

end disk

theorem loadsModules_iff_none : LoadsModules
    (sectorsBios (moduleSector (List.replicate 512 0))) 0x10000 0x20000 0x8018 1 0x8000
    (moduleSector (List.replicate 512 0)) moduleInfo [] ⟨moduleMemory, ()⟩ := by
  have hlength : (List.replicate 512 (0 : BitVec 8)).length = 512 := List.length_replicate
  have hlists : HasModuleLists (moduleSector (List.replicate 512 0)) 0x200 [⟨0, 1⟩] [] := by
    refine ⟨?_, fun _ h => absurd h List.not_mem_nil⟩
    rw [listsOnDisk_first hlength]
    have hnot : ¬IsModuleBytes (moduleSector (List.replicate 512 0) 0) := by decide +kernel
    rw [List.filter_cons_of_neg (by rw [decide_eq_true_iff]; exact hnot)]
    exact .nil
  exact (loadsModules_iff (moduleDisk_first hlength hlists rfl (by decide)) trivial).mpr
    ⟨rfl, headerEnds_moduleMemory⟩

/-- A module of one block, which would fit behind the kernel. -/
theorem not_forall_loadsModules : ¬∀ (β : Type) (B : DiskBios β) (ok : β → Prop)
    (sectorSize : BitVec 16) (sector : BitVec 64 → List (BitVec 8))
    (buffer blocklist mmap mmapSize mbi : BitVec 32) (info : KernelInfo) (master : List DiskBlock)
    (modules : List (List DiskBlock)) (tags : List MbiTag) (s : Loader β),
    ModuleDisk B ok sectorSize sector s.mem info buffer blocklist mmap mmapSize mbi master modules
        tags → ok s.bios → HeaderEnds s.mem info.multibootHeader →
      LoadsModules B buffer blocklist mmap mmapSize mbi sector info modules s := by
  intro h
  let first := moduleListBytes ⟨1, 1⟩
  have hlength : first.length = 512 := by
    show (listBytes _ _ _ _ ++ _).length = 512
    rw [List.length_append, length_listBytes (by decide), List.length_replicate,
      List.length_replicate]
    rfl
  have hlists : HasModuleLists (moduleSector first) 0x200 [⟨0, 1⟩] [[⟨1, 1⟩]] := by
    refine ⟨?_, by decide⟩
    rw [listsOnDisk_first hlength]
    have hmodule : IsModuleBytes (moduleSector first 0) := by decide +kernel
    have hfilter : [moduleSector first 0].filter (fun l => IsModuleBytes l) =
        [moduleSector first 0] := List.filter_cons_of_pos (decide_eq_true hmodule)
    rw [hfilter]
    refine .cons ⟨?_, by decide +kernel, by decide, by decide +kernel, by decide,
      fun _ => by decide +kernel⟩ .nil
    show 20 + 12 * blocklistMaxBlocks272 ≤ first.length
    rw [hlength]
    decide
  have hdisk := moduleDisk_first hlength hlists (by decide +kernel) (by decide)
  obtain ⟨fuel, s', -, htrue, -⟩ := h Unit _ _ _ _ _ _ _ _ _ _ _ _ _ ⟨moduleMemory, ()⟩ hdisk
    trivial headerEnds_moduleMemory
  exact absurd (hdisk.modules_eq_nil trivial htrue) (by decide)

end Avos.Multiboot
