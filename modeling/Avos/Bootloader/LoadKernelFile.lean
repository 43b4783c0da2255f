import Avos.Bootloader.DiskIO
import Avos.Bootloader.Relocate
import Avos.Library.Loops

/-! # Loading the Kernel File

  `Multiboot_LoadKernelFile` of `bootloader/multiboot/src/multiboot.c`. The boot loader has a list
  of blocks on disk (`blocklist_ptr`), whose sectors have lists of blocks in them. The list that is
  marked `KERNEL` has the blocks of the kernel file. Memory is found for all of them together, and
  they are read to it.

  But every block is read to the start of this memory, over the blocks before it, so that the file
  is loaded only where the blocks coincide (`loadsFile_iff`).
-/

open ByteMemory Walks Loops

namespace Avos.Multiboot

/-! ## Section 1: Block Lists -/

/-- `blocks[k].lba`; the first 20 bytes of a list are the same in all kinds of lists. -/
def blockLba (m : Memory) (list : BitVec 32) (k : Nat) : BitVec 64 :=
  load64 m (list + BitVec.ofNat 32 (20 + 12 * k))

/-- `blocks[k].num_sectors`. -/
def blockSectors (m : Memory) (list : BitVec 32) (k : Nat) : BitVec 32 :=
  load32 m (list + BitVec.ofNat 32 (28 + 12 * k))

/-- `sector_size`. -/
def listSectorSize (m : Memory) (list : BitVec 32) : BitVec 16 := load16 m (list + 12)

/-- `KERNEL`. -/
def kernelMarker : List (BitVec 8) := [0x4B, 0x45, 0x52, 0x4E, 0x45, 0x4C]

/-- The list is that of the kernel file. -/
def IsKernelList (m : Memory) (list : BitVec 32) : Prop :=
  load32 m list = 0x9001FDE9 ∧ HasBytes m (list + 14) kernelMarker

instance (m : Memory) (list : BitVec 32) : Decidable (IsKernelList m list) :=
  inferInstanceAs (Decidable (_ ∧ _))

/-- `BLOCKLIST_MAXBLOCKS128`. -/
def blocklistMaxBlocks128 : Nat := 9

/-- `BLOCKLIST_MAXBLOCKS512`. -/
def blocklistMaxBlocks512 : Nat := 41

/-! ## Section 2: Loading the File -/

/-- The variables of `Multiboot_LoadKernelFile`. -/
structure FileLoad (β : Type*) where
  info : KernelInfo
  fileLoaded : Bool
  loader : Loader β

section load

variable {β : Type*} (B : DiskBios β) (buffer blocklist mmap mmapSize : BitVec 32) (fuel : Nat)

/-- The memory. -/
def FileLoad.mem (st : FileLoad β) : Memory := st.loader.mem

/-- `(uint8_t)(kernel_info->boot_drive_ID)`. -/
def FileLoad.drive (st : FileLoad β) : BitVec 8 := st.info.bootDriveId.setWidth 8

/-- The loop over the blocks of the kernel file that adds up their sizes. -/
def addBlockSizes (list : BitVec 32) (st : FileLoad β) : Run (FileLoad β) (FileLoad β) :=
  forLoop (fun k st => k < blocklistMaxBlocks512 ∧ 0 < blockSectors st.mem list k)
    (fun k st =>
      if k = blocklistMaxBlocks512 then throw st
      else
        let size := blockSectors st.mem list k * (listSectorSize st.mem list).setWidth 32
        pure { st with info.fileSize := st.info.fileSize + size })
    (blocklistMaxBlocks512 + 1) 0 { st with info.fileSize := 0 }

/-- The loop that reads the blocks of the kernel file. It has no bound of its own. -/
def readBlocks (list : BitVec 32) (st : FileLoad β) : Run (FileLoad β) (FileLoad β) :=
  forLoop (fun k st => 0 < blockSectors st.mem list k)
    (fun k st =>
      let out := readFromDisk B buffer st.drive st.info.fileAddr (blockLba st.mem list k)
        (blockSectors st.mem list k) st.loader
      let st := { st with loader := out.2 }
      if out.1 ≠ blockSectors st.mem list k * (listSectorSize st.mem list).setWidth 32 then throw st
      else pure st)
    fuel 0 st

/-- The list of the kernel file is found. -/
def loadKernelList (list : BitVec 32) (st : FileLoad β) : Run (FileLoad β) (FileLoad β) :=
  addBlockSizes list st >>= fun st =>
    let fileAddr := findBlockAddress st.mem 0x100000 true st.info.fileSize 1 mmap mmapSize
    let st := { st with info.fileAddr := fileAddr }
    if fileAddr = memory32BitLimit then throw st
    else readBlocks B buffer fuel list st >>= fun st => pure { st with fileLoaded := true }

/-- The loop over the lists in a sector; `blocklist` is the local buffer with the sector. -/
def scanLists (mst : BitVec 32) (st : FileLoad β) : Run (FileLoad β) (FileLoad β) :=
  forLoop (fun s st => s < (listSectorSize st.mem mst).toNat / 0x200)
    (fun s st =>
      let list := blocklist + BitVec.ofNat 32 (0x200 * s)
      if IsKernelList st.mem list then loadKernelList B buffer mmap mmapSize fuel list st
      else pure st)
    0x80 0 st

/-- A sector of lists is read. -/
def readListSector (mst : BitVec 32) (i j : Nat) (st : FileLoad β) :
    Run (FileLoad β) (FileLoad β) :=
  let out := readFromDisk B buffer st.drive blocklist
    (blockLba st.mem mst i + BitVec.ofNat 64 j) 1 st.loader
  let st := { st with loader := out.2 }
  if out.1 = 0 ∨ out.1 ≠ (listSectorSize st.mem mst).setWidth 32 ∨ 0x1000 < out.1 then throw st
  else scanLists B buffer blocklist mmap mmapSize fuel mst st

/-- The loops over the sectors with lists. -/
def readBlockLists (mst : BitVec 32) (st : FileLoad β) : Run (FileLoad β) (FileLoad β) :=
  forLoop (fun i st => i < blocklistMaxBlocks128 ∧ 0 < blockSectors st.mem mst i)
    (fun i st =>
      forLoop (fun j st => j < (blockSectors st.mem mst i).toNat)
        (readListSector B buffer blocklist mmap mmapSize fuel mst i) (2 ^ 32) 0 st)
    (blocklistMaxBlocks128 + 1) 0 st

end load

/-! ## Section 3: The Section Headers of the File -/

section sections

variable {β : Type*} (fuel : Nat) (mbi : BitVec 32) (info : KernelInfo)

/-- `Multiboot_SaveELFSectionHeaders`. -/
def saveElfSectionHeaders (s : Loader β) : Option (Bool × Loader β) :=
  saveTag fuel mbi 9 s fun tag =>
    let m := store32 s.mem tag 9
    let m := store16 (store16 (store16 m (tag + 8) 0) (tag + 10) 0) (tag + 12) 0
    let (size, m) := loadSectionHeaderTable m info.fileAddr (8 + tag) true
    finishTag mbi tag true { s with mem := store32 m (tag + 4) (size + 8) }

/-- The requests of a tag of the header, one after the other. `return false` is an early
    return. -/
def saveRequested (tag : BitVec 32) (s : Loader β) : Run (Loader β) (Loader β) :=
  let nrequests := numRequests s.mem tag
  forLoop (fun i _ => i < nrequests)
    (fun i s =>
      if load32 s.mem (requestAddr tag i) = 9 ∧ isMandatory s.mem tag then
        match saveElfSectionHeaders fuel mbi info s with
        | none => ExceptT.mk none
        | some (true, s) => throw s
        | some (false, s) => pure s
      else pure s)
    (nrequests + 1) 0 s

/-- The loop over the tags of the header, with the next tag. -/
def saveSections (header : BitVec 32) (s : Loader β) : Run (Loader β) (BitVec 32 × Loader β) :=
  forLoop (fun _ p => InHeader p.2.mem header p.1)
    (fun _ p =>
      if headerTagType p.2.mem p.1 = 1 then
        saveRequested fuel mbi info p.1 p.2 >>= fun s => pure (nextHeaderTag s.mem p.1, s)
      else pure (nextHeaderTag p.2.mem p.1, p.2))
    fuel 0 (header + 16, s)

end sections

/-- `Multiboot_LoadKernelFile`. -/
def loadKernelFile {β : Type*} (B : DiskBios β) (buffer blocklist : BitVec 32) (fuel : Nat)
    (mbi : BitVec 32) (info : KernelInfo) (s : Loader β) :
    Option (Bool × KernelInfo × Loader β) :=
  match ramInfo fuel s.mem mbi with
  | none => none
  | some none => some (false, info, s)
  | some (some (mmap, mmapSize)) =>
      match (readBlockLists B buffer blocklist mmap mmapSize fuel info.blocklistPtr
        ⟨info, false, s⟩).run with
      | none => none
      | some (.error st) => some (false, st.info, st.loader)
      | some (.ok st) =>
          if ¬st.fileLoaded then some (false, st.info, st.loader)
          else
            let header := getHeader st.mem st.info.fileAddr st.info.fileSize
            if header = 0 then some (false, st.info, st.loader)
            else if load32 st.mem (header + 4) ≠ 0 then some (false, st.info, st.loader)
            else
              match (saveSections fuel mbi st.info header st.loader).run with
              | none => none
              | some (.error s) => some (false, st.info, s)
              | some (.ok p) => some (true, st.info, p.2)

/-! ## Section 4: The Lists on Disk -/

/-- `struct BootInfo_BlockLBA`. -/
structure DiskBlock where
  lba : BitVec 64
  sectors : BitVec 32
deriving DecidableEq

/-- The 16-bit word at an offset of a list of bytes. -/
def word16 (l : List (BitVec 8)) (i : Nat) : BitVec 16 := l.getD (i + 1) 0 ++ l.getD i 0

/-- The block `k` of a list with these bytes. -/
def listBlock (l : List (BitVec 8)) (k : Nat) : DiskBlock where
  lba := word32 l (20 + 12 * k + 4) ++ word32 l (20 + 12 * k)
  sectors := word32 l (28 + 12 * k)

/-- The bytes are a list of blocks on a disk with the given size of sectors. There is a block
    without sectors behind the last one, unless there are as many as a list may have. -/
structure ListsBlocks (l : List (BitVec 8)) (limit : Nat) (sectorSize : BitVec 16)
    (blocks : List DiskBlock) : Prop where
  room : 20 + 12 * limit ≤ l.length
  sectorSize : word16 l 12 = sectorSize
  le : blocks.length ≤ limit
  block : ∀ k (hk : k < blocks.length), listBlock l k = blocks[k]
  notEmpty : ∀ b ∈ blocks, 0 < b.sectors
  last : blocks.length < limit → (listBlock l blocks.length).sectors = 0

/-- The bytes are a list that is marked as that of the kernel file. -/
def IsKernelBytes (l : List (BitVec 8)) : Prop :=
  word32 l 0 = 0x9001FDE9 ∧ ∀ i < 6, l.getD (14 + i) 0 = kernelMarker.getD i 0

instance : DecidablePred IsKernelBytes := fun _ => inferInstanceAs (Decidable (_ ∧ _))

/-- The sectors of a block. -/
def DiskBlock.addrs (b : DiskBlock) : List (BitVec 64) :=
  (List.range b.sectors.toNat).map fun j => b.lba + BitVec.ofNat 64 j

/-- The lists in a sector. -/
def sectorLists (sector : List (BitVec 8)) : List (List (BitVec 8)) :=
  (List.range (sector.length / 0x200)).map fun s => (sector.drop (0x200 * s)).take 0x200

/-- The lists in the sectors of these blocks. -/
def listsOnDisk (sector : BitVec 64 → List (BitVec 8)) (blocks : List DiskBlock) :
    List (List (BitVec 8)) :=
  blocks.flatMap fun b => b.addrs.flatMap fun a => sectorLists (sector a)

/-- Among the lists in the sectors of these blocks, one is that of the kernel file, with the
    blocks `file`. -/
structure HasKernelList (sector : BitVec 64 → List (BitVec 8)) (sectorSize : BitVec 16)
    (master file : List DiskBlock) : Prop where
  one : ∃ l, (listsOnDisk sector master).filter IsKernelBytes = [l] ∧
    ListsBlocks l blocklistMaxBlocks512 sectorSize file
  notEmpty : file ≠ []
  le : file.length < blocklistMaxBlocks512

/-- The contents of the blocks. -/
def blockContents (sector : BitVec 64 → List (BitVec 8)) (file : List DiskBlock) :
    List (List (BitVec 8)) :=
  file.map fun b => sectorBytes sector b.lba b.sectors.toNat

/-- The contents of the file: those of its blocks, one behind the other. -/
def fileBytes (sector : BitVec 64 → List (BitVec 8)) (file : List DiskBlock) : List (BitVec 8) :=
  (blockContents sector file).flatten

/-- The byte at `x` of the last block that is longer than `x`, or the byte that was there. -/
def lastByte (old : BitVec 8) (x : Nat) (blocks : List (List (BitVec 8))) : BitVec 8 :=
  blocks.foldl (fun byte l => if x < l.length then l.getD x 0 else byte) old

section bytes

variable {m : Memory} {list : BitVec 32} {l : List (BitVec 8)} {k limit : Nat}
  {sectorSize : BitVec 16} {blocks : List DiskBlock}

theorem HasBytes.load16 {i : Nat} (h : HasBytes m list l) (hi : i + 2 ≤ l.length) :
    load16 m (list + BitVec.ofNat 32 i) = word16 l i := by
  have hhigh : m (list + BitVec.ofNat 32 i + 1) = l.getD (i + 1) 0 := by
    rw [← h (i + 1) (by omega), BitVec.ofNat_add, ← BitVec.add_assoc]
    rfl
  rw [ByteMemory.load16, word16, hhigh, h i (by omega)]

/-- The block in memory is that of the bytes. -/
theorem HasBytes.block (h : HasBytes m list l) (hk : 32 + 12 * k ≤ l.length) :
    (⟨blockLba m list k, blockSectors m list k⟩ : DiskBlock) = listBlock l k := by
  have hlba : blockLba m list k = _ := h.load64 (i := 20 + 12 * k) (by omega)
  have hsectors : blockSectors m list k = _ := h.load32 (i := 28 + 12 * k) (by omega)
  rw [hlba, hsectors, listBlock]

theorem HasBytes.listSectorSize (h : HasBytes m list l) (hl : 14 ≤ l.length) :
    listSectorSize m list = word16 l 12 := h.load16 (i := 12) hl

theorem HasBytes.isKernelList_iff (h : HasBytes m list l) (hl : 20 ≤ l.length) :
    IsKernelList m list ↔ IsKernelBytes l := by
  have hjump : ByteMemory.load32 m list = word32 l 0 := by
    rw [← h.load32 (by omega), BitVec.add_zero]
  rw [IsKernelList, IsKernelBytes, hjump]
  apply and_congr_right
  intro _
  apply forall₂_congr
  intro i hi
  have hi' : i < 6 := hi
  have hbyte : m (list + 14 + BitVec.ofNat 32 i) = l.getD (14 + i) 0 := by
    rw [← h (14 + i) (by omega), BitVec.ofNat_add, ← BitVec.add_assoc]
    rfl
  rw [hbyte]

/-- The loops over a list in memory come to its blocks, and to no others. -/
theorem ListsBlocks.sectors_pos_iff (h : ListsBlocks l limit sectorSize blocks)
    (hl : HasBytes m list l) (hk : k ≤ blocks.length) (hlimit : k < limit) :
    0 < blockSectors m list k ↔ k < blocks.length := by
  have hroom := h.room
  have hblock := congrArg DiskBlock.sectors (hl.block (k := k) (by omega))
  have hsectors : blockSectors m list k = (listBlock l k).sectors := hblock
  rw [hsectors]
  rcases Nat.lt_or_ge k blocks.length with hlt | hge
  · rw [h.block k hlt]
    exact ⟨fun _ => hlt, fun _ => h.notEmpty _ (List.getElem_mem hlt)⟩
  · have heq : k = blocks.length := by omega
    rw [heq, h.last (by omega)]
    exact ⟨fun hpos => absurd hpos (by decide), fun hlt => absurd hlt (by omega)⟩

end bytes

/-! ## Section 5: Reading the File -/

/-- The memory of the boot loader is below 1 MiB. The two buffers, the list of the lists and the
    memory map are apart. -/
structure LowLayout (mst buffer blocklist mmap mmapSize : BitVec 32) : Prop where
  bufferLow : buffer.toNat + 0x1000 ≤ 0x100000
  blocklistLow : blocklist.toNat + 0x1000 ≤ 0x100000
  mstLow : mst.toNat + 128 ≤ 0x100000
  buffers : Apart blocklist 0x1000 buffer 0x1000
  mstBuffer : Apart mst 128 buffer 0x1000
  mstBlocklist : Apart mst 128 blocklist 0x1000
  mapBuffer : Apart mmap (16 * mmapSize.toNat) buffer 0x1000
  mapBlocklist : Apart mmap (16 * mmapSize.toNat) blocklist 0x1000

/-- Where the file goes. -/
def kernelFileAddr (m : Memory) (mmap mmapSize : BitVec 32) (total : Nat) : BitVec 32 :=
  findBlockAddress m 0x100000 true (BitVec.ofNat 32 total) 1 mmap mmapSize

section reading

variable {β : Type*} {B : DiskBios β} {ok : β → Prop} {sectorSize : BitVec 16}
  {sector : BitVec 64 → List (BitVec 8)} {mst buffer blocklist mmap mmapSize list a : BitVec 32}
  {m m' : Memory} {l : List (BitVec 8)} {file : List DiskBlock} {st : FileLoad β} {fuel : Nat}
  {E : FileLoad β → Prop} {drive : BitVec 8} {total : Nat}

/-- The file goes behind 1 MiB, and does not wrap. -/
theorem kernelFileAddr_above (htotal : total < 2 ^ 32)
    (ha : kernelFileAddr m mmap mmapSize total ≠ memory32BitLimit) :
    0x100000 ≤ (kernelFileAddr m mmap mmapSize total).toNat ∧
      (kernelFileAddr m mmap mmapSize total).toNat + total < 2 ^ 32 := by
  have hsize : (BitVec.ofNat 32 total).toNat = total := by
    rw [BitVec.toNat_ofNat, Nat.mod_eq_of_lt htotal]
  have hstart : (0x100000 : BitVec 32).toNat = 0x100000 := rfl
  obtain ⟨hfound, hroom⟩ := findBlockAddress_above_found ha
  rw [hsize] at hroom
  rcases hfound with heq | ⟨hle, -, hend⟩
  · rw [alignAddress_of_le_one (by decide)] at heq
    have hv : kernelFileAddr m mmap mmapSize total = 0x100000 := heq
    rw [hv]
    omega
  · rw [hsize] at hend
    exact ⟨hle, hend⟩

/-- A map that is apart from something does not go around the address space. -/
theorem LowLayout.mapRoom (h : LowLayout mst buffer blocklist mmap mmapSize) :
    16 * mmapSize.toNat ≤ 2 ^ 32 := by
  rcases Nat.lt_or_ge (2 ^ 32) (16 * mmapSize.toNat) with hlt | hge
  · have hin : InBytes mmap (16 * mmapSize.toNat) buffer :=
      Nat.lt_trans (BitVec.isLt _) hlt
    exact absurd (inBytes_self (by decide)) (h.mapBuffer _ hin)
  · exact hge

/-- The size of a block, as the loops compute it. -/
theorem mul_sectorSize {n : BitVec 32} :
    n * sectorSize.setWidth 32 = BitVec.ofNat 32 (n.toNat * sectorSize.toNat) := by
  apply BitVec.eq_of_toNat_eq
  rw [BitVec.toNat_mul, BitVec.toNat_setWidth, BitVec.toNat_ofNat,
    Nat.mod_eq_of_lt (Nat.lt_of_lt_of_le sectorSize.isLt (by decide))]

theorem fileBytes_take_succ {k : Nat} (hk : k < file.length) :
    fileBytes sector (file.take (k + 1)) =
      fileBytes sector (file.take k) ++ sectorBytes sector file[k].lba file[k].sectors.toNat := by
  rw [fileBytes, blockContents, List.take_add_one, List.getElem?_eq_getElem hk, List.map_append,
    List.flatten_append]
  exact congrArg _ (List.append_nil _)

/-- The size of a block, as the loops compute it, is that of its contents. -/
theorem ListsBlocks.size_succ {k limit : Nat} (h : ListsBlocks l limit sectorSize file)
    (hdisk : Serves B ok drive sectorSize sector) (hbytes : HasBytes m list l)
    (hk : k < file.length) :
    BitVec.ofNat 32 (fileBytes sector (file.take k)).length +
        blockSectors m list k * (listSectorSize m list).setWidth 32 =
      BitVec.ofNat 32 (fileBytes sector (file.take (k + 1))).length := by
  have hroom := h.room
  have hle := h.le
  have hblock := hbytes.block (k := k) (by omega)
  rw [h.block k hk] at hblock
  have hsectors : blockSectors m list k = file[k].sectors := congrArg DiskBlock.sectors hblock
  have hsize : listSectorSize m list = sectorSize := by
    rw [hbytes.listSectorSize (by omega), h.sectorSize]
  rw [hsectors, hsize, mul_sectorSize, fileBytes_take_succ hk, List.length_append,
    hdisk.length_sectorBytes, BitVec.ofNat_add]

/-- The first loop adds up the sizes of the blocks. -/
theorem addBlockSizes_meets (hdisk : Serves B ok drive sectorSize sector)
    (hlist : ListsBlocks l blocklistMaxBlocks512 sectorSize file)
    (hbytes : HasBytes st.mem list l) (hle : file.length < blocklistMaxBlocks512) :
    Meets (fun st' => st' =
        { st with info.fileSize := BitVec.ofNat 32 (fileBytes sector file).length }) E
      (addBlockSizes list st) := by
  let I : Nat → FileLoad β → Prop := fun k st' => st' =
    { st with info.fileSize := BitVec.ofNat 32 (fileBytes sector (file.take k)).length }
  have hloop : Meets (I file.length) E (addBlockSizes list st) := by
    apply forLoop_meets (I := I)
    · intro k st' hk hst'
      have hmem : st'.mem = st.mem := by rw [hst']; rfl
      rw [hmem, hlist.sectors_pos_iff hbytes hk (by omega)]
      omega
    · intro k st' hk hst'
      have hmem : st'.mem = st.mem := by rw [hst']; rfl
      have hne : ¬k = blocklistMaxBlocks512 := by omega
      simp only [if_neg hne]
      apply meets_pure.mpr
      show FileLoad.mk _ _ _ = FileLoad.mk _ _ _
      rw [hmem, ← hlist.size_succ hdisk hbytes hk, hst']
    · exact Nat.zero_le _
    · omega
    · rfl
  have hI : I file.length = fun st' => st' =
      { st with info.fileSize := BitVec.ofNat 32 (fileBytes sector file).length } := by
    funext st'
    show (st' = _) = (st' = _)
    rw [List.take_length]
  rw [← hI]
  exact hloop

theorem lastByte_append {old : BitVec 8} {x : Nat} {blocks : List (List (BitVec 8))} :
    lastByte old x (blocks ++ [l]) =
      if x < l.length then l.getD x 0 else lastByte old x blocks := by
  rw [lastByte, List.foldl_append]
  rfl

/-- A block is no longer than the file. -/
theorem Serves.block_le (hdisk : Serves B ok drive sectorSize sector) {b : DiskBlock}
    (hb : b ∈ file) : b.sectors.toNat * sectorSize.toNat ≤ (fileBytes sector file).length := by
  have hmem : sectorBytes sector b.lba b.sectors.toNat ∈ blockContents sector file :=
    List.mem_map_of_mem hb
  rw [← hdisk.length_sectorBytes]
  exact (List.sublist_flatten_of_mem hmem).length_le

/-- What is behind 1 MiB is apart from what is below. -/
theorem apart_of_low {n k : Nat} (ha : 0x100000 ≤ a.toNat) (hn : a.toNat + n < 2 ^ 32)
    (hlow : buffer.toNat + k ≤ 0x100000) : Apart a n buffer k := by
  intro x hin hbuffer
  rw [InBytes] at hin hbuffer
  bv_omega

/-- Blocks have been read to `a`, one over the other. -/
structure HasRead (ok : β → Prop) (buffer a : BitVec 32) (total : Nat) (st : FileLoad β)
    (blocks : List (List (BitVec 8))) (st' : FileLoad β) : Prop where
  bios : ok st'.loader.bios
  info : st'.info = st.info
  fileLoaded : st'.fileLoaded = st.fileLoaded
  mem : ∀ x, ¬InBytes buffer 0x1000 x → st'.mem x =
    if InBytes a total x then lastByte (st.mem x) (x - a).toNat blocks else st.mem x

/-- One more block is read. -/
theorem HasRead.read {st' : FileLoad β} {b : DiskBlock} {blocks : List (List (BitVec 8))}
    (h : HasRead ok buffer a total st blocks st') (hdisk : Serves B ok drive sectorSize sector)
    (hbuffer : buffer.toNat + 0x1000 ≤ 0x100000) (ha : 0x100000 ≤ a.toNat)
    (hroom : a.toNat + total < 2 ^ 32) (hb : b.sectors.toNat * sectorSize.toNat ≤ total) :
    let out := readFromDisk B buffer drive a b.lba b.sectors st'.loader
    out.1 = BitVec.ofNat 32 (b.sectors.toNat * sectorSize.toNat) ∧
      HasRead ok buffer a total st (blocks ++ [sectorBytes sector b.lba b.sectors.toNat])
        { st' with loader := out.2 } := by
  have hsize := BitVec.le_def.mp hdisk.le
  have hmax : diskIOMaxSectorSize.toNat = 0x1000 := rfl
  have hlength := hdisk.length_sectorBytes (a := b.lba) (n := b.sectors.toNat)
  have hapart : Apart a (b.sectors.toNat * sectorSize.toNat) buffer sectorSize.toNat :=
    apart_of_low ha (by omega) (by omega)
  obtain ⟨hread, hok, hreads⟩ := readFromDisk_serves hdisk h.bios (by omega) (by omega) hapart
  refine ⟨hread, hok, h.info, h.fileLoaded, ?_⟩
  intro x hx
  rw [lastByte_append]
  show (readFromDisk B buffer drive a b.lba b.sectors st'.loader).2.mem x = _
  by_cases hin : (x - a).toNat < (sectorBytes sector b.lba b.sectors.toNat).length
  · have htotal : InBytes a total x := Nat.lt_of_lt_of_le hin (by omega)
    obtain ⟨i, hi, rfl⟩ := InBytes.exists_offset hin
    have hoffset : (a + BitVec.ofNat 32 i - a).toNat = i := by
      bv_omega
    rw [hreads.bytes i hi, if_pos htotal, if_pos hin, hoffset]
  · have hout : ¬InBytes buffer sectorSize.toNat x := fun hin => hx (hin.mono (by omega))
    rw [hreads.frame x hin hout, if_neg hin]
    exact h.mem x hx

/-- The second loop reads the blocks of the file to its start, one over the other. -/
theorem readBlocks_meets (hdisk : Serves B ok drive sectorSize sector)
    (hlow : LowLayout mst buffer blocklist mmap mmapSize)
    (hlist : ListsBlocks l blocklistMaxBlocks512 sectorSize file)
    (hbytes : HasBytes st.mem list l)
    (hin : ∀ x, InBytes list l.length x → InBytes blocklist 0x1000 x)
    (hl : l.length ≤ 2 ^ 32) (hle : file.length < blocklistMaxBlocks512)
    (hfuel : blocklistMaxBlocks512 ≤ fuel) (hok : ok st.loader.bios) (hdrive : st.drive = drive)
    (ha : 0x100000 ≤ st.info.fileAddr.toNat)
    (hroom : st.info.fileAddr.toNat + (fileBytes sector file).length < 2 ^ 32) :
    Meets (HasRead ok buffer st.info.fileAddr (fileBytes sector file).length st
        (blockContents sector file)) E (readBlocks B buffer fuel list st) := by
  let I : Nat → FileLoad β → Prop := fun k st' =>
    HasRead ok buffer st.info.fileAddr (fileBytes sector file).length st
      (blockContents sector (file.take k)) st'
  -- the list is in the buffer, which is not changed
  have hkept : ∀ {blocks st'}, HasRead ok buffer st.info.fileAddr (fileBytes sector file).length st
      blocks st' → HasBytes st'.mem list l := by
    intro blocks st' hst'
    apply hbytes.of_eq
    intro i hi
    have hblocklist := hin _ (inBytes_add hi hl)
    rw [hst'.mem _ (hlow.buffers _ hblocklist)]
    apply if_neg
    intro hkernel
    exact apart_of_low ha hroom hlow.blocklistLow _ hkernel hblocklist
  have hloop : Meets (I file.length) E (readBlocks B buffer fuel list st) := by
    apply forLoop_meets (I := I)
    · intro k st' hk hst'
      exact hlist.sectors_pos_iff (hkept hst') hk (by omega)
    · intro k st' hk hst'
      have hroom' := hlist.room
      have hblock := (hkept hst').block (k := k) (by omega)
      rw [hlist.block k hk] at hblock
      have hlba : blockLba st'.mem list k = file[k].lba := congrArg DiskBlock.lba hblock
      have hsectors : blockSectors st'.mem list k = file[k].sectors :=
        congrArg DiskBlock.sectors hblock
      have hdrive' : st'.drive = drive := by rw [FileLoad.drive, hst'.info]; exact hdrive
      have hsame := hdisk.block_le (List.getElem_mem hk)
      obtain ⟨hread, hnext⟩ := hst'.read hdisk hlow.bufferLow ha hroom hsame
      have hblocks : blockContents sector (file.take (k + 1)) =
          blockContents sector (file.take k) ++
            [sectorBytes sector file[k].lba file[k].sectors.toNat] := by
        rw [blockContents, List.take_add_one, List.getElem?_eq_getElem hk, List.map_append]
        rfl
      rw [← hblocks] at hnext
      have hblock' := (hkept hnext).block (k := k) (by omega)
      rw [hlist.block k hk] at hblock'
      have hsectors' := congrArg DiskBlock.sectors hblock'
      have hsize' := (hkept hnext).listSectorSize (by omega)
      have hfile : st'.info.fileAddr = st.info.fileAddr := by rw [hst'.info]
      simp only [hdrive', hfile, hlba, hsectors]
      dsimp only at hsectors'
      rw [hsectors', hsize', hlist.sectorSize, mul_sectorSize, hread, if_neg (not_not.mpr rfl)]
      exact hnext
    · exact Nat.zero_le _
    · omega
    · exact ⟨hok, rfl, rfl, fun x _ => (ite_self _).symm⟩
  have hI : I file.length = HasRead ok buffer st.info.fileAddr (fileBytes sector file).length st
      (blockContents sector file) := by
    show HasRead ok buffer st.info.fileAddr (fileBytes sector file).length st
      (blockContents sector (file.take file.length)) = _
    rw [List.take_length]
  rw [← hI]
  exact hloop

/-- What has become of the memory `m` and of `*kernel_info`, before and behind the list of the
    kernel file. The two buffers are not looked at. -/
structure Scanned (ok : β → Prop) (m : Memory) (info : KernelInfo) (buffer blocklist a : BitVec 32)
    (blocks : List (List (BitVec 8))) (loaded : Bool) (st : FileLoad β) : Prop where
  bios : ok st.loader.bios
  fileLoaded : st.fileLoaded = loaded
  info : st.info = if loaded then
      { info with fileAddr := a, fileSize := BitVec.ofNat 32 blocks.flatten.length }
    else info
  above : loaded → 0x100000 ≤ a.toNat ∧ a.toNat + blocks.flatten.length < 2 ^ 32
  mem : ∀ x, ¬InBytes buffer 0x1000 x → ¬InBytes blocklist 0x1000 x → st.mem x =
    if loaded ∧ InBytes a blocks.flatten.length x then lastByte (m x) (x - a).toNat blocks
    else m x

/-- The list of the kernel file is worked through. -/
theorem loadKernelList_meets {info : KernelInfo} (hdisk : Serves B ok drive sectorSize sector)
    (hlow : LowLayout mst buffer blocklist mmap mmapSize)
    (hlist : ListsBlocks l blocklistMaxBlocks512 sectorSize file)
    (hbytes : HasBytes st.mem list l)
    (hin : ∀ x, InBytes list l.length x → InBytes blocklist 0x1000 x)
    (hl : l.length ≤ 2 ^ 32) (hle : file.length < blocklistMaxBlocks512)
    (hfuel : blocklistMaxBlocks512 ≤ fuel) (hdrive : info.bootDriveId.setWidth 8 = drive)
    (htotal : (fileBytes sector file).length < 2 ^ 32)
    (ha : a = kernelFileAddr m mmap mmapSize (fileBytes sector file).length)
    (hst : Scanned ok m info buffer blocklist a (blockContents sector file) false st) :
    Meets (fun st' => Scanned ok m info buffer blocklist a (blockContents sector file) true st' ∧
        ∀ x, InBytes blocklist 0x1000 x → st'.mem x = st.mem x)
      (fun _ => a = memory32BitLimit)
      (loadKernelList B buffer mmap mmapSize fuel list st) := by
  have hinfo : st.info = info := hst.info
  rw [loadKernelList]
  apply (addBlockSizes_meets hdisk hlist hbytes hle).bind
  intro st₁ hst₁
  have hmem₁ : st₁.mem = st.mem := by rw [hst₁]; rfl
  have hfound : findBlockAddress st₁.mem 0x100000 true st₁.info.fileSize 1 mmap mmapSize = a := by
    have hmap : mapBlocks st.mem mmap mmapSize = mapBlocks m mmap mmapSize := by
      apply mapBlocks_congr ?_ hlow.mapRoom
      intro x hx
      rw [hst.mem x (hlow.mapBuffer x hx) (hlow.mapBlocklist x hx)]
      exact if_neg fun h => Bool.false_ne_true h.1
    rw [ha, kernelFileAddr, hmem₁, findBlockAddress_congr hmap, hst₁]
  dsimp only
  rw [hfound]
  by_cases hlimit : a = memory32BitLimit
  · rw [if_pos hlimit]
    exact hlimit
  rw [if_neg hlimit]
  obtain ⟨habove, hroom⟩ := kernelFileAddr_above (m := m) htotal (ha ▸ hlimit)
  rw [← ha] at habove hroom
  let st₂ : FileLoad β := { st₁ with info := { st₁.info with fileAddr := a } }
  have hmem₂ : st₂.mem = st.mem := hmem₁
  have hinfo₂ : st₂.info = { info with
      fileAddr := a, fileSize := BitVec.ofNat 32 (blockContents sector file).flatten.length } := by
    show { st₁.info with fileAddr := a } = _
    rw [hst₁, hinfo]
    rfl
  have hbios₂ : ok st₂.loader.bios := by
    show ok st₁.loader.bios
    rw [hst₁]
    exact hst.bios
  have hread := readBlocks_meets (E := fun _ => a = memory32BitLimit) hdisk hlow hlist
    (hmem₂ ▸ hbytes) hin hl hle hfuel hbios₂ (by rw [FileLoad.drive, hinfo₂]; exact hdrive) habove
    hroom
  apply hread.bind
  intro st' hread
  apply meets_pure.mpr
  refine ⟨⟨hread.bios, rfl, hread.info.trans hinfo₂, fun _ => ⟨habove, hroom⟩, ?_⟩, ?_⟩
  · intro x hbuffer hblocklist
    have hsame : st₂.mem x = m x := by
      rw [hmem₂, hst.mem x hbuffer hblocklist]
      exact if_neg fun h => Bool.false_ne_true h.1
    have hmem := hread.mem x hbuffer
    rw [hsame] at hmem
    simp only [true_and]
    exact hmem
  · intro x hx
    have hmem := hread.mem x (hlow.buffers x hx)
    rw [if_neg fun hkernel => apart_of_low habove hroom hlow.blocklistLow x hkernel hx, hmem₂]
      at hmem
    exact hmem

end reading

/-! ## Section 6: The Sectors with Lists -/

section scanning

variable {β : Type*} {B : DiskBios β} {ok : β → Prop} {sectorSize : BitVec 16}
  {sector : BitVec 64 → List (BitVec 8)} {mst buffer blocklist mmap mmapSize a : BitVec 32}
  {m : Memory} {info : KernelInfo} {bytes w : List (BitVec 8)} {master file : List DiskBlock}
  {done rest : List (List (BitVec 8))} {blocks : List (List (BitVec 8))} {st : FileLoad β}
  {fuel : Nat} {drive : BitVec 8} {loaded : Bool}

/-- A part of some bytes. -/
theorem HasBytes.part {i n : Nat} (h : HasBytes m a bytes) :
    HasBytes m (a + BitVec.ofNat 32 i) ((bytes.drop i).take n) := by
  intro j hj
  rw [List.length_take, List.length_drop] at hj
  rw [BitVec.add_assoc, ← BitVec.ofNat_add, h (i + j) (by omega)]
  rw [List.getD_eq_getElem?_getD, List.getD_eq_getElem?_getD, List.getElem?_take_of_lt (by omega),
    List.getElem?_drop]

/-- Nothing has happened to the bytes below 1 MiB that are in neither of the buffers. -/
theorem Scanned.hasBytes (h : Scanned ok m info buffer blocklist a blocks loaded st)
    (hlow : LowLayout mst buffer blocklist mmap mmapSize) (hw : w.length ≤ 128)
    (hbytes : HasBytes m mst w) : HasBytes st.mem mst w := by
  apply hbytes.of_eq
  intro i hi
  have hin : InBytes mst 128 (mst + BitVec.ofNat 32 i) := inBytes_add (by omega) (by decide)
  rw [h.mem _ (hlow.mstBuffer _ hin) (hlow.mstBlocklist _ hin)]
  apply if_neg
  rintro ⟨hloaded, hkernel⟩
  obtain ⟨habove, hroom⟩ := h.above hloaded
  exact apart_of_low habove hroom hlow.mstLow _ hkernel hin

/-- The disk and the layout of memory, for a run. -/
structure KernelDisk (B : DiskBios β) (ok : β → Prop) (sectorSize : BitVec 16)
    (sector : BitVec 64 → List (BitVec 8)) (m : Memory) (info : KernelInfo)
    (buffer blocklist mmap mmapSize : BitVec 32) (master file : List DiskBlock) : Prop where
  disk : Serves B ok (info.bootDriveId.setWidth 8) sectorSize sector
  layout : LowLayout info.blocklistPtr buffer blocklist mmap mmapSize
  masterList : ∃ w, w.length = 128 ∧ HasBytes m info.blocklistPtr w ∧
    ListsBlocks w blocklistMaxBlocks128 sectorSize master
  kernelList : HasKernelList sector sectorSize master file

/-- The file has been loaded when its list has been worked through. -/
def hasKernelBytes (done : List (List (BitVec 8))) : Bool := done.any fun l => IsKernelBytes l

theorem hasKernelBytes_append {l : List (BitVec 8)} :
    hasKernelBytes (done ++ [l]) = (hasKernelBytes done || decide (IsKernelBytes l)) := by
  rw [hasKernelBytes, List.any_append, List.any_cons, List.any_nil, Bool.or_false]
  rfl

/-- There is no list of a kernel file before the one. -/
theorem HasKernelList.split {l : List (BitVec 8)}
    (h : HasKernelList sector sectorSize master file)
    (hall : listsOnDisk sector master = done ++ [l] ++ rest) (hl : IsKernelBytes l) :
    hasKernelBytes done = false ∧ ListsBlocks l blocklistMaxBlocks512 sectorSize file := by
  obtain ⟨w, hone, hlist⟩ := h.one
  have hself : [l].filter (fun l => IsKernelBytes l) = [l] :=
    List.filter_eq_self.mpr fun l' hl' => decide_eq_true (List.mem_singleton.mp hl' ▸ hl)
  rw [hall, List.filter_append, List.filter_append, hself] at hone
  have hnone : done.filter (fun l => IsKernelBytes l) = [] := by
    have hlength := congrArg List.length hone
    rw [List.length_append, List.length_append, List.length_singleton, List.length_singleton]
      at hlength
    exact List.length_eq_zero_iff.mp (by omega)
  rw [hnone] at hone
  obtain ⟨rfl, -⟩ := List.cons.inj hone
  refine ⟨?_, hlist⟩
  rw [hasKernelBytes, List.any_eq_false]
  exact List.filter_eq_nil_iff.mp hnone

/-- The lists in a sector are worked through. -/
theorem scanLists_meets
    (h : KernelDisk B ok sectorSize sector m info buffer blocklist mmap mmapSize master file)
    (hfuel : blocklistMaxBlocks512 ≤ fuel) (htotal : (fileBytes sector file).length < 2 ^ 32)
    (ha : a = kernelFileAddr m mmap mmapSize (fileBytes sector file).length)
    (hall : listsOnDisk sector master = done ++ sectorLists bytes ++ rest)
    (hlength : bytes.length = sectorSize.toNat) (hbytes : HasBytes st.mem blocklist bytes)
    (hst : Scanned ok m info buffer blocklist a (blockContents sector file)
      (hasKernelBytes done) st) :
    Meets (Scanned ok m info buffer blocklist a (blockContents sector file)
        (hasKernelBytes (done ++ sectorLists bytes))) (fun _ => a = memory32BitLimit)
      (scanLists B buffer blocklist mmap mmapSize fuel info.blocklistPtr st) := by
  obtain ⟨w, hw, hmst, hmaster⟩ := h.masterList
  have hsize := BitVec.le_def.mp h.disk.le
  have hmax : diskIOMaxSectorSize.toNat = 0x1000 := rfl
  have hlists : (sectorLists bytes).length = sectorSize.toNat / 0x200 := by
    rw [sectorLists, List.length_map, List.length_range, hlength]
  let J : List (List (BitVec 8)) → FileLoad β → Prop := fun done st =>
    Scanned ok m info buffer blocklist a (blockContents sector file) (hasKernelBytes done) st ∧
      HasBytes st.mem blocklist bytes
  have hloop : Meets (J (done ++ (sectorLists bytes).flatMap fun l => [l]))
      (fun _ => a = memory32BitLimit)
      (scanLists B buffer blocklist mmap mmapSize fuel info.blocklistPtr st) := by
    have hall' : listsOnDisk sector master =
        done ++ ((sectorLists bytes).flatMap fun l => [l]) ++ rest := by
      rw [List.flatMap_singleton']
      exact hall
    apply forLoop_flatMap (J := J) hall'
    · intro k st' done' hk hJ
      have hmst' := hJ.1.hasBytes h.layout (by omega) hmst
      rw [hmst'.listSectorSize (by omega), hmaster.sectorSize, hlists]
    · intro k hk done' rest' st' hsplit hJ
      let list := blocklist + BitVec.ofNat 32 (0x200 * k)
      have hget : (sectorLists bytes)[k] = (bytes.drop (0x200 * k)).take 0x200 := by
        simp only [sectorLists, List.getElem_map, List.getElem_range]
      have hpart : HasBytes st'.mem list (sectorLists bytes)[k] := by
        rw [hget]
        exact hJ.2.part
      have hl : (sectorLists bytes)[k].length = 0x200 := by
        rw [hget, List.length_take, List.length_drop]
        omega
      have hiff := hpart.isKernelList_iff (by omega)
      show Meets (J (done' ++ [(sectorLists bytes)[k]])) _
        (if IsKernelList st'.mem list then _ else _)
      by_cases hkernel : IsKernelBytes (sectorLists bytes)[k]
      · obtain ⟨hnone, hlist⟩ := h.kernelList.split hsplit hkernel
        have hbefore := hJ.1
        rw [hnone] at hbefore
        have hdone : hasKernelBytes (done' ++ [(sectorLists bytes)[k]]) = true := by
          rw [hasKernelBytes_append, decide_eq_true hkernel, Bool.or_true]
        have hin : ∀ x, InBytes list (sectorLists bytes)[k].length x →
            InBytes blocklist 0x1000 x := by
          intro x hx
          rw [hl] at hx
          exact hx.of_add (by omega) (by decide)
        rw [if_pos (hiff.mpr hkernel)]
        apply (loadKernelList_meets h.disk h.layout hlist hpart hin (by omega) h.kernelList.le hfuel
          rfl htotal ha hbefore).mono
        · rintro st'' ⟨hloaded, hsame⟩
          refine ⟨by rw [hdone]; exact hloaded, hJ.2.of_eq ?_⟩
          intro i hi
          exact hsame _ (inBytes_add (by omega) (by decide))
        · exact fun _ hE => hE
      · have hdone : hasKernelBytes (done' ++ [(sectorLists bytes)[k]]) = hasKernelBytes done' := by
          rw [hasKernelBytes_append, decide_eq_false hkernel, Bool.or_false]
        rw [if_neg fun hlist => hkernel (hiff.mp hlist)]
        apply meets_pure.mpr
        refine ⟨?_, hJ.2⟩
        rw [hdone]
        exact hJ.1
    · rw [hlists]
      omega
    · exact ⟨hst, hbytes⟩
  rw [List.flatMap_singleton'] at hloop
  exact hloop.mono (fun _ hJ => hJ.1) fun _ hE => hE

/-- A sector of lists is read to its buffer, and the size of what has been read is accepted. -/
theorem LowLayout.readSector {s : Loader β} (hlow : LowLayout mst buffer blocklist mmap mmapSize)
    (hdisk : Serves B ok drive sectorSize sector) (addr : BitVec 64) (hok : ok s.bios) :
    let out := readFromDisk B buffer drive blocklist addr 1 s
    ¬(out.1 = 0 ∨ out.1 ≠ sectorSize.setWidth 32 ∨ 0x1000 < out.1) ∧ ok out.2.bios ∧
      HasBytes out.2.mem blocklist (sector addr) ∧
        ∀ x, ¬InBytes buffer 0x1000 x → ¬InBytes blocklist 0x1000 x → out.2.mem x = s.mem x := by
  have hsize := BitVec.le_def.mp hdisk.le
  have hmax : diskIOMaxSectorSize.toNat = 0x1000 := rfl
  have hbuffer := hlow.bufferLow
  have hpos := hdisk.pos
  have hlength := hdisk.length addr
  have hone : (1 : BitVec 32).toNat * sectorSize.toNat = sectorSize.toNat := Nat.one_mul _
  have hapart : Apart blocklist ((1 : BitVec 32).toNat * sectorSize.toNat) buffer
      sectorSize.toNat := by
    intro x hin hbuffer
    rw [hone] at hin
    exact hlow.buffers x (hin.mono (by omega)) (hbuffer.mono (by omega))
  obtain ⟨hread, hok', hreads⟩ := readFromDisk_serves hdisk hok (by omega)
    (by omega) hapart
  have hsector : sectorBytes sector addr (1 : BitVec 32).toNat = sector addr := List.append_nil _
  rw [hsector] at hreads
  rw [hone] at hread
  refine ⟨?_, hok', hreads.bytes, ?_⟩
  · rw [hread]
    bv_omega
  · intro x hx hx'
    apply hreads.frame x
    · exact fun hin => hx' (hin.mono (by omega))
    · exact fun hin => hx (hin.mono (by omega))

/-- A sector of lists is read to its buffer and worked through. -/
theorem readListSector_meets {i j : Nat} {addr : BitVec 64}
    (h : KernelDisk B ok sectorSize sector m info buffer blocklist mmap mmapSize master file)
    (hfuel : blocklistMaxBlocks512 ≤ fuel) (htotal : (fileBytes sector file).length < 2 ^ 32)
    (ha : a = kernelFileAddr m mmap mmapSize (fileBytes sector file).length)
    (hall : listsOnDisk sector master = done ++ sectorLists (sector addr) ++ rest)
    (hi : i < master.length) (haddr : addr = master[i].lba + BitVec.ofNat 64 j)
    (hst : Scanned ok m info buffer blocklist a (blockContents sector file)
      (hasKernelBytes done) st) :
    Meets (Scanned ok m info buffer blocklist a (blockContents sector file)
        (hasKernelBytes (done ++ sectorLists (sector addr)))) (fun _ => a = memory32BitLimit)
      (readListSector B buffer blocklist mmap mmapSize fuel info.blocklistPtr i j st) := by
  obtain ⟨w, hw, hmst, hmaster⟩ := h.masterList
  have hle := hmaster.le
  have hlimit : blocklistMaxBlocks128 = 9 := rfl
  have hlba : blockLba st.mem info.blocklistPtr i = master[i].lba := by
    have hblock := (hst.hasBytes h.layout (by omega) hmst).block (k := i) (by omega)
    rw [hmaster.block i hi] at hblock
    exact congrArg DiskBlock.lba hblock
  have hdrive : st.drive = info.bootDriveId.setWidth 8 := by
    rw [FileLoad.drive, hst.info]
    split <;> rfl
  rw [readListSector, hdrive, hlba, ← haddr]
  obtain ⟨haccepted, hok, hbytes, hframe⟩ := h.layout.readSector h.disk addr hst.bios
  generalize readFromDisk B buffer (info.bootDriveId.setWidth 8) blocklist addr 1 st.loader = out
    at *
  let st' : FileLoad β := { st with loader := out.2 }
  have hst' : Scanned ok m info buffer blocklist a (blockContents sector file)
      (hasKernelBytes done) st' := by
    refine ⟨hok, hst.fileLoaded, hst.info, hst.above, ?_⟩
    intro x hbuffer hblocklist
    rw [← hst.mem x hbuffer hblocklist]
    exact hframe x hbuffer hblocklist
  have hsectorSize : listSectorSize st'.mem info.blocklistPtr = sectorSize := by
    rw [(hst'.hasBytes h.layout (by omega) hmst).listSectorSize (by omega), hmaster.sectorSize]
  show Meets _ _ (if out.1 = 0 ∨ out.1 ≠ (listSectorSize st'.mem info.blocklistPtr).setWidth 32 ∨
    0x1000 < out.1 then _ else _)
  rw [hsectorSize, if_neg haccepted]
  exact scanLists_meets h hfuel htotal ha hall (h.disk.length addr) hbytes hst'

/-- All lists are worked through. The file has been loaded, unless there is no memory for it. -/
theorem readBlockLists_meets {s : Loader β}
    (h : KernelDisk B ok sectorSize sector m info buffer blocklist mmap mmapSize master file)
    (hfuel : blocklistMaxBlocks512 ≤ fuel) (htotal : (fileBytes sector file).length < 2 ^ 32)
    (ha : a = kernelFileAddr m mmap mmapSize (fileBytes sector file).length)
    (hok : ok s.bios) (hm : s.mem = m) :
    Meets (Scanned ok m info buffer blocklist a (blockContents sector file) true)
      (fun _ => a = memory32BitLimit)
      (readBlockLists B buffer blocklist mmap mmapSize fuel info.blocklistPtr
        ⟨info, false, s⟩) := by
  obtain ⟨w, hw, hmst, hmaster⟩ := h.masterList
  have hlimit : blocklistMaxBlocks128 = 9 := rfl
  let J : List (List (BitVec 8)) → FileLoad β → Prop := fun done st =>
    Scanned ok m info buffer blocklist a (blockContents sector file) (hasKernelBytes done) st
  -- the list of the lists, as the loops see it
  have hcount : ∀ {done st} (i : Nat), J done st → i < blocklistMaxBlocks128 →
      i ≤ master.length →
        (0 < blockSectors st.mem info.blocklistPtr i ↔ i < master.length) := by
    intro done st i hst hi hle
    exact hmaster.sectors_pos_iff (hst.hasBytes h.layout (by omega) hmst) hle hi
  have hsectors : ∀ {done st} (i : Nat) (hi : i < master.length), J done st →
      blockSectors st.mem info.blocklistPtr i = master[i].sectors := by
    intro done st i hi hst
    have hle := hmaster.le
    have hblock := (hst.hasBytes h.layout (by omega) hmst).block (k := i) (by omega)
    rw [hmaster.block i hi] at hblock
    exact congrArg DiskBlock.sectors hblock
  have hloop : Meets (J ([] ++ master.flatMap fun b => b.addrs.flatMap fun a =>
      sectorLists (sector a))) (fun _ => a = memory32BitLimit)
      (readBlockLists B buffer blocklist mmap mmapSize fuel info.blocklistPtr
        ⟨info, false, s⟩) := by
    have hall : listsOnDisk sector master = [] ++ (master.flatMap fun b =>
        b.addrs.flatMap fun a => sectorLists (sector a)) ++ [] := by
      rw [List.nil_append, List.append_nil]
      rfl
    apply forLoop_flatMap (J := J) hall
    · intro i st done hi hst
      have hle := hmaster.le
      constructor
      · rintro ⟨hlt, hpos⟩
        exact (hcount i hst hlt hi).mp hpos
      · intro hlt
        exact ⟨by omega, (hcount i hst (by omega) hi).mpr hlt⟩
    · intro i hi done rest st hall hst
      have hlength : master[i].addrs.length = master[i].sectors.toNat := by
        rw [DiskBlock.addrs, List.length_map, List.length_range]
      apply forLoop_flatMap (J := J) hall
      · intro j st' done' _ hst'
        rw [hsectors i hi hst', hlength]
      · intro j hj done' rest' st' hall' hst'
        apply readListSector_meets h hfuel htotal ha hall' hi ?_ hst'
        simp only [DiskBlock.addrs, List.getElem_map, List.getElem_range]
      · rw [hlength]
        exact master[i].sectors.isLt
      · exact hst
    · have hle := hmaster.le
      omega
    · exact ⟨hok, rfl, rfl, fun h => absurd h Bool.false_ne_true, fun x _ _ => by
        rw [if_neg fun h => Bool.false_ne_true h.1, ← hm]
        rfl⟩
  have hloaded : hasKernelBytes (listsOnDisk sector master) = true := by
    obtain ⟨l, hone, -⟩ := h.kernelList.one
    have hmem : l ∈ (listsOnDisk sector master).filter fun l => IsKernelBytes l := by
      rw [hone]
      exact List.mem_singleton_self l
    rw [hasKernelBytes, List.any_eq_true]
    exact ⟨l, (List.mem_filter.mp hmem).1, (List.mem_filter.mp hmem).2⟩
  rw [List.nil_append] at hloop
  rw [← hloaded]
  exact hloop

end scanning

/-! ## Section 7: The File in Memory -/

/-- The contents of the file are in memory, and `*kernel_info` says where and how many. -/
structure FileInPlace (bytes : List (BitVec 8)) (m : Memory) (info : KernelInfo) : Prop where
  fileSize : info.fileSize.toNat = bytes.length
  bytes : HasBytes m info.fileAddr bytes

/-- The file is in place behind the loops, and when the function returns. The loop that reads the
    blocks tests no block behind the array: so many tests are enough for it. -/
structure LoadsFile {β : Type*} (B : DiskBios β) (buffer blocklist mmap mmapSize : BitVec 32)
    (fuel : Nat) (mbi : BitVec 32) (info : KernelInfo) (bytes : List (BitVec 8)) (s : Loader β)
    (st : FileLoad β) : Prop where
  inPlace : FileInPlace bytes st.mem st.info
  returns : ∀ info' s', loadKernelFile B buffer blocklist fuel mbi info s = some (true, info', s') →
    FileInPlace bytes s'.mem info'
  ends : (readBlockLists B buffer blocklist mmap mmapSize blocklistMaxBlocks512 info.blocklistPtr
    ⟨info, false, s⟩).run ≠ none

/-- Every byte of the file is that of the last block that is long enough to have one at its
    place; where no block is, it was there before. -/
structure BlocksCoincide (m : Memory) (mmap mmapSize : BitVec 32)
    (sector : BitVec 64 → List (BitVec 8)) (file : List DiskBlock) : Prop where
  fits : (fileBytes sector file).length < 2 ^ 32
  same : ∀ x < (fileBytes sector file).length,
    lastByte (m (kernelFileAddr m mmap mmapSize (fileBytes sector file).length +
      BitVec.ofNat 32 x)) x (blockContents sector file) = (fileBytes sector file).getD x 0

section inPlace

variable {β : Type*} {B : DiskBios β} {ok : β → Prop} {sectorSize : BitVec 16}
  {sector : BitVec 64 → List (BitVec 8)}
  {mst buffer blocklist mmap mmapSize mbi header a : BitVec 32} {m : Memory}
  {info info' : KernelInfo} {master file : List DiskBlock} {s s' : Loader β} {st : FileLoad β}
  {fuel : Nat}

/-- A file of one block is loaded as it is. -/
theorem blocksCoincide_singleton {b : DiskBlock} (h : (fileBytes sector [b]).length < 2 ^ 32) :
    BlocksCoincide m mmap mmapSize sector [b] := by
  have hbytes : fileBytes sector [b] = sectorBytes sector b.lba b.sectors.toNat :=
    List.append_nil _
  refine ⟨h, ?_⟩
  intro x hx
  rw [hbytes] at hx ⊢
  exact if_pos hx

/-- A byte of the memory for the file is that of the last block that is long enough. -/
theorem Scanned.byte {x : Nat}
    (h : Scanned ok m info buffer blocklist a (blockContents sector file) true st)
    (hlow : LowLayout mst buffer blocklist mmap mmapSize)
    (hx : x < (fileBytes sector file).length) : st.mem (a + BitVec.ofNat 32 x) =
      lastByte (m (a + BitVec.ofNat 32 x)) x (blockContents sector file) := by
  obtain ⟨habove, hroom⟩ := h.above rfl
  have hin : InBytes a (blockContents sector file).flatten.length (a + BitVec.ofNat 32 x) :=
    inBytes_add hx (by omega)
  have htotal : (fileBytes sector file).length < 2 ^ 32 := by
    rw [fileBytes]
    omega
  have hoffset : (a + BitVec.ofNat 32 x - a).toNat = x := by
    bv_omega
  rw [h.mem _ (apart_of_low habove hroom hlow.bufferLow _ hin)
    (apart_of_low habove hroom hlow.blocklistLow _ hin), if_pos ⟨rfl, hin⟩, hoffset]

theorem Scanned.fileInPlace_iff
    (h : Scanned ok m info buffer blocklist a (blockContents sector file) true st)
    (hlow : LowLayout mst buffer blocklist mmap mmapSize) :
    FileInPlace (fileBytes sector file) st.mem st.info ↔
      ∀ x < (fileBytes sector file).length,
        lastByte (m (a + BitVec.ofNat 32 x)) x (blockContents sector file) =
          (fileBytes sector file).getD x 0 := by
  obtain ⟨-, hroom⟩ := h.above rfl
  have hinfo := h.info
  rw [if_pos rfl] at hinfo
  rw [hinfo]
  constructor
  · intro hplace x hx
    rw [← h.byte hlow hx]
    exact hplace.bytes x hx
  · intro hsame
    refine ⟨?_, ?_⟩
    · show (BitVec.ofNat 32 (blockContents sector file).flatten.length).toNat = _
      rw [BitVec.toNat_ofNat, Nat.mod_eq_of_lt (by omega)]
      rfl
    · intro x hx
      rw [← hsame x hx]
      exact h.byte hlow hx

theorem saveElfSectionHeaders_false
    (h : saveElfSectionHeaders fuel mbi info s = some (false, s')) : s' = s := by
  rw [saveElfSectionHeaders, saveTag] at h
  split at h
  · exact nomatch h
  · split at h
    · exact (congrArg Prod.snd (Option.some.inj h)).symm
    · have hresult : true = false := congrArg Prod.fst (Option.some.inj h)
      exact nomatch hresult

/-- The loop over the tags comes to its end only if no section headers have been saved. -/
theorem saveSections_ok {p : BitVec 32 × Loader β}
    (h : (saveSections fuel mbi info header s).run = some (.ok p)) : p.2 = s := by
  have hrequested : ∀ {tag : BitVec 32} {s₁ s₂ : Loader β},
      (saveRequested fuel mbi info tag s₁).run = some (.ok s₂) → s₂ = s₁ := by
    intro tag s₁ s₂ hrun
    apply forLoop_ok (I := fun s₂ => s₂ = s₁) ?_ rfl hrun
    intro i s₂ s₃ heq hbody
    rw [← heq]
    split at hbody
    · split at hbody
      · exact nomatch hbody
      · exact nomatch hbody
      · next hsave =>
        rw [← Except.ok.inj (Option.some.inj hbody)]
        exact saveElfSectionHeaders_false hsave
    · exact (Except.ok.inj (Option.some.inj hbody)).symm
  apply forLoop_ok (I := fun p => p.2 = s) ?_ rfl h
  intro k p q heq hbody
  rw [← heq]
  split at hbody
  · obtain ⟨s₁, hfirst, hnext⟩ := run_bind_ok hbody
    rw [← Except.ok.inj (Option.some.inj hnext)]
    exact hrequested hfirst
  · rw [← Except.ok.inj (Option.some.inj hbody)]

/-- When the function returns true, memory is as the loops over the lists have left it. -/
theorem loadKernelFile_true (hmap : ramInfo fuel s.mem mbi = some (some (mmap, mmapSize)))
    (hrun : (readBlockLists B buffer blocklist mmap mmapSize fuel info.blocklistPtr
      ⟨info, false, s⟩).run = some (.ok st))
    (h : loadKernelFile B buffer blocklist fuel mbi info s = some (true, info', s')) :
    info' = st.info ∧ s' = st.loader := by
  simp only [loadKernelFile, hmap, hrun] at h
  split at h
  · exact nomatch h
  split at h
  · exact nomatch h
  split at h
  · exact nomatch h
  split at h
  · exact nomatch h
  · exact nomatch h
  · next hsave =>
    obtain ⟨hinfo, hloader⟩ := Prod.mk.inj (Prod.mk.inj (Option.some.inj h)).2
    exact ⟨hinfo.symm, hloader ▸ saveSections_ok hsave⟩

/-- Behind the file the loop over the tags of its header decides. -/
theorem loadKernelFile_eq (hmap : ramInfo fuel s.mem mbi = some (some (mmap, mmapSize)))
    (hrun : (readBlockLists B buffer blocklist mmap mmapSize fuel info.blocklistPtr
      ⟨info, false, s⟩).run = some (.ok st)) (hloaded : st.fileLoaded = true)
    (hheader : getHeader st.mem st.info.fileAddr st.info.fileSize = header) (hne : header ≠ 0)
    (harchitecture : load32 st.mem (header + 4) = 0) :
    loadKernelFile B buffer blocklist fuel mbi info s =
      match (saveSections fuel mbi st.info header st.loader).run with
      | none => none
      | some (.error s) => some (false, st.info, s)
      | some (.ok p) => some (true, st.info, p.2) := by
  rw [loadKernelFile, hmap]
  dsimp only
  rw [hrun]
  dsimp only
  rw [if_neg (not_not.mpr hloaded), hheader, if_neg hne, if_neg (not_not.mpr harchitecture)]

/-- The function returns true when the header is found and the loop over its tags comes to its
    end. -/
theorem loadKernelFile_of_saveSections {p : BitVec 32 × Loader β}
    (hmap : ramInfo fuel s.mem mbi = some (some (mmap, mmapSize)))
    (hrun : (readBlockLists B buffer blocklist mmap mmapSize fuel info.blocklistPtr
      ⟨info, false, s⟩).run = some (.ok st)) (hloaded : st.fileLoaded = true)
    (hheader : getHeader st.mem st.info.fileAddr st.info.fileSize = header) (hne : header ≠ 0)
    (harchitecture : load32 st.mem (header + 4) = 0)
    (htags : (saveSections fuel mbi st.info header st.loader).run = some (.ok p)) :
    loadKernelFile B buffer blocklist fuel mbi info s = some (true, st.info, p.2) := by
  rw [loadKernelFile_eq hmap hrun hloaded hheader hne harchitecture, htags]

/-- The file is loaded if and only if the blocks coincide where they lie over one another. -/
theorem loadsFile_iff
    (h : KernelDisk B ok sectorSize sector s.mem info buffer blocklist mmap mmapSize master file)
    (hmap : ramInfo fuel s.mem mbi = some (some (mmap, mmapSize))) (hok : ok s.bios)
    (hfuel : blocklistMaxBlocks512 ≤ fuel)
    (hrun : (readBlockLists B buffer blocklist mmap mmapSize fuel info.blocklistPtr
      ⟨info, false, s⟩).run = some (.ok st)) :
    LoadsFile B buffer blocklist mmap mmapSize fuel mbi info (fileBytes sector file) s st ↔
      BlocksCoincide s.mem mmap mmapSize sector file := by
  constructor
  · intro hloads
    have htotal : (fileBytes sector file).length < 2 ^ 32 := by
      rw [← hloads.inPlace.fileSize]
      exact BitVec.isLt _
    have hscanned := (readBlockLists_meets h hfuel htotal rfl hok rfl).ok hrun
    exact ⟨htotal, (hscanned.fileInPlace_iff h.layout).mp hloads.inPlace⟩
  · intro hcoincide
    have hscanned := (readBlockLists_meets h hfuel hcoincide.fits rfl hok rfl).ok hrun
    have hplace := (hscanned.fileInPlace_iff h.layout).mpr hcoincide.same
    refine ⟨hplace, ?_, ?_⟩
    · intro info' s' htrue
      obtain ⟨rfl, rfl⟩ := loadKernelFile_true hmap hrun htrue
      exact hplace
    · exact (readBlockLists_meets h (Nat.le_refl _) hcoincide.fits rfl hok rfl).run_ne_none

end inPlace

/-! ### Files of one block and of two blocks -/

/-- A list of blocks on a disk with sectors of 512 bytes. -/
def listBytes (jump : BitVec 32) (reserved : List (BitVec 8)) (limit : Nat)
    (blocks : List DiskBlock) : List (BitVec 8) :=
  wordBytes jump ++ List.replicate 8 0 ++ [0, 2] ++ reserved ++
    blocks.flatMap (fun b => wordBytes (b.lba.setWidth 32) ++
      wordBytes (b.lba.extractLsb' 32 32) ++ wordBytes b.sectors) ++
    List.replicate (12 * (limit - blocks.length)) 0

/-- The first sector has the list of the kernel file, the second one is full of ones, and the
    others have a header without tags. -/
def diskSector (file : List DiskBlock) (a : BitVec 64) : List (BitVec 8) :=
  if a = 0 then listBytes 0x9001FDE9 kernelMarker blocklistMaxBlocks512 file
  else if a = 1 then List.replicate 512 1
  else headerBytes [] ++ List.replicate 488 0

/-- The registers behind every call. -/
def diskAnswer : Registers := { clearRegistry with ebx := 0xAA55, ecx := 1 }

def diskBios (file : List DiskBlock) : DiskBios Unit where
  checkExtensions _ _ := (diskAnswer, ())
  getGeometry _ _ _ := (⟨0x1A, 0x200⟩, diskAnswer, ())
  read _ _ dap := (diskSector file dap.startSector, diskAnswer, ())

/-- The list of the lists, with the first sector in it. -/
def diskLists : List (BitVec 8) :=
  listBytes 0 (List.replicate 6 0) blocklistMaxBlocks128 [⟨0, 1⟩]

/-- The tag with the block of RAM. -/
def ramTag : MbiTag where
  type := 98
  size := 32
  type_ne := by decide
  size_ge := by decide
  size_mod := by decide

def diskMemory : Memory := bytesAt 0x9000 diskLists (bytesAt 0x8000 ramRecord fun _ => 0)

def diskInfo : KernelInfo := { bssInfo with blocklistPtr := 0x9000 }

/-- The sector with the header. -/
def headerBlock : List DiskBlock := [⟨2, 1⟩]

/-- The sector with the header, behind the sector with ones. -/
def onesAndHeader : List DiskBlock := [⟨1, 1⟩, ⟨2, 1⟩]

def diskFiles : List (List DiskBlock) := [headerBlock, onesAndHeader]

/-- The sectors of such a disk, with any contents behind the second one. -/
def contentsSector (contents : List (BitVec 8)) (file : List DiskBlock) (a : BitVec 64) :
    List (BitVec 8) :=
  if a = 0 then listBytes 0x9001FDE9 kernelMarker blocklistMaxBlocks512 file
  else if a = 1 then List.replicate 512 1
  else contents

/-- A BIOS that reads these sectors. -/
def sectorsBios (sector : BitVec 64 → List (BitVec 8)) : DiskBios Unit where
  checkExtensions _ _ := (diskAnswer, ())
  getGeometry _ _ _ := (⟨0x1A, 0x200⟩, diskAnswer, ())
  read _ _ dap := (sector dap.startSector, diskAnswer, ())

def contentsBios (contents : List (BitVec 8)) (file : List DiskBlock) : DiskBios Unit where
  checkExtensions _ _ := (diskAnswer, ())
  getGeometry _ _ _ := (⟨0x1A, 0x200⟩, diskAnswer, ())
  read _ _ dap := (contentsSector contents file dap.startSector, diskAnswer, ())

section disk

variable {file : List DiskBlock} {contents : List (BitVec 8)}

theorem length_listBytes {jump : BitVec 32} {reserved : List (BitVec 8)} {limit : Nat}
    {blocks : List DiskBlock} (h : blocks.length ≤ limit) :
    (listBytes jump reserved limit blocks).length = 14 + reserved.length + 12 * limit := by
  have hblocks : (blocks.flatMap fun b => wordBytes (b.lba.setWidth 32) ++
      wordBytes (b.lba.extractLsb' 32 32) ++ wordBytes b.sectors).length = 12 * blocks.length := by
    clear h
    induction blocks with
    | nil => rfl
    | cons b blocks ih =>
      rw [List.flatMap_cons, List.length_append, ih]
      show 12 + 12 * blocks.length = 12 * (blocks.length + 1)
      omega
  rw [listBytes]
  simp only [List.length_append, hblocks, List.length_replicate]
  show 4 + 8 + 2 + reserved.length + 12 * blocks.length + 12 * (limit - blocks.length) = _
  omega

theorem length_contentsSector (hcontents : contents.length = 512) (hfile : file ∈ diskFiles)
    (a : BitVec 64) : (contentsSector contents file a).length = 512 := by
  have hle : ∀ file ∈ diskFiles, file.length ≤ blocklistMaxBlocks512 := by decide
  rw [contentsSector]
  split
  · rw [length_listBytes (hle file hfile)]
    rfl
  split
  · exact List.length_replicate
  · exact hcontents

theorem serves_sectorsBios {sector : BitVec 64 → List (BitVec 8)}
    (hlength : ∀ a, (sector a).length = 512) :
    Serves (sectorsBios sector) (fun _ => True) 0x80 0x200 sector := by
  have hanswer : ¬diskAnswer.Carry ∧ diskAnswer.bx = 0xAA55 ∧ diskAnswer.cx &&& 1 = 1 := by decide
  have hsize : (0x1A : BitVec 16) ≤ diskIOMaxSectorSize := by decide
  refine ⟨by decide, by decide, hlength, ?_, ?_, ?_⟩
  · exact fun _ _ _ _ _ => ⟨hanswer, trivial⟩
  · exact fun _ _ _ _ _ => ⟨⟨hanswer.1, hsize, rfl⟩, trivial⟩
  · exact fun _ _ _ _ _ _ => ⟨⟨hanswer.1, rfl⟩, trivial⟩

theorem serves_contentsBios (hcontents : contents.length = 512) (hfile : file ∈ diskFiles) :
    Serves (contentsBios contents file) (fun _ => True) 0x80 0x200
      (contentsSector contents file) :=
  serves_sectorsBios (length_contentsSector hcontents hfile)

/-- The first sector has one list in it. -/
theorem listsOnDisk_first {sector : BitVec 64 → List (BitVec 8)} (h : (sector 0).length = 512) :
    listsOnDisk sector [⟨0, 1⟩] = [sector 0] := by
  have hlists : sectorLists (sector 0) = [(sector 0).take 512] := by
    rw [sectorLists, h]
    rfl
  have haddrs : DiskBlock.addrs ⟨0, 1⟩ = [0] := by decide
  rw [listsOnDisk, List.flatMap_cons, List.flatMap_nil, List.append_nil, haddrs, List.flatMap_cons,
    List.flatMap_nil, List.append_nil, hlists, List.take_of_length_le (Nat.le_of_eq h)]

theorem length_fileBytes_contents (hcontents : contents.length = 512) (hfile : file ∈ diskFiles) :
    (fileBytes (contentsSector contents file) file).length = file.length * 512 := by
  have hone : ∀ file ∈ diskFiles, ∀ b ∈ file, b.sectors.toNat = 1 := by decide
  suffices h : ∀ blocks : List DiskBlock, (∀ b ∈ blocks, b.sectors.toNat = 1) →
      (fileBytes (contentsSector contents file) blocks).length = blocks.length * 512 from
    h file (hone file hfile)
  intro blocks hblocks
  induction blocks with
  | nil => rfl
  | cons b blocks ih =>
    have hsize : (0x200 : BitVec 16).toNat = 512 := rfl
    have hrest := ih fun b hb => hblocks b (List.mem_cons_of_mem _ hb)
    rw [fileBytes, blockContents] at hrest
    rw [fileBytes, blockContents, List.map_cons, List.flatten_cons, List.length_append, hrest,
      (serves_contentsBios hcontents hfile).length_sectorBytes, hblocks b List.mem_cons_self, hsize,
      List.length_cons]
    omega

/-- The header without tags, in a sector. -/
theorem length_headerSector : (headerBytes [] ++ List.replicate 488 0).length = 512 := by
  rw [List.length_append, List.length_replicate]
  rfl

theorem length_diskSector (hfile : file ∈ diskFiles) (a : BitVec 64) :
    (diskSector file a).length = 512 :=
  length_contentsSector length_headerSector hfile a

theorem length_fileBytes_disk (hfile : file ∈ diskFiles) :
    (fileBytes (diskSector file) file).length = file.length * 512 :=
  length_fileBytes_contents length_headerSector hfile

theorem lowLayout_disk : LowLayout 0x9000 0x10000 0x20000 0x8018 1 := by
  have hapart : ∀ {a b : BitVec 32} {n k : Nat}, a.toNat + n ≤ b.toNat →
      b.toNat + k < 2 ^ 32 → Apart a n b k := by
    intro a b n k hle hlt x ha hb
    rw [InBytes] at ha hb
    bv_omega
  refine ⟨by decide, by decide, by decide, (hapart ?_ ?_).symm, hapart ?_ ?_, hapart ?_ ?_,
    hapart ?_ ?_, hapart ?_ ?_⟩
  all_goals decide

theorem kernelDisk_contents (hcontents : contents.length = 512) (hfile : file ∈ diskFiles) :
    KernelDisk (contentsBios contents file) (fun _ => True) 0x200 (contentsSector contents file)
      diskMemory diskInfo 0x10000 0x20000 0x8018 1 [⟨0, 1⟩] file := by
  have hlist : ∀ file ∈ diskFiles,
      let l := listBytes 0x9001FDE9 kernelMarker blocklistMaxBlocks512 file
      IsKernelBytes l ∧ word16 l 12 = 0x200 ∧
        (∀ k (hk : k < file.length), listBlock l k = file[k]) ∧
          (∀ b ∈ file, 0 < b.sectors) ∧ file.length < blocklistMaxBlocks512 ∧ file ≠ [] ∧
            (listBlock l file.length).sectors = 0 := by
    decide +kernel
  obtain ⟨hkernel, hsize, hblock, hpos, hlt, hne, hlast⟩ := hlist file hfile
  have hfirst : contentsSector contents file 0 =
      listBytes 0x9001FDE9 kernelMarker blocklistMaxBlocks512 file := if_pos rfl
  rw [← hfirst] at hkernel hsize hblock hlast
  have hlength := length_contentsSector hcontents hfile 0
  have hlength' : diskLists.length = 128 := length_listBytes (by decide)
  have hone : (listsOnDisk (contentsSector contents file) [⟨0, 1⟩]).filter
      (fun l => IsKernelBytes l) = [contentsSector contents file 0] := by
    rw [listsOnDisk_first hlength]
    exact List.filter_cons_of_pos (decide_eq_true hkernel)
  refine ⟨serves_contentsBios hcontents hfile, lowLayout_disk, ⟨diskLists, ?_, ?_, ?_⟩,
    ⟨⟨_, hone, ?_⟩, hne, hlt⟩⟩
  · exact hlength'
  · apply hasBytes_bytesAt
    rw [hlength']
    decide
  · exact ⟨Nat.le_of_eq hlength'.symm, by decide +kernel, by decide, by decide +kernel, by decide,
      fun _ => by decide +kernel⟩
  · exact ⟨hlength.symm ▸ by decide, hsize, Nat.le_of_lt hlt, hblock, hpos, fun _ => hlast⟩

theorem kernelDisk_disk (hfile : file ∈ diskFiles) :
    KernelDisk (diskBios file) (fun _ => True) 0x200 (diskSector file) diskMemory diskInfo
      0x10000 0x20000 0x8018 1 [⟨0, 1⟩] file :=
  kernelDisk_contents length_headerSector hfile

theorem ram_disk : ramInfo 41 diskMemory 0x8000 = some (some (0x8018, 1)) := by
  decide +kernel

/-- There is memory for either file, so that it is loaded. -/
theorem exists_run_contents (hcontents : contents.length = 512) (hfile : file ∈ diskFiles) :
    ∃ st, (readBlockLists (contentsBios contents file) 0x10000 0x20000 0x8018 1 41
        diskInfo.blocklistPtr ⟨diskInfo, false, ⟨diskMemory, ()⟩⟩).run = some (.ok st) ∧
      Scanned (fun _ => True) diskMemory diskInfo 0x10000 0x20000 0x100000
        (blockContents (contentsSector contents file) file) true st := by
  have haddr : ∀ file ∈ diskFiles, file.length * 512 < 2 ^ 32 ∧
      kernelFileAddr diskMemory 0x8018 1 (file.length * 512) = 0x100000 := by
    decide +kernel
  obtain ⟨htotal, haddr⟩ := haddr file hfile
  rw [← length_fileBytes_contents hcontents hfile] at htotal haddr
  have hmeets := readBlockLists_meets (s := ⟨diskMemory, ()⟩)
    (kernelDisk_contents hcontents hfile) (Nat.le_refl 41) htotal haddr.symm trivial rfl
  rcases hmeets.cases with hok | ⟨_, _, hlimit⟩
  · exact hok
  · exact absurd hlimit (by decide)

theorem exists_run_disk (hfile : file ∈ diskFiles) :
    ∃ st, (readBlockLists (diskBios file) 0x10000 0x20000 0x8018 1 41 diskInfo.blocklistPtr
        ⟨diskInfo, false, ⟨diskMemory, ()⟩⟩).run = some (.ok st) ∧
      Scanned (fun _ => True) diskMemory diskInfo 0x10000 0x20000 0x100000
        (blockContents (diskSector file) file) true st :=
  exists_run_contents length_headerSector hfile

end disk

theorem loadsFile_iff_headerBlock : ∃ st,
    (readBlockLists (diskBios headerBlock) 0x10000 0x20000 0x8018 1 41 diskInfo.blocklistPtr
      ⟨diskInfo, false, ⟨diskMemory, ()⟩⟩).run = some (.ok st) ∧
    LoadsFile (diskBios headerBlock) 0x10000 0x20000 0x8018 1 41 0x8000 diskInfo
      (fileBytes (diskSector headerBlock) headerBlock) ⟨diskMemory, ()⟩ st := by
  have hfile : headerBlock ∈ diskFiles := by decide
  obtain ⟨st, hrun, -⟩ := exists_run_disk hfile
  have htotal : (fileBytes (diskSector headerBlock) headerBlock).length < 2 ^ 32 := by
    rw [length_fileBytes_disk hfile]
    decide
  exact ⟨st, hrun, (loadsFile_iff (kernelDisk_disk hfile) ram_disk trivial (Nat.le_refl 41)
    hrun).mpr (blocksCoincide_singleton htotal)⟩

/-- With the sector with ones before the header, the function still finds the header where the
    file begins. -/
theorem loadKernelFile_onesAndHeader {st : FileLoad Unit}
    (hrun : (readBlockLists (diskBios onesAndHeader) 0x10000 0x20000 0x8018 1 41
      diskInfo.blocklistPtr ⟨diskInfo, false, ⟨diskMemory, ()⟩⟩).run = some (.ok st))
    (h : Scanned (fun _ => True) diskMemory diskInfo 0x10000 0x20000 0x100000
      (blockContents (diskSector onesAndHeader) onesAndHeader) true st) :
    ∃ s', loadKernelFile (diskBios onesAndHeader) 0x10000 0x20000 41 0x8000 diskInfo
      ⟨diskMemory, ()⟩ = some (true, st.info, s') := by
  have hfile : onesAndHeader ∈ diskFiles := by decide
  have htotal : (fileBytes (diskSector onesAndHeader) onesAndHeader).length = 1024 :=
    length_fileBytes_disk hfile
  have hinfo : st.info = { diskInfo with fileAddr := 0x100000, fileSize := 1024 } := by
    have hsize : BitVec.ofNat 32 (blockContents (diskSector onesAndHeader)
        onesAndHeader).flatten.length = 1024 := congrArg (BitVec.ofNat 32) htotal
    rw [h.info, if_pos rfl, hsize]
  have hbytes : HasBytes st.mem 0x100000 (headerBytes []) := by
    intro i hi
    have hi' : i < 24 := hi
    rw [h.byte lowLayout_disk (by omega)]
    -- the last block is the sector with the header
    have hblocks : blockContents (diskSector onesAndHeader) onesAndHeader =
        [sectorBytes (diskSector onesAndHeader) 1 1] ++
          [sectorBytes (diskSector onesAndHeader) 2 1] := rfl
    have hlast : sectorBytes (diskSector onesAndHeader) 2 1 = diskSector onesAndHeader 2 :=
      List.append_nil _
    rw [hblocks, hlast, lastByte_append, length_diskSector hfile, if_pos (by omega)]
    exact List.getD_append _ _ _ _ hi
  have hmagic : load32 st.mem 0x100000 = headerMagic := hbytes.load32 (i := 0) (by decide)
  have harchitecture : load32 st.mem (0x100000 + 4) = 0 := hbytes.load32 (i := 4) (by decide)
  have hlength : headerLength st.mem 0x100000 = 24 := hbytes.load32 (i := 8) (by decide)
  have hchecksum : load32 st.mem (0x100000 + 12) = -(headerMagic + 24) :=
    hbytes.load32 (i := 12) (by decide)
  have htype : headerTagType st.mem 0x100010 = 0 := hbytes.load16 (i := 16) (by decide)
  have hsize : headerTagSize st.mem 0x100010 = 8 := hbytes.load32 (i := 20) (by decide)
  have hheader : getHeader st.mem 0x100000 1024 = 0x100000 := by
    apply getHeader_first (by decide) hmagic
    rw [FieldsValid, hlength, hchecksum, hmagic, harchitecture]
    decide
  -- the only tag is the terminator
  have htags : Meets (fun _ => True) (fun _ => False)
      (saveSections 41 0x8000 st.info 0x100000 st.loader) := by
    let I : Nat → BitVec 32 × Loader Unit → Prop := fun k p =>
      p = (0x100010 + BitVec.ofNat 32 (8 * k), st.loader)
    have hloop : Meets (I 1) (fun _ => False)
        (saveSections 41 0x8000 st.info 0x100000 st.loader) := by
      apply forLoop_meets (I := I)
      · rintro k p hk rfl
        show (0x100010 : BitVec 32) + BitVec.ofNat 32 (8 * k) <
          0x100000 + headerLength st.mem 0x100000 ↔ k < 1
        rw [hlength]
        bv_omega
      · rintro k p hk rfl
        obtain rfl : k = 0 := by omega
        show Meets _ _ (if headerTagType st.mem 0x100010 = 1 then _ else _)
        rw [htype, if_neg (by decide)]
        apply meets_pure.mpr
        show (0x100010 + headerTagSize st.mem 0x100010, st.loader) = _
        rw [hsize]
        rfl
      · exact Nat.zero_le 1
      · decide
      · rfl
    exact hloop.mono (fun _ _ => trivial) fun _ hE => hE
  obtain ⟨p, htags, -⟩ | ⟨_, _, hfalse⟩ := htags.cases
  · refine ⟨p.2, loadKernelFile_of_saveSections ram_disk hrun h.fileLoaded ?_ (by decide)
      harchitecture htags⟩
    rw [hinfo]
    exact hheader
  · exact hfalse.elim

/-- The second block is read over the first one. -/
theorem not_forall_fileInPlace : ¬∀ (β : Type) (B : DiskBios β) (ok : β → Prop)
    (sectorSize : BitVec 16) (sector : BitVec 64 → List (BitVec 8))
    (buffer blocklist mmap mmapSize mbi : BitVec 32) (info info' : KernelInfo)
    (master file : List DiskBlock) (s s' : Loader β) (fuel : Nat),
    KernelDisk B ok sectorSize sector s.mem info buffer blocklist mmap mmapSize master file →
      ramInfo fuel s.mem mbi = some (some (mmap, mmapSize)) → ok s.bios →
        blocklistMaxBlocks512 ≤ fuel →
          loadKernelFile B buffer blocklist fuel mbi info s = some (true, info', s') →
            FileInPlace (fileBytes sector file) s'.mem info' := by
  intro h
  have hfile : onesAndHeader ∈ diskFiles := by decide
  obtain ⟨st, hrun, hscanned⟩ := exists_run_disk hfile
  obtain ⟨s', htrue⟩ := loadKernelFile_onesAndHeader hrun hscanned
  have hplace := h Unit _ _ _ _ _ _ _ _ _ _ _ _ _ _ _ _ (kernelDisk_disk hfile) ram_disk trivial
    (Nat.le_refl 41) htrue
  obtain ⟨-, rfl⟩ := loadKernelFile_true ram_disk hrun htrue
  have hsame := (hscanned.fileInPlace_iff lowLayout_disk).mp hplace 0 (by decide +kernel)
  exact absurd hsame (by decide +kernel)

end Avos.Multiboot
