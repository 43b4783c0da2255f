import Avos.Clib.String

/-! # Kernel Files in ELF

  The functions of `bootloader/multiboot/src/elf.c` that the loading of the kernel uses. An image
  is read where it is in memory, and its segments are copied to the place of the kernel one behind
  the other.
-/

open ByteMemory

namespace Avos.Multiboot

/-! ## Section 1: The Tables of an Image -/

/-- The fields of `Elf32_Ehdr`. -/
structure ElfHeader where
  ident : List (BitVec 8)
  type : BitVec 16
  machine : BitVec 16
  version : BitVec 32
  phoff : BitVec 32
  shoff : BitVec 32
  ehsize : BitVec 16
  phentsize : BitVec 16
  phnum : BitVec 16
  shnum : BitVec 16
deriving DecidableEq

/-- `(Elf32_Ehdr*)image`. -/
def readElfHeader (m : Memory) (image : BitVec 32) : ElfHeader where
  ident := (List.range 7).map fun i => m (image + BitVec.ofNat 32 i)
  type := load16 m (image + 16)
  machine := load16 m (image + 18)
  version := load32 m (image + 20)
  phoff := load32 m (image + 28)
  shoff := load32 m (image + 32)
  ehsize := load16 m (image + 40)
  phentsize := load16 m (image + 42)
  phnum := load16 m (image + 44)
  shnum := load16 m (image + 48)

/-- The fields of `Elf32_Phdr`. -/
structure ProgramHeader where
  type : BitVec 32
  offset : BitVec 32
  filesz : BitVec 32
  memsz : BitVec 32
deriving DecidableEq

/-- `phdr[i]`. -/
def readProgramHeader (m : Memory) (phdr : BitVec 32) (i : Nat) : ProgramHeader where
  type := load32 m (phdr + BitVec.ofNat 32 (32 * i))
  offset := load32 m (phdr + BitVec.ofNat 32 (32 * i) + 4)
  filesz := load32 m (phdr + BitVec.ofNat 32 (32 * i) + 16)
  memsz := load32 m (phdr + BitVec.ofNat 32 (32 * i) + 20)

/-- The fields of `Elf32_Shdr`. -/
structure SectionHeader where
  type : BitVec 32
  flags : BitVec 32
  size : BitVec 32
deriving DecidableEq

/-- `shdr[i]`. -/
def readSectionHeader (m : Memory) (shdr : BitVec 32) (i : Nat) : SectionHeader where
  type := load32 m (shdr + BitVec.ofNat 32 (40 * i) + 4)
  flags := load32 m (shdr + BitVec.ofNat 32 (40 * i) + 8)
  size := load32 m (shdr + BitVec.ofNat 32 (40 * i) + 20)

/-- The program headers of an image. -/
def programHeaders (m : Memory) (image : BitVec 32) : List ProgramHeader :=
  let hdr := readElfHeader m image
  (List.range hdr.phnum.toNat).map (readProgramHeader m (image + hdr.phoff))

/-- The section headers of an image. -/
def sectionHeaders (m : Memory) (image : BitVec 32) : List SectionHeader :=
  let hdr := readElfHeader m image
  (List.range hdr.shnum.toNat).map (readSectionHeader m (image + hdr.shoff))

/-! ## Section 2: The Functions -/

/-- `Elf32_IsValidELF`, of the header. -/
def ElfHeader.IsValidElf (hdr : ElfHeader) : Prop :=
  hdr.ident = [0x7F, 0x45, 0x4C, 0x46, 1, 1, 1] ∧ hdr.version = 1 ∧ hdr.machine = 3 ∧
    hdr.ehsize = 52

instance (hdr : ElfHeader) : Decidable hdr.IsValidElf := inferInstanceAs (Decidable (_ ∧ _))

/-- `Elf32_IsValidExecutable`, of the header. -/
def ElfHeader.IsValidExecutable (hdr : ElfHeader) : Prop :=
  hdr.IsValidElf ∧ hdr.type = 2 ∧ hdr.phentsize = 32 ∧ hdr.phnum ≠ 0

instance (hdr : ElfHeader) : Decidable hdr.IsValidExecutable :=
  inferInstanceAs (Decidable (_ ∧ _))

/-- `Elf32_IsValidiStaticExecutable`. -/
def IsValidStaticExecutable (m : Memory) (image : BitVec 32) : Prop :=
  (readElfHeader m image).IsValidExecutable ∧
    ∀ p ∈ programHeaders m image, ¬(p.type = 2 ∨ p.type = 3)

instance (m : Memory) (image : BitVec 32) : Decidable (IsValidStaticExecutable m image) :=
  inferInstanceAs (Decidable (_ ∧ _))

/-- `Elf32_StaticExecutableLoadSize`. -/
def staticExecutableLoadSize (m : Memory) (image : BitVec 32) : BitVec 32 :=
  if IsValidStaticExecutable m image then
    (programHeaders m image).foldl (fun size p => if p.type = 1 then size + p.memsz else size) 0
  else 0

/-- `Elf32_SizeBSSLikeSections`. -/
def sizeBssLikeSections (m : Memory) (image : BitVec 32) : BitVec 32 :=
  if ¬(readElfHeader m image).IsValidElf then 0
  else if 0 < (readElfHeader m image).shnum then
    (sectionHeaders m image).foldl
      (fun size s => if s.type = 8 ∧ s.flags &&& 2 ≠ 0 ∧ 0 < s.size then size + s.size else size) 0
  else
    (programHeaders m image).foldl
      (fun size p => if p.type ≠ 1 then size else if p.filesz ≠ 0 then size else size + p.memsz) 0

/-- The loop of `Elf32_LoadStaticExecutable`, from the program header `i` on. The memory that it
    reads is the one that it writes. There are fewer than `2 ^ 16` program headers, which bounds
    the `rounds`. -/
def loadSegments (image phdr : BitVec 32) : Nat → Nat → BitVec 32 → BitVec 32 → Memory →
    BitVec 32 × Memory
  | 0, _, _, size, m => (size, m)
  | rounds + 1, i, addr, size, m =>
      if i < (load16 m (image + 44)).toNat then
        let p := readProgramHeader m phdr i
        if p.type ≠ 1 then loadSegments image phdr rounds (i + 1) addr size m
        else
          let padding := p.memsz - p.filesz
          let m := memmove m addr (image + p.offset) p.filesz
          let addr := addr + p.filesz
          let m := memset m addr 0 padding.toNat
          loadSegments image phdr rounds (i + 1) (addr + padding) (size + (p.filesz + padding)) m
      else (size, m)

/-- `Elf32_LoadStaticExecutable`. -/
def loadStaticExecutable (m : Memory) (image start : BitVec 32) : BitVec 32 × Memory :=
  if IsValidStaticExecutable m image then
    loadSegments image (image + (readElfHeader m image).phoff) 0x10000 0 start 0 m
  else (0, m)

/-- `hdr->e_shnum * hdr->e_shentsize`. -/
def sectionTableSize (m : Memory) (image : BitVec 32) : BitVec 32 :=
  (load16 m (image + 48)).setWidth 32 * (load16 m (image + 46)).setWidth 32

/-- `Elf32_LoadSectionHeaderTable`. The header is read again behind each store. -/
def loadSectionHeaderTable (m : Memory) (image start : BitVec 32) (loadExtra : Bool) :
    BitVec 32 × Memory :=
  let shdr := image + (readElfHeader m image).shoff
  let retval := if loadExtra then 8 else 0
  if ¬(readElfHeader m image).IsValidElf then (retval, m)
  else
    let m :=
      if loadExtra then
        let m := store16 m start (load16 m (image + 48))
        let m := store16 m (start + 2) (load16 m (image + 46))
        let m := store16 m (start + 4) (load16 m (image + 50))
        store16 m (start + 6) 0
      else m
    let m := memmove m (retval + start) shdr (sectionTableSize m image)
    (retval + sectionTableSize m image, m)

end Avos.Multiboot
