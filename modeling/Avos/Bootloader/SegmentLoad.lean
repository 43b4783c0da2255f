import Avos.Bootloader.Elf
import Avos.Bootloader.Header

/-! # Placing the Segments of a Kernel

  `Elf32_StaticExecutableLoadSize` and `Elf32_LoadStaticExecutable` of
  `bootloader/multiboot/src/elf.c` go over the same program headers. The first adds up `p_memsz`;
  the second copies `p_filesz` bytes and fills up with the difference of the two, which is
  unsigned. So they agree only where no segment is longer in the file than in memory
  (`fillsReserved_iff`).

  The segments are placed one behind the other, whatever addresses they were linked for
  (`placedByAddress_iff`).
-/

open ByteMemory

namespace Avos.Multiboot

/-! ## Section 1: The Stores -/

/-- A call of `memmove` or `memset`: it stores to the `bytes` bytes from `des` on. -/
structure StoreCall where
  des : BitVec 32
  bytes : Nat

/-- One of the calls stores to `x`. -/
def StoredBy (calls : List StoreCall) (x : BitVec 32) : Prop :=
  ∃ c ∈ calls, InBytes c.des c.bytes x

/-- The loop of `Elf32_LoadStaticExecutable`, with its calls. -/
def loadSegmentsLogged (image phdr : BitVec 32) :
    Nat → Nat → BitVec 32 → BitVec 32 → List StoreCall → Memory →
      (BitVec 32 × Memory) × List StoreCall
  | 0, _, _, size, calls, m => ((size, m), calls)
  | rounds + 1, i, addr, size, calls, m =>
      if i < (load16 m (image + 44)).toNat then
        let p := readProgramHeader m phdr i
        if p.type ≠ 1 then loadSegmentsLogged image phdr rounds (i + 1) addr size calls m
        else
          let padding := p.memsz - p.filesz
          let m := memmove m addr (image + p.offset) p.filesz
          let calls := calls ++ [⟨addr, p.filesz.toNat⟩]
          let addr := addr + p.filesz
          let m := memset m addr 0 padding.toNat
          let calls := calls ++ [⟨addr, padding.toNat⟩]
          loadSegmentsLogged image phdr rounds (i + 1) (addr + padding)
            (size + (p.filesz + padding)) calls m
      else ((size, m), calls)

/-- `Elf32_LoadStaticExecutable`, with its calls. -/
def loadStaticExecutableLogged (m : Memory) (image start : BitVec 32) :
    (BitVec 32 × Memory) × List StoreCall :=
  if IsValidStaticExecutable m image then
    loadSegmentsLogged image (image + (readElfHeader m image).phoff) 0x10000 0 start 0 [] m
  else ((0, m), [])

/-- The segments that are loaded. -/
def loadedSegments (m : Memory) (image : BitVec 32) : List ProgramHeader :=
  (programHeaders m image).filter fun p => p.type = 1

/-- The bytes that the segments take in memory. -/
def segmentsSize (segs : List ProgramHeader) : Nat := (segs.map fun p => p.memsz.toNat).sum

/-- What is done with a segment. -/
def placeSegment (image : BitVec 32) (p : ProgramHeader) (addr : BitVec 32) (m : Memory) :
    Memory :=
  memset (memmove m addr (image + p.offset) p.filesz) (addr + p.filesz) 0
    (p.memsz - p.filesz).toNat

/-- The segments are placed one behind the other. -/
def placeSegments (image : BitVec 32) : List ProgramHeader → BitVec 32 → Memory → Memory
  | [], _, m => m
  | p :: segs, addr, m =>
      placeSegments image segs (addr + p.memsz) (placeSegment image p addr m)

/-- The calls for a segment. -/
def segmentCalls (p : ProgramHeader) (addr : BitVec 32) : List StoreCall :=
  [⟨addr, p.filesz.toNat⟩, ⟨addr + p.filesz, (p.memsz - p.filesz).toNat⟩]

/-- The calls for segments one behind the other. -/
def allCalls : List ProgramHeader → BitVec 32 → List StoreCall
  | [], _ => []
  | p :: segs, addr => segmentCalls p addr ++ allCalls segs (addr + p.memsz)

section stores

variable {m m' : Memory} {image phdr start addr size x : BitVec 32} {calls calls' : List StoreCall}
  {rounds i n k : Nat} {p : ProgramHeader} {segs : List ProgramHeader}

/-- Forgetting the calls gives the loop back. -/
theorem loadSegmentsLogged_fst : (loadSegmentsLogged image phdr rounds i addr size calls m).1 =
    loadSegments image phdr rounds i addr size m := by
  induction rounds generalizing i addr size calls m with
  | zero => rfl
  | succ rounds ih =>
    rw [loadSegmentsLogged, loadSegments]
    split
    · dsimp only
      split
      · exact ih
      · exact ih
    · rfl

theorem loadStaticExecutableLogged_fst :
    (loadStaticExecutableLogged m image start).1 = loadStaticExecutable m image start := by
  unfold loadStaticExecutableLogged loadStaticExecutable
  split
  · exact loadSegmentsLogged_fst
  · rfl

theorem storedBy_append : StoredBy (calls ++ calls') x ↔ StoredBy calls x ∨ StoredBy calls' x := by
  simp only [StoredBy, List.mem_append, or_and_right, exists_or]

/-- What has been stored to remains so. -/
theorem StoredBy.loadSegmentsLogged (h : StoredBy calls x) :
    StoredBy (loadSegmentsLogged image phdr rounds i addr size calls m).2 x := by
  induction rounds generalizing i addr size calls m with
  | zero => exact h
  | succ rounds ih =>
    rw [Multiboot.loadSegmentsLogged]
    split
    · dsimp only
      split
      · exact ih h
      · apply ih
        exact storedBy_append.mpr (.inl (storedBy_append.mpr (.inl h)))
    · exact h

/-- A round of the loop. -/
theorem loadSegmentsLogged_succ (hi : i < (load16 m (image + 44)).toNat)
    (hp : readProgramHeader m phdr i = p) :
    loadSegmentsLogged image phdr (rounds + 1) i addr size calls m =
      if p.type ≠ 1 then loadSegmentsLogged image phdr rounds (i + 1) addr size calls m
      else loadSegmentsLogged image phdr rounds (i + 1) (addr + p.memsz) (size + p.memsz)
        (calls ++ segmentCalls p addr) (placeSegment image p addr m) := by
  have haddr : addr + p.filesz + (p.memsz - p.filesz) = addr + p.memsz := by
    bv_omega
  have hsize : size + (p.filesz + (p.memsz - p.filesz)) = size + p.memsz := by
    bv_omega
  rw [loadSegmentsLogged, if_pos hi, hp]
  dsimp only
  rw [haddr, hsize, List.append_assoc]
  rfl

/-- A segment that is not longer in the file than in memory is stored where it is in memory. -/
theorem onlyIn_placeSegment (hfits : p.filesz ≤ p.memsz) :
    OnlyIn addr p.memsz.toNat m (placeSegment image p addr m) := by
  have hle := BitVec.le_def.mp hfits
  have hpadding : (p.memsz - p.filesz).toNat = p.memsz.toNat - p.filesz.toNat :=
    BitVec.toNat_sub_of_le hfits
  have hbound := p.memsz.isLt
  have hset : OnlyIn (addr + BitVec.ofNat 32 p.filesz.toNat) (p.memsz - p.filesz).toNat
      (memmove m addr (image + p.offset) p.filesz) (placeSegment image p addr m) := by
    rw [BitVec.ofNat_toNat, BitVec.setWidth_eq]
    exact onlyIn_memset (by omega)
  apply (onlyIn_memmove.mono hle).trans
  exact hset.of_add (by omega) (by omega)

theorem storedBy_segmentCalls (hfits : p.filesz ≤ p.memsz) :
    StoredBy (segmentCalls p addr) x ↔ InBytes addr p.memsz.toNat x := by
  have hle := BitVec.le_def.mp hfits
  have hpadding : (p.memsz - p.filesz).toNat = p.memsz.toNat - p.filesz.toNat :=
    BitVec.toNat_sub_of_le hfits
  have hbound := p.memsz.isLt
  have hsum : p.memsz.toNat = p.filesz.toNat + (p.memsz.toNat - p.filesz.toNat) := by
    omega
  rw [hsum, inBytes_append (by omega), BitVec.ofNat_toNat, BitVec.setWidth_eq, ← hpadding]
  simp [StoredBy, segmentCalls]

/-- The difference of the sizes wraps, and all of memory is stored to. -/
theorem storedBy_segmentCalls_all (hfits : ¬p.filesz ≤ p.memsz) :
    StoredBy (segmentCalls p addr) x := by
  have hlt := BitVec.not_le.mp hfits
  by_cases hx : InBytes addr p.filesz.toNat x
  · exact ⟨_, List.mem_cons_self, hx⟩
  · refine ⟨_, List.mem_cons_of_mem _ List.mem_cons_self, ?_⟩
    rw [InBytes] at hx ⊢
    bv_omega

theorem segmentsSize_cons : segmentsSize (p :: segs) = p.memsz.toNat + segmentsSize segs := by
  simp [segmentsSize]

theorem storedBy_allCalls (hfits : ∀ p ∈ segs, p.filesz ≤ p.memsz)
    (hsize : segmentsSize segs ≤ 2 ^ 32) :
    StoredBy (allCalls segs addr) x ↔ InBytes addr (segmentsSize segs) x := by
  induction segs generalizing addr with
  | nil => simp [StoredBy, allCalls, segmentsSize, InBytes]
  | cons p segs ih =>
    obtain ⟨hp, hfits⟩ := List.forall_mem_cons.mp hfits
    rw [segmentsSize_cons] at hsize ⊢
    rw [allCalls, storedBy_append, storedBy_segmentCalls hp, ih hfits (by omega),
      inBytes_append hsize, BitVec.ofNat_toNat, BitVec.setWidth_eq]

end stores

/-! ## Section 2: The Space for the Segments -/

/-- The header and the program headers of an image are apart from a destination. -/
structure TablesApart (m : Memory) (image start : BitVec 32) (n : Nat) : Prop where
  header : Apart image 52 start n
  programs : Apart (image + (readElfHeader m image).phoff)
    (32 * (readElfHeader m image).phnum.toNat) start n

/-- The space that `Multiboot_LoadKernel` reserves with `Elf32_StaticExecutableLoadSize` is what
    `Elf32_LoadStaticExecutable` fills: every byte of it and no other. -/
structure FillsReserved (m : Memory) (image start : BitVec 32) : Prop where
  outside : ∀ x, StoredBy (loadStaticExecutableLogged m image start).2 x →
    InBytes start (staticExecutableLoadSize m image).toNat x
  inside : ∀ x, InBytes start (staticExecutableLoadSize m image).toNat x →
    StoredBy (loadStaticExecutableLogged m image start).2 x
  result : (loadStaticExecutableLogged m image start).1.1 = staticExecutableLoadSize m image

/-- No segment is longer in the file than in memory, and together they are shorter than the
    address space. -/
structure SegmentsFit (segs : List ProgramHeader) : Prop where
  fits : ∀ p ∈ segs, p.filesz ≤ p.memsz
  size : segmentsSize segs < 2 ^ 32

section space

variable {m m₀ : Memory} {image phdr start addr size : BitVec 32} {calls : List StoreCall}
  {rounds i n k : Nat} {p : ProgramHeader} {ps segs : List ProgramHeader}

theorem length_programHeaders :
    (programHeaders m image).length = (readElfHeader m image).phnum.toNat := by
  rw [programHeaders, List.length_map, List.length_range]

theorem getElem_programHeaders (hi : i < (programHeaders m image).length) :
    (programHeaders m image)[i] =
      readProgramHeader m (image + (readElfHeader m image).phoff) i := by
  simp [programHeaders]

/-- Stores to the destination do not change the number of the program headers. -/
theorem TablesApart.phnum (h : TablesApart m₀ image start n) (honly : OnlyIn start n m₀ m) :
    load16 m (image + 44) = load16 m₀ (image + 44) := by
  apply load16_congr
  intro x hx
  have hin : InBytes (image + BitVec.ofNat 32 44) 2 x := hx
  exact honly x (h.header x (hin.of_add (by decide) (by decide)))

/-- Stores to the destination do not change the program headers. -/
theorem TablesApart.program (h : TablesApart m₀ image start n) (honly : OnlyIn start n m₀ m)
    (hi : i < (readElfHeader m₀ image).phnum.toNat) :
    readProgramHeader m (image + (readElfHeader m₀ image).phoff) i =
      readProgramHeader m₀ (image + (readElfHeader m₀ image).phoff) i := by
  have hbound := (readElfHeader m₀ image).phnum.isLt
  have hload : ∀ j, j + 4 ≤ 32 →
      load32 m (image + (readElfHeader m₀ image).phoff + BitVec.ofNat 32 (32 * i + j)) =
        load32 m₀ (image + (readElfHeader m₀ image).phoff + BitVec.ofNat 32 (32 * i + j)) := by
    intro j hj
    apply load32_congr_of_add (k := 32 * (readElfHeader m₀ image).phnum.toNat)
    · exact fun x hx => honly x (h.programs x hx)
    · omega
    · omega
  simp only [BitVec.ofNat_add, ← BitVec.add_assoc] at hload
  have h0 := hload 0 (by decide)
  rw [BitVec.add_zero] at h0
  have h4 := hload 4 (by decide)
  have h16 := hload 16 (by decide)
  have h20 := hload 20 (by decide)
  rw [readProgramHeader, readProgramHeader]
  exact ProgramHeader.mk.injEq _ _ _ _ _ _ _ _ ▸ ⟨h0, h4, h16, h20⟩

/-- A round of the loop that only stores to the destination has been made before: it is about the
    next program header of the image. -/
theorem loadSegmentsLogged_cons (h : TablesApart m₀ image start n) (honly : OnlyIn start n m₀ m)
    (hps : (programHeaders m₀ image).drop i = p :: ps) :
    loadSegmentsLogged image (image + (readElfHeader m₀ image).phoff) (rounds + 1) i addr size
        calls m =
      if p.type ≠ 1 then
        loadSegmentsLogged image (image + (readElfHeader m₀ image).phoff) rounds (i + 1) addr size
          calls m
      else
        loadSegmentsLogged image (image + (readElfHeader m₀ image).phoff) rounds (i + 1)
          (addr + p.memsz) (size + p.memsz) (calls ++ segmentCalls p addr)
          (placeSegment image p addr m) := by
  have hi : i < (programHeaders m₀ image).length := by
    by_contra hge
    rw [List.drop_eq_nil_of_le (by omega)] at hps
    exact nomatch hps
  have hp : (programHeaders m₀ image)[i] = p := by
    rw [List.drop_eq_getElem_cons hi] at hps
    exact (List.cons.inj hps).1
  rw [getElem_programHeaders] at hp
  rw [length_programHeaders] at hi
  apply loadSegmentsLogged_succ
  · rw [h.phnum honly]
    exact hi
  · rw [h.program honly hi, hp]

theorem loadSegmentsLogged_nil (h : TablesApart m₀ image start n) (honly : OnlyIn start n m₀ m)
    (hps : (programHeaders m₀ image).drop i = []) :
    loadSegmentsLogged image (image + (readElfHeader m₀ image).phoff) rounds i addr size calls m =
      ((size, m), calls) := by
  have hi : ¬i < (load16 m (image + 44)).toNat := by
    rw [h.phnum honly]
    have hle := List.drop_eq_nil_iff.mp hps
    rw [length_programHeaders] at hle
    exact Nat.not_lt.mpr hle
  cases rounds with
  | zero => rfl
  | succ rounds => rw [loadSegmentsLogged, if_neg hi]

theorem drop_succ_of_cons {l : List ProgramHeader} (h : l.drop i = p :: ps) :
    l.drop (i + 1) = ps := by
  rw [← List.tail_drop, h, List.tail_cons]

theorem filter_cons_ne (ht : p.type ≠ 1) :
    (p :: ps).filter (fun p => p.type = 1) = ps.filter fun p => p.type = 1 :=
  List.filter_cons_of_neg (by simpa using ht)

theorem filter_cons_eq (ht : p.type = 1) :
    (p :: ps).filter (fun p => p.type = 1) = p :: ps.filter fun p => p.type = 1 :=
  List.filter_cons_of_pos (by simpa using ht)

/-- The destination of the next segment, `k` bytes into the space. -/
theorem onlyIn_placeSegment_add (hfits : p.filesz ≤ p.memsz) (hk : k + p.memsz.toNat ≤ n)
    (hn : n ≤ 2 ^ 32) (honly : OnlyIn start n m₀ m) :
    OnlyIn start n m₀ (placeSegment image p (start + BitVec.ofNat 32 k) m) :=
  honly.trans ((onlyIn_placeSegment hfits).of_add hk hn)

theorem add_memsz : start + BitVec.ofNat 32 k + p.memsz =
    start + BitVec.ofNat 32 (k + p.memsz.toNat) := by
  rw [BitVec.ofNat_add, ← BitVec.add_assoc, BitVec.ofNat_toNat, BitVec.setWidth_eq]

/-- Where the segments fit, the loop places them one behind the other. -/
theorem loadSegmentsLogged_fits (h : TablesApart m₀ image start n) (hn : n ≤ 2 ^ 32)
    (honly : OnlyIn start n m₀ m) (hps : (programHeaders m₀ image).drop i = ps)
    (hrounds : ps.length ≤ rounds) (hsegs : ps.filter (fun p => p.type = 1) = segs)
    (hfits : ∀ p ∈ segs, p.filesz ≤ p.memsz) (hk : k + segmentsSize segs ≤ n)
    (haddr : addr = start + BitVec.ofNat 32 k) :
    loadSegmentsLogged image (image + (readElfHeader m₀ image).phoff) rounds i addr size calls m =
      ((size + BitVec.ofNat 32 (segmentsSize segs), placeSegments image segs addr m),
        calls ++ allCalls segs addr) := by
  induction ps generalizing rounds i addr size calls m segs k with
  | nil =>
    obtain rfl : [] = segs := hsegs
    rw [loadSegmentsLogged_nil h honly hps]
    simp [segmentsSize, placeSegments, allCalls]
  | cons p ps ih =>
    cases rounds with
    | zero => exact absurd hrounds (Nat.not_succ_le_zero _)
    | succ rounds =>
      have hrounds' : ps.length ≤ rounds := Nat.le_of_succ_le_succ hrounds
      have hps' := drop_succ_of_cons hps
      rw [loadSegmentsLogged_cons h honly hps]
      by_cases ht : p.type = 1
      · rw [filter_cons_eq ht] at hsegs
        subst hsegs
        obtain ⟨hp, hfits⟩ := List.forall_mem_cons.mp hfits
        rw [segmentsSize_cons] at hk
        have hnext : addr + p.memsz = start + BitVec.ofNat 32 (k + p.memsz.toNat) := by
          rw [haddr, add_memsz]
        have honly' : OnlyIn start n m₀ (placeSegment image p addr m) := by
          rw [haddr]
          exact onlyIn_placeSegment_add hp (by omega) hn honly
        rw [if_neg (not_not.mpr ht), ih honly' hps' hrounds' rfl hfits (by omega) hnext,
          segmentsSize_cons, BitVec.ofNat_add, BitVec.ofNat_toNat, BitVec.setWidth_eq,
          ← BitVec.add_assoc, List.append_assoc]
        rfl
      · rw [filter_cons_ne ht] at hsegs
        rw [if_pos ht, ih honly hps' hrounds' hsegs hfits hk haddr]

/-- Where they do not fit, the byte behind the space is stored to. -/
theorem storedBy_of_not_fits (h : TablesApart m₀ image start n) (hn : n < 2 ^ 32)
    (honly : OnlyIn start n m₀ m) (hps : (programHeaders m₀ image).drop i = ps)
    (hrounds : ps.length ≤ rounds) (hsegs : ps.filter (fun p => p.type = 1) = segs)
    (hk : k ≤ n) (haddr : addr = start + BitVec.ofNat 32 k)
    (hbad : ¬((∀ p ∈ segs, p.filesz ≤ p.memsz) ∧ k + segmentsSize segs ≤ n)) :
    StoredBy (loadSegmentsLogged image (image + (readElfHeader m₀ image).phoff) rounds i addr size
      calls m).2 (start + BitVec.ofNat 32 n) := by
  induction ps generalizing rounds i addr size calls m segs k with
  | nil =>
    obtain rfl : [] = segs := hsegs
    refine absurd ⟨?_, ?_⟩ hbad
    · exact fun p hp => absurd hp List.not_mem_nil
    · exact hk
  | cons p ps ih =>
    cases rounds with
    | zero => exact absurd hrounds (Nat.not_succ_le_zero _)
    | succ rounds =>
      have hrounds' : ps.length ≤ rounds := Nat.le_of_succ_le_succ hrounds
      have hps' := drop_succ_of_cons hps
      rw [loadSegmentsLogged_cons h honly hps]
      by_cases ht : p.type = 1
      · rw [filter_cons_eq ht] at hsegs
        subst hsegs
        rw [List.forall_mem_cons, segmentsSize_cons] at hbad
        rw [if_neg (not_not.mpr ht)]
        by_cases hp : p.filesz ≤ p.memsz
        · by_cases hroom : k + p.memsz.toNat ≤ n
          · -- this segment fits, and a later one does not
            apply ih _ hps' hrounds' rfl hroom
            · rw [haddr, add_memsz]
            · intro hgood
              exact hbad ⟨⟨hp, hgood.1⟩, by omega⟩
            · rw [haddr]
              exact onlyIn_placeSegment_add hp hroom (by omega) honly
          · -- this one goes beyond the end
            apply StoredBy.loadSegmentsLogged
            apply storedBy_append.mpr
            have hin : InBytes (start + BitVec.ofNat 32 k) p.memsz.toNat
                (start + BitVec.ofNat 32 n) := by
              have hdiff := add_ofNat_sub_add_ofNat (a := start) hk
              rw [InBytes, hdiff, BitVec.toNat_ofNat, Nat.mod_eq_of_lt (by omega)]
              omega
            rw [haddr]
            exact .inr ((storedBy_segmentCalls hp).mpr hin)
        · apply StoredBy.loadSegmentsLogged
          apply storedBy_append.mpr
          exact .inr (storedBy_segmentCalls_all hp)
      · rw [filter_cons_ne ht] at hsegs
        rw [if_pos ht]
        exact ih honly hps' hrounds' hsegs hk haddr hbad

theorem foldl_memsz : ps.foldl (fun size p => if p.type = 1 then size + p.memsz else size) size =
    size + BitVec.ofNat 32 (segmentsSize (ps.filter fun p => p.type = 1)) := by
  induction ps generalizing size with
  | nil => exact (BitVec.add_zero size).symm
  | cons p ps ih =>
    rw [List.foldl_cons, ih]
    by_cases ht : p.type = 1
    · rw [if_pos ht, filter_cons_eq ht, segmentsSize_cons, BitVec.ofNat_add, BitVec.ofNat_toNat,
        BitVec.setWidth_eq, BitVec.add_assoc]
    · rw [if_neg ht, filter_cons_ne ht]

/-- `Elf32_StaticExecutableLoadSize` adds up the sizes in memory. -/
theorem staticExecutableLoadSize_eq (hvalid : IsValidStaticExecutable m image) :
    staticExecutableLoadSize m image =
      BitVec.ofNat 32 (segmentsSize (loadedSegments m image)) := by
  rw [staticExecutableLoadSize, if_pos hvalid, foldl_memsz]
  exact BitVec.zero_add _

theorem length_le_rounds : (programHeaders m image).length ≤ 0x10000 := by
  rw [length_programHeaders]
  exact Nat.le_of_lt (readElfHeader m image).phnum.isLt

/-- Where the segments fit, the result is their size, and they are placed one behind the other. -/
theorem loadStaticExecutableLogged_fits (hvalid : IsValidStaticExecutable m image)
    (hapart : TablesApart m image start n) (hn : n ≤ 2 ^ 32)
    (hfits : ∀ p ∈ loadedSegments m image, p.filesz ≤ p.memsz)
    (hsize : segmentsSize (loadedSegments m image) ≤ n) :
    loadStaticExecutableLogged m image start =
      ((BitVec.ofNat 32 (segmentsSize (loadedSegments m image)),
        placeSegments image (loadedSegments m image) start m),
          allCalls (loadedSegments m image) start) := by
  have hstart : start = start + BitVec.ofNat 32 0 := (BitVec.add_zero start).symm
  have hsegs : (programHeaders m image).filter (fun p => p.type = 1) = loadedSegments m image :=
    rfl
  have hzero : (0 : BitVec 32) + BitVec.ofNat 32 (segmentsSize (loadedSegments m image)) =
      BitVec.ofNat 32 (segmentsSize (loadedSegments m image)) := BitVec.zero_add _
  rw [loadStaticExecutableLogged, if_pos hvalid,
    loadSegmentsLogged_fits hapart hn .refl List.drop_zero length_le_rounds hsegs hfits
      (k := 0) ((Nat.zero_add _).symm ▸ hsize) hstart, hzero, List.nil_append]

/-- A segment that does not fit is stored to where nothing is reserved. -/
theorem FillsReserved.fit (hfills : FillsReserved m image start)
    (hvalid : IsValidStaticExecutable m image)
    (hapart : TablesApart m image start (staticExecutableLoadSize m image).toNat) :
    SegmentsFit (loadedSegments m image) := by
  have hbound := (staticExecutableLoadSize m image).isLt
  by_contra hbad
  have hstart : start = start + BitVec.ofNat 32 0 := (BitVec.add_zero start).symm
  have hsegs : (programHeaders m image).filter (fun p => p.type = 1) = loadedSegments m image :=
    rfl
  have hstored : StoredBy (loadStaticExecutableLogged m image start).2
      (start + BitVec.ofNat 32 (staticExecutableLoadSize m image).toNat) := by
    rw [loadStaticExecutableLogged, if_pos hvalid]
    apply storedBy_of_not_fits hapart hbound .refl List.drop_zero length_le_rounds hsegs
      (Nat.zero_le _) hstart
    intro hgood
    exact hbad ⟨hgood.1, by omega⟩
  have hin := hfills.outside _ hstored
  rw [InBytes, BitVec.add_comm, BitVec.add_sub_cancel, BitVec.toNat_ofNat,
    Nat.mod_eq_of_lt hbound] at hin
  exact Nat.lt_irrefl _ hin

/-- The space is filled exactly if the segments fit. -/
theorem fillsReserved_iff (hvalid : IsValidStaticExecutable m image)
    (hapart : TablesApart m image start (staticExecutableLoadSize m image).toNat) :
    FillsReserved m image start ↔ SegmentsFit (loadedSegments m image) := by
  constructor
  · exact fun hfills => hfills.fit hvalid hapart
  · intro hfit
    have hsize : (staticExecutableLoadSize m image).toNat =
        segmentsSize (loadedSegments m image) := by
      rw [staticExecutableLoadSize_eq hvalid, BitVec.toNat_ofNat, Nat.mod_eq_of_lt hfit.size]
    have hbound := hfit.size
    have hrun := loadStaticExecutableLogged_fits hvalid hapart (by omega) hfit.fits (by omega)
    have hstores : ∀ x, StoredBy (loadStaticExecutableLogged m image start).2 x ↔
        InBytes start (staticExecutableLoadSize m image).toNat x := by
      intro x
      rw [hrun, hsize]
      exact storedBy_allCalls hfit.fits (by omega)
    refine ⟨fun x => (hstores x).mp, fun x => (hstores x).mpr, ?_⟩
    rw [hrun, staticExecutableLoadSize_eq hvalid]

end space

/-! ### A segment of two bytes in the file and one in memory -/

/-- The header of a static executable, with the program headers behind it. -/
def elfHeaderBytes (phnum shentsize shnum : BitVec 8) : List (BitVec 8) :=
  [0x7F, 0x45, 0x4C, 0x46, 1, 1, 1] ++ List.replicate 9 0 ++ [2, 0, 3, 0] ++ wordBytes 1 ++
    wordBytes 0 ++ wordBytes 52 ++ wordBytes 0 ++ wordBytes 0 ++
    [52, 0, 32, 0, phnum, 0, shentsize, 0, shnum, 0, 0, 0]

/-- A program header with `PT_LOAD`. -/
def programHeaderBytes (offset vaddr filesz memsz : BitVec 32) : List (BitVec 8) :=
  wordBytes 1 ++ wordBytes offset ++ wordBytes vaddr ++ wordBytes 0 ++ wordBytes filesz ++
    wordBytes memsz ++ wordBytes 0 ++ wordBytes 0

/-- An image with one segment, which is longer in the file than in memory, or the other way
    round. -/
def oneSegment (long : Bool) : Memory :=
  bytesAt 0x100000 (elfHeaderBytes 1 0 0 ++
    programHeaderBytes 84 0x1000 (cond long 2 1) (cond long 1 2) ++ [1, 1]) fun _ => 0

theorem tables_oneSegment : ∀ long : Bool,
    IsValidStaticExecutable (oneSegment long) 0x100000 ∧
      loadedSegments (oneSegment long) 0x100000 =
        [⟨1, 84, cond long 2 1, cond long 1 2⟩] ∧
      staticExecutableLoadSize (oneSegment long) 0x100000 = cond long 1 2 ∧
      (readElfHeader (oneSegment long) 0x100000).phoff = 52 ∧
      (readElfHeader (oneSegment long) 0x100000).phnum = 1 := by
  decide +kernel

theorem tablesApart_oneSegment (long : Bool) :
    TablesApart (oneSegment long) 0x100000 0x200000 2 := by
  obtain ⟨-, -, -, hphoff, hphnum⟩ := tables_oneSegment long
  constructor
  · intro x himage hstart
    rw [InBytes] at himage hstart
    bv_omega
  · rw [hphoff, hphnum]
    intro x himage hstart
    have himage' : (x - 0x100034).toNat < 32 := himage
    rw [InBytes] at hstart
    bv_omega

theorem TablesApart.mono {m : Memory} {image start : BitVec 32} {n k : Nat}
    (h : TablesApart m image start n) (hk : k ≤ n) : TablesApart m image start k :=
  ⟨fun x himage hstart => h.header x himage (hstart.mono hk),
    fun x himage hstart => h.programs x himage (hstart.mono hk)⟩

theorem fillsReserved_iff_oneSegment : FillsReserved (oneSegment false) 0x100000 0x200000 := by
  obtain ⟨hvalid, hsegs, hsize, -, -⟩ := tables_oneSegment false
  apply (fillsReserved_iff hvalid ?_).mpr
  · rw [hsegs]
    exact ⟨by decide, by decide⟩
  · rw [hsize]
    exact tablesApart_oneSegment false

/-- The byte behind the reserved one is stored to. -/
theorem not_fillsReserved_oneSegment :
    IsValidStaticExecutable (oneSegment true) 0x100000 ∧
      TablesApart (oneSegment true) 0x100000 0x200000
        (staticExecutableLoadSize (oneSegment true) 0x100000).toNat ∧
      ¬FillsReserved (oneSegment true) 0x100000 0x200000 := by
  obtain ⟨hvalid, hsegs, hsize, -, -⟩ := tables_oneSegment true
  have hapart : TablesApart (oneSegment true) 0x100000 0x200000
      (staticExecutableLoadSize (oneSegment true) 0x100000).toNat := by
    rw [hsize]
    exact (tablesApart_oneSegment true).mono (by decide)
  refine ⟨hvalid, hapart, ?_⟩
  intro hfills
  have hfit := hfills.fit hvalid hapart
  rw [hsegs] at hfit
  exact absurd (hfit.fits _ List.mem_cons_self) (by decide)

/-! ## Section 3: The Places of the Segments -/

/-- `phdr[i].p_vaddr`. -/
def programVaddr (m : Memory) (phdr : BitVec 32) (i : Nat) : BitVec 32 :=
  load32 m (phdr + BitVec.ofNat 32 (32 * i) + 8)

/-- A segment that is loaded, with the address it was linked for. -/
structure LinkedSegment where
  header : ProgramHeader
  vaddr : BitVec 32
deriving DecidableEq

/-- The segments that are loaded. -/
def linkedSegments (m : Memory) (image : BitVec 32) : List LinkedSegment :=
  let hdr := readElfHeader m image
  ((List.range hdr.phnum.toNat).map fun i =>
    ⟨readProgramHeader m (image + hdr.phoff) i, programVaddr m (image + hdr.phoff) i⟩).filter
      fun s => s.header.type = 1

/-- The addresses of the segments ascend, and the segments do not overlap. None is longer in the
    file than in memory. -/
structure LinkedInOrder (segs : List LinkedSegment) : Prop where
  ascending : segs.Pairwise fun s t => s.vaddr.toNat + s.header.memsz.toNat ≤ t.vaddr.toNat
  inside : ∀ s ∈ segs, s.vaddr.toNat + s.header.memsz.toNat ≤ 2 ^ 32
  fits : ∀ s ∈ segs, s.header.filesz ≤ s.header.memsz

/-- The lowest address, where they ascend. -/
def lowestVaddr (segs : List LinkedSegment) : BitVec 32 :=
  (segs.head?.map LinkedSegment.vaddr).getD 0

/-- Where a segment is to be, from the start of the kernel on. -/
def LinkedSegment.place (s : LinkedSegment) (segs : List LinkedSegment) : BitVec 32 :=
  s.vaddr - lowestVaddr segs

/-- The byte at `j` of a segment: from the file, and zero behind that. -/
def segmentByte (m : Memory) (image : BitVec 32) (p : ProgramHeader) (j : Nat) : BitVec 8 :=
  if j < p.filesz.toNat then m (image + p.offset + BitVec.ofNat 32 j) else 0

/-- The bytes of a segment. -/
def segmentBytes (m : Memory) (image : BitVec 32) (p : ProgramHeader) : List (BitVec 8) :=
  (List.range p.memsz.toNat).map (segmentByte m image p)

/-- The image is apart from a destination. -/
structure ImageApart (m : Memory) (image start : BitVec 32) (n : Nat) : Prop where
  tables : TablesApart m image start n
  segments : ∀ p ∈ loadedSegments m image, Apart (image + p.offset) p.filesz.toNat start n

/-- Every segment is where its address says, relative to the lowest one. -/
def PlacedByAddress (m : Memory) (image start : BitVec 32) (m' : Memory) : Prop :=
  ∀ s ∈ linkedSegments m image, ∀ j < s.header.memsz.toNat,
    m' (start + s.place (linkedSegments m image) + BitVec.ofNat 32 j) =
      segmentByte m image s.header j

/-- The byte at `x` of the segments one behind the other, or the byte that is there in memory. -/
def backToBackByte (m : Memory) (image start : BitVec 32) (x : Nat) : BitVec 8 :=
  ((loadedSegments m image).flatMap (segmentBytes m image)).getD x (m (start + BitVec.ofNat 32 x))

/-- The segments one behind the other have the bytes of each segment where its address says. -/
def BackToBackCoincides (m : Memory) (image start : BitVec 32) : Prop :=
  ∀ s ∈ linkedSegments m image, ∀ j < s.header.memsz.toNat,
    backToBackByte m image start ((s.place (linkedSegments m image)).toNat + j) =
      segmentByte m image s.header j

/-- The address of each segment is that behind the segments before it. -/
def NoGaps (segs : List LinkedSegment) : Prop :=
  ∀ before s behind, segs = before ++ s :: behind →
    (s.place segs).toNat = segmentsSize (before.map LinkedSegment.header)

section places

variable {m m₀ : Memory} {image start addr : BitVec 32} {n k j : Nat} {p : ProgramHeader}
  {segs : List ProgramHeader} {linked : List LinkedSegment} {s : LinkedSegment}

theorem length_segmentBytes : (segmentBytes m image p).length = p.memsz.toNat := by
  rw [segmentBytes, List.length_map, List.length_range]

theorem length_flatMap_segmentBytes :
    (segs.flatMap (segmentBytes m image)).length = segmentsSize segs := by
  induction segs with
  | nil => rfl
  | cons p segs ih =>
    rw [List.flatMap_cons, List.length_append, length_segmentBytes, ih, segmentsSize_cons]

theorem getD_segmentBytes (hj : j < p.memsz.toNat) :
    (segmentBytes m image p).getD j 0 = segmentByte m image p j := by
  have hj' : j < (segmentBytes m image p).length := by
    rw [length_segmentBytes]
    exact hj
  rw [List.getD_eq_getElem _ _ hj']
  simp [segmentBytes]

/-- The bytes of a segment that has been placed. -/
theorem hasBytes_placeSegment (hfits : p.filesz ≤ p.memsz)
    (hapart : Apart (image + p.offset) p.filesz.toNat addr p.filesz.toNat) :
    HasBytes (placeSegment image p addr m) addr (segmentBytes m image p) := by
  intro j hj
  rw [length_segmentBytes] at hj
  have hle := BitVec.le_def.mp hfits
  have hpadding : (p.memsz - p.filesz).toNat = p.memsz.toNat - p.filesz.toNat :=
    BitVec.toNat_sub_of_le hfits
  have hbound := p.memsz.isLt
  have hin : InBytes (addr + p.filesz) (p.memsz - p.filesz).toNat (addr + BitVec.ofNat 32 j) ↔
      p.filesz.toNat ≤ j := by
    have hiff := inBytes_add_iff (a := addr) (i := p.filesz.toNat) (j := j)
      (n := (p.memsz - p.filesz).toNat) (by omega) (by omega)
    rw [BitVec.ofNat_toNat, BitVec.setWidth_eq] at hiff
    rw [hiff]
    omega
  rw [getD_segmentBytes hj, placeSegment, memset_eq (by omega), segmentByte]
  dsimp only
  by_cases hfile : j < p.filesz.toNat
  · rw [if_neg (fun hx => absurd (hin.mp hx) (by omega)), if_pos hfile]
    exact memmove_add_of_apart hfile hapart
  · rw [if_pos (hin.mpr (by omega)), if_neg hfile]

theorem segmentBytes_congr (honly : OnlyIn start n m₀ m)
    (hapart : Apart (image + p.offset) p.filesz.toNat start n) :
    segmentBytes m image p = segmentBytes m₀ image p := by
  apply List.map_congr_left
  intro j _
  rw [segmentByte, segmentByte]
  split
  · next hj =>
    have hbound := p.filesz.isLt
    exact honly _ (hapart _ (inBytes_add hj (by omega)))
  · rfl

/-- Segments that have been placed one behind the other, `k` bytes into the destination. -/
theorem hasBytes_placeSegments (honly : OnlyIn start n m₀ m) (hn : n ≤ 2 ^ 32)
    (hapart : ∀ p ∈ segs, Apart (image + p.offset) p.filesz.toNat start n)
    (hfits : ∀ p ∈ segs, p.filesz ≤ p.memsz) (hk : k + segmentsSize segs ≤ n)
    (haddr : addr = start + BitVec.ofNat 32 k) :
    HasBytes (placeSegments image segs addr m) addr (segs.flatMap (segmentBytes m₀ image)) ∧
      OnlyIn addr (segmentsSize segs) m (placeSegments image segs addr m) := by
  induction segs generalizing addr m k with
  | nil => exact ⟨fun i hi => absurd hi (Nat.not_lt_zero i), .refl⟩
  | cons p segs ih =>
    obtain ⟨hp, hfits⟩ := List.forall_mem_cons.mp hfits
    obtain ⟨hpapart, hapart⟩ := List.forall_mem_cons.mp hapart
    rw [segmentsSize_cons] at hk ⊢
    have hnext : addr + p.memsz = start + BitVec.ofNat 32 (k + p.memsz.toNat) := by
      rw [haddr, add_memsz]
    have honly' : OnlyIn start n m₀ (placeSegment image p addr m) := by
      rw [haddr]
      exact onlyIn_placeSegment_add hp (by omega) hn honly
    obtain ⟨hbytes, hrest⟩ := ih honly' hapart hfits (by omega) hnext
    have hmemsz : addr + p.memsz = addr + BitVec.ofNat 32 p.memsz.toNat := by
      rw [BitVec.ofNat_toNat, BitVec.setWidth_eq]
    have hle := BitVec.le_def.mp hp
    -- the segment itself, which the later ones leave alone
    have hfirst : HasBytes (placeSegment image p addr m) addr (segmentBytes m image p) := by
      apply hasBytes_placeSegment hp
      intro x hsrc hdes
      apply hpapart x hsrc
      rw [haddr] at hdes
      exact hdes.of_add (by omega) hn
    rw [segmentBytes_congr honly hpapart] at hfirst
    rw [placeSegments]
    constructor
    · rw [List.flatMap_cons]
      apply HasBytes.append
      · apply hfirst.of_eq
        intro i hi
        rw [length_segmentBytes] at hi
        rw [hmemsz] at hrest ⊢
        exact hrest.eq_add (.inl hi) (by omega) (by omega)
      · rw [length_segmentBytes, ← hmemsz]
        exact hbytes
    · apply ((onlyIn_placeSegment hp).mono (Nat.le_add_right _ _)).trans
      rw [hmemsz] at hrest ⊢
      exact hrest.of_add (Nat.le_refl _) (by omega)

theorem loadedSegments_eq : loadedSegments m image =
    (linkedSegments m image).map LinkedSegment.header := by
  rw [loadedSegments, linkedSegments, programHeaders, List.filter_map, List.filter_map,
    List.map_map]
  rfl

/-- Segments in order take no more than the addresses from the lowest one on. -/
theorem LinkedInOrder.size_le (h : LinkedInOrder linked) :
    (lowestVaddr linked).toNat + segmentsSize (linked.map LinkedSegment.header) ≤ 2 ^ 32 := by
  induction linked with
  | nil =>
    show 0 + 0 ≤ 2 ^ 32
    decide
  | cons s linked ih =>
    obtain ⟨hs, hrest⟩ := List.pairwise_cons.mp h.ascending
    obtain ⟨hinside, hinsides⟩ := List.forall_mem_cons.mp h.inside
    have hle := ih ⟨hrest, hinsides, fun t ht => h.fits t (List.mem_cons_of_mem _ ht)⟩
    rw [List.map_cons, segmentsSize_cons]
    show s.vaddr.toNat + _ ≤ _
    cases linked with
    | nil =>
      show _ + (_ + 0) ≤ _
      omega
    | cons t linked =>
      have hst := hs t List.mem_cons_self
      have hlow : lowestVaddr (t :: linked) = t.vaddr := rfl
      rw [hlow] at hle
      omega

/-- The lowest address is that of the first segment. -/
theorem LinkedInOrder.lowest_le (h : LinkedInOrder linked) (hs : s ∈ linked) :
    (lowestVaddr linked).toNat ≤ s.vaddr.toNat := by
  cases linked with
  | nil => exact absurd hs List.not_mem_nil
  | cons t linked =>
    show t.vaddr.toNat ≤ _
    rcases List.mem_cons.mp hs with rfl | hs
    · exact Nat.le_refl _
    · have hle := (List.pairwise_cons.mp h.ascending).1 s hs
      omega

/-- The byte at an offset behind the loading. -/
theorem loadStaticExecutable_byte (hvalid : IsValidStaticExecutable m image)
    (horder : LinkedInOrder (linkedSegments m image))
    (hapart : ImageApart m image start (segmentsSize (loadedSegments m image))) {x : Nat}
    (hx : x < 2 ^ 32) : (loadStaticExecutable m image start).2 (start + BitVec.ofNat 32 x) =
      backToBackByte m image start x := by
  have hsize : segmentsSize (loadedSegments m image) ≤ 2 ^ 32 := by
    rw [loadedSegments_eq]
    exact Nat.le_trans (Nat.le_add_left _ _) horder.size_le
  have hfits : ∀ p ∈ loadedSegments m image, p.filesz ≤ p.memsz := by
    intro p hp
    rw [loadedSegments_eq] at hp
    obtain ⟨s, hs, rfl⟩ := List.mem_map.mp hp
    exact horder.fits s hs
  have hrun := loadStaticExecutableLogged_fits hvalid hapart.tables hsize hfits (Nat.le_refl _)
  rw [← loadStaticExecutableLogged_fst, hrun, backToBackByte]
  dsimp only
  obtain ⟨hbytes, honly⟩ := hasBytes_placeSegments (m := m) (k := 0) .refl hsize hapart.segments
    hfits (by omega) (BitVec.add_zero start).symm
  rcases Nat.lt_or_ge x (segmentsSize (loadedSegments m image)) with hlt | hge
  · have hlength : ((loadedSegments m image).flatMap (segmentBytes m image)).length =
        segmentsSize (loadedSegments m image) := length_flatMap_segmentBytes
    rw [← hlength] at hlt
    rw [hbytes x hlt, List.getD_eq_getElem _ _ hlt, List.getD_eq_getElem _ _ hlt]
  · rw [List.getD_eq_default _ _ (by rw [length_flatMap_segmentBytes]; exact hge)]
    apply honly
    intro hin
    rw [InBytes, BitVec.add_comm, BitVec.add_sub_cancel, BitVec.toNat_ofNat,
      Nat.mod_eq_of_lt hx] at hin
    omega

/-- Without gaps between the segments, they are where their addresses say. -/
theorem NoGaps.coincides (h : NoGaps (linkedSegments m image)) :
    BackToBackCoincides m image start := by
  intro s hs j hj
  obtain ⟨before, behind, hsplit⟩ := List.append_of_mem hs
  have hbefore : ((before.map LinkedSegment.header).flatMap (segmentBytes m image)).length =
      segmentsSize (before.map LinkedSegment.header) := length_flatMap_segmentBytes
  have hbytes : j < (segmentBytes m image s.header).length := by
    rw [length_segmentBytes]
    exact hj
  rw [h before s behind hsplit, backToBackByte, loadedSegments_eq, hsplit, List.map_append,
    List.map_cons, List.flatMap_append, List.flatMap_cons,
    List.getD_append_right _ _ _ _ (by omega), hbefore, Nat.add_sub_cancel_left,
    List.getD_append _ _ _ _ hbytes, ← getD_segmentBytes hj, List.getD_eq_getElem _ _ hbytes,
    List.getD_eq_getElem _ _ hbytes]

/-- The segments are where their addresses say exactly if the segments one behind the other have
    the same bytes there. -/
theorem placedByAddress_iff (hvalid : IsValidStaticExecutable m image)
    (horder : LinkedInOrder (linkedSegments m image))
    (hapart : ImageApart m image start (segmentsSize (loadedSegments m image))) :
    PlacedByAddress m image start (loadStaticExecutable m image start).2 ↔
      BackToBackCoincides m image start := by
  apply forall₂_congr
  intro s hs
  apply forall₂_congr
  intro j hj
  have hinside := horder.inside s hs
  have hlow := horder.lowest_le hs
  have hplace : (s.place (linkedSegments m image)).toNat =
      s.vaddr.toNat - (lowestVaddr (linkedSegments m image)).toNat :=
    BitVec.toNat_sub_of_le (BitVec.le_def.mpr hlow)
  have haddr : start + s.place (linkedSegments m image) + BitVec.ofNat 32 j =
      start + BitVec.ofNat 32 ((s.place (linkedSegments m image)).toNat + j) := by
    rw [BitVec.ofNat_add, BitVec.ofNat_toNat, BitVec.setWidth_eq, BitVec.add_assoc]
  rw [haddr, loadStaticExecutable_byte hvalid horder hapart (by omega)]

end places

/-! ### Segments with and without a gap -/

/-- An image with two segments of one byte. With the gap, the second one is linked for an address
    4 KiB further on, without it for the next address. -/
def twoSegments (gap : Bool) : Memory :=
  bytesAt 0x100000 (elfHeaderBytes 2 0 0 ++ programHeaderBytes 116 0x1000 1 1 ++
    programHeaderBytes 117 (cond gap 0x2000 0x1001) 1 1 ++ [1, 2]) fun _ => 0

theorem tables_twoSegments : ∀ gap : Bool,
    IsValidStaticExecutable (twoSegments gap) 0x100000 ∧
      linkedSegments (twoSegments gap) 0x100000 =
        [⟨⟨1, 116, 1, 1⟩, 0x1000⟩, ⟨⟨1, 117, 1, 1⟩, cond gap 0x2000 0x1001⟩] ∧
      (readElfHeader (twoSegments gap) 0x100000).phoff = 52 ∧
      (readElfHeader (twoSegments gap) 0x100000).phnum = 2 ∧
      twoSegments gap 0x100075 = 2 ∧ twoSegments gap 0x201000 = 0 := by
  decide +kernel

theorem linkedInOrder_twoSegments (gap : Bool) :
    LinkedInOrder (linkedSegments (twoSegments gap) 0x100000) := by
  rw [(tables_twoSegments gap).2.1]
  cases gap with
  | false => exact ⟨by decide, by decide, by decide⟩
  | true => exact ⟨by decide, by decide, by decide⟩

theorem loadedSegments_twoSegments (gap : Bool) :
    loadedSegments (twoSegments gap) 0x100000 = [⟨1, 116, 1, 1⟩, ⟨1, 117, 1, 1⟩] := by
  rw [loadedSegments_eq, (tables_twoSegments gap).2.1]
  rfl

/-- The image is apart from the 64 KiB from 2 MiB on. -/
theorem imageApart_twoSegments (gap : Bool) {n : Nat} (hn : n ≤ 0x10000) :
    ImageApart (twoSegments gap) 0x100000 0x200000 n := by
  obtain ⟨-, -, hphoff, hphnum, -, -⟩ := tables_twoSegments gap
  have hfar : ∀ {a : BitVec 32} {k : Nat}, 0x100000 ≤ a.toNat → a.toNat + k ≤ 0x200000 →
      Apart a k 0x200000 n := by
    intro a k hlow hhigh x hx hstart
    rw [InBytes] at hx hstart
    bv_omega
  refine ⟨⟨?_, ?_⟩, ?_⟩
  · exact hfar (by decide) (by decide)
  · rw [hphoff, hphnum]
    exact hfar (by decide) (by decide)
  · rw [loadedSegments_twoSegments]
    intro p hp
    rcases List.mem_pair.mp hp with rfl | rfl
    · exact hfar (by decide) (by decide)
    · exact hfar (by decide) (by decide)

theorem placedByAddress_iff_twoSegments :
    PlacedByAddress (twoSegments false) 0x100000 0x200000
      (loadStaticExecutable (twoSegments false) 0x100000 0x200000).2 := by
  obtain ⟨hvalid, hlinked, -⟩ := tables_twoSegments false
  have hapart : ImageApart (twoSegments false) 0x100000 0x200000
      (segmentsSize (loadedSegments (twoSegments false) 0x100000)) := by
    rw [loadedSegments_twoSegments]
    exact imageApart_twoSegments false (by decide)
  apply (placedByAddress_iff hvalid (linkedInOrder_twoSegments false) hapart).mpr
  apply NoGaps.coincides
  rw [hlinked]
  intro before s behind hsplit
  match before, hsplit with
  | [], hsplit =>
    obtain ⟨rfl, -⟩ := List.cons.inj hsplit
    rfl
  | [_], hsplit =>
    obtain ⟨rfl, hrest⟩ := List.cons.inj hsplit
    obtain ⟨rfl, -⟩ := List.cons.inj hrest
    rfl
  | _ :: _ :: before, hsplit =>
    have hlength := congrArg List.length hsplit
    simp at hlength

/-- The second segment is at the second byte, and not 4 KiB behind the first. -/
theorem not_placedByAddress_twoSegments :
    IsValidStaticExecutable (twoSegments true) 0x100000 ∧
      LinkedInOrder (linkedSegments (twoSegments true) 0x100000) ∧
      ImageApart (twoSegments true) 0x100000 0x200000 0x1001 ∧
      ¬PlacedByAddress (twoSegments true) 0x100000 0x200000
        (loadStaticExecutable (twoSegments true) 0x100000 0x200000).2 := by
  obtain ⟨hvalid, hlinked, -, -, hbyte, hzero⟩ := tables_twoSegments true
  refine ⟨hvalid, linkedInOrder_twoSegments true, imageApart_twoSegments true (by decide), ?_⟩
  intro hplaced
  have hapart : ImageApart (twoSegments true) 0x100000 0x200000
      (segmentsSize (loadedSegments (twoSegments true) 0x100000)) := by
    rw [loadedSegments_twoSegments]
    exact imageApart_twoSegments true (by decide)
  have hsecond := hplaced ⟨⟨1, 117, 1, 1⟩, 0x2000⟩ (by rw [hlinked]; decide) 0 (by decide)
  have haddr : (0x200000 : BitVec 32) + (0x2000 - lowestVaddr (linkedSegments (twoSegments true)
      0x100000)) + BitVec.ofNat 32 0 = 0x200000 + BitVec.ofNat 32 0x1000 := by
    rw [hlinked]
    rfl
  -- there are only two bytes, so that the byte 4 KiB further on is that of memory
  have hshort : ((loadedSegments (twoSegments true) 0x100000).flatMap
      (segmentBytes (twoSegments true) 0x100000)).length ≤ 0x1000 := by
    rw [length_flatMap_segmentBytes, loadedSegments_twoSegments]
    decide
  have hold : (0x200000 : BitVec 32) + BitVec.ofNat 32 0x1000 = 0x201000 := by
    decide
  rw [LinkedSegment.place, haddr, loadStaticExecutable_byte hvalid
    (linkedInOrder_twoSegments true) hapart (by decide), backToBackByte,
    List.getD_eq_default _ _ hshort, hold, hzero] at hsecond
  have hfile : segmentByte (twoSegments true) 0x100000 ⟨1, 117, 1, 1⟩ 0 =
      twoSegments true 0x100075 := rfl
  rw [hfile, hbyte] at hsecond
  exact absurd hsecond (by decide)

end Avos.Multiboot
