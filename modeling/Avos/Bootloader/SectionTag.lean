import Avos.Bootloader.LoadKernelFile
import Avos.Bootloader.SegmentLoad

/-! # The Tag with the Section Headers

  `Multiboot_SaveELFSectionHeaders` of `bootloader/multiboot/src/multiboot.c` adds the section
  headers of the kernel file to the information record. The tag is as long as the table is, and
  the table has `e_shnum * e_shentsize` bytes. Other savers fill their tags up to a multiple of
  eight bytes, this one does not; the record remains valid only where that is the case anyhow
  (`saveElfSectionHeaders_keepsWorking_iff`).
-/

open ByteMemory

namespace Avos.Multiboot

/-! ## Section 1: The Table -/

/-- The bytes of the section header table, as `Elf32_LoadSectionHeaderTable` copies it. -/
def tableBytes (m : Memory) (image : BitVec 32) : Nat :=
  if (readElfHeader m image).IsValidElf then (sectionTableSize m image).toNat else 0

section table

variable {m m' : Memory} {image start : BitVec 32} {n : Nat}

theorem readElfHeader_congr (h : ∀ x, InBytes image 52 x → m' x = m x) :
    readElfHeader m' image = readElfHeader m image := by
  have hbyte : ∀ i < 7, m' (image + BitVec.ofNat 32 i) = m (image + BitVec.ofNat 32 i) :=
    fun i hi => h _ (inBytes_add (by omega) (by decide))
  have hword : ∀ i, i + 2 ≤ 52 →
      load16 m' (image + BitVec.ofNat 32 i) = load16 m (image + BitVec.ofNat 32 i) :=
    fun i hi => load16_congr fun x hx => h x (hx.of_add hi (by decide))
  have hlong : ∀ i, i + 4 ≤ 52 →
      load32 m' (image + BitVec.ofNat 32 i) = load32 m (image + BitVec.ofNat 32 i) :=
    fun i hi => load32_congr_of_add h hi (by decide)
  have hident : (List.range 7).map (fun i => m' (image + BitVec.ofNat 32 i)) =
      (List.range 7).map fun i => m (image + BitVec.ofNat 32 i) :=
    List.map_congr_left fun i hi => hbyte i (List.mem_range.mp hi)
  rw [readElfHeader, readElfHeader, hident]
  congr 1
  · exact hword 16 (by decide)
  · exact hword 18 (by decide)
  · exact hlong 20 (by decide)
  · exact hlong 28 (by decide)
  · exact hlong 32 (by decide)
  · exact hword 40 (by decide)
  · exact hword 42 (by decide)
  · exact hword 44 (by decide)
  · exact hword 48 (by decide)

theorem sectionTableSize_congr (h : ∀ x, InBytes image 52 x → m' x = m x) :
    sectionTableSize m' image = sectionTableSize m image := by
  have hword : ∀ i, i + 2 ≤ 52 →
      load16 m' (image + BitVec.ofNat 32 i) = load16 m (image + BitVec.ofNat 32 i) :=
    fun i hi => load16_congr fun x hx => h x (hx.of_add hi (by decide))
  have hnum : load16 m' (image + 48) = load16 m (image + 48) := hword 48 (by decide)
  have hsize : load16 m' (image + 46) = load16 m (image + 46) := hword 46 (by decide)
  rw [sectionTableSize, sectionTableSize, hnum, hsize]

theorem tableBytes_congr (h : ∀ x, InBytes image 52 x → m' x = m x) :
    tableBytes m' image = tableBytes m image := by
  rw [tableBytes, tableBytes, readElfHeader_congr h, sectionTableSize_congr h]

/-- The numbers before the table. -/
theorem onlyIn_tableNumbers {v v' v'' : BitVec 16} : OnlyIn start 8 m
    (store16 (store16 (store16 (store16 m start v) (start + 2) v') (start + 4) v'')
      (start + 6) 0) := by
  have hstore : ∀ {m₁ : Memory} {w : BitVec 16} (i : Nat), i + 2 ≤ 8 →
      OnlyIn start 8 m₁ (store16 m₁ (start + BitVec.ofNat 32 i) w) :=
    fun i hi => onlyIn_store16.of_add hi (by decide)
  have hfirst : OnlyIn start 8 m (store16 m start v) := onlyIn_store16.mono (by decide)
  exact ((hfirst.trans (hstore 2 (by decide))).trans (hstore 4 (by decide))).trans
    (hstore 6 (by decide))

/-- `Elf32_LoadSectionHeaderTable` with the numbers before the table: where the header is apart
    from the destination, it is the same each time that it is read. -/
theorem loadSectionHeaderTable_spec (hn : 8 + tableBytes m image ≤ 2 ^ 32)
    (hapart : Apart image 52 start (8 + tableBytes m image)) :
    (loadSectionHeaderTable m image start true).1 = BitVec.ofNat 32 (8 + tableBytes m image) ∧
      OnlyIn start (8 + tableBytes m image) m (loadSectionHeaderTable m image start true).2 := by
  by_cases hvalid : (readElfHeader m image).IsValidElf
  · have htable : tableBytes m image = (sectionTableSize m image).toNat := if_pos hvalid
    rw [htable] at hn hapart ⊢
    rw [loadSectionHeaderTable, if_neg (not_not.mpr hvalid)]
    simp only [if_true]
    generalize hm₁ : store16 (store16 (store16 (store16 m start (load16 m (image + 48)))
      (start + 2) _) (start + 4) _) (start + 6) 0 = m₁
    have honly₁ : OnlyIn start (8 + (sectionTableSize m image).toNat) m m₁ := by
      rw [← hm₁]
      exact onlyIn_tableNumbers.mono (Nat.le_add_right _ _)
    have hsize₁ : sectionTableSize m₁ image = sectionTableSize m image :=
      sectionTableSize_congr fun x hx => honly₁ x (hapart x hx)
    rw [hsize₁]
    generalize hm₂ : memmove m₁ (8 + start) _ (sectionTableSize m image) = m₂
    have hmove : OnlyIn (start + BitVec.ofNat 32 8) (sectionTableSize m image).toNat m₁ m₂ := by
      rw [← hm₂, BitVec.add_comm]
      exact onlyIn_memmove
    have honly : OnlyIn start (8 + (sectionTableSize m image).toNat) m m₂ :=
      honly₁.trans (hmove.of_add (Nat.le_refl _) hn)
    have hsize₂ : sectionTableSize m₂ image = sectionTableSize m image :=
      sectionTableSize_congr fun x hx => honly x (hapart x hx)
    refine ⟨?_, honly⟩
    rw [hsize₂, BitVec.ofNat_add, BitVec.ofNat_toNat, BitVec.setWidth_eq]
    rfl
  · have htable : tableBytes m image = 0 := if_neg hvalid
    rw [htable, loadSectionHeaderTable, if_pos hvalid]
    exact ⟨rfl, .refl⟩

end table

/-! ## Section 2: The Record With the Tag -/

/-- The record is valid, and so the functions on it work: a search that ends has found a tag of
    the type or the terminator, and a tag can be ended. -/
structure KeepsWorking (m : Memory) (mbi : BitVec 32) : Prop where
  valid : checkForValidMbi m mbi = true
  total : load32 m mbi % 8 = 0
  find : ∀ fuel type tag, findMbiTagAddress fuel m mbi type = some tag →
    load32 m tag = type ∨ load32 m tag = 0 ∧ load32 m (tag + 4) = 8
  terminate : ∀ tag, (terminateTag m mbi tag).1 = true

/-- Where the record ends, by its size. -/
def endAddr (m : Memory) (mbi : BitVec 32) : BitVec 32 := load32 m mbi + mbi - 8

section record

variable {m m₁ : Memory} {mbi image tag type : BitVec 32} {fuel n k : Nat} {total : BitVec 32}

theorem checkForValidMbi_iff : checkForValidMbi m mbi = true ↔
    mbi % 8 = 0 ∧ load32 m (mbi + 4) = 0 ∧ 16 ≤ load32 m mbi ∧ load32 m mbi % 8 = 0 ∧
      load32 m (endAddr m mbi) = 0 ∧ load32 m (endAddr m mbi + 4) = 8 := by
  unfold checkForValidMbi endAddr
  dsimp only
  split
  · next hbad =>
    refine iff_of_false (by decide) ?_
    rintro ⟨halign, hreserved, hmin, htotal, -, -⟩
    rcases hbad with hbad | hbad | hbad | hbad
    · exact hbad halign
    · exact hbad hreserved
    · exact BitVec.not_lt.mpr hmin hbad
    · exact hbad htotal
  · next hgood =>
    simp only [not_or, not_not, BitVec.not_lt] at hgood
    obtain ⟨halign, hreserved, hmin, htotal⟩ := hgood
    split
    · next hbad =>
      refine iff_of_false (by decide) ?_
      rintro ⟨-, -, -, -, htype, hsize⟩
      rcases hbad with hbad | hbad
      · exact hbad htype
      · exact hbad hsize
    · next hterm =>
      simp only [not_or, not_not] at hterm
      exact iff_of_true rfl ⟨halign, hreserved, hmin, htotal, hterm.1, hterm.2⟩

/-- A search in a valid record gives a tag of the type, or the terminator. -/
theorem findMbiTagAddress_cases (hvalid : checkForValidMbi m mbi = true)
    (hfind : findMbiTagAddress fuel m mbi type = some tag) :
    load32 m tag = type ∨ tag = endAddr m mbi := by
  obtain ⟨-, -, -, -, htype, hsize⟩ := checkForValidMbi_iff.mp hvalid
  have hlast : ∀ ret, (if load32 m ret = type then some ret
      else if load32 m (endAddr m mbi) ≠ 0 ∨ load32 m (endAddr m mbi + 4) ≠ 8 then
        some memoryNullPtr
      else some (endAddr m mbi)) = some tag → load32 m tag = type ∨ tag = endAddr m mbi := by
    intro ret hret
    split at hret
    · next hfound =>
      rw [Option.some.inj hret] at hfound
      exact .inl hfound
    · rw [if_neg (fun hbad => hbad.elim (fun h => h htype) fun h => h hsize)] at hret
      exact .inr (Option.some.inj hret).symm
  rw [findMbiTagAddress, if_neg (not_not.mpr hvalid)] at hfind
  cases hsearch : searchMbi m fuel mbi type with
  | none =>
    rw [hsearch] at hfind
    cases hfind
  | some out =>
    rw [hsearch] at hfind
    cases out with
    | error ret => exact hlast ret hfind
    | ok ret => exact hlast ret hfind

theorem keepsWorking_iff : KeepsWorking m mbi ↔ checkForValidMbi m mbi = true := by
  constructor
  · exact fun h => h.valid
  · intro hvalid
    obtain ⟨halign, hreserved, -, htotal, htype, hsize⟩ := checkForValidMbi_iff.mp hvalid
    refine ⟨hvalid, htotal, ?_, ?_⟩
    · intro fuel type tag hfind
      rcases findMbiTagAddress_cases hvalid hfind with hfound | rfl
      · exact .inl hfound
      · exact .inr ⟨htype, hsize⟩
    · intro tag
      rw [terminateTag, if_neg]
      · dsimp only
        split
        · rfl
        split
        · rfl
        · rfl
      · rintro (hbad | hbad | hbad)
        · exact hbad halign
        · exact hbad hreserved
        · exact hbad htotal

/-- The end of a record, by an offset. -/
theorem endAddr_eq (hmin : 16 ≤ (load32 m mbi).toNat) :
    endAddr m mbi = mbi + BitVec.ofNat 32 ((load32 m mbi).toNat - 8) := by
  rw [endAddr]
  bv_omega

/-- A tag of `k` bytes is ended. The record remains valid exactly if that is a multiple of
    eight. -/
theorem checkForValidMbi_terminateTag (hvalid : checkForValidMbi m mbi = true)
    (hroom : mbi.toNat + (load32 m mbi).toNat + k < 2 ^ 32) (hk : 8 ≤ k)
    (honly : OnlyIn (endAddr m mbi) k m m₁) (htype : load32 m₁ (endAddr m mbi) ≠ 0)
    (hsize : load32 m₁ (endAddr m mbi + 4) = BitVec.ofNat 32 k) :
    checkForValidMbi (terminateTag m₁ mbi (endAddr m mbi)).2 mbi = true ↔ k % 8 = 0 := by
  obtain ⟨halign, hreserved, hmin, htotal, -, -⟩ := checkForValidMbi_iff.mp hvalid
  have hmin' : 16 ≤ (load32 m mbi).toNat := BitVec.le_def.mp hmin
  have hend := endAddr_eq hmin'
  generalize hlast : (load32 m mbi).toNat - 8 = last at hend
  rw [hend] at honly
  -- the start of the record has not changed
  have htotal₁ : load32 m₁ mbi = load32 m mbi := by
    have h0 := honly.load32_add (j := 0) (.inl (by omega)) (by omega) (by omega)
    rw [BitVec.add_zero] at h0
    exact h0
  have hreserved₁ : load32 m₁ (mbi + 4) = load32 m (mbi + 4) :=
    honly.load32_add (j := 4) (.inl (by omega)) (by omega) (by omega)
  have hne : load32 m₁ (endAddr m mbi + 4) ≠ 0 := by
    rw [hsize]
    intro hzero
    have hzero' := congrArg BitVec.toNat hzero
    have h0 : (0 : BitVec 32).toNat = 0 := rfl
    rw [BitVec.toNat_ofNat, h0] at hzero'
    omega
  have hterm : load32 m₁ (endAddr m mbi + 4) + endAddr m mbi =
      mbi + BitVec.ofNat 32 (last + k) := by
    rw [hsize, hend, BitVec.add_comm, BitVec.add_assoc, ← BitVec.ofNat_add]
  generalize hm₂ : newTerm m₁ (mbi + BitVec.ofNat 32 (last + k)) = m₂
  have hnew : OnlyIn (mbi + BitVec.ofNat 32 (last + k)) 8 m₁ m₂ := hm₂ ▸ onlyIn_newTerm
  have htotal₂ : load32 m₂ mbi = load32 m mbi := by
    have h0 := hnew.load32_add (j := 0) (.inl (by omega)) (by omega) (by omega)
    rw [BitVec.add_zero] at h0
    exact h0.trans htotal₁
  have hsize₂ : load32 m₂ (endAddr m mbi + 4) = BitVec.ofNat 32 k := by
    have h4 := hnew.load32_add (j := last + 4) (.inl (by omega)) (by omega) (by omega)
    rw [BitVec.ofNat_add, ← BitVec.add_assoc, ← hend] at h4
    exact h4.trans hsize
  have hres : (terminateTag m₁ mbi (endAddr m mbi)).2 =
      store32 m₂ mbi (load32 m mbi + BitVec.ofNat 32 k) := by
    rw [terminateTag, if_neg]
    · dsimp only
      rw [if_neg (fun hnull => htype hnull.1), if_neg hne, hterm]
      show store32 (newTerm m₁ _) mbi (load32 (newTerm m₁ _) mbi + load32 (newTerm m₁ _) _) = _
      rw [hm₂, htotal₂, hsize₂]
    · rintro (hbad | hbad | hbad)
      · exact hbad halign
      · rw [hreserved₁] at hbad
        exact hbad hreserved
      · rw [htotal₁] at hbad
        exact hbad htotal
  rw [hres]
  generalize hm₃ : store32 m₂ mbi (load32 m mbi + BitVec.ofNat 32 k) = m₃
  have hstart : OnlyIn (mbi + BitVec.ofNat 32 0) 4 m₂ m₃ := by
    rw [← hm₃, BitVec.add_zero]
    exact onlyIn_store32
  have htotal₃ : load32 m₃ mbi = load32 m mbi + BitVec.ofNat 32 k := by
    rw [← hm₃]
    exact load32_store32
  have htotal' : (load32 m₃ mbi).toNat = (load32 m mbi).toNat + k := by
    rw [htotal₃]
    exact toNat_add_ofNat (by omega)
  have hreserved₃ : load32 m₃ (mbi + 4) = 0 := by
    have h4 := hstart.load32_add (j := 4) (.inr (by omega)) (by omega) (by omega)
    have h4' := hnew.load32_add (j := 4) (.inl (by omega)) (by omega) (by omega)
    exact h4.trans (h4'.trans (hreserved₁.trans hreserved))
  have hend₃ : endAddr m₃ mbi = mbi + BitVec.ofNat 32 (last + k) := by
    have hlast' : last + k = (load32 m₃ mbi).toNat - 8 := by
      omega
    rw [hlast']
    exact endAddr_eq (by omega)
  have htype₃ : load32 m₃ (endAddr m₃ mbi) = 0 := by
    rw [hend₃, hstart.load32_add (.inr (by omega)) (by omega) (by omega), ← hm₂]
    exact load32_newTerm
  have hsize₃ : load32 m₃ (endAddr m₃ mbi + 4) = 8 := by
    have h8 : load32 m₂ (mbi + BitVec.ofNat 32 (last + k) + 4) = 8 := by
      rw [← hm₂]
      exact load32_newTerm_size
    have h4 := hstart.load32_add (j := last + k + 4) (.inr (by omega)) (by omega) (by omega)
    rw [BitVec.ofNat_add _ 4, ← BitVec.add_assoc] at h4
    rw [hend₃]
    exact h4.trans h8
  rw [umod8_eq_zero_iff] at htotal
  constructor
  · intro hvalid₃
    obtain ⟨-, -, -, htotal₃, -, -⟩ := checkForValidMbi_iff.mp hvalid₃
    rw [umod8_eq_zero_iff, htotal'] at htotal₃
    omega
  · intro hmod
    refine checkForValidMbi_iff.mpr ⟨halign, hreserved₃, ?_, ?_, htype₃, hsize₃⟩
    · have h16 : (16 : BitVec 32).toNat = 16 := rfl
      rw [BitVec.le_def, h16, htotal']
      omega
    · rw [umod8_eq_zero_iff, htotal']
      omega

end record

section saver

variable {β : Type*} {fuel : Nat} {mbi tag : BitVec 32} {info : KernelInfo} {s : Loader β}
  {l : List MbiTag}

/-- The tag of `Multiboot_SaveELFSectionHeaders`, before it is ended. -/
theorem saveElfSectionHeaders_eq (info : KernelInfo) (hnull : tag ≠ memoryNullPtr)
    (htype : load32 s.mem tag = 0)
    (hfind : findMbiTagAddress fuel s.mem mbi 9 = some tag)
    (hn : 16 + tableBytes s.mem info.fileAddr ≤ 2 ^ 32)
    (hapart : Apart info.fileAddr 52 tag (16 + tableBytes s.mem info.fileAddr)) :
    ∃ m, saveElfSectionHeaders fuel mbi info s =
        some (true, { s with mem := (terminateTag m mbi tag).2 }) ∧
      OnlyIn tag (16 + tableBytes s.mem info.fileAddr) s.mem m ∧ load32 m tag = 9 ∧
      load32 m (tag + 4) = BitVec.ofNat 32 (16 + tableBytes s.mem info.fileAddr) := by
  generalize hm₁ : store16 (store16 (store16 (store32 s.mem tag 9) (tag + 8) 0) (tag + 10) 0)
    (tag + 12) 0 = m₁
  have hstore : ∀ {m : Memory} (i : Nat), 8 ≤ i → i + 2 ≤ 16 →
      OnlyIn (tag + BitVec.ofNat 32 8) 8 m (store16 m (tag + BitVec.ofNat 32 i) 0) :=
    fun i hi hi' => onlyIn_store16.of_offsets hi (by omega) (by decide)
  have hfields : OnlyIn (tag + BitVec.ofNat 32 8) 8 (store32 s.mem tag 9) m₁ := by
    rw [← hm₁]
    exact ((hstore 8 (by decide) (by decide)).trans (hstore 10 (by decide) (by decide))).trans
      (hstore 12 (by decide) (by decide))
  have honly₁ : OnlyIn tag 16 s.mem m₁ :=
    (onlyIn_store32.mono (by decide)).trans (hfields.of_add (by decide) (by decide))
  have hsame₁ : ∀ x, InBytes info.fileAddr 52 x → m₁ x = s.mem x :=
    fun x hx => honly₁ x fun hin => hapart x hx (hin.mono (Nat.le_add_right _ _))
  have hbytes := tableBytes_congr hsame₁
  -- the table goes behind the fields of the tag
  have hroom : 8 + tableBytes m₁ info.fileAddr ≤ 2 ^ 32 := by
    omega
  have hbehind : Apart info.fileAddr 52 (tag + BitVec.ofNat 32 8)
      (8 + tableBytes m₁ info.fileAddr) := by
    intro x hx hin
    exact hapart x hx (hin.of_add (by omega) hn)
  obtain ⟨hsize, htable⟩ := loadSectionHeaderTable_spec hroom hbehind
  rw [hbytes] at hsize htable
  generalize hloaded : loadSectionHeaderTable m₁ info.fileAddr (tag + BitVec.ofNat 32 8) true =
    loaded at hsize htable
  have hsum : loaded.1 + 8 = BitVec.ofNat 32 (16 + tableBytes s.mem info.fileAddr) := by
    have h16 : 16 + tableBytes s.mem info.fileAddr = 8 + tableBytes s.mem info.fileAddr + 8 := by
      omega
    rw [hsize, h16, BitVec.ofNat_add _ 8]
    rfl
  have hsizeStore : OnlyIn (tag + BitVec.ofNat 32 4) 4 loaded.2
      (store32 loaded.2 (tag + 4) (loaded.1 + 8)) := onlyIn_store32
  refine ⟨store32 loaded.2 (tag + 4) (loaded.1 + 8), ?_, ?_, ?_, ?_⟩
  · have hgo : ¬(tag = memoryNullPtr ∨ load32 s.mem tag ≠ 0) := by
      rintro (hbad | hbad)
      · exact hnull hbad
      · exact hbad htype
    have hloaded' : loadSectionHeaderTable m₁ info.fileAddr (8 + tag) true = loaded := by
      rw [BitVec.add_comm]
      exact hloaded
    rw [saveElfSectionHeaders, saveTag, hfind]
    dsimp only
    rw [if_neg hgo, hm₁, hloaded']
    rfl
  · apply (honly₁.mono (Nat.le_add_right _ _)).trans
    apply (htable.of_add (by omega) hn).trans
    exact hsizeStore.of_add (by omega) hn
  · have h0 := hsizeStore.load32_add (j := 0) (.inl (by decide)) (by decide) (by decide)
    have h0' := htable.load32_add (j := 0) (.inl (by decide)) (by omega) (by decide)
    have h0'' := hfields.load32_add (j := 0) (.inl (by decide)) (by decide) (by decide)
    rw [BitVec.add_zero] at h0 h0' h0''
    exact h0.trans (h0'.trans (h0''.trans load32_store32))
  · rw [load32_store32]
    exact hsum

/-- Where there is no such tag, the record remains valid exactly if the table has a multiple of
    eight bytes. -/
theorem keepsWorking_iff_tableBytes (hvalid : checkForValidMbi s.mem mbi = true)
    (hfind : findMbiTagAddress fuel s.mem mbi 9 = some tag) (hnew : load32 s.mem tag ≠ 9)
    (hroom : mbi.toNat + (load32 s.mem mbi).toNat +
      (16 + tableBytes s.mem info.fileAddr) < 2 ^ 32)
    (hapart : Apart info.fileAddr 52 (endAddr s.mem mbi)
      (16 + tableBytes s.mem info.fileAddr)) :
    (∃ b s', saveElfSectionHeaders fuel mbi info s = some (b, s') ∧ KeepsWorking s'.mem mbi) ↔
      tableBytes s.mem info.fileAddr % 8 = 0 := by
  obtain ⟨-, -, hmin, -, hzero, -⟩ := checkForValidMbi_iff.mp hvalid
  obtain rfl := (findMbiTagAddress_cases hvalid hfind).resolve_left hnew
  have hnull : endAddr s.mem mbi ≠ memoryNullPtr := by
    have hmin' : 16 ≤ (load32 s.mem mbi).toNat := BitVec.le_def.mp hmin
    have hlimit : memoryNullPtr.toNat = 2 ^ 32 - 1 := rfl
    intro heq
    rw [endAddr_eq hmin'] at heq
    have htoNat := congrArg BitVec.toNat heq
    rw [toNat_add_ofNat (by omega), hlimit] at htoNat
    omega
  obtain ⟨m, hsave, honly, htype, hsize⟩ :=
    saveElfSectionHeaders_eq info hnull hzero hfind (by omega) hapart
  have hne : load32 m (endAddr s.mem mbi) ≠ 0 := by
    rw [htype]
    decide
  have hiff := checkForValidMbi_terminateTag hvalid hroom (by omega) honly hne hsize
  have hkeeps : (∃ b s', saveElfSectionHeaders fuel mbi info s = some (b, s') ∧
      KeepsWorking s'.mem mbi) ↔ (16 + tableBytes s.mem info.fileAddr) % 8 = 0 := by
    rw [← hiff, ← keepsWorking_iff]
    constructor
    · rintro ⟨b, s', hrun, hworks⟩
      rw [hsave] at hrun
      obtain ⟨-, rfl⟩ := Prod.mk.inj (Option.some.inj hrun)
      exact hworks
    · exact fun hworks => ⟨true, _, hsave, hworks⟩
  rw [hkeeps]
  omega

/-- Where there is such a tag, nothing is stored. -/
theorem saveElfSectionHeaders_found (info : KernelInfo)
    (hfind : findMbiTagAddress fuel s.mem mbi 9 = some tag)
    (hfound : load32 s.mem tag = 9) :
    saveElfSectionHeaders fuel mbi info s = some (false, s) := by
  have hstop : tag = memoryNullPtr ∨ load32 s.mem tag ≠ 0 := by
    rw [hfound]
    exact .inr (by decide)
  rw [saveElfSectionHeaders, saveTag, hfind]
  exact if_pos hstop

/-- The record remains valid exactly if nothing is stored because there is such a tag, or the
    table has a multiple of eight bytes, as it has where the file is not in ELF. -/
theorem saveElfSectionHeaders_keepsWorking_iff (hvalid : checkForValidMbi s.mem mbi = true)
    (hfind : findMbiTagAddress fuel s.mem mbi 9 = some tag)
    (hroom : mbi.toNat + (load32 s.mem mbi).toNat +
      (16 + tableBytes s.mem info.fileAddr) < 2 ^ 32)
    (hapart : Apart info.fileAddr 52 (endAddr s.mem mbi)
      (16 + tableBytes s.mem info.fileAddr)) :
    (∃ b s', saveElfSectionHeaders fuel mbi info s = some (b, s') ∧ KeepsWorking s'.mem mbi) ↔
      load32 s.mem tag = 9 ∨ ¬(readElfHeader s.mem info.fileAddr).IsValidElf ∨
        (sectionTableSize s.mem info.fileAddr).toNat % 8 = 0 := by
  by_cases hfound : load32 s.mem tag = 9
  · have hsame := saveElfSectionHeaders_found info hfind hfound
    exact iff_of_true ⟨false, s, hsame, keepsWorking_iff.mpr hvalid⟩ (.inl hfound)
  · rw [keepsWorking_iff_tableBytes hvalid hfind hfound hroom hapart, or_iff_right hfound,
      tableBytes]
    by_cases helf : (readElfHeader s.mem info.fileAddr).IsValidElf
    · rw [if_pos helf, or_iff_right (not_not.mpr helf)]
    · rw [if_neg helf]
      exact iff_of_true rfl (.inl helf)

/-- The tag, where the table has a multiple of eight bytes. -/
def sectionsTag (n : Nat) (hn : n % 8 = 0) : MbiTag where
  type := 9
  size := 16 + n
  type_ne := by decide
  size_ge := by omega
  size_mod := by omega

/-- A record that has no such tag gets it behind its other tags. -/
theorem saveElfSectionHeaders_extends (h : IsRecord s.mem mbi l)
    (hnew : findTag 9 (mbi + 8) l = none) (hfuel : (tagAddrs (mbi + 8) l).length < fuel)
    (hmod : tableBytes s.mem info.fileAddr % 8 = 0)
    (hroom : (termAddr mbi l).toNat + (24 + tableBytes s.mem info.fileAddr) < 2 ^ 32)
    (hapart : Apart info.fileAddr 52 (termAddr mbi l)
      (16 + tableBytes s.mem info.fileAddr)) :
    ∃ s', saveElfSectionHeaders fuel mbi info s = some (true, s') ∧
      Extends mbi l s.mem s'.mem [sectionsTag (tableBytes s.mem info.fileAddr) hmod] := by
  have hfind : findMbiTagAddress fuel s.mem mbi 9 = some (termAddr mbi l) := by
    rw [h.findMbiTagAddress_eq hfuel, hnew]
    rfl
  have hnull : termAddr mbi l ≠ memoryNullPtr := by
    have hlimit : memoryNullPtr.toNat = 2 ^ 32 - 1 := rfl
    intro heq
    rw [heq, hlimit] at hroom
    omega
  obtain ⟨m, hsave, honly, htype, hsize⟩ :=
    saveElfSectionHeaders_eq info hnull h.termType hfind (by omega) hapart
  have honly' : OnlyIn (termAddr mbi l) (24 + tableBytes s.mem info.fileAddr) s.mem m :=
    honly.mono (by omega)
  refine ⟨_, hsave, ?_⟩
  apply (extends_terminateTag h honly' hroom (sectionsTag _ hmod) ?_ htype hsize).2
  show 16 + tableBytes s.mem info.fileAddr + 8 ≤ _
  omega

end saver

/-! ### A table of 44 bytes -/

/-- An empty record, and a file with one section header. -/
def sectionMemory (wide : Bool) : Memory :=
  bytesAt 0x8000 [16, 0, 0, 0, 0, 0, 0, 0, 0, 0, 0, 0, 8, 0, 0, 0]
    (bytesAt 0x100000 (elfHeaderBytes 0 (cond wide 44 40) 1) fun _ => 0)

theorem record_sectionMemory : ∀ wide : Bool,
    checkForValidMbi (sectionMemory wide) 0x8000 = true ∧
      findMbiTagAddress 1 (sectionMemory wide) 0x8000 9 = some 0x8008 ∧
      load32 (sectionMemory wide) 0x8000 = 16 ∧ load32 (sectionMemory wide) 0x8008 = 0 ∧
      (readElfHeader (sectionMemory wide) 0x100000).IsValidElf ∧
      sectionTableSize (sectionMemory wide) 0x100000 = cond wide 44 40 := by
  decide +kernel

theorem tableBytes_sectionMemory (wide : Bool) :
    tableBytes (sectionMemory wide) 0x100000 = cond wide 44 40 := by
  obtain ⟨-, -, -, -, helf, htable⟩ := record_sectionMemory wide
  rw [tableBytes, if_pos helf, htable]
  cases wide with
  | false => rfl
  | true => rfl

/-- The record has room, and the file is apart from it. -/
theorem room_sectionMemory (wide : Bool) :
    (0x8000 : BitVec 32).toNat + (load32 (sectionMemory wide) 0x8000).toNat +
        (16 + tableBytes (sectionMemory wide) 0x100000) < 2 ^ 32 ∧
      Apart 0x100000 52 (endAddr (sectionMemory wide) 0x8000)
        (16 + tableBytes (sectionMemory wide) 0x100000) := by
  obtain ⟨-, -, htotal, -, -, -⟩ := record_sectionMemory wide
  have hle : tableBytes (sectionMemory wide) 0x100000 ≤ 44 := by
    rw [tableBytes_sectionMemory]
    cases wide with
    | false => decide
    | true => decide
  have hend : endAddr (sectionMemory wide) 0x8000 = 0x8008 := by
    rw [endAddr, htotal]
    decide
  rw [htotal, hend]
  constructor
  · show 0x8000 + 16 + _ < _
    omega
  · intro x hfile htag
    rw [InBytes] at hfile htag
    bv_omega

theorem saveElfSectionHeaders_keepsWorking_iff_sectionMemory :
    ∃ b s', saveElfSectionHeaders 1 0x8000 bssInfo ⟨sectionMemory false, ()⟩ = some (b, s') ∧
      KeepsWorking s'.mem 0x8000 := by
  obtain ⟨hvalid, hfind, -, -, -, htable⟩ := record_sectionMemory false
  obtain ⟨hroom, hapart⟩ := room_sectionMemory false
  have hmod : (sectionTableSize (sectionMemory false) 0x100000).toNat % 8 = 0 := by
    rw [htable]
    decide
  exact (@saveElfSectionHeaders_keepsWorking_iff Unit 1 0x8000 0x8008 bssInfo
    ⟨sectionMemory false, ()⟩ hvalid hfind hroom hapart).mpr (.inr (.inr hmod))

/-- With 44 bytes in a section header, the size of the record is no multiple of eight any
    more. -/
theorem not_keepsWorking_sectionMemory : checkForValidMbi (sectionMemory true) 0x8000 = true ∧
    ¬∃ b s', saveElfSectionHeaders 1 0x8000 bssInfo ⟨sectionMemory true, ()⟩ = some (b, s') ∧
      KeepsWorking s'.mem 0x8000 := by
  obtain ⟨hvalid, hfind, -, hzero, -, -⟩ := record_sectionMemory true
  obtain ⟨hroom, hapart⟩ := room_sectionMemory true
  have hnew : load32 (sectionMemory true) 0x8008 ≠ 9 := by
    rw [hzero]
    decide
  refine ⟨hvalid, ?_⟩
  intro hkeeps
  have hmod := (@keepsWorking_iff_tableBytes Unit 1 0x8000 0x8008 bssInfo
    ⟨sectionMemory true, ()⟩ hvalid hfind hnew hroom hapart).mp hkeeps
  have htable : tableBytes (sectionMemory true) 0x100000 % 8 = 0 := hmod
  rw [tableBytes_sectionMemory] at htable
  exact absurd htable (by decide)

end Avos.Multiboot
