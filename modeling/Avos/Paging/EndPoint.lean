import Avos.Paging.Ranges

/-! # The End Point of a Process

  `Process_ShiftEndPoint` moves the end of a process's heap, and maps or unmaps the pages that
  it comes over (`ShiftLaw`). `Paging_MapPages` starts at the page of the old end point. When
  the end point is inside a page this page is mapped already, so that nothing is mapped, and
  the end point goes back to the beginning of the page.
-/

open ByteMemory Transition

namespace Avos

/-! ## Section 1: The Law -/

/-- A process and its end point. -/
structure HeapState (σ : Type*) where
  endpoint : BitVec 32
  paging : PagingState σ

/-- A byte of page number `k` is in `[base, endpoint)`. -/
def Overlaps (k : Nat) (base endpoint : BitVec 32) : Prop :=
  ∃ a, base ≤ a ∧ a < endpoint ∧ pageNumber a = k

/-- From the base on exactly the pages that overlap `[base, endpoint)` are mapped. -/
structure HeapMapped (dir base endpoint : BitVec 32) (m : Memory) : Prop where
  inside : ∀ k < 2 ^ 19, pageNumber base ≤ k → Overlaps k base endpoint →
    IsPresent (userEntry dir m k)
  outside : ∀ k < 2 ^ 19, pageNumber base ≤ k → ¬Overlaps k base endpoint →
    userEntry dir m k = 0

section law

variable {σ : Type*} (A : FrameAllocator σ) (dir base : BitVec 32)

/-- A process with a heap from `base` on. -/
structure HeapSpace (h : HeapState σ) : Prop where
  owns : Owns A dir h.paging
  aligned : IsFrame base
  base_le : base ≤ h.endpoint
  user : h.endpoint ≤ kernelStart
  mapped : HeapMapped dir base h.endpoint h.paging.mem

/-- Mapping the pages of a range comes to one for which there is no frame, or none for its page
    table. -/
def RanOut (va size : BitVec 32) (s : PagingState σ) : Prop :=
  ∃ s₁ va', ComesTo A dir (pageAddress (va + size - 1)) s (pageAddress va) s₁ va' ∧
    ((pageAcquire0 A s₁).1 = none ∨ ¬IsPresent (pde dir s₁.mem (pageNumber va' / 1024)) ∧
      (pageAcquire0 A (pageAcquire0 A s₁).2).1 = none)

/-- What a shift of the end point should do. -/
structure ShiftLaw (h : HeapState σ) (shift : BitVec 32) (h' : HeapState σ) : Prop where
  mapped : HeapMapped dir base h'.endpoint h'.paging.mem
  grows : 0 ≤ shift.toInt → h.endpoint ≤ h'.endpoint ∧
    (h'.endpoint.toNat : Int) ≤ h.endpoint.toNat + shift.toInt ∧
    ((h'.endpoint.toNat : Int) = h.endpoint.toNat + shift.toInt ∨
      RanOut A dir h.endpoint shift h.paging)
  shrinks : shift.toInt < 0 → (h'.endpoint.toNat : Int) = h.endpoint.toNat + shift.toInt

/-- The shift keeps the end point between the base and the kernel half. -/
def ShiftValid (h : HeapState σ) (shift : BitVec 32) : Prop :=
  base.toNat ≤ h.endpoint.toNat + shift.toInt ∧ h.endpoint.toNat + shift.toInt < 0x80000000

/-- Shifts of the end point, one after the other. -/
def heapSystem : System (HeapState σ) (BitVec 32) where
  init := HeapSpace A dir base
  step h shift h' := ShiftValid base h shift ∧
    processShiftEndPoint A dir h.endpoint shift h.paging = some (h'.endpoint, h'.paging)

end law

/-! ## Section 2: Pages and the End Point -/

section pages

variable {base endpoint : BitVec 32} {k : Nat}

theorem overlaps_iff (hbase : IsFrame base) (hk : pageNumber base ≤ k) (hlt : k < 2 ^ 19) :
    Overlaps k base endpoint ↔ 0x1000 * k < endpoint.toNat := by
  rw [IsFrame] at hbase
  rw [pageNumber] at hk
  constructor
  · rintro ⟨a, -, ha, rfl⟩
    rw [BitVec.lt_def] at ha
    rw [pageNumber]
    omega
  · intro h
    have ha : (BitVec.ofNat 32 (0x1000 * k)).toNat = 0x1000 * k := by
      rw [BitVec.toNat_ofNat, Nat.mod_eq_of_lt (by omega)]
    refine ⟨BitVec.ofNat 32 (0x1000 * k), ?_, ?_, ?_⟩
    · rw [BitVec.le_def, ha]
      omega
    · rw [BitVec.lt_def, ha]
      exact h
    · rw [pageNumber, ha]
      omega

theorem heapMapped_iff {dir : BitVec 32} {m : Memory} (hbase : IsFrame base) :
    HeapMapped dir base endpoint m ↔ ∀ k < 2 ^ 19, pageNumber base ≤ k →
      if 0x1000 * k < endpoint.toNat then IsPresent (userEntry dir m k)
      else userEntry dir m k = 0 := by
  constructor
  · intro h k hlt hk
    split
    · next hin => exact h.inside k hlt hk ((overlaps_iff hbase hk hlt).mpr hin)
    · next hout => exact h.outside k hlt hk (mt (overlaps_iff hbase hk hlt).mp hout)
  · intro h
    refine ⟨fun k hlt hk hin => ?_, fun k hlt hk hout => ?_⟩
    · have hentry := h k hlt hk
      rwa [if_pos ((overlaps_iff hbase hk hlt).mp hin)] at hentry
    · have hentry := h k hlt hk
      rwa [if_neg (mt (overlaps_iff hbase hk hlt).mpr hout)] at hentry

end pages

/-! ## Section 3: One Shift -/

section shift

variable {σ : Type*} {A : FrameAllocator σ} {dir base endpoint shift r : BitVec 32}
  {s s' : PagingState σ} {h h' : HeapState σ}

theorem processShiftEndPoint_zero :
    processShiftEndPoint A dir endpoint 0 s = some (endpoint, s) := by
  rw [processShiftEndPoint]
  dsimp only
  rw [if_pos rfl]

theorem ne_zero_of_toInt_ne (hne : shift.toInt ≠ 0) : shift ≠ 0 := by
  rintro rfl
  exact hne rfl

theorem processShiftEndPoint_neg {failed : Bool} (hneg : shift.toInt < 0)
    (hrun : pagingUnmapPages A dir (endpoint + shift) (-shift) s = some (failed, s')) :
    processShiftEndPoint A dir endpoint shift s = some (endpoint + shift, s') := by
  have hslt : shift.slt 0 = true := by
    rw [BitVec.slt_eq_decide]
    exact decide_eq_true hneg
  rw [processShiftEndPoint]
  dsimp only
  rw [if_neg (ne_zero_of_toInt_ne (by omega)), if_pos hslt, hrun]

theorem processShiftEndPoint_pos (hpos : 0 < shift.toInt)
    (hrun : pagingMapPages A dir endpoint shift s = some (r, s')) :
    processShiftEndPoint A dir endpoint shift s = some
      (if pageAddress endpoint + r < endpoint + shift then pageAddress endpoint + r
        else endpoint + shift, s') := by
  have hslt : ¬shift.slt 0 = true := by
    rw [BitVec.slt_eq_decide, decide_eq_true_eq]
    exact Int.not_lt.mpr (Int.le_of_lt hpos)
  rw [processShiftEndPoint]
  dsimp only
  rw [if_neg (ne_zero_of_toInt_ne (by omega)), if_neg hslt, hrun]

/-- The sum does not overflow. -/
theorem ShiftValid.toNat_add (hv : ShiftValid base h shift) (huser : h.endpoint ≤ kernelStart) :
    ((h.endpoint + shift).toNat : Int) = h.endpoint.toNat + shift.toInt := by
  have hstart : kernelStart.toNat = 2 ^ 31 := rfl
  obtain ⟨hlow, hhigh⟩ := hv
  rw [BitVec.le_def, hstart] at huser
  rw [BitVec.toInt_eq_toNat_cond] at hlow hhigh ⊢
  rw [BitVec.toNat_add]
  split at hlow <;> split <;> omega

/-- A shift down unmaps the pages that are left. -/
theorem HeapSpace.shrink (hs : HeapSpace A dir base h) (hv : ShiftValid base h shift)
    (hneg : shift.toInt < 0) :
    ∃ h', processShiftEndPoint A dir h.endpoint shift h.paging = some (h'.endpoint, h'.paging) ∧
      HeapSpace A dir base h' ∧ ShiftLaw A dir base h shift h' := by
  have hsum := hv.toNat_add hs.user
  have hstart : kernelStart.toNat = 2 ^ 31 := rfl
  have hslack : (0xFFF : BitVec 32).toNat = 0xFFF := rfl
  have huser := hs.user
  have hbase := hs.aligned
  obtain ⟨hlow, hhigh⟩ := hv
  rw [BitVec.le_def, hstart] at huser
  rw [IsFrame] at hbase
  have hneg' : (-shift).toNat = 2 ^ 32 - shift.toNat ∧ 2 ^ 31 ≤ shift.toNat ∧
      shift.toInt = shift.toNat - 2 ^ 32 := by
    rw [BitVec.toInt_eq_toNat_cond] at hneg ⊢
    have hlt := shift.isLt
    rw [BitVec.toNat_neg]
    split at hneg <;> split <;> omega
  have hrange : UserRange (h.endpoint + shift) (-shift) := by
    refine ⟨?_, by omega⟩
    show 0 < (-shift).toNat
    omega
  obtain ⟨r, s', hrun, hunmapped⟩ := pagingUnmapPages_range hs.owns hrange
  have hfirst : pageNumber (h.endpoint + shift + 0xFFF) =
      ((h.endpoint + shift).toNat + 0xFFF) / 0x1000 := by
    rw [pageNumber, BitVec.toNat_add _ 0xFFF, hslack, Nat.mod_eq_of_lt (by omega)]
  have hlast : pageNumber (h.endpoint + shift) + pageCount (h.endpoint + shift) (-shift) =
      (h.endpoint.toNat - 1) / 0x1000 + 1 := by
    rw [pageCount, pageNumber]
    omega
  have hmapped : HeapMapped dir base (h.endpoint + shift) s'.mem := by
    refine (heapMapped_iff hs.aligned).mpr fun k hlt hk => ?_
    have hold := (heapMapped_iff hs.aligned).mp hs.mapped k hlt hk
    rw [hunmapped.entries k hlt, hfirst, hlast]
    by_cases hin : 0x1000 * k < (h.endpoint + shift).toNat
    · rw [if_pos (by omega)] at hold
      rw [if_pos hin, if_neg (by omega)]
      exact hold
    · rw [if_neg hin]
      by_cases hwas : 0x1000 * k < h.endpoint.toNat
      · rw [if_pos hwas] at hold
        rw [if_pos ⟨by omega, hold⟩]
      · rw [if_neg hwas] at hold
        rw [hold, ite_self]
  have hle : base.toNat ≤ (h.endpoint + shift).toNat := by omega
  have hlt : (h.endpoint + shift).toNat ≤ 2 ^ 31 := by omega
  exact ⟨⟨h.endpoint + shift, s'⟩, processShiftEndPoint_neg hneg hrun,
    ⟨hunmapped.owns, hs.aligned, hle, hlt, hmapped⟩, hmapped, fun hpos => by omega, fun _ => hsum⟩

/-- The range that a shift up is to map. -/
theorem ShiftValid.userRange (hv : ShiftValid base h shift) (hpos : 0 < shift.toInt) :
    UserRange h.endpoint shift ∧ shift.toInt = shift.toNat := by
  obtain ⟨-, hhigh⟩ := hv
  rw [BitVec.toInt_eq_toNat_cond] at hpos hhigh ⊢
  have hlt := shift.isLt
  split at hpos
  · next hsmall =>
    rw [if_pos hsmall] at hhigh ⊢
    refine ⟨⟨?_, by omega⟩, rfl⟩
    show 0 < shift.toNat
    omega
  · omega

/-- A shift up from a page boundary moves the end point over the pages that were mapped, but not
    further than it was to go. -/
theorem processShiftEndPoint_mapped {n : Nat} (hpos : 0 < shift.toInt)
    (haligned : endpoint.toNat % 0x1000 = 0) (hrange : UserRange endpoint shift)
    (hcount : n ≤ pageCount endpoint shift)
    (hrun : pagingMapPages A dir endpoint shift s = some (BitVec.ofNat 32 (0x1000 * n), s')) :
    ∃ newEnd : BitVec 32, processShiftEndPoint A dir endpoint shift s = some (newEnd, s') ∧
      newEnd.toNat = min (endpoint.toNat + 0x1000 * n) (endpoint.toNat + shift.toNat) := by
  have hbelow := hrange.below
  have hpos' : 0 < shift.toNat := hrange.pos
  have hsum : (endpoint + shift).toNat = endpoint.toNat + shift.toNat := by
    rw [BitVec.toNat_add, Nat.mod_eq_of_lt (by omega)]
  rw [pageCount, pageNumber] at hcount
  have hreach : (pageAddress endpoint + BitVec.ofNat 32 (0x1000 * n)).toNat =
      endpoint.toNat + 0x1000 * n := by
    rw [BitVec.toNat_add, toNat_pageAddress, BitVec.toNat_ofNat]
    omega
  refine ⟨_, processShiftEndPoint_pos hpos hrun, ?_⟩
  split
  · next hlt =>
    rw [BitVec.lt_def, hreach] at hlt
    omega
  · next hge =>
    rw [BitVec.lt_def, hreach] at hge
    omega

/-- The pages of the heap, when the `n` that come after the end point are mapped too. -/
theorem HeapSpace.mapped_grow {n : Nat} {back : List (BitVec 32)} {newEnd : BitVec 32}
    (hs : HeapSpace A dir base h)
    (hmaps : RangeMapped A dir (pageNumber h.endpoint) n back h.paging s')
    (hpages : ∀ k, 0x1000 * k < newEnd.toNat ↔
      0x1000 * k < h.endpoint.toNat ∨ pageNumber h.endpoint ≤ k ∧ k < pageNumber h.endpoint + n) :
    HeapMapped dir base newEnd s'.mem := by
  apply (heapMapped_iff hs.aligned).mpr
  intro k hlt hk
  have hold := (heapMapped_iff hs.aligned).mp hs.mapped k hlt hk
  by_cases hin : pageNumber h.endpoint ≤ k ∧ k < pageNumber h.endpoint + n
  · rw [if_pos ((hpages k).mpr (.inr hin))]
    exact hmaps.present hin.1 hin.2
  · rw [hmaps.others k hlt hin]
    by_cases hwas : 0x1000 * k < h.endpoint.toNat
    · rw [if_pos hwas] at hold
      rw [if_pos ((hpages k).mpr (.inl hwas))]
      exact hold
    · rw [if_neg hwas] at hold
      rw [if_neg fun hnew => ((hpages k).mp hnew).elim hwas hin]
      exact hold

/-- A shift up from a page boundary maps the pages that are missing, as far as there are
    frames. -/
theorem HeapSpace.grow (hs : HeapSpace A dir base h) (hv : ShiftValid base h shift)
    (hpos : 0 < shift.toInt) (haligned : IsFrame h.endpoint) :
    ∃ h', processShiftEndPoint A dir h.endpoint shift h.paging = some (h'.endpoint, h'.paging) ∧
      HeapSpace A dir base h' ∧ ShiftLaw A dir base h shift h' := by
  have hsum := hv.toNat_add hs.user
  obtain ⟨hrange, hint⟩ := hv.userRange hpos
  have hbase := hs.base_le
  have hbelow := hrange.below
  have hpos' : 0 < shift.toNat := hrange.pos
  obtain ⟨n, back, s', hrun, hloop⟩ := pagingMapPages_loop hs.owns hrange
  have hmaps := hloop.range
  have hends := hloop.count hrange
  rw [IsFrame] at haligned
  rw [BitVec.le_def] at hbase
  have hcount : n ≤ pageCount h.endpoint shift := by omega
  have hpages : pageNumber h.endpoint + pageCount h.endpoint shift =
      (h.endpoint.toNat + shift.toNat - 1) / 0x1000 + 1 := by
    rw [pageCount, pageNumber]
    omega
  have hfirst : 0x1000 * pageNumber h.endpoint = h.endpoint.toNat := by
    rw [pageNumber]
    omega
  obtain ⟨newEnd, hnew, hmin⟩ := processShiftEndPoint_mapped hpos haligned hrange hcount hrun
  have hmapped : HeapMapped dir base newEnd s'.mem := by
    apply hs.mapped_grow hmaps
    intro k
    omega
  refine ⟨⟨newEnd, s'⟩, hnew, ⟨hmaps.owns, hs.aligned, ?_, ?_, hmapped⟩, hmapped, fun _ => ?_,
    fun hneg => by omega⟩
  · show base.toNat ≤ newEnd.toNat
    omega
  · show newEnd.toNat ≤ 2 ^ 31
    omega
  · refine ⟨?_, ?_, ?_⟩
    · show h.endpoint.toNat ≤ newEnd.toNat
      omega
    · show (newEnd.toNat : Int) ≤ _
      omega
    · rcases hends with ⟨hn, -⟩ | ⟨hn, s₁, va', hcomes, hnumber, hmaps₁, hstuck⟩
      · refine .inl ?_
        show (newEnd.toNat : Int) = _
        omega
      · -- the page is not mapped already, so there was no frame
        refine .inr ⟨s₁, va', hcomes, ?_⟩
        have hk : pageNumber base ≤ pageNumber h.endpoint + n := by
          rw [pageNumber, pageNumber]
          omega
        have hfree := (heapMapped_iff hs.aligned).mp hs.mapped (pageNumber h.endpoint + n)
          (by omega) hk
        rw [if_neg (by omega), ← hmaps₁.others _ (by omega) (by omega)] at hfree
        rw [hnumber]
        exact hstuck.resolve_left (not_not.mpr hfree)

/-- A shift up from inside a page maps nothing, and the end point goes down. -/
theorem HeapSpace.grow_unaligned (hs : HeapSpace A dir base h) (hv : ShiftValid base h shift)
    (hpos : 0 < shift.toInt) (haligned : ¬IsFrame h.endpoint) :
    ∃ s', processShiftEndPoint A dir h.endpoint shift h.paging =
      some (pageAddress h.endpoint, s') := by
  have hsum := hv.toNat_add hs.user
  obtain ⟨hrange, hint⟩ := hv.userRange hpos
  have hbase := hs.base_le
  have hbelow := hrange.below
  obtain ⟨n, back, s', hrun, hloop⟩ := pagingMapPages_loop hs.owns hrange
  have hmaps := hloop.range
  rw [IsFrame] at haligned
  rw [BitVec.le_def] at hbase
  have hk : pageNumber base ≤ pageNumber h.endpoint := Nat.div_le_div_right hbase
  have hlt : pageNumber h.endpoint < 2 ^ 19 := by
    rw [pageNumber]
    omega
  have hold := (heapMapped_iff hs.aligned).mp hs.mapped (pageNumber h.endpoint) hlt hk
  rw [if_pos (by rw [pageNumber]; omega)] at hold
  obtain rfl : n = 0 := by
    by_contra hn
    exact ne_zero_of_isPresent hold (hmaps.was _ (Nat.le_refl _) (by omega))
  have hnew := processShiftEndPoint_pos hpos hrun
  have hreach : (pageAddress h.endpoint + BitVec.ofNat 32 (0x1000 * 0)) =
      pageAddress h.endpoint := BitVec.add_zero _
  have hlt' : pageAddress h.endpoint < h.endpoint + shift := by
    rw [BitVec.lt_def, toNat_pageAddress]
    omega
  rw [hreach, if_pos hlt'] at hnew
  exact ⟨s', hnew⟩

/-- A shift by nothing. -/
theorem HeapSpace.stay (hs : HeapSpace A dir base h) : ShiftLaw A dir base h 0 h where
  mapped := hs.mapped
  grows _ := ⟨Nat.le_refl _, by simp, .inl (by simp)⟩
  shrinks hneg := absurd hneg (by decide)

/-- The condition on a shift: it is not up from inside a page. -/
def ShiftAligned (h : HeapState σ) (shift : BitVec 32) : Prop :=
  shift.toInt ≤ 0 ∨ IsFrame h.endpoint

theorem HeapSpace.shift_exists (hs : HeapSpace A dir base h) (hv : ShiftValid base h shift)
    (hg : ShiftAligned h shift) :
    ∃ h', processShiftEndPoint A dir h.endpoint shift h.paging = some (h'.endpoint, h'.paging) ∧
      HeapSpace A dir base h' ∧ ShiftLaw A dir base h shift h' := by
  rcases Int.lt_trichotomy shift.toInt 0 with hneg | hzero | hpos
  · exact hs.shrink hv hneg
  · obtain rfl : shift = 0 := BitVec.eq_of_toInt_eq hzero
    exact ⟨h, processShiftEndPoint_zero, hs, hs.stay⟩
  · exact hs.grow hv hpos (hg.resolve_left (by omega))

theorem HeapSpace.shift_step (hs : HeapSpace A dir base h) (hg : ShiftAligned h shift)
    (hstep : (heapSystem A dir base).step h shift h') :
    HeapSpace A dir base h' ∧ ShiftLaw A dir base h shift h' := by
  obtain ⟨hv, hrun⟩ := hstep
  obtain ⟨⟨endpoint, s'⟩, hrun', hres⟩ := hs.shift_exists hv hg
  obtain ⟨rfl, rfl⟩ := Prod.mk.inj (Option.some.inj (hrun.symm.trans hrun'))
  exact hres

theorem HeapSpace.not_shiftLaw (hs : HeapSpace A dir base h) (hg : ¬ShiftAligned h shift)
    (hstep : (heapSystem A dir base).step h shift h') : ¬ShiftLaw A dir base h shift h' := by
  obtain ⟨hv, hrun⟩ := hstep
  rw [ShiftAligned, not_or, Int.not_le] at hg
  obtain ⟨hpos, haligned⟩ := hg
  obtain ⟨s', hrun'⟩ := hs.grow_unaligned hv hpos haligned
  have hend : h'.endpoint = pageAddress h.endpoint :=
    congrArg Prod.fst (Option.some.inj (hrun.symm.trans hrun'))
  intro hlaw
  have hle := (hlaw.grows (Int.le_of_lt hpos)).1
  rw [hend, BitVec.le_def, toNat_pageAddress] at hle
  rw [IsFrame] at haligned
  omega

end shift

/-! ## Section 4: Sequences of Shifts -/

/-- Along any sequence of shifts, each does what it should exactly when none of them is up from
    inside a page. -/
theorem shiftLaw_iff {σ : Type*} (A : FrameAllocator σ) (dir base : BitVec 32) {n : Nat}
    {states : Nat → HeapState σ} {shifts : Nat → BitVec 32}
    (h : (heapSystem A dir base).Run n states shifts) :
    (∀ i < n, ShiftLaw A dir base (states i) (shifts i) (states (i + 1))) ↔
      ∀ i < n, ShiftAligned (states i) (shifts i) :=
  h.forall_step_iff_guard (fun _ hs => hs) (fun _ _ _ hs hg hstep => hs.shift_step hg hstep)
    fun _ _ _ hs hg hstep => hs.not_shiftLaw hg hstep

/-! ## Section 5: A Concrete Process -/

/-- The process, with an empty heap. -/
def smallHeap : HeapState (List (BitVec 20)) := ⟨0x1000, smallProcess⟩

theorem heapSpace_smallHeap : HeapSpace frameList (numbered 0x80300) 0x1000 smallHeap := by
  refine ⟨owns_smallProcess, by rw [IsFrame]; decide, BitVec.le_refl _, by decide, ?_⟩
  refine ⟨fun k hlt hk hin => ?_, fun k hlt _ _ => userEntry_smallProcess hlt⟩
  obtain ⟨a, hle, hlt, -⟩ := hin
  exact absurd hlt (BitVec.not_lt.mpr hle)

/-- The heap grows by a byte, and by another one. -/
theorem smallHeap_steps : ∃ h₁ h₂, h₁.endpoint = 0x1001 ∧
    HeapSpace frameList (numbered 0x80300) 0x1000 h₁ ∧
    (heapSystem frameList (numbered 0x80300) 0x1000).step smallHeap 1 h₁ ∧
    (heapSystem frameList (numbered 0x80300) 0x1000).step h₁ 1 h₂ := by
  obtain ⟨s', hmap⟩ := pagingMapPages_smallProcess
  have hfirst : (heapSystem frameList (numbered 0x80300) 0x1000).step smallHeap 1 ⟨0x1001, s'⟩ :=
    ⟨⟨by decide, by decide⟩, processShiftEndPoint_pos (by decide) hmap⟩
  have haligned : ShiftAligned smallHeap 1 := .inr (by rw [IsFrame]; decide)
  have hgrown := (heapSpace_smallHeap.shift_step haligned hfirst).1
  have hend : ¬IsFrame 0x1001 := by
    rw [IsFrame]
    decide
  have hlow : (0x1000 : BitVec 32).toNat ≤ (0x1001 : BitVec 32).toNat + (1 : BitVec 32).toInt := by
    decide
  have hhigh : (0x1001 : BitVec 32).toNat + (1 : BitVec 32).toInt < 0x80000000 := by decide
  have hvalid : ShiftValid 0x1000 ⟨0x1001, s'⟩ 1 := ⟨hlow, hhigh⟩
  obtain ⟨s'', hsecond⟩ := hgrown.grow_unaligned hvalid (by decide) hend
  exact ⟨⟨0x1001, s'⟩, ⟨_, s''⟩, rfl, hgrown, hfirst, hvalid, hsecond⟩

theorem shiftLaw_iff_smallHeap : ∃ h₁ h₂, h₁.endpoint = 0x1001 ∧
    let states := fun i => if i = 0 then smallHeap else if i = 1 then h₁ else h₂
    ((∀ i < 2, ShiftLaw frameList (numbered 0x80300) 0x1000 (states i) 1 (states (i + 1))) ↔
      ∀ i < 2, ShiftAligned (states i) 1) := by
  obtain ⟨h₁, h₂, hend, -, hfirst, hsecond⟩ := smallHeap_steps
  refine ⟨h₁, h₂, hend, @shiftLaw_iff _ frameList (numbered 0x80300) 0x1000 2 _ (fun _ => 1)
    ⟨heapSpace_smallHeap, fun i hi => ?_⟩⟩
  rcases Nat.lt_succ_iff_lt_or_eq.mp hi with hi | rfl
  · obtain rfl : i = 0 := by omega
    exact hfirst
  · exact hsecond

/-- The second byte is in the page of the first one. -/
theorem not_forall_shiftLaw :
    ¬∀ h shift h', HeapSpace frameList (numbered 0x80300) 0x1000 h →
      (heapSystem frameList (numbered 0x80300) 0x1000).step h shift h' →
        ShiftLaw frameList (numbered 0x80300) 0x1000 h shift h' := by
  intro hall
  obtain ⟨h₁, h₂, hend, hspace, -, hsecond⟩ := smallHeap_steps
  have haligned : ¬ShiftAligned h₁ 1 := by
    rw [ShiftAligned, hend, IsFrame]
    decide
  exact hspace.not_shiftLaw haligned hsecond (hall h₁ 1 h₂ hspace hsecond)

end Avos
