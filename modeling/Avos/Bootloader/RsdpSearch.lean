import Avos.Bootloader.Services
import Avos.Library.SearchLoop

/-! # The Search for the RSDP

  `System_StoreACPIInfo` looks for the RSDP at the 16-byte boundaries of the first KB of the EBDA,
  and then of the memory from `0xE0000` to 1 MiB. One loop does both: when it meets the end of the
  first range, it jumps to the second.

  The jump is taken whenever the loop meets that address. If the first range ends inside the
  second one, the loop comes back to `0xE0000` for ever, and if it ends above 1 MiB the second
  range is left out (`searchesAll_iff`). The candidates examined are recorded beside the run.

  The sum over all 36 bytes of a new RSDP is never formed: its loop starts behind its end
  (`isRsdp_iff`). `storesFirst_iff` says when the structure that is copied is the right one.
-/

open ByteMemory Walks

namespace Avos.Multiboot

/-! ## Section 1: The Candidates -/

/-- The EBDA, from its segment at `0x40E`. -/
def ebda (m : Memory) : BitVec 32 := (load16 m 0x40E).setWidth 32 <<< 4

/-- A boundary in the first KB of the EBDA, below 1 MiB. -/
def InEbda (m : Memory) (p : BitVec 32) : Prop :=
  p.toNat % 16 = 0 ∧ (ebda m).toNat ≤ p.toNat ∧ p.toNat < (ebda m).toNat + 0x400 ∧
    p.toNat < 0x100000

/-- A boundary from `0xE0000` to 1 MiB. -/
def InHighRange (p : BitVec 32) : Prop :=
  p.toNat % 16 = 0 ∧ 0xE0000 ≤ p.toNat ∧ p.toNat < 0x100000

/-- `n` boundaries from `a` on. -/
def boundaries (a : BitVec 32) (n : Nat) : List (BitVec 32) :=
  (List.range n).map fun i => a + BitVec.ofNat 32 (16 * i)

/-- The boundaries of the first KB of the EBDA, as far as they are below 1 MiB. -/
def ebdaCandidates (m : Memory) : List (BitVec 32) :=
  boundaries (ebda m) (min 64 ((0x100000 - (ebda m).toNat) / 16))

/-- The boundaries of the second range. -/
def highCandidates : List (BitVec 32) := boundaries 0xE0000 0x2000

/-- All the candidates, in the order of the search. -/
def rsdpCandidates (m : Memory) : List (BitVec 32) := ebdaCandidates m ++ highCandidates

section candidates

variable {m : Memory} {a p : BitVec 32} {n k : Nat}

theorem toNat_ebda : (ebda m).toNat = 16 * (load16 m 0x40E).toNat := by
  have hlt := (load16 m 0x40E).isLt
  rw [ebda, BitVec.toNat_shiftLeft, BitVec.toNat_setWidth, Nat.shiftLeft_eq]
  omega

theorem boundaries_add :
    boundaries a (n + k) = boundaries a n ++ boundaries (a + BitVec.ofNat 32 (16 * n)) k := by
  unfold boundaries
  rw [List.range_add, List.map_append, List.map_map]
  congr 1
  apply List.map_congr_left
  intro i _
  show a + BitVec.ofNat 32 (16 * (n + i)) = _
  rw [Nat.mul_add, BitVec.ofNat_add, BitVec.add_assoc]

theorem mem_boundaries (ha : a.toNat % 16 = 0) (hn : a.toNat + 16 * n ≤ 2 ^ 32) :
    p ∈ boundaries a n ↔
      p.toNat % 16 = 0 ∧ a.toNat ≤ p.toNat ∧ p.toNat < a.toNat + 16 * n := by
  unfold boundaries
  rw [List.mem_map]
  constructor
  · rintro ⟨i, hi, rfl⟩
    have hlt := List.mem_range.mp hi
    rw [toNat_add_ofNat (by omega)]
    omega
  · rintro ⟨hmod, hle, hlt⟩
    refine ⟨(p.toNat - a.toNat) / 16, List.mem_range.mpr (by omega), ?_⟩
    apply BitVec.eq_of_toNat_eq
    rw [toNat_add_ofNat (by omega)]
    omega

theorem mem_ebdaCandidates : p ∈ ebdaCandidates m ↔ InEbda m p := by
  have hebda := @toNat_ebda m
  have hlt := (load16 m 0x40E).isLt
  rw [ebdaCandidates, mem_boundaries (by omega) (by omega), InEbda]
  omega

theorem mem_highCandidates : p ∈ highCandidates ↔ InHighRange p :=
  mem_boundaries (by decide) (by decide)

end candidates

/-! ## Section 2: The Loop -/

/-- `ptr < 0x100000`. -/
def InLowMemory (p : BitVec 32) : Prop := p < 0x100000

instance : DecidablePred InLowMemory := fun _ => inferInstanceAs (Decidable (_ < _))

/-- `ptr + 0x10 == ebda_1kb ? 0xE0000 : ptr + 0x10`. -/
def nextCandidate (ebdaEnd p : BitVec 32) : BitVec 32 :=
  if p + 0x10 = ebdaEnd then 0xE0000 else p + 0x10

/-- The search, with the candidates that it examines. -/
def findRsdpLogged (m : Memory) (old : Bool) (ebdaEnd : BitVec 32) (fuel : Nat) (p : BitVec 32) :
    Option (Option (BitVec 32) × List (BitVec 32)) :=
  searchLoop InLowMemory (fun p => IsRsdp m p old) (nextCandidate ebdaEnd) fuel p []

section loop

variable {m : Memory} {old : Bool} {a ebdaEnd p : BitVec 32} {n fuel : Nat}
  {seen : List (BitVec 32)}

/-- The search does nothing else than the loop of the source. -/
theorem searchLoop_findRsdp :
    (searchLoop InLowMemory (fun p => IsRsdp m p old) (nextCandidate ebdaEnd) fuel p seen).map
      Prod.fst = findRsdp m old ebdaEnd fuel p := by
  induction fuel generalizing p seen with
  | zero => rfl
  | succ fuel ih =>
    rw [searchLoop, findRsdp]
    by_cases hlow : p < 0x100000
    · rw [if_pos (show InLowMemory p from hlow), if_neg (not_not.mpr hlow)]
      split
      · rfl
      · exact ih
    · rw [if_neg (show ¬InLowMemory p from hlow), if_pos hlow]
      rfl

theorem findRsdpLogged_fst :
    (findRsdpLogged m old ebdaEnd fuel p).map Prod.fst = findRsdp m old ebdaEnd fuel p :=
  searchLoop_findRsdp

theorem boundary_succ :
    a + BitVec.ofNat 32 (16 * n) + 0x10 = a + BitVec.ofNat 32 (16 * (n + 1)) := by
  rw [BitVec.add_assoc, Nat.mul_succ, BitVec.ofNat_add]
  rfl

/-- Up to the end of the EBDA the loop goes from boundary to boundary. -/
theorem path_boundaries (hlow : a.toNat + 16 * n ≤ 0x100000)
    (hend : ∀ i < n, a.toNat + 16 * (i + 1) ≠ ebdaEnd.toNat) :
    Path InLowMemory (nextCandidate ebdaEnd) a (boundaries a n) (a + BitVec.ofNat 32 (16 * n)) := by
  induction n with
  | zero => exact (BitVec.add_zero a).symm
  | succ n ih =>
    rw [boundaries_add]
    apply (ih (by omega) fun i hi => hend i (by omega)).append
    refine ⟨BitVec.add_zero _, ?_, ?_⟩
    · show (a + BitVec.ofNat 32 (16 * n)).toNat < 0x100000
      rw [toNat_add_ofNat (by omega)]
      omega
    · rw [nextCandidate, boundary_succ, if_neg]
      · rfl
      · intro heq
        apply hend n (Nat.lt_succ_self n)
        rw [← heq, toNat_add_ofNat (by omega)]

/-- At the end of the EBDA the loop jumps. -/
theorem path_jump (hn : 0 < n) (hlow : a.toNat + 16 * n ≤ 0x100000)
    (hend : a.toNat + 16 * n = ebdaEnd.toNat) :
    Path InLowMemory (nextCandidate ebdaEnd) a (boundaries a n) 0xE0000 := by
  obtain ⟨k, rfl⟩ := Nat.exists_eq_add_of_le' (show 1 ≤ n by omega)
  rw [boundaries_add]
  apply (path_boundaries (by omega) fun i hi => by omega).append
  refine ⟨BitVec.add_zero _, ?_, ?_⟩
  · show (a + BitVec.ofNat 32 (16 * k)).toNat < 0x100000
    rw [toNat_add_ofNat (by omega)]
    omega
  · have hstep : a + BitVec.ofNat 32 (16 * k) + 0x10 = ebdaEnd := by
      apply BitVec.eq_of_toNat_eq
      rw [boundary_succ, toNat_add_ofNat (by omega), hend]
    rw [nextCandidate, if_pos hstep]
    rfl

end loop

/-! ## Section 3: Where the Loop Goes -/

/-- `ebda_1kb`. -/
def ebda1kb (m : Memory) : BitVec 32 := ebda m + 0x400

/-- The EBDA ends inside the second range: the loop comes back to its beginning. -/
def Circles (m : Memory) : Prop := 0xE0000 < (ebda1kb m).toNat ∧ (ebda1kb m).toNat ≤ 0x100000

/-- The candidates that the loop comes to, once each. -/
def searched (m : Memory) : List (BitVec 32) :=
  if (ebda1kb m).toNat ≤ 0xE0000 then rsdpCandidates m
  else if (ebda1kb m).toNat ≤ 0x100000 then
    ebdaCandidates m ++ boundaries 0xE0000 (((ebda1kb m).toNat - 0xE0000) / 16)
  else ebdaCandidates m

section paths

attribute [local irreducible] boundaries searched

variable {m : Memory} {old : Bool} {p : BitVec 32} {fuel : Nat} {r : Option (BitVec 32)}
  {seen : List (BitVec 32)}

theorem toNat_ebda1kb : (ebda1kb m).toNat = (ebda m).toNat + 0x400 := by
  have hebda := @toNat_ebda m
  have hlt := (load16 m 0x40E).isLt
  rw [ebda1kb, BitVec.toNat_add]
  show ((ebda m).toNat + 0x400) % 2 ^ 32 = _
  omega

theorem ebdaCandidates_eq (h : (ebda1kb m).toNat ≤ 0x100000) :
    ebdaCandidates m = boundaries (ebda m) 64 := by
  rw [toNat_ebda1kb] at h
  rw [ebdaCandidates, Nat.min_eq_left (by omega)]

/-- The first range, with the jump to the second. -/
theorem path_ebda (h : (ebda1kb m).toNat ≤ 0x100000) :
    Path InLowMemory (nextCandidate (ebda1kb m)) (ebda m) (ebdaCandidates m) 0xE0000 := by
  have hend := @toNat_ebda1kb m
  rw [ebdaCandidates_eq h]
  exact path_jump (by decide) (by omega) (by omega)

/-- Both ranges. -/
theorem path_rsdpCandidates (h : (ebda1kb m).toNat ≤ 0xE0000) :
    Path InLowMemory (nextCandidate (ebda1kb m)) (ebda m) (rsdpCandidates m) 0x100000 := by
  have hbase : (0xE0000 : BitVec 32).toNat = 0xE0000 := rfl
  have hlast : (0xE0000 : BitVec 32) + BitVec.ofNat 32 (16 * 0x2000) = 0x100000 := by decide
  have hpath := @path_boundaries 0xE0000 (ebda1kb m) 0x2000 (by decide) fun i hi => by omega
  rw [hlast] at hpath
  exact (path_ebda (by omega)).append hpath

/-- The part of the second range that comes back to its beginning. -/
theorem path_circle (h : Circles m) :
    Path InLowMemory (nextCandidate (ebda1kb m)) 0xE0000
      (boundaries 0xE0000 (((ebda1kb m).toNat - 0xE0000) / 16)) 0xE0000 := by
  obtain ⟨hlow, hhigh⟩ := h
  have hbase : (0xE0000 : BitVec 32).toNat = 0xE0000 := rfl
  have hend := @toNat_ebda1kb m
  have hebda := @toNat_ebda m
  exact path_jump (by omega) (by omega) (by omega)

/-- An EBDA that ends above 1 MiB is left there. -/
theorem path_above (h : 0x100000 < (ebda1kb m).toNat) :
    Path InLowMemory (nextCandidate (ebda1kb m)) (ebda m) (ebdaCandidates m) 0x100000 := by
  have hend := @toNat_ebda1kb m
  have hebda := @toNat_ebda m
  have hlt := (load16 m 0x40E).isLt
  have hpath := @path_boundaries (ebda m) (ebda1kb m) ((0x100000 - (ebda m).toNat) / 16)
    (by omega) fun i hi => by omega
  have hlast : ebda m + BitVec.ofNat 32 (16 * ((0x100000 - (ebda m).toNat) / 16)) = 0x100000 := by
    apply BitVec.eq_of_toNat_eq
    rw [toNat_add_ofNat (by omega)]
    show _ = 0x100000
    omega
  rw [hlast] at hpath
  rw [ebdaCandidates, Nat.min_eq_right (by omega)]
  exact hpath

theorem not_inLowMemory : ¬InLowMemory 0x100000 := BitVec.lt_irrefl _

/-- Where it does not go round, the loop ends behind the candidates. -/
theorem path_searched (h : ¬Circles m) :
    Path InLowMemory (nextCandidate (ebda1kb m)) (ebda m) (searched m) 0x100000 := by
  unfold Circles at h
  by_cases hlow : (ebda1kb m).toNat ≤ 0xE0000
  · rw [searched, if_pos hlow]
    exact path_rsdpCandidates hlow
  by_cases hhigh : (ebda1kb m).toNat ≤ 0x100000
  · exact absurd ⟨by omega, hhigh⟩ h
  · rw [searched, if_neg hlow, if_neg hhigh]
    exact path_above (by omega)

theorem path_searched_circle (h : Circles m) :
    Path InLowMemory (nextCandidate (ebda1kb m)) (ebda m) (searched m) 0xE0000 := by
  rw [searched, if_neg (by have := h.1; omega), if_pos h.2]
  exact (path_ebda h.2).append (path_circle h)

/-- The search ends if it does not go round, or if there is something to be found. -/
theorem findRsdpLogged_ends (h : ¬Circles m ∨ ∃ p ∈ searched m, IsRsdp m p old) :
    ∃ fuel out, findRsdpLogged m old (ebda1kb m) fuel (ebda m) = some out := by
  by_cases hcircle : Circles m
  · have hfound := h.resolve_left (not_not.mpr hcircle)
    obtain ⟨p, hp⟩ : ∃ p, (searched m).find? (fun p => IsRsdp m p old) = some p := by
      rw [← Option.isSome_iff_exists, List.find?_isSome]
      simpa using hfound
    obtain ⟨seen, hrun⟩ :=
      @searchLoop_find _ _ (fun p => IsRsdp m p old) _ _ _ _ _ _ _ []
        (path_searched_circle hcircle) hp
    exact ⟨_, _, hrun⟩
  · obtain ⟨seen, hrun, -⟩ := @searchLoop_path_end _ _ (fun p => IsRsdp m p old) _ _ _ _ _ _ []
      (path_searched hcircle) not_inLowMemory
    exact ⟨_, _, hrun⟩

/-- With nothing to be found, a search that goes round never ends. -/
theorem findRsdpLogged_circles (h : Circles m) (hnone : ∀ p ∈ searched m, ¬IsRsdp m p old) :
    findRsdpLogged m old (ebda1kb m) fuel (ebda m) = none := by
  have hrounds : ∀ p ∈ boundaries 0xE0000 (((ebda1kb m).toNat - 0xE0000) / 16),
      ¬IsRsdp m p old := by
    intro p hp
    apply hnone
    rw [searched, if_neg (by have := h.1; omega), if_pos h.2]
    exact List.mem_append_right _ hp
  have hne : boundaries 0xE0000 (((ebda1kb m).toNat - 0xE0000) / 16) ≠ [] := by
    obtain ⟨hlow, -⟩ := h
    have hend := @toNat_ebda1kb m
    have hebda := @toNat_ebda m
    apply List.ne_nil_of_mem (a := 0xE0000)
    exact (mem_boundaries (by decide) (by show 0xE0000 + _ ≤ _; omega)).mpr
      ⟨by decide, Nat.le_refl _, by omega⟩
  exact searchLoop_none (path_searched_circle h) hnone fun n seen =>
    searchLoop_cycle (path_circle h) hne hrounds n

/-- The result of a search that ends: the first RSDP it comes to, or none if it has examined all
    the candidates it comes to. -/
theorem findRsdpLogged_eq (h : findRsdpLogged m old (ebda1kb m) fuel (ebda m) = some (r, seen)) :
    r = (searched m).find? (fun p => IsRsdp m p old) ∧
      (r = none → seen = searched m ∧ ¬Circles m) := by
  by_cases hcircle : Circles m
  · cases hfind : (searched m).find? (fun p => IsRsdp m p old) with
    | none =>
      -- the loop goes round for ever
      have hnone : ∀ p ∈ searched m, ¬IsRsdp m p old := by simpa using hfind
      rw [findRsdpLogged_circles hcircle hnone] at h
      exact nomatch h
    | some p =>
      obtain ⟨seen', hrun⟩ := @searchLoop_find _ _ (fun p => IsRsdp m p old) _ _ _ _ _ _ _ []
        (path_searched_circle hcircle) hfind
      obtain ⟨rfl, rfl⟩ := Prod.mk.inj (searchLoop_unique h hrun)
      exact ⟨rfl, fun hnone => nomatch hnone⟩
  · obtain ⟨seen', hrun, hseen⟩ := @searchLoop_path_end _ _ (fun p => IsRsdp m p old) _ _ _ _ _ _ []
      (path_searched hcircle) not_inLowMemory
    obtain ⟨rfl, rfl⟩ := Prod.mk.inj (searchLoop_unique h hrun)
    exact ⟨rfl, fun hnone => ⟨hseen hnone, hcircle⟩⟩

/-- Where the EBDA ends behind `0xE0000`, only a part of the second range is searched, if any. -/
theorem mem_searched (h : 0xE0000 < (ebda1kb m).toNat) :
    p ∈ searched m ↔ InEbda m p ∨
      (InHighRange p ∧ p.toNat < (ebda1kb m).toNat ∧ (ebda1kb m).toNat ≤ 0x100000) := by
  have hend := @toNat_ebda1kb m
  have hebda := @toNat_ebda m
  rw [searched, if_neg (by omega)]
  by_cases hhigh : (ebda1kb m).toNat ≤ 0x100000
  · have hbase : (0xE0000 : BitVec 32).toNat = 0xE0000 := rfl
    rw [if_pos hhigh, List.mem_append, mem_ebdaCandidates,
      mem_boundaries (by decide) (by omega), hbase, InHighRange]
    apply or_congr Iff.rfl
    omega
  · rw [if_neg hhigh, mem_ebdaCandidates]
    constructor
    · exact fun hin => .inl hin
    · exact fun hin => hin.resolve_right fun hpart => hhigh hpart.2.2

end paths

/-! ## Section 4: Which Searches Are Complete -/

/-- The search ends, and before it gives up it examines every candidate. -/
def SearchesAll (m : Memory) (old : Bool) : Prop :=
  ∃ fuel out seen, findRsdp m old (ebda1kb m) fuel (ebda m) = some out ∧
    findRsdpLogged m old (ebda1kb m) fuel (ebda m) = some (out, seen) ∧
    (out = none → ∀ p, InEbda m p ∨ InHighRange p → p ∈ seen)

section complete

attribute [local irreducible] boundaries searched

variable {m : Memory} {old : Bool}

/-- A search that ends behind the end of the EBDA has found something. -/
theorem SearchesAll.exists_isRsdp (h : SearchesAll m old)
    (hend : 0xE0000 < (ebda1kb m).toNat) : ∃ p ∈ searched m, IsRsdp m p old := by
  obtain ⟨fuel, out, seen, -, hlogged, hall⟩ := h
  obtain ⟨rfl, hseen⟩ := findRsdpLogged_eq hlogged
  cases hfind : (searched m).find? (fun p => IsRsdp m p old) with
  | some p =>
    have hp := List.find?_some hfind
    exact ⟨p, List.mem_of_find?_eq_some hfind, of_decide_eq_true hp⟩
  | none =>
    -- the first candidate of the second range has not been examined
    obtain ⟨rfl, hcircle⟩ := hseen hfind
    have hfirst := hall hfind 0xE0000 (.inr ⟨by decide, by decide, by decide⟩)
    rw [mem_searched hend] at hfirst
    have hbase : (0xE0000 : BitVec 32).toNat = 0xE0000 := rfl
    have hebda := @toNat_ebda1kb m
    unfold Circles at hcircle
    unfold InEbda at hfirst
    omega

/-- The search ends, and leaves out no candidate, exactly if the EBDA ends by `0xE0000`, or if
    there is an RSDP in the part of the ranges that the loop comes to: the first KB of the EBDA,
    or, for an EBDA that ends inside the second range, the part of that range before its end. -/
theorem searchesAll_iff (m : Memory) (old : Bool) :
    SearchesAll m old ↔
      (ebda m).toNat + 0x400 ≤ 0xE0000 ∨
        (∃ p, InEbda m p ∧ IsRsdp m p old) ∨
        ((ebda m).toNat + 0x400 ≤ 0x100000 ∧
          ∃ p, InHighRange p ∧ p.toNat < (ebda m).toNat + 0x400 ∧ IsRsdp m p old) := by
  rw [← toNat_ebda1kb]
  constructor
  · intro h
    by_cases hend : (ebda1kb m).toNat ≤ 0xE0000
    · exact .inl hend
    · obtain ⟨p, hp, hrsdp⟩ := h.exists_isRsdp (by omega)
      rcases (mem_searched (by omega)).mp hp with hin | ⟨hhigh, hlt, hle⟩
      · exact .inr (.inl ⟨p, hin, hrsdp⟩)
      · exact .inr (.inr ⟨hle, p, hhigh, hlt, hrsdp⟩)
  · intro h
    by_cases hend : (ebda1kb m).toNat ≤ 0xE0000
    · have hcircle : ¬Circles m := fun hc => by have := hc.1; omega
      obtain ⟨fuel, ⟨out, seen⟩, hlogged⟩ := @findRsdpLogged_ends m old (.inl hcircle)
      refine ⟨fuel, out, seen, ?_, hlogged, fun hnone p hp => ?_⟩
      · rw [← findRsdpLogged_fst, hlogged]
        rfl
      · obtain ⟨rfl, -⟩ := (findRsdpLogged_eq hlogged).2 hnone
        rw [searched, if_pos hend, rsdpCandidates, List.mem_append, mem_ebdaCandidates,
          mem_highCandidates]
        exact hp
    · have hfound : ∃ p ∈ searched m, IsRsdp m p old := by
        rcases h.resolve_left hend with ⟨p, hin, hrsdp⟩ | ⟨hle, p, hhigh, hlt, hrsdp⟩
        · exact ⟨p, (mem_searched (by omega)).mpr (.inl hin), hrsdp⟩
        · exact ⟨p, (mem_searched (by omega)).mpr (.inr ⟨hhigh, hlt, hle⟩), hrsdp⟩
      obtain ⟨fuel, ⟨out, seen⟩, hlogged⟩ := findRsdpLogged_ends (.inr hfound)
      refine ⟨fuel, out, seen, ?_, hlogged, fun hnone => ?_⟩
      · rw [← findRsdpLogged_fst, hlogged]
        rfl
      · obtain ⟨p, hp, hrsdp⟩ := hfound
        rw [(findRsdpLogged_eq hlogged).1, List.find?_eq_none] at hnone
        exact absurd (decide_eq_true hrsdp) (hnone p hp)

/-- An EBDA at `0xE0000`, and no RSDP anywhere. -/
def noRsdpMemory : Memory := fun a => if a = 0x40F then 0xE0 else 0

/-- With the EBDA inside the second range, and nothing to be found, the search does not end. -/
theorem not_searchesAll_noRsdpMemory : ¬SearchesAll noRsdpMemory true := by
  intro h
  have hebda : ebda noRsdpMemory = 0xE0000 := by decide
  obtain ⟨p, -, hbytes, -⟩ := h.exists_isRsdp (by rw [toNat_ebda1kb, hebda]; decide)
  have hfirst : noRsdpMemory p = 0x52 := by simpa using hbytes 0 (by decide)
  unfold noRsdpMemory at hfirst
  split at hfirst
  · exact absurd hfirst (by decide)
  · exact absurd hfirst (by decide)

end complete

/-! ## Section 5: What Is Copied -/

/-- The sum of the bytes `i` to `n - 1`. -/
def checksumFrom (m : Memory) (p : BitVec 32) (i : Nat) : Nat → BitVec 8
  | 0 => 0
  | n + 1 => if i ≤ n then checksumFrom m p i n + m (p + BitVec.ofNat 32 n) else 0

/-- The test of the loop with both sums as they are in the source: the second one runs from
    `sizeof(struct Multiboot_RSDPv1)` to the difference of the two sizes, which is less. -/
theorem isRsdp_iff {m : Memory} {p : BitVec 32} {old : Bool} :
    IsRsdp m p old ↔
      HasBytes m p [0x52, 0x53, 0x44, 0x20, 0x50, 0x54, 0x52, 0x20] ∧ checksum m p 20 = 0 ∧
        (old = true ∨ m (p + 15) = 2 ∧ checksumFrom m p 20 (36 - 20) = 0) := by
  have hempty : checksumFrom m p 20 (36 - 20) = 0 := rfl
  simp only [IsRsdp, hempty, and_true]

/-- A structure that may be copied: the signature, the sum of the first 20 bytes, and for a new
    RSDP its revision and the sum of all 36 bytes. -/
def ValidRsdp (m : Memory) (p : BitVec 32) (old : Bool) : Prop :=
  HasBytes m p [0x52, 0x53, 0x44, 0x20, 0x50, 0x54, 0x52, 0x20] ∧ checksum m p 20 = 0 ∧
    (old = true ∨ m (p + 15) = 2 ∧ checksum m p 36 = 0)

instance (m : Memory) (p : BitVec 32) (old : Bool) : Decidable (ValidRsdp m p old) :=
  inferInstanceAs (Decidable (_ ∧ _))

/-- The size of the structure. -/
def rsdpSize (old : Bool) : Nat := if old then 20 else 36

/-- The first valid structure among all the candidates is copied, or nothing is written. -/
def StoresFirst (m : Memory) (addr : BitVec 32) (old : Bool) (out : BitVec 32 × Memory) : Prop :=
  out = match (rsdpCandidates m).find? fun p => ValidRsdp m p old with
    | none => (addr, m)
    | some p => (addr + BitVec.ofNat 32 (rsdpSize old), copied m addr p (rsdpSize old))

section stores

attribute [local irreducible] boundaries searched

variable {m : Memory} {addr p q : BitVec 32} {old : Bool} {fuel : Nat} {out : BitVec 32 × Memory}

theorem ValidRsdp.isRsdp (h : ValidRsdp m p old) : IsRsdp m p old :=
  ⟨h.1, h.2.1, h.2.2.imp id And.left⟩

theorem IsRsdp.validRsdp (h : IsRsdp m p old) (hsum : old = true ∨ checksum m p 36 = 0) :
    ValidRsdp m p old := by
  refine ⟨h.1, h.2.1, ?_⟩
  rcases hsum with hold | hsum
  · exact .inl hold
  · exact h.2.2.imp id fun hrev => ⟨hrev, hsum⟩

/-- The sums of equal bytes are equal. -/
theorem checksum_congr {n : Nat}
    (h : ∀ i < n, m (p + BitVec.ofNat 32 i) = m (q + BitVec.ofNat 32 i)) :
    checksum m p n = checksum m q n := by
  induction n with
  | zero => rfl
  | succ n ih =>
    rw [checksum, checksum, ih fun i hi => h i (by omega), h n (Nat.lt_succ_self n)]

/-- Two copies of 36 bytes to the same place are equal only if their bytes are. -/
theorem checksum_of_copied {n : Nat} (hn : n ≤ 2 ^ 32)
    (h : copied m addr p n = copied m addr q n) : checksum m p n = checksum m q n := by
  apply checksum_congr
  intro i hi
  have hat := congrFun h (addr + BitVec.ofNat 32 i)
  have hin : InBytes addr n (addr + BitVec.ofNat 32 i) := inBytes_add hi hn
  have hsub : addr + BitVec.ofNat 32 i - addr = BitVec.ofNat 32 i := by
    rw [BitVec.add_comm, BitVec.add_sub_cancel]
  rw [copied, copied, if_pos hin, if_pos hin, hsub] at hat
  exact hat

/-- The candidates that the loop comes to are the first ones. -/
theorem searched_isPrefix : searched m <+: rsdpCandidates m := by
  by_cases hlow : (ebda1kb m).toNat ≤ 0xE0000
  · have hall : searched m = rsdpCandidates m := by rw [searched, if_pos hlow]
    exact ⟨[], by rw [hall, List.append_nil]⟩
  by_cases hhigh : (ebda1kb m).toNat ≤ 0x100000
  · rw [searched, if_neg hlow, if_pos hhigh, rsdpCandidates, highCandidates,
      show 0x2000 = ((ebda1kb m).toNat - 0xE0000) / 16 +
        (0x2000 - ((ebda1kb m).toNat - 0xE0000) / 16) by omega, boundaries_add,
      ← List.append_assoc]
    exact List.prefix_append _ _
  · rw [searched, if_neg hlow, if_neg hhigh]
    exact List.prefix_append _ _

theorem ebdaCandidates_searched (h : p ∈ ebdaCandidates m) : p ∈ searched m := by
  by_cases hlow : (ebda1kb m).toNat ≤ 0xE0000
  · rw [searched, if_pos hlow]
    exact List.mem_append_left _ h
  by_cases hhigh : (ebda1kb m).toNat ≤ 0x100000
  · rw [searched, if_neg hlow, if_pos hhigh]
    exact List.mem_append_left _ h
  · rw [searched, if_neg hlow, if_neg hhigh]
    exact h

theorem storeAcpiInfo_of_none (h : findRsdp m old (ebda1kb m) fuel (ebda m) = none) :
    storeAcpiInfo fuel addr old m = none := by
  unfold ebda1kb ebda at h
  unfold storeAcpiInfo
  dsimp only
  rw [h]

theorem storeAcpiInfo_of_end (h : findRsdp m old (ebda1kb m) fuel (ebda m) = some none) :
    storeAcpiInfo fuel addr old m = some (addr, m) := by
  unfold ebda1kb ebda at h
  unfold storeAcpiInfo
  dsimp only
  rw [h]

theorem storeAcpiInfo_of_found (h : findRsdp m old (ebda1kb m) fuel (ebda m) = some (some p)) :
    storeAcpiInfo fuel addr old m =
      some (addr + (if old then 20 else 36), memmove m addr p (if old then 20 else 36)) := by
  unfold ebda1kb ebda at h
  unfold storeAcpiInfo
  dsimp only
  rw [h]

/-- What a call that ends leaves behind. -/
theorem storeAcpiInfo_some (h : storeAcpiInfo fuel addr old m = some out)
    (haddr : addr.toNat + rsdpSize old ≤ 2 ^ 32) :
    out = match (searched m).find? fun p => IsRsdp m p old with
      | none => (addr, m)
      | some p => (addr + BitVec.ofNat 32 (rsdpSize old), copied m addr p (rsdpSize old)) := by
  cases hfind : findRsdp m old (ebda1kb m) fuel (ebda m) with
  | none =>
    rw [storeAcpiInfo_of_none hfind] at h
    cases h
  | some r =>
    have hlogged := hfind
    rw [← findRsdpLogged_fst, Option.map_eq_some_iff] at hlogged
    obtain ⟨⟨r', seen⟩, hlogged, rfl⟩ := hlogged
    obtain ⟨hr, -⟩ := findRsdpLogged_eq hlogged
    rw [← hr]
    cases r' with
    | none =>
      rw [storeAcpiInfo_of_end hfind] at h
      exact (Option.some.inj h).symm
    | some p =>
      rw [storeAcpiInfo_of_found hfind] at h
      have hlen : (if old then 20 else 36 : BitVec 32) = BitVec.ofNat 32 (rsdpSize old) := by
        cases old <;> rfl
      have hsize : (BitVec.ofNat 32 (rsdpSize old)).toNat = rsdpSize old := by
        cases old <;> rfl
      have hle : rsdpSize old ≤ 36 := by cases old <;> decide
      have hp : p.toNat < 0x100000 := by
        have hmem := searched_isPrefix.subset (List.mem_of_find?_eq_some hr.symm)
        rw [rsdpCandidates, List.mem_append, mem_ebdaCandidates, mem_highCandidates] at hmem
        rcases hmem with hin | hin
        · exact hin.2.2.2
        · exact hin.2.2
      have hcopy := memmove_eq m addr p (BitVec.ofNat 32 (rsdpSize old)) (by omega) (by omega)
      rw [hsize] at hcopy
      rw [← Option.some.inj h, hlen, hcopy]

/-- A copy moves the address. -/
theorem add_rsdpSize_ne : addr + BitVec.ofNat 32 (rsdpSize old) ≠ addr := by
  intro heq
  have hlt := addr.isLt
  have hnat := congrArg BitVec.toNat heq
  have hsize : (BitVec.ofNat 32 (rsdpSize old)).toNat = rsdpSize old := by cases old <;> rfl
  have hpos : 0 < rsdpSize old ∧ rsdpSize old ≤ 36 := by cases old <;> decide
  rw [BitVec.toNat_add, hsize] at hnat
  omega

/-- A structure that is copied rightly has the sum of a new RSDP. -/
theorem StoresFirst.sum (hs : StoresFirst m addr old out)
    (h : storeAcpiInfo fuel addr old m = some out) (haddr : addr.toNat + rsdpSize old ≤ 2 ^ 32)
    (hfind : (searched m).find? (fun p => IsRsdp m p old) = some p) :
    old = true ∨ checksum m p 36 = 0 := by
  have hout := storeAcpiInfo_some h haddr
  rw [hfind] at hout
  unfold StoresFirst at hs
  cases hfirst : (rsdpCandidates m).find? fun p => ValidRsdp m p old with
  | none =>
    rw [hfirst, hout] at hs
    exact absurd (congrArg Prod.fst hs) add_rsdpSize_ne
  | some q =>
    -- the structure that is to be copied has the same bytes
    rw [hfirst, hout] at hs
    have hq := List.find?_some hfirst
    have hvalid : ValidRsdp m q old := of_decide_eq_true hq
    cases old with
    | true => exact .inl rfl
    | false =>
      have hsum := checksum_of_copied (by decide) (congrArg Prod.snd hs)
      obtain ⟨-, hsum'⟩ := hvalid.2.2.resolve_left Bool.false_ne_true
      exact .inr (hsum.trans hsum')

/-- Where nothing is written, there is nothing valid in the second range. -/
theorem StoresFirst.complete (hs : StoresFirst m addr old out)
    (h : storeAcpiInfo fuel addr old m = some out) (haddr : addr.toNat + rsdpSize old ≤ 2 ^ 32)
    (hfind : (searched m).find? (fun p => IsRsdp m p old) = none) (hp : InHighRange p) :
    ¬ValidRsdp m p old := by
  intro hvalid
  have hout := storeAcpiInfo_some h haddr
  rw [hfind] at hout
  unfold StoresFirst at hs
  cases hfirst : (rsdpCandidates m).find? fun p => ValidRsdp m p old with
  | none =>
    rw [List.find?_eq_none] at hfirst
    have hmem : p ∈ rsdpCandidates m := List.mem_append_right _ (mem_highCandidates.mpr hp)
    exact hfirst p hmem (decide_eq_true hvalid)
  | some q =>
    rw [hfirst, hout] at hs
    exact add_rsdpSize_ne (congrArg Prod.fst hs).symm

/-- A call that ends copies the right structure exactly if the one that the search comes to, if
    any, has the sum of a new RSDP where it is to have it, and if a search that comes to none has
    not left out a valid one. -/
theorem storesFirst_iff (h : storeAcpiInfo fuel addr old m = some out)
    (haddr : addr.toNat + rsdpSize old ≤ 2 ^ 32) :
    StoresFirst m addr old out ↔
      (∀ p, (searched m).find? (fun p => IsRsdp m p old) = some p →
        old = true ∨ checksum m p 36 = 0) ∧
      ((searched m).find? (fun p => IsRsdp m p old) = none →
        ∀ p, InHighRange p → ¬ValidRsdp m p old) := by
  constructor
  · intro hs
    exact ⟨fun p hfind => hs.sum h haddr hfind, fun hfind p hp => hs.complete h haddr hfind hp⟩
  · rintro ⟨hsum, hcomplete⟩
    have hout := storeAcpiInfo_some h haddr
    unfold StoresFirst
    cases hfind : (searched m).find? fun p => IsRsdp m p old with
    | none =>
      rw [hfind] at hout
      have hnone : (rsdpCandidates m).find? (fun p => ValidRsdp m p old) = none := by
        rw [List.find?_eq_none] at hfind ⊢
        intro p hp hdecide
        have hvalid : ValidRsdp m p old := of_decide_eq_true hdecide
        rcases List.mem_append.mp hp with hp | hp
        · exact hfind p (ebdaCandidates_searched hp) (decide_eq_true hvalid.isRsdp)
        · exact hcomplete (List.find?_eq_none.mpr hfind) p (mem_highCandidates.mp hp) hvalid
      rw [hnone]
      exact hout
    | some p =>
      rw [hfind] at hout
      have hp := List.find?_some hfind
      have hvalid := IsRsdp.validRsdp (of_decide_eq_true hp) (hsum p hfind)
      obtain ⟨rest, hrest⟩ := @searched_isPrefix m
      have hfirst : (rsdpCandidates m).find? (fun p => IsRsdp m p old) = some p := by
        rw [← hrest, List.find?_append, hfind]
        rfl
      rw [find?_of_imp (fun q hq => ValidRsdp.isRsdp hq) hfirst hvalid]
      exact hout

/-- A new RSDP at the beginning of an EBDA at `0x9FC00`, with the given extended checksum. -/
def rsdpBytes (extended : BitVec 8) : List (BitVec 8) :=
  [0x52, 0x53, 0x44, 0x20, 0x50, 0x54, 0x52, 0x20, 223, 0, 0, 0, 0, 0, 0, 2, 0, 0, 0, 0,
    36, 0, 0, 0, 0, 0, 0, 0, 0, 0, 0, 0, extended, 0, 0, 0]

def rsdpMemory (extended : BitVec 8) : Memory := fun a =>
  if a = 0x40E then 0xC0 else if a = 0x40F then 0x9F
  else (rsdpBytes extended).getD (a - 0x9FC00).toNat 0

/-- It is the first structure that the search comes to. -/
theorem find?_rsdpMemory (intact : Bool) :
    (∃ out, storeAcpiInfo 1 0x200000 false (rsdpMemory (cond intact 220 0)) = some out) ∧
      (searched (rsdpMemory (cond intact 220 0))).find?
        (fun p => IsRsdp (rsdpMemory (cond intact 220 0)) p false) = some 0x9FC00 := by
  have hfound : ∀ intact : Bool, findRsdp (rsdpMemory (cond intact 220 0)) false
      (ebda1kb (rsdpMemory (cond intact 220 0))) 1 (ebda (rsdpMemory (cond intact 220 0))) =
        some (some 0x9FC00) := by
    decide +kernel
  constructor
  · exact ⟨_, storeAcpiInfo_of_found (hfound intact)⟩
  · have hlogged := hfound intact
    rw [← findRsdpLogged_fst, Option.map_eq_some_iff] at hlogged
    obtain ⟨⟨r, seen⟩, hrun, hr⟩ := hlogged
    rw [← (findRsdpLogged_eq hrun).1]
    exact hr

/-- A new RSDP with the right sums is copied. -/
theorem storesFirst_iff_rsdpMemory :
    ∃ out, storeAcpiInfo 1 0x200000 false (rsdpMemory 220) = some out ∧
      StoresFirst (rsdpMemory 220) 0x200000 false out := by
  obtain ⟨⟨out, hout⟩, hfind⟩ := find?_rsdpMemory true
  refine ⟨out, hout, (storesFirst_iff hout (by decide)).mpr ⟨fun p hp => .inr ?_, ?_⟩⟩
  · obtain rfl := Option.some.inj (hfind.symm.trans hp)
    decide +kernel
  · intro hnone
    exact nomatch hfind.symm.trans hnone

/-- A new RSDP is copied although the sum of its 36 bytes is wrong. -/
theorem not_forall_storesFirst : ¬∀ fuel m addr old out, addr.toNat + rsdpSize old ≤ 2 ^ 32 →
    storeAcpiInfo fuel addr old m = some out → StoresFirst m addr old out := by
  intro hall
  obtain ⟨⟨out, hout⟩, hfind⟩ := find?_rsdpMemory false
  have hs := hall _ _ _ _ _ (by decide) hout
  have hsum : ¬(false = true ∨ checksum (rsdpMemory 0) 0x9FC00 36 = 0) := by decide +kernel
  exact hsum (hs.sum hout (by decide) hfind)

end stores

end Avos.Multiboot
