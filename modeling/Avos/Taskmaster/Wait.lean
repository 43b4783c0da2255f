import Avos.Taskmaster.ProcessTable
import Mathlib.Data.Fintype.Card

/-! # What a Wait Reports

  `Process_Wait` looks at the first child and, if that one is not dead, at those behind it.
  A dead child found behind the first is taken out of the chain, but the `break` leaves the
  inner loop only: the call falls asleep and its id is lost.
-/

open Chains

namespace Avos

namespace ProcessTable

variable {t t' : ProcessTable} {p q kid : Slot} {l pre post : List Slot} {r : Option (BitVec 32)}

/-! ## Section 1: What Is Expected of It -/

/-- The child `kid` of `p`, between `pre` and `post` in the chain, is reaped. -/
structure Reaped (t t' : ProcessTable) (p kid : Slot) (pre post : List Slot) : Prop where
  chain : Chain t'.sibling (t'.procs p).child (pre ++ post)
  idle : (t'.procs kid).status = .idle
  status : ∀ q, q ≠ kid → (t'.procs q).status = (t.procs q).status
  count : (t'.procs p).numChildren = (t.procs p).numChildren - 1
  rest : ∀ q, q ≠ p → (t'.procs q).child = (t.procs q).child ∧
    (t'.procs q).numChildren = (t.procs q).numChildren
  same : ∀ q, (t'.procs q).id = (t.procs q).id ∧ (t'.procs q).parent = (t.procs q).parent

/-- A wait by `p`, whose chain of children is `l`: the first dead child is reaped and its id
    returned, without sleeping; without children the result is -1; and no child is reaped
    that is not reported. -/
structure WaitReports (t : ProcessTable) (p : Slot) (l : List Slot) : Prop where
  childless : l = [] → t.processWait p = some (t, some (-1))
  reports : ∀ pre kid post, l = pre ++ kid :: post →
    (∀ q ∈ pre, (t.procs q).status ≠ .dead) → (t.procs kid).status = .dead →
    ∃ t', t.processWait p = some (t', some (t.procs kid).id) ∧ t.Reaped t' p kid pre post
  noneLost : ∀ t' r, t.processWait p = some (t', r) → ∀ kid ∈ l,
    (t.procs kid).status = .dead → (t'.procs kid).status ≠ .dead → r = some (t.procs kid).id

/-- The chain of the children of `p`, with their number. -/
structure Children (t : ProcessTable) (p : Slot) (l : List Slot) : Prop where
  chain : Chain t.sibling (t.procs p).child l
  count : (t.procs p).numChildren = BitVec.ofNat 32 l.length
  notSelf : p ∉ l

/-! ## Section 2: What It Does -/

theorem Children.count_eq_zero_iff (h : t.Children p l) :
    (t.procs p).numChildren = 0 ↔ l = [] := by
  have hle : l.length ≤ kernelMaxProcs := by simpa using h.chain.nodup.length_le_card
  rw [h.count]
  constructor
  · intro hzero
    have hmod := congrArg BitVec.toNat hzero
    rw [BitVec.toNat_ofNat, Nat.mod_eq_of_lt (Nat.lt_of_le_of_lt hle (by decide))] at hmod
    exact List.length_eq_zero_iff.mp hmod
  · rintro rfl
    rfl

/-- A wait without children. -/
theorem Children.processWait_nil (h : t.Children p []) :
    t.processWait p = some (t, some (-1)) := by
  rw [processWait, if_pos (h.count_eq_zero_iff.mpr rfl)]

/-- A wait whose first child is dead. -/
theorem Children.processWait_dead (h : t.Children p (kid :: post))
    (hdead : (t.procs kid).status = .dead) :
    ∃ t', t.processWait p = some (t', some (t.procs kid).id) ∧ t.Reaped t' p kid [] post := by
  have hcount : (t.procs p).numChildren ≠ 0 := fun hzero => by
    cases h.count_eq_zero_iff.mp hzero
  have hkid : (t.procs p).child = some kid := h.chain.1
  have htail : Chain t.sibling (t.sibling kid) post := h.chain.2
  have hne : kid ≠ p := fun heq => h.notSelf (heq ▸ List.mem_cons_self)
  simp only [processWait, if_neg hcount, hkid, hdead, if_true]
  refine ⟨_, rfl, ?_, ?_, fun q hq => ?_, ?_, fun q hq => ?_, fun q => ?_⟩
  · rw [List.nil_append]
    have hchild : Chain t.sibling (t.sibling kid) post := htail
    simp only [modify_self, modify_ne hne]
    refine hchild.congr fun q _ => ?_
    grind [modify_apply, sibling]
  · simp [hne]
  · grind [modify_apply]
  · grind [modify_apply]
  · grind [modify_apply]
  · grind [modify_apply]

/-- A wait whose first child is not dead reports nothing: it falls asleep. -/
theorem Children.processWait_asleep (h : t.Children p (kid :: post))
    (halive : (t.procs kid).status ≠ .dead) {t' : ProcessTable}
    (hwait : t.processWait p = some (t', r)) : r = none := by
  have hcount : (t.procs p).numChildren ≠ 0 := fun hzero => by
    cases h.count_eq_zero_iff.mp hzero
  have hkid : (t.procs p).child = some kid := h.chain.1
  simp only [processWait, if_neg hcount, hkid, if_neg halive] at hwait
  split at hwait
  · cases hwait
  · exact (Prod.mk.inj (Option.some.inj hwait)).2.symm

/-- When no child is dead, there is nothing to report. -/
theorem waitReports_of_alive (h : t.Children p l) (halive : ∀ q ∈ l, (t.procs q).status ≠ .dead) :
    t.WaitReports p l := by
  refine ⟨fun hl => ?_, fun pre kid post hl _ hdead => ?_, fun t' r _ kid hkid hdead => ?_⟩
  · subst hl
    exact h.processWait_nil
  · exact absurd hdead (halive kid (by simp [hl]))
  · exact absurd hdead (halive kid hkid)

/-- When the first child is dead, it is the one that is reported. -/
theorem waitReports_of_first (h : t.Children p (kid :: post))
    (hdead : (t.procs kid).status = .dead) : t.WaitReports p (kid :: post) := by
  obtain ⟨t', hwait, hreaped⟩ := h.processWait_dead hdead
  refine ⟨fun hl => ?_, fun pre kid' post' hl hpre _ => ?_,
    fun t₁ r hwait' q hq hqdead hq' => ?_⟩
  · cases hl
  · cases pre with
    | nil =>
      obtain ⟨rfl, rfl⟩ := List.cons.inj hl
      exact ⟨t', hwait, hreaped⟩
    | cons first pre =>
      obtain ⟨rfl, -⟩ := List.cons.inj hl
      exact absurd hdead (hpre kid List.mem_cons_self)
  · obtain ⟨rfl, rfl⟩ := Prod.mk.inj (Option.some.inj (hwait.symm.trans hwait'))
    -- the others keep their status
    by_cases hqk : q = kid
    · rw [hqk]
    · rw [hreaped.status q hqk] at hq'
      exact absurd hqdead hq'

/-- A dead child behind a first one that is alive is not reported. -/
theorem not_waitReports (h : t.Children p (kid :: post)) (halive : (t.procs kid).status ≠ .dead)
    (hdead : ∃ q ∈ post, (t.procs q).status = .dead) : ¬t.WaitReports p (kid :: post) := by
  intro hreports
  -- the first dead child of the chain
  have hsplit : ∀ l : List Slot, (∃ q ∈ l, (t.procs q).status = .dead) →
      ∃ pre q post, l = pre ++ q :: post ∧ (∀ x ∈ pre, (t.procs x).status ≠ .dead) ∧
        (t.procs q).status = .dead := by
    intro l
    induction l with
    | nil => simp
    | cons x l ih =>
      intro hl
      by_cases hx : (t.procs x).status = .dead
      · exact ⟨[], x, l, rfl, by simp, hx⟩
      · obtain ⟨pre, q, post, rfl, hpre, hq⟩ := ih (by simpa [hx] using hl)
        exact ⟨x :: pre, q, post, rfl, by simpa [hx] using hpre, hq⟩
  obtain ⟨pre, q, post', hl, hpre, hq⟩ := hsplit (kid :: post) (by
    obtain ⟨q, hq, hqdead⟩ := hdead
    exact ⟨q, List.mem_cons_of_mem _ hq, hqdead⟩)
  obtain ⟨t', hwait, -⟩ := hreports.reports pre q post' hl hpre hq
  have hnone := h.processWait_asleep halive hwait
  cases hnone

/-- A wait reports what it should exactly when none of the children is dead or the first
    one is. -/
theorem waitReports_iff (h : t.Children p l) :
    t.WaitReports p l ↔
      (∀ q ∈ l, (t.procs q).status ≠ .dead) ∨
        ∃ kid, l.head? = some kid ∧ (t.procs kid).status = .dead := by
  constructor
  · intro hreports
    by_contra hneither
    obtain ⟨hdead, hfirst⟩ := not_or.mp hneither
    cases l with
    | nil => exact hdead (by simp)
    | cons kid post =>
      have halive : (t.procs kid).status ≠ .dead := fun hkid => hfirst ⟨kid, rfl, hkid⟩
      refine not_waitReports h halive ?_ hreports
      by_contra hnone
      refine hdead fun q hq hqdead => ?_
      rcases List.mem_cons.mp hq with rfl | hq
      · exact halive hqdead
      · exact hnone ⟨q, hq, hqdead⟩
  · rintro (halive | ⟨kid, hkid, hdead⟩)
    · exact waitReports_of_alive h halive
    · cases l with
      | nil => cases hkid
      | cons first post =>
        obtain rfl : first = kid := Option.some.inj hkid
        exact waitReports_of_first h hdead

/-! ### A Dead Second Child -/

/-- Process 0 has the children 1 and 2. The second one is dead. -/
def secondDead : ProcessTable where
  procs p :=
    { id := BitVec.ofNat 32 (p.val + 1), parent := if p = 0 then none else some 0
      child := if p = 0 then some 1 else none
      sibling := if p = 1 then some 2 else none
      numChildren := if p = 0 then 2 else 0
      status := if p = 0 then .running else if p = 1 then .runnable else if p = 2 then .dead
        else .idle
      exitCode := 0, endpoint := 0, runTime := 0 }
  nextPid := 4

theorem children_secondDead : secondDead.Children 0 [1, 2] :=
  ⟨⟨rfl, rfl, rfl⟩, rfl, by decide⟩

theorem waitReports_iff_secondDead : secondDead.WaitReports 0 [1, 2] ↔
    (∀ q ∈ ([1, 2] : List Slot), (secondDead.procs q).status ≠ .dead) ∨
      ∃ kid, ([1, 2] : List Slot).head? = some kid ∧ (secondDead.procs kid).status = .dead :=
  waitReports_iff children_secondDead

theorem not_forall_waitReports : ¬∀ (t : ProcessTable) (p : Slot) (l : List Slot),
    t.Children p l → t.WaitReports p l := by
  intro hall
  refine not_waitReports children_secondDead (by decide) ⟨2, by decide, by decide⟩
    (hall _ _ _ children_secondDead)

end ProcessTable

end Avos
