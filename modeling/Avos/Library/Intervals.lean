import Mathlib.Data.List.Basic
import Mathlib.Data.List.Pairwise
import Mathlib.Order.Interval.Set.Basic
import Mathlib.Tactic.Common

/-! # Intervals Merged in One Pass

  Half-open intervals `[lo x, hi x)`, listed in any order, are merged block by block: a block
  begins at the lowest bound that is left and grows in one pass over the list.

  * `growAll`: the pass. It ends at the highest bound that can be climbed to in list order
    (`climbs_growAll`, `Climbs.le_growAll`).
  * `Sweep`: the blocks, from a lower bound on. They are made of the intervals, and at most as
    many (`Sweep.covered`, `Sweep.ordered`, `Sweep.length_le`).
  * `Canonical`: the blocks are the union of the intervals, with gaps between them. They are
    if and only if every interval is `InOrder` (`Sweep.canonical_iff`).
-/

namespace Intervals

variable {ι α : Type*} [LinearOrder α]

/-! ## Section 1: Definitions -/

/-- An interval that touches the end moves it. -/
def grow (lo hi : ι → α) (b : α) (x : ι) : α := if b ≤ hi x ∧ lo x ≤ b then hi x else b

/-- One pass over the intervals. -/
def growAll (lo hi : ι → α) (b : α) (l : List ι) : α := l.foldl (grow lo hi) b

/-- Intervals of the list, in its order, lead from `a` up to `b`: each begins no later than the
    one before ends. -/
inductive Climbs (lo hi : ι → α) : List ι → α → α → Prop
  | nil {a} : Climbs lo hi [] a a
  | skip {x l a b} : Climbs lo hi l a b → Climbs lo hi (x :: l) a b
  | take {x l a b} : lo x ≤ a → Climbs lo hi l (hi x) b → Climbs lo hi (x :: l) a b

/-- The blocks from `t` on: each begins at the lowest bound from the end of the block before it
    on, and grows in one pass. -/
inductive Sweep (lo hi : ι → α) (l : List ι) : α → List (α × α) → Prop
  | done {t} : (∀ x ∈ l, lo x < t) → Sweep lo hi l t []
  | block {t x bs} : x ∈ l → t ≤ lo x → (∀ y ∈ l, t ≤ lo y → lo x ≤ lo y) →
      Sweep lo hi l (growAll lo hi (lo x) l) bs →
      Sweep lo hi l t ((lo x, growAll lo hi (lo x) l) :: bs)

/-- The address lies in some interval. -/
def Covered (lo hi : ι → α) (l : List ι) (c : α) : Prop := ∃ x ∈ l, lo x ≤ c ∧ c < hi x

/-- The blocks have gaps between them, and are the union of the intervals. -/
structure Canonical (lo hi : ι → α) (l : List ι) (bs : List (α × α)) : Prop where
  gaps : bs.Pairwise fun b b' => b.2 < b'.1
  union : ∀ c, (∃ b ∈ bs, b.1 ≤ c ∧ c < b.2) ↔ Covered lo hi l c

/-- No interval that begins below `f` comes up to it. -/
def Fresh (lo hi : ι → α) (l : List ι) (f : α) : Prop := ∀ x ∈ l, lo x < f → hi x < f

/-- The end of `x` can be climbed to in list order, from a bound that nothing comes up to. -/
def InOrder (lo hi : ι → α) (l : List ι) (x : ι) : Prop :=
  ∃ f ∈ l, Fresh lo hi l (lo f) ∧ lo f ≤ lo x ∧ ∃ c, Climbs lo hi l (lo f) c ∧ hi x ≤ c

variable {lo hi : ι → α} {l : List ι} {a b c t : α} {x y : ι}

/-! ## Section 2: Growing -/

theorem le_grow : b ≤ grow lo hi b x := by
  rw [grow]
  split
  · next h => exact h.1
  · exact le_refl b

theorem hi_le_grow (h : lo x ≤ b) : hi x ≤ grow lo hi b x := by
  rw [grow]
  split
  · exact le_refl _
  · next hn => exact le_of_not_ge fun hle => hn ⟨hle, h⟩

theorem le_growAll : b ≤ growAll lo hi b l := by
  induction l generalizing b with
  | nil => exact le_refl b
  | cons x l ih => exact le_trans le_grow ih

/-- An interval that begins no later than the pass does ends no later either. -/
theorem hi_le_growAll (hx : x ∈ l) (h : lo x ≤ b) : hi x ≤ growAll lo hi b l := by
  induction l generalizing b with
  | nil => exact absurd hx List.not_mem_nil
  | cons y l ih =>
    rcases List.mem_cons.mp hx with rfl | hx
    · exact le_trans (hi_le_grow h) le_growAll
    · exact ih hx (le_trans h le_grow)

theorem lt_growAll (hx : x ∈ l) (h : lo x < hi x) : lo x < growAll lo hi (lo x) l :=
  lt_of_lt_of_le h (hi_le_growAll hx (le_refl _))

/-- The pass ends at or above whatever can be climbed to. -/
theorem Climbs.le_growAll (h : Climbs lo hi l a c) (hab : a ≤ b) : c ≤ growAll lo hi b l := by
  induction h generalizing b with
  | nil => exact hab
  | skip _ ih => exact ih (le_trans hab le_grow)
  | take hx _ ih => exact ih (hi_le_grow (le_trans hx hab))

theorem climbs_growAll : Climbs lo hi l b (growAll lo hi b l) := by
  induction l generalizing b with
  | nil => exact .nil
  | cons x l ih =>
    by_cases h : b ≤ hi x ∧ lo x ≤ b
    · have hgrow : grow lo hi b x = hi x := if_pos h
      refine .take h.2 ?_
      rw [growAll, List.foldl_cons, hgrow]
      exact ih
    · have hgrow : grow lo hi b x = b := if_neg h
      refine .skip ?_
      rw [growAll, List.foldl_cons, hgrow]
      exact ih

/-- What is added in a pass lies in the intervals. -/
theorem covered_growAll (hb : b ≤ c) (hc : c < growAll lo hi b l) :
    ∃ x ∈ l, lo x ≤ c ∧ c < hi x := by
  induction l generalizing b with
  | nil => exact absurd hc (not_lt_of_ge hb)
  | cons x l ih =>
    rcases lt_or_ge c (grow lo hi b x) with hlt | hge
    · -- the interval itself reaches over `c`
      rw [grow] at hlt
      split at hlt
      · next h => exact ⟨x, List.mem_cons_self, le_trans h.2 hb, hlt⟩
      · exact absurd hlt (not_lt_of_ge hb)
    · obtain ⟨y, hy, hcov⟩ := ih hge hc
      exact ⟨y, List.mem_cons_of_mem _ hy, hcov⟩

/-! ## Section 3: Blocks -/

section sweep

variable {bs : List (α × α)} {p : α × α}

/-- No block is empty when no interval is. -/
theorem Sweep.nonempty (hl : ∀ x ∈ l, lo x < hi x) (h : Sweep lo hi l t bs) :
    ∀ p ∈ bs, p.1 < p.2 := by
  induction h with
  | done => exact fun _ hp => absurd hp List.not_mem_nil
  | block hx _ _ _ ih =>
    intro p hp
    rcases List.mem_cons.mp hp with rfl | hp
    · exact lt_growAll hx (hl _ hx)
    · exact ih p hp

theorem Sweep.grown (h : Sweep lo hi l t bs) (hp : p ∈ bs) : p.2 = growAll lo hi p.1 l := by
  induction h with
  | done => exact absurd hp List.not_mem_nil
  | block _ _ _ _ ih =>
    rcases List.mem_cons.mp hp with rfl | hp
    · rfl
    · exact ih hp

theorem Sweep.from_mem (h : Sweep lo hi l t bs) (hp : p ∈ bs) :
    t ≤ p.1 ∧ ∃ x ∈ l, lo x = p.1 := by
  induction h with
  | done => exact absurd hp List.not_mem_nil
  | block hx ht _ _ ih =>
    rcases List.mem_cons.mp hp with rfl | hp
    · exact ⟨ht, _, hx, rfl⟩
    · exact ⟨le_trans ht (le_trans le_growAll (ih hp).1), (ih hp).2⟩

theorem Sweep.covered (h : Sweep lo hi l t bs) (hp : p ∈ bs) (hc : p.1 ≤ c) (hc' : c < p.2) :
    Covered lo hi l c := by
  rw [h.grown hp] at hc'
  exact covered_growAll hc hc'

theorem Sweep.ordered (h : Sweep lo hi l t bs) : bs.Pairwise fun p q => p.2 ≤ q.1 := by
  induction h with
  | done => exact .nil
  | block _ _ _ hrest ih => exact .cons (fun q hq => (hrest.from_mem hq).1) ih

/-- Only the bounds of the intervals of the list matter. -/
theorem Sweep.congr {lo' hi' : ι → α} (h : Sweep lo hi l t bs) (hlo : ∀ x ∈ l, lo' x = lo x)
    (hhi : ∀ x ∈ l, hi' x = hi x) : Sweep lo' hi' l t bs := by
  have hgrow : ∀ b, growAll lo' hi' b l = growAll lo hi b l := by
    intro b
    refine List.foldl_ext _ _ b fun b x hx => ?_
    rw [grow, grow, hlo x hx, hhi x hx]
  induction h with
  | done hdone => exact .done fun x hx => hlo x hx ▸ hdone x hx
  | block hx ht hmin hrest ih =>
    rw [← hlo _ hx, ← hgrow] at ih ⊢
    refine .block hx (hlo _ hx ▸ ht) (fun y hy hty => ?_) ih
    rw [hlo _ hx, hlo y hy]
    exact hmin y hy (hlo y hy ▸ hty)

/-- The blocks are determined. -/
theorem Sweep.unique {bs' : List (α × α)} (h : Sweep lo hi l t bs) (h' : Sweep lo hi l t bs') :
    bs = bs' := by
  induction h generalizing bs' with
  | done hdone =>
    cases h' with
    | done => rfl
    | block hx ht _ _ => exact absurd (hdone _ hx) (not_lt_of_ge ht)
  | @block t x bs hx ht hmin hrest ih =>
    cases h' with
    | done hdone => exact absurd (hdone x hx) (not_lt_of_ge ht)
    | @block _ y bs' hy hty hmin' hrest' =>
      have heq : lo y = lo x := le_antisymm (hmin' x hx ht) (hmin y hy hty)
      rw [heq] at hrest' ⊢
      rw [ih hrest']

/-- A bound that is passed is not left. -/
theorem length_left_lt (hx : x ∈ l) (ht : t ≤ lo x) (hlt : lo x < c) :
    (l.filter (c ≤ lo ·)).length < (l.filter (t ≤ lo ·)).length := by
  have hsub : l.filter (c ≤ lo ·) = (l.filter (t ≤ lo ·)).filter (c ≤ lo ·) := by
    rw [List.filter_filter]
    refine List.filter_congr fun y _ => ?_
    rw [Bool.eq_iff_iff]
    simp only [decide_eq_true_eq, Bool.and_eq_true, iff_self_and]
    exact fun hy => le_trans ht (le_trans (le_of_lt hlt) hy)
  rw [hsub]
  refine List.length_filter_lt_length_iff_exists.mpr ⟨x, ?_, ?_⟩
  · exact List.mem_filter.mpr ⟨hx, decide_eq_true ht⟩
  · simpa using hlt

/-- Each block begins at a bound of its own. -/
theorem Sweep.length_le (hl : ∀ x ∈ l, lo x < hi x) (h : Sweep lo hi l t bs) :
    bs.length ≤ (l.filter (t ≤ lo ·)).length := by
  induction h with
  | done => exact Nat.zero_le _
  | block hx ht _ _ ih =>
    exact Nat.lt_of_le_of_lt ih (length_left_lt hx ht (lt_growAll hx (hl _ hx)))

/-! ## Section 4: When the Blocks Are Canonical -/

/-- What is climbed to from below a fresh bound stays below it. -/
theorem Climbs.lt_fresh {l' : List ι} (h : Climbs lo hi l' a c) (hsub : l' ⊆ l)
    (hf : Fresh lo hi l b) (hab : a < b) : c < b := by
  induction h with
  | nil => exact hab
  | skip _ ih => exact ih (fun _ hy => hsub (List.mem_cons_of_mem _ hy)) hab
  | take hx _ ih =>
    refine ih (fun _ hy => hsub (List.mem_cons_of_mem _ hy)) ?_
    exact hf _ (hsub List.mem_cons_self) (lt_of_le_of_lt hx hab)

/-- Where every interval can be climbed to, what begins up to the end of a block ends there. -/
theorem hi_le_of_inOrder (horder : ∀ x ∈ l, InOrder lo hi l x) (hx : x ∈ l)
    (hle : lo x ≤ growAll lo hi b l) : hi x ≤ growAll lo hi b l := by
  obtain ⟨f, -, hfresh, hfx, c, hclimb, hc⟩ := horder x hx
  rcases le_or_gt (lo f) b with hfb | hbf
  · exact le_trans hc (hclimb.le_growAll hfb)
  · -- the block would have to climb over a bound that nothing comes up to
    have := climbs_growAll.lt_fresh (List.Subset.refl l) hfresh hbf
    exact absurd (lt_of_lt_of_le this hfx) (not_lt_of_ge hle)

/-- The intervals from `t` on lie in blocks with gaps between them. -/
theorem Sweep.canonical_of_inOrder (hl : ∀ x ∈ l, lo x < hi x)
    (horder : ∀ x ∈ l, InOrder lo hi l x) (h : Sweep lo hi l t bs) :
    (bs.Pairwise fun p q => p.2 < q.1) ∧
      ∀ x ∈ l, t ≤ lo x → ∃ p ∈ bs, p.1 ≤ lo x ∧ hi x ≤ p.2 := by
  induction h with
  | done hdone => exact ⟨.nil, fun x hx ht => absurd (hdone x hx) (not_lt_of_ge ht)⟩
  | @block t x bs hx ht hmin hrest ih =>
    have hend : ∀ y ∈ l, lo y ≤ growAll lo hi (lo x) l → hi y ≤ growAll lo hi (lo x) l :=
      fun y hy hle => hi_le_of_inOrder horder hy hle
    -- nothing begins where the block ends
    have hgap : ∀ y ∈ l, growAll lo hi (lo x) l ≤ lo y → growAll lo hi (lo x) l < lo y := by
      intro y hy hle
      refine lt_of_le_of_ne hle fun heq => ?_
      exact absurd (hend y hy (le_of_eq heq.symm)) (not_le_of_gt (heq ▸ hl y hy))
    obtain ⟨hgaps, hcover⟩ := ih
    refine ⟨.cons (fun q hq => ?_) hgaps, fun y hy hty => ?_⟩
    · obtain ⟨hle, z, hz, heq⟩ := hrest.from_mem hq
      rw [← heq] at hle ⊢
      exact hgap z hz hle
    · rcases lt_or_ge (lo y) (growAll lo hi (lo x) l) with hlt | hge
      · exact ⟨_, List.mem_cons_self, hmin y hy hty, hend y hy (le_of_lt hlt)⟩
      · obtain ⟨q, hq, hin⟩ := hcover y hy hge
        exact ⟨q, List.mem_cons_of_mem _ hq, hin⟩

section canonical

variable (hl : ∀ x ∈ l, lo x < hi x) (hc : Canonical lo hi l bs)

include hc

/-- Two blocks are the same, or one ends below the other. -/
theorem Canonical.apart {q : α × α} (hp : p ∈ bs) (hq : q ∈ bs) :
    p = q ∨ p.2 < q.1 ∨ q.2 < p.1 := by
  by_cases heq : p = q
  · exact .inl heq
  · have hsymm : Std.Symm fun p q : α × α => p.2 < q.1 ∨ q.2 < p.1 := ⟨fun _ _ => Or.symm⟩
    have hgaps : bs.Pairwise fun p q => p.2 < q.1 ∨ q.2 < p.1 := hc.gaps.imp fun h => .inl h
    exact .inr (hgaps.forall hp hq heq)

include hl

/-- Every interval lies in one block. -/
theorem Canonical.one_block (hne : ∀ p ∈ bs, p.1 < p.2) (hx : x ∈ l) :
    ∃ p ∈ bs, p.1 ≤ lo x ∧ hi x ≤ p.2 := by
  obtain ⟨p, hp, hle, hlt⟩ := (hc.union (lo x)).mpr ⟨x, hx, le_refl _, hl x hx⟩
  refine ⟨p, hp, hle, le_of_not_gt fun hgt => ?_⟩
  -- the end of the block lies in the interval, so in another block
  obtain ⟨q, hq, hq₁, hq₂⟩ := (hc.union p.2).mpr ⟨x, hx, le_of_lt hlt, hgt⟩
  rcases hc.apart hp hq with rfl | hpq | hqp
  · exact lt_irrefl _ hq₂
  · exact absurd hq₁ (not_le_of_gt hpq)
  · exact absurd (lt_trans hqp (hne p hp)) (not_lt_of_gt hq₂)

omit hl in
/-- What is covered without a gap lies in one block. -/
theorem Canonical.block_of_covered {e : α} (hae : a < e)
    (hcov : ∀ c, a ≤ c → c < e → Covered lo hi l c) : ∃ p ∈ bs, p.1 ≤ a ∧ e ≤ p.2 := by
  obtain ⟨p, hp, hle, hlt⟩ := (hc.union a).mpr (hcov a (le_refl a) hae)
  refine ⟨p, hp, hle, le_of_not_gt fun hgt => ?_⟩
  -- the end of the block is covered, so it lies in another one
  obtain ⟨q, hq, hq₁, hq₂⟩ := (hc.union p.2).mpr (hcov p.2 (le_of_lt hlt) hgt)
  rcases hc.apart hp hq with rfl | hpq | hqp
  · exact lt_irrefl _ hq₂
  · exact absurd hq₁ (not_le_of_gt hpq)
  · exact absurd (lt_trans hqp (lt_of_le_of_lt hle hlt)) (not_lt_of_gt hq₂)

/-- Nothing comes up to a block from below. -/
theorem Canonical.fresh (hne : ∀ p ∈ bs, p.1 < p.2) (hp : p ∈ bs) : Fresh lo hi l p.1 := by
  intro x hx hlt
  obtain ⟨q, hq, hq₁, hq₂⟩ := hc.one_block hl hne hx
  rcases hc.apart hp hq with rfl | hpq | hqp
  · exact absurd hq₁ (not_le_of_gt hlt)
  · exact absurd (lt_trans hpq (lt_of_le_of_lt hq₁ hlt)) (not_lt_of_gt (hne p hp))
  · exact lt_of_le_of_lt hq₂ hqp

end canonical

/-- The blocks are canonical when the intervals follow each other in list order, and only
    then. -/
theorem Sweep.canonical_iff (hl : ∀ x ∈ l, lo x < hi x) (h : Sweep lo hi l t bs)
    (ht : ∀ x ∈ l, t ≤ lo x) : Canonical lo hi l bs ↔ ∀ x ∈ l, InOrder lo hi l x := by
  have hne := h.nonempty hl
  constructor
  · intro hc x hx
    obtain ⟨p, hp, hle, hge⟩ := hc.one_block hl hne hx
    obtain ⟨f, hf, heq⟩ := (h.from_mem hp).2
    refine ⟨f, hf, heq ▸ hc.fresh hl hne hp, heq ▸ hle, p.2, ?_, hge⟩
    rw [h.grown hp, heq]
    exact climbs_growAll
  · intro horder
    obtain ⟨hgaps, hcover⟩ := h.canonical_of_inOrder hl horder
    refine ⟨hgaps, fun c => ⟨?_, ?_⟩⟩
    · rintro ⟨p, hp, hc, hc'⟩
      exact h.covered hp hc hc'
    · rintro ⟨x, hx, hc, hc'⟩
      obtain ⟨p, hp, hle, hge⟩ := hcover x hx (ht x hx)
      exact ⟨p, hp, le_trans hle hc, lt_of_lt_of_le hc' hge⟩

end sweep

end Intervals
