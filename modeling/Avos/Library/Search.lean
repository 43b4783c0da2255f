import Mathlib.Data.Option.Basic
import Mathlib.Order.Bounds.Basic
import Mathlib.Order.Nat
import Mathlib.Tactic.Common

/-! # Searching for the Best Offer

  A loop goes over the items of a list. An item has at most one offer, and the loop keeps the
  least offer so far; but an item that has the lower bound of all offers ends the loop.

  * `floorTo`, `ceilTo`: the multiples of a number next to another number.
  * `seek`: the loop. It finds the least offer (`isLeast_seek`); for the greatest offer it is
    used in the dual order.
  * `foldlM_seek`, `foldlM_error`: a loop of a program that has `seek` as its meaning.
-/

namespace Searches

/-! ## Section 1: Multiples -/

/-- The greatest multiple of `n` up to `a`. -/
def floorTo (n a : ℕ) : ℕ := a / n * n

/-- The least multiple of `n` from `a` on. -/
def ceilTo (n a : ℕ) : ℕ := if n ∣ a then a else (a / n + 1) * n

section multiples

variable {n a r : ℕ}

theorem dvd_floorTo : n ∣ floorTo n a := Nat.dvd_mul_left n (a / n)

theorem floorTo_le : floorTo n a ≤ a := Nat.div_mul_le_self a n

theorem le_floorTo (hr : n ∣ r) (hle : r ≤ a) : r ≤ floorTo n a := by
  obtain ⟨k, rfl⟩ := hr
  rcases Nat.eq_zero_or_pos n with rfl | hn
  · simp [floorTo]
  · have hk : k ≤ a / n := (Nat.le_div_iff_mul_le hn).mpr (by rwa [Nat.mul_comm])
    rw [floorTo, Nat.mul_comm n k]
    exact Nat.mul_le_mul_right n hk

theorem dvd_ceilTo : n ∣ ceilTo n a := by
  rw [ceilTo]
  split
  · assumption
  · exact Nat.dvd_mul_left n _

theorem le_ceilTo (hn : 0 < n) : a ≤ ceilTo n a := by
  rw [ceilTo]
  split
  · exact le_refl a
  · have hlt := Nat.lt_div_mul_add (a := a) hn
    rw [Nat.add_mul, Nat.one_mul]
    exact Nat.le_of_lt hlt

theorem ceilTo_le (hr : n ∣ r) (hle : a ≤ r) : ceilTo n a ≤ r := by
  rw [ceilTo]
  split
  · exact hle
  · next hna =>
    obtain ⟨k, rfl⟩ := hr
    rcases Nat.eq_zero_or_pos n with rfl | hn
    · simp
    · have hne : a ≠ n * k := fun heq => hna (heq ▸ Nat.dvd_mul_right n k)
      have hlt : a / n < k := (Nat.div_lt_iff_lt_mul hn).mpr (by rw [Nat.mul_comm]; omega)
      rw [Nat.mul_comm n k]
      exact Nat.mul_le_mul_right n hlt

/-- Rounding up adds less than `n`. -/
theorem ceilTo_lt (hn : 0 < n) : ceilTo n a < a + n := by
  rw [ceilTo]
  split
  · omega
  · next hna =>
    have hmod : a % n ≠ 0 := fun h => hna (Nat.dvd_of_mod_eq_zero h)
    have hsum := Nat.div_add_mod a n
    rw [Nat.add_mul, Nat.one_mul, Nat.mul_comm]
    omega

end multiples

/-! ## Section 2: The Search -/

variable {ι α β : Type*} [LinearOrder α]

/-- The search from `best` on. An item that stops it gives `bound`. -/
def seek (stops : ι → Prop) [DecidablePred stops] (offer : ι → Option α) (bound : α) :
    List ι → α → α
  | [], best => best
  | x :: l, best =>
      if stops x then bound else seek stops offer bound l ((offer x).elim best (min best))

section seek

variable {stops : ι → Prop} [DecidablePred stops] {offer : ι → Option α} {bound best : α}
  {l : List ι}

/-- The bound is at or below all offers, so it is the least one where it is found. -/
theorem isLeast_seek (hbest : bound ≤ best) (hoffer : ∀ x ∈ l, ∀ a ∈ offer x, bound ≤ a) :
    IsLeast {a | a = best ∨ (∃ x ∈ l, a ∈ offer x) ∨ a = bound ∧ ∃ x ∈ l, stops x}
      (seek stops offer bound l best) := by
  induction l generalizing best with
  | nil =>
    refine ⟨.inl rfl, ?_⟩
    rintro a (rfl | ⟨x, hx, -⟩ | ⟨-, x, hx, -⟩)
    · exact le_refl a
    · exact absurd hx List.not_mem_nil
    · exact absurd hx List.not_mem_nil
  | cons x l ih =>
    have hrest : ∀ y ∈ l, ∀ a ∈ offer y, bound ≤ a :=
      fun y hy => hoffer y (List.mem_cons_of_mem x hy)
    rw [seek]
    split
    · next hx =>
      refine ⟨.inr (.inr ⟨rfl, x, List.mem_cons_self, hx⟩), ?_⟩
      rintro a (rfl | ⟨y, hy, ha⟩ | ⟨rfl, -⟩)
      · exact hbest
      · exact hoffer y hy a ha
      · exact le_refl a
    · next hx =>
      -- the new best is the least of the old one and of the offer of `x`
      have hnew : IsLeast {a | a = best ∨ a ∈ offer x} ((offer x).elim best (min best)) := by
        cases ho : offer x with
        | none =>
          refine ⟨.inl rfl, ?_⟩
          rintro a (rfl | ha)
          · exact le_refl a
          · exact nomatch ha
        | some b =>
          refine ⟨?_, ?_⟩
          · rcases le_total best b with hle | hle
            · exact .inl (min_eq_left hle)
            · exact .inr (congrArg some (min_eq_right hle).symm)
          · rintro a (rfl | ha)
            · exact min_le_left a b
            · obtain rfl : b = a := Option.some.inj ha
              exact min_le_right best b
      have hbound : bound ≤ (offer x).elim best (min best) := by
        rcases hnew.1 with heq | hmem
        · rw [heq]
          exact hbest
        · exact hoffer x List.mem_cons_self _ hmem
      obtain ⟨hmem, hle⟩ := ih hbound hrest
      refine ⟨?_, ?_⟩
      · rcases hmem with heq | ⟨y, hy, ha⟩ | ⟨heq, y, hy, hs⟩
        · rw [heq]
          rcases hnew.1 with heq' | hmem'
          · exact .inl heq'
          · exact .inr (.inl ⟨x, List.mem_cons_self, hmem'⟩)
        · exact .inr (.inl ⟨y, List.mem_cons_of_mem x hy, ha⟩)
        · exact .inr (.inr ⟨heq, y, List.mem_cons_of_mem x hy, hs⟩)
      · rintro a (rfl | ⟨y, hy, ha⟩ | ⟨rfl, y, hy, hs⟩)
        · exact le_trans (hle (.inl rfl)) (hnew.2 (.inl rfl))
        · rcases List.mem_cons.mp hy with rfl | hy
          · exact le_trans (hle (.inl rfl)) (hnew.2 (.inr ha))
          · exact hle (.inr (.inl ⟨y, hy, ha⟩))
        · rcases List.mem_cons.mp hy with rfl | hy
          · exact absurd hs hx
          · exact hle (.inr (.inr ⟨rfl, y, hy, hs⟩))

/-- The value that a loop ends with, whichever way it ends. -/
def outcome : Except β β → β
  | .error b => b
  | .ok b => b

/-- A loop whose rounds stop or take offers as in a search has its result. -/
theorem foldlM_seek {step : β → ι → Except β β} (val : β → α)
    (hstop : ∀ b, ∀ x ∈ l, stops x → ∃ r, step b x = .error r ∧ val r = bound)
    (hpass : ∀ b, ∀ x ∈ l, ¬stops x →
      ∃ r, step b x = .ok r ∧ val r = (offer x).elim (val b) (min (val b))) (b : β) :
    val (outcome (l.foldlM step b)) = seek stops offer bound l (val b) := by
  induction l generalizing b with
  | nil => rfl
  | cons x l ih =>
    rw [List.foldlM_cons, seek]
    split
    · next hx =>
      obtain ⟨r, hr, hval⟩ := hstop b x List.mem_cons_self hx
      rw [hr]
      exact hval
    · next hx =>
      obtain ⟨r, hr, hval⟩ := hpass b x List.mem_cons_self hx
      rw [hr, ← hval]
      exact ih (fun b y hy => hstop b y (List.mem_cons_of_mem x hy))
        (fun b y hy => hpass b y (List.mem_cons_of_mem x hy)) r

/-- What every round keeps, and every exit has, the loop ends with. -/
theorem outcome_foldlM {step : β → ι → Except β β} {p : β → Prop} {b : β}
    (hstep : ∀ b, p b → ∀ x ∈ l, p (outcome (step b x))) (h : p b) :
    p (outcome (l.foldlM step b)) := by
  induction l generalizing b with
  | nil => exact h
  | cons x l ih =>
    have hx := hstep b h x List.mem_cons_self
    rw [List.foldlM_cons]
    cases hb : step b x with
    | error r =>
      rw [hb] at hx
      exact hx
    | ok r =>
      rw [hb] at hx
      exact ih (fun b hb y hy => hstep b hb y (List.mem_cons_of_mem x hy)) hx

/-- A loop that is left from a round has come to an item that stops it. -/
theorem foldlM_error {step : β → ι → Except β β} {b r : β}
    (hpass : ∀ b, ∀ x ∈ l, ¬stops x → ∃ r, step b x = .ok r)
    (h : l.foldlM step b = .error r) : ∃ x ∈ l, stops x := by
  induction l generalizing b with
  | nil => exact nomatch h
  | cons x l ih =>
    by_cases hx : stops x
    · exact ⟨x, List.mem_cons_self, hx⟩
    · obtain ⟨b', hb⟩ := hpass b x List.mem_cons_self hx
      rw [List.foldlM_cons, hb] at h
      obtain ⟨y, hy, hs⟩ := ih (fun b y hy => hpass b y (List.mem_cons_of_mem x hy)) h
      exact ⟨y, List.mem_cons_of_mem x hy, hs⟩

end seek

end Searches
