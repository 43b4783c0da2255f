import Mathlib.Data.Nat.Digits.Lemmas

/-! # Writing Numerals

  A number in base `b`, the most significant digit first, as a loop over the places writes it:
  the digit of each place is a quotient by the power of the place, and the remainder goes to the
  next place. A digit is written from the first one on that is not 0 (`placeDigits`).

  The digits written are those of `Nat.digits`, in the other order.
-/

namespace Numerals

variable {b k v : Nat}

/-- The numeral of `v` in base `b`: no leading zero, and a single `0` for 0. -/
def numeral (b v : Nat) : List Nat := if v = 0 then [0] else (Nat.digits b v).reverse

/-- The digits that are written for the places `k - 1` to `0`. -/
def placeDigits (b : Nat) : (start : Bool) → (k v : Nat) → List Nat
  | _, 0, _ => []
  | start, k + 1, v =>
      let start := start || decide (0 < v / b ^ k)
      (if start then [v / b ^ k] else []) ++ placeDigits b start k (v % b ^ k)

/-- A single digit. -/
theorem numeral_of_lt (hv : v < b) : numeral b v = [v] := by
  unfold numeral
  split
  · next hzero => rw [hzero]
  · next hzero => rw [Nat.digits_of_lt b v hzero hv, List.reverse_singleton]

theorem numeral_of_ne_zero (hv : v ≠ 0) : numeral b v = (Nat.digits b v).reverse := if_neg hv

theorem lt_of_mem_numeral {d : Nat} (hb : 1 < b) (hd : d ∈ numeral b v) : d < b := by
  unfold numeral at hd
  split at hd
  · rw [List.mem_singleton.mp hd]
    omega
  · exact Nat.digits_lt_base hb (List.mem_reverse.mp hd)

/-- The digits of a fixed number of places, split at the first place. -/
theorem digitsAppend_succ (hb : 1 < b) (hv : v < b ^ (k + 1)) :
    Nat.digitsAppend b (k + 1) v = Nat.digitsAppend b k (v % b ^ k) ++ [v / b ^ k] := by
  have hpos : 0 < b ^ k := Nat.pow_pos (by omega)
  have hmod : v % b ^ k < b ^ k := Nat.mod_lt _ hpos
  have hlen : (Nat.digitsAppend b k (v % b ^ k)).length = k := Nat.length_digitsAppend hb k hmod
  have hvalue : ∀ l n, Nat.ofDigits b (Nat.digitsAppend b l n) = n := by
    intro l n
    rw [Nat.digitsAppend, Nat.ofDigits_append_replicate_zero, Nat.ofDigits_digits]
  apply Nat.ofDigits_inj_of_len_eq hb
  · rw [Nat.length_digitsAppend hb _ hv, List.length_append, hlen, List.length_singleton]
  · intro d hd
    exact Nat.lt_of_mem_digitsAppend hb _ _ hd
  · intro d hd
    rcases List.mem_append.mp hd with hd | hd
    · exact Nat.lt_of_mem_digitsAppend hb _ _ hd
    · rw [List.mem_singleton.mp hd]
      exact Nat.div_lt_of_lt_mul (by rwa [Nat.pow_succ] at hv)
  · rw [hvalue, Nat.ofDigits_append, hvalue, hlen, Nat.ofDigits_singleton, Nat.mod_add_div]

/-- Once a digit has been written, every place is. -/
theorem placeDigits_true (hb : 1 < b) (hv : v < b ^ k) :
    placeDigits b true k v = (Nat.digitsAppend b k v).reverse := by
  induction k generalizing v with
  | zero =>
    obtain rfl : v = 0 := by simpa using hv
    simp [placeDigits, Nat.digitsAppend]
  | succ k ih =>
    have hmod : v % b ^ k < b ^ k := Nat.mod_lt _ (Nat.pow_pos (by omega))
    rw [placeDigits, digitsAppend_succ hb hv, List.reverse_append, List.reverse_singleton]
    simp only [Bool.true_or, if_true, ih hmod]

/-- The loop starts with the first digit that is not 0. -/
theorem placeDigits_false (hb : 1 < b) (hv : v < b ^ k) :
    placeDigits b false k v = (Nat.digits b v).reverse := by
  induction k generalizing v with
  | zero =>
    obtain rfl : v = 0 := by simpa using hv
    simp [placeDigits]
  | succ k ih =>
    have hpos : 0 < b ^ k := Nat.pow_pos (by omega)
    rw [placeDigits]
    by_cases hfirst : 0 < v / b ^ k
    · -- the number fills all places
      have hge : b ^ k ≤ v := by
        by_contra hlt
        rw [Nat.div_eq_of_lt (by omega)] at hfirst
        omega
      have hlen : k < (Nat.digits b v).length := (Nat.lt_digits_length_iff hb v).mpr hge
      have hall : Nat.digitsAppend b (k + 1) v = Nat.digits b v := by
        rw [Nat.digitsAppend, show k + 1 - (Nat.digits b v).length = 0 by omega]
        exact List.append_nil _
      rw [← hall, digitsAppend_succ hb hv, List.reverse_append, List.reverse_singleton]
      simp only [hfirst, decide_true, Bool.false_or, if_true,
        placeDigits_true hb (Nat.mod_lt _ hpos)]
    · have hlt : v < b ^ k := by
        by_contra hge
        exact hfirst (Nat.div_pos (by omega) hpos)
      simp only [hfirst, decide_false, Bool.false_or, Bool.false_eq_true, if_false, List.nil_append,
        Nat.mod_eq_of_lt hlt]
      exact ih hlt

/-- The loop writes the numeral of a number that is not 0. -/
theorem placeDigits_eq_numeral (hb : 1 < b) (hv : v < b ^ k) (hne : v ≠ 0) :
    placeDigits b false k v = numeral b v := by
  rw [placeDigits_false hb hv, numeral_of_ne_zero hne]

end Numerals
