import Mathlib.Data.BitVec
import Mathlib.Tactic.Common

/-! # Sequence Locks

  Data in parts that one writer changes while readers take it part by part. The writer counts a
  version: it is odd while a change is going on, and the data stay as they are while it is even.
  A reader takes the version before and after the parts.

  * `Locked`: the versions and the data of a history of `n` steps.
  * `Locked.data_eq`: the data do not change while the version is the same even number.
  * `Locked.snapshot`: parts that are taken between two equal even versions are the data.
  * `version_eq`: a version that is kept in `w` bits has not changed, if it is the same and has
    gone on by less than 2^w.
-/

namespace Seqlock

variable {Part α : Type*} {n w : Nat} {version : Nat → Nat} {data : Nat → Part → α}

/-- In the first `n` steps of a history the version does not go back, and the data are changed
    only while it is odd. -/
structure Locked (n : Nat) (version : Nat → Nat) (data : Nat → Part → α) : Prop where
  mono : ∀ i < n, version i ≤ version (i + 1)
  still : ∀ i < n, version i % 2 = 0 → data (i + 1) = data i

theorem Locked.version_le (h : Locked n version data) {i j : Nat} (hij : i ≤ j) (hj : j ≤ n) :
    version i ≤ version j := by
  induction j, hij using Nat.le_induction with
  | base => exact Nat.le_refl _
  | succ j _ ih => exact (ih (by omega)).trans (h.mono j (by omega))

/-- Nothing changes between two states of the same even version. -/
theorem Locked.data_eq (h : Locked n version data) {i j : Nat} (hij : i ≤ j) (hj : j ≤ n)
    (heven : version i % 2 = 0) (hsame : version j = version i) : data j = data i := by
  induction j, hij using Nat.le_induction with
  | base => rfl
  | succ j hle ih =>
    have hbefore := h.version_le hle (by omega)
    have hafter := h.mono j (by omega)
    have hstep : version j = version i := by omega
    rw [h.still j (by omega) (by omega), ih (by omega) hstep]

/-- Parts that were taken one by one, while the version was the same even number. -/
theorem Locked.snapshot (h : Locked n version data) {i j : Nat} (hj : j ≤ n) {seen : Part → α}
    (hseen : ∀ p, ∃ k, i ≤ k ∧ k ≤ j ∧ seen p = data k p) (heven : version i % 2 = 0)
    (hsame : version j = version i) : seen = data i := by
  funext p
  obtain ⟨k, hik, hkj, hk⟩ := hseen p
  have hle := h.version_le hik (by omega)
  have hge := h.version_le hkj hj
  rw [hk, h.data_eq hik (by omega) heven (by omega)]

/-- The version in `w` bits. -/
theorem version_eq {a b : Nat} (hab : a ≤ b) (hb : b < a + 2 ^ w)
    (h : BitVec.ofNat w b = BitVec.ofNat w a) : b = a := by
  have hmod := congrArg BitVec.toNat h
  rw [BitVec.toNat_ofNat, BitVec.toNat_ofNat] at hmod
  have hzero : (b - a) % 2 ^ w = 0 := Nat.sub_mod_eq_zero_of_mod_eq hmod
  rw [Nat.mod_eq_of_lt (by omega)] at hzero
  omega

end Seqlock
