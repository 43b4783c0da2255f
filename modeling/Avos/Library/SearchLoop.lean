import Avos.Library.Walk

/-! # Searches Along a Path

  A loop `for (; cond a; a = next a) if (test a) break;` that looks for the first position of a
  kind. `searchLoop` gives the position where it is left, or says that it came to its end, and
  the positions that were examined.

  Over a path without such a position the loop goes to its end (`searchLoop_path`), over a path
  with one it finds the first (`searchLoop_find`); `searchLoop_path_end` is both. If the path
  comes back to where it began, the loop goes round for ever (`searchLoop_cycle`).
-/

namespace Walks

variable {α : Type*}

/-- The loop, with a bound on its number of tests of the condition, and the positions examined
    so far. -/
def searchLoop (cond test : α → Prop) [DecidablePred cond] [DecidablePred test] (next : α → α) :
    Nat → α → List α → Option (Option α × List α)
  | 0, _, _ => none
  | n + 1, a, seen =>
      if cond a then
        if test a then some (some a, seen ++ [a])
        else searchLoop cond test next n (next a) (seen ++ [a])
      else some (none, seen)

section searches

variable {cond test : α → Prop} [DecidablePred cond] [DecidablePred test] {next : α → α}
  {a b p : α} {l seen : List α} {n k : Nat} {out : Option α × List α}

/-- The first element of a kind, when it is of a stronger kind. -/
theorem find?_of_imp {P Q : α → Prop} [DecidablePred P] [DecidablePred Q]
    (himp : ∀ p, Q p → P p) (h : l.find? (fun p => P p) = some p) (hp : Q p) :
    l.find? (fun p => Q p) = some p := by
  rw [List.find?_eq_some_iff_append] at h ⊢
  obtain ⟨-, before, behind, hl, hbefore⟩ := h
  refine ⟨decide_eq_true hp, before, behind, hl, fun q hq => ?_⟩
  have hno := hbefore q hq
  simp only [Bool.not_eq_true', decide_eq_false_iff_not] at hno ⊢
  exact fun hQ => hno (himp q hQ)

/-- A larger bound does not change the result. -/
theorem searchLoop_mono (h : searchLoop cond test next n a seen = some out) (hnk : n ≤ k) :
    searchLoop cond test next k a seen = some out := by
  induction n generalizing a seen k with
  | zero => exact nomatch h
  | succ n ih =>
    obtain ⟨k, rfl⟩ := Nat.exists_eq_add_of_le' (show 1 ≤ k by omega)
    rw [searchLoop] at h ⊢
    split at h
    · next hcond =>
      rw [if_pos hcond]
      split at h
      · next htest =>
        rw [if_pos htest]
        exact h
      · next htest =>
        rw [if_neg htest]
        exact ih h (by omega)
    · next hcond =>
      rw [if_neg hcond]
      exact h

/-- Two results of the loop are equal, whatever the bounds. -/
theorem searchLoop_unique {out' : Option α × List α}
    (h : searchLoop cond test next n a seen = some out)
    (h' : searchLoop cond test next k a seen = some out') : out = out' := by
  rcases Nat.le_total n k with hnk | hkn
  · rw [searchLoop_mono h hnk] at h'
    exact Option.some.inj h'
  · rw [searchLoop_mono h' hkn] at h
    exact (Option.some.inj h).symm

/-- Along a path with no position of the kind, all positions are examined. -/
theorem searchLoop_path (h : Path cond next a l b) (hl : ∀ c ∈ l, ¬test c) :
    searchLoop cond test next (l.length + k) a seen =
      searchLoop cond test next k b (seen ++ l) := by
  induction l generalizing a seen with
  | nil =>
    obtain rfl : a = b := h
    rw [List.length_nil, Nat.zero_add, List.append_nil]
  | cons c l ih =>
    obtain ⟨rfl, hc, hpath⟩ := h
    rw [List.length_cons, Nat.add_right_comm, searchLoop, if_pos hc,
      if_neg (hl c List.mem_cons_self), ih hpath fun d hd => hl d (List.mem_cons_of_mem c hd),
      List.append_assoc, List.singleton_append]

/-- Along a path, the first position of the kind is found. -/
theorem searchLoop_find (h : Path cond next a l b) (hp : l.find? (fun c => test c) = some p) :
    ∃ seen', searchLoop cond test next l.length a seen = some (some p, seen') := by
  induction l generalizing a seen with
  | nil => exact nomatch hp
  | cons c l ih =>
    obtain ⟨rfl, hc, hpath⟩ := h
    rw [List.length_cons, searchLoop, if_pos hc]
    rw [List.find?_cons] at hp
    by_cases htest : test c
    · simp only [htest, decide_true] at hp
      obtain rfl := Option.some.inj hp
      exact ⟨_, if_pos htest⟩
    · simp only [htest, decide_false] at hp
      rw [if_neg htest]
      exact ih hpath hp

/-- A path to where the condition fails is searched to its end, or to the first position of the
    kind. -/
theorem searchLoop_path_end (h : Path cond next a l b) (hb : ¬cond b) :
    ∃ seen', searchLoop cond test next (l.length + 1) a seen =
        some (l.find? (fun c => test c), seen') ∧
      (l.find? (fun c => test c) = none → seen' = seen ++ l) := by
  cases hfind : l.find? (fun c => test c) with
  | none =>
    have hl : ∀ c ∈ l, ¬test c := by simpa using hfind
    refine ⟨seen ++ l, ?_, fun _ => rfl⟩
    rw [searchLoop_path h hl, searchLoop, if_neg hb]
  | some p =>
    obtain ⟨seen', hfound⟩ := @searchLoop_find _ _ _ _ _ _ _ _ _ _ seen h hfind
    exact ⟨seen', searchLoop_mono hfound (Nat.le_succ _), fun hnone => nomatch hnone⟩

/-- Where the loop has no result behind a path without a position of the kind, it has none. -/
theorem searchLoop_none (h : Path cond next a l b) (hl : ∀ c ∈ l, ¬test c)
    (hb : ∀ n seen, searchLoop cond test next n b seen = none) :
    searchLoop cond test next n a seen = none := by
  cases hout : searchLoop cond test next n a seen with
  | none => rfl
  | some out =>
    rw [← hb n (seen ++ l), ← searchLoop_path h hl]
    exact (searchLoop_mono hout (Nat.le_add_left n l.length)).symm

/-- A path that comes back, without a position of the kind: the loop has no result. -/
theorem searchLoop_cycle (h : Path cond next a l a) (hne : l ≠ []) (hl : ∀ c ∈ l, ¬test c)
    (n : Nat) : searchLoop cond test next n a seen = none := by
  -- every round of the cycle uses up some of the bound
  have hrounds : ∀ rounds seen, searchLoop cond test next (rounds * l.length) a seen = none := by
    intro rounds
    induction rounds with
    | zero =>
      intro seen
      rw [Nat.zero_mul]
      rfl
    | succ rounds ih =>
      intro seen
      rw [Nat.succ_mul, Nat.add_comm, searchLoop_path h hl]
      exact ih _
  have hpos : 0 < l.length := List.length_pos_iff.mpr hne
  cases hout : searchLoop cond test next n a seen with
  | none => rfl
  | some out =>
    rw [← hrounds n seen, searchLoop_mono hout (Nat.le_mul_of_pos_right n hpos)]

end searches

end Walks
