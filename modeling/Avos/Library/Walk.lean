import Mathlib.Data.List.Basic
import Mathlib.Data.List.Nodup
import Mathlib.Tactic.Common

/-! # Walks Along Variable-Length Records

  A loop `while (cond a) { body; a = next a; }` whose body may leave it. Tables of
  records that carry their own length are read by such loops, and nothing but the
  records themselves makes them end.

  * `whileLoop`: the loop, with a bound on its number of tests of the condition.
  * `Path`, `Walk`: the positions the loop goes through, and that it ends.
  * `StopWalk`: a walk that also ends behind the first position of a kind.
  * `whileLoop_ok`, `whileLoop_error`: the results of the loop, by what its body
    makes of the positions of a walk or of a path.
  * `foldlM_perm`: rounds that commute may be made in any order.
  * `Reaches`: the first position of a kind that a deterministic machine comes to.
-/

namespace Walks

variable {α : Type*} {σ : Type*} {ρ : Type*}

/-- The loop. The body goes on with a new state, or leaves the loop with a result.
    There is no result when the bound runs out. -/
def whileLoop (cond : α → Prop) [DecidablePred cond] (next : α → α)
    (body : α → σ → Except ρ σ) : Nat → α → σ → Option (Except ρ σ)
  | 0, _, _ => none
  | n + 1, a, s =>
      if cond a then
        match body a s with
        | .error r => some (.error r)
        | .ok s => whileLoop cond next body n (next a) s
      else some (.ok s)

/-- The condition holds at the positions `l`, the first of which is `a`, and the position
    after them is `b`. -/
def Path (cond : α → Prop) (next : α → α) : α → List α → α → Prop
  | a, [], b => a = b
  | a, c :: l, b => c = a ∧ cond a ∧ Path cond next (next a) l b

/-- From `a` on the condition holds at the positions `l`, and not after them. -/
def Walk (cond : α → Prop) (next : α → α) (a : α) (l : List α) : Prop :=
  ∃ b, Path cond next a l b ∧ ¬cond b

/-- The loop goes from `a` on through the positions `l`, and is left at the first of them where
    it is to stop. -/
def StopWalk (cond : α → Prop) (next : α → α) (stop : α → Prop) : α → List α → Prop
  | a, [] => ¬cond a
  | a, c :: l => c = a ∧ cond a ∧ (stop a ∧ l = [] ∨ ¬stop a ∧ StopWalk cond next stop (next a) l)

/-! ## Paths -/

section paths

variable {cond : α → Prop} {next : α → α} {a b c : α} {l l' : List α}

@[simp] theorem path_nil : Path cond next a [] b ↔ a = b := Iff.rfl

@[simp] theorem path_cons :
    Path cond next a (c :: l) b ↔ c = a ∧ cond a ∧ Path cond next (next a) l b := Iff.rfl

@[simp] theorem walk_nil : Walk cond next a [] ↔ ¬cond a := by simp [Walk]

theorem walk_cons :
    Walk cond next a (c :: l) ↔ c = a ∧ cond a ∧ Walk cond next (next a) l := by
  simp only [Walk, path_cons]
  constructor
  · rintro ⟨b, ⟨hc, ha, hp⟩, hb⟩
    exact ⟨hc, ha, b, hp, hb⟩
  · rintro ⟨hc, ha, b, hp, hb⟩
    exact ⟨b, ⟨hc, ha, hp⟩, hb⟩

/-- A walk is determined by where it starts. -/
theorem Walk.unique (h : Walk cond next a l) (h' : Walk cond next a l') : l = l' := by
  induction l generalizing a l' with
  | nil =>
    cases l' with
    | nil => rfl
    | cons c l' => exact absurd (walk_cons.mp h').2.1 (walk_nil.mp h)
  | cons c l ih =>
    obtain ⟨rfl, hc, hl⟩ := walk_cons.mp h
    cases l' with
    | nil => exact absurd hc (walk_nil.mp h')
    | cons c' l' =>
      obtain ⟨rfl, _, hl'⟩ := walk_cons.mp h'
      rw [ih hl hl']

theorem Path.holds (h : Path cond next a l b) : ∀ c ∈ l, cond c := by
  induction l generalizing a with
  | nil => simp
  | cons d l ih =>
    obtain ⟨rfl, hd, hl⟩ := h
    intro c hc
    rcases List.mem_cons.mp hc with rfl | hc
    · exact hd
    · exact ih hl c hc

theorem Path.append (h : Path cond next a l b) {l' : List α} {c : α}
    (h' : Path cond next b l' c) : Path cond next a (l ++ l') c := by
  induction l generalizing a with
  | nil =>
    obtain rfl : a = b := h
    exact h'
  | cons d l ih =>
    obtain ⟨rfl, hd, hl⟩ := h
    exact ⟨rfl, hd, ih hl⟩

/-- A path can be cut at any of its positions. -/
theorem Path.split (h : Path cond next a l b) (hc : c ∈ l) :
    ∃ l₁ l₂, l = l₁ ++ c :: l₂ ∧ Path cond next a l₁ c ∧ Path cond next c (c :: l₂) b := by
  induction l generalizing a with
  | nil => simp at hc
  | cons d l ih =>
    have h₀ := h
    obtain ⟨rfl, hd, hl⟩ := h
    by_cases hcd : c = d
    · subst hcd
      exact ⟨[], l, rfl, rfl, h₀⟩
    · obtain ⟨l₁, l₂, rfl, h₁, h₂⟩ := ih hl (by simpa [hcd] using hc)
      exact ⟨d :: l₁, l₂, rfl, ⟨rfl, hd, h₁⟩, h₂⟩

/-- A walk from a position of a walk. -/
theorem Walk.split (h : Walk cond next a l) (hc : c ∈ l) :
    ∃ l₁ l₂, l = l₁ ++ c :: l₂ ∧ Walk cond next c (c :: l₂) := by
  obtain ⟨b, hp, hb⟩ := h
  obtain ⟨l₁, l₂, hl, _, hp₂⟩ := hp.split hc
  exact ⟨l₁, l₂, hl, b, hp₂, hb⟩

/-- A walk that stops is determined by where it starts. -/
theorem StopWalk.unique {stop : α → Prop} (h : StopWalk cond next stop a l)
    (h' : StopWalk cond next stop a l') : l = l' := by
  induction l generalizing a l' with
  | nil =>
    cases l' with
    | nil => rfl
    | cons c l' => exact absurd h'.2.1 h
  | cons c l ih =>
    obtain ⟨rfl, hc, hl⟩ := h
    cases l' with
    | nil => exact absurd hc h'
    | cons c' l' =>
      obtain ⟨rfl, -, hl'⟩ := h'
      rcases hl with ⟨hs, rfl⟩ | ⟨hs, hl⟩
      · obtain ⟨-, rfl⟩ := hl'.resolve_right fun h => h.1 hs
        rfl
      · rw [ih hl (hl'.resolve_left fun h => hs h.1).2]

/-- No position comes back in a walk: the loop would go round for ever. -/
theorem Walk.nodup (h : Walk cond next a l) : l.Nodup := by
  induction l generalizing a with
  | nil => simp
  | cons c l ih =>
    have hcl := h
    obtain ⟨rfl, hc, hl⟩ := walk_cons.mp h
    refine List.nodup_cons.mpr ⟨fun hmem => ?_, ih hl⟩
    obtain ⟨l₁, l₂, rfl, hw⟩ := hl.split hmem
    have hlen := congrArg List.length (hw.unique hcl)
    simp only [List.length_cons, List.length_append] at hlen
    omega

/-- A position that is its own successor is on no walk. -/
theorem Walk.next_ne (h : Walk cond next a l) (hc : c ∈ l) : next c ≠ c := by
  intro heq
  obtain ⟨l₁, l₂, rfl, hw⟩ := h.split hc
  obtain ⟨_, _, hw'⟩ := walk_cons.mp hw
  rw [heq] at hw'
  have hlen := congrArg List.length (hw.unique hw')
  simp at hlen

/-- A walk depends on the condition and on the step at its own positions only. -/
theorem Walk.congr {cond' : α → Prop} {next' : α → α} (h : Walk cond next a l)
    (hcond : ∀ b, cond' b ↔ cond b) (hnext : ∀ b ∈ l, next' b = next b) :
    Walk cond' next' a l := by
  induction l generalizing a with
  | nil => exact walk_nil.mpr (fun h' => walk_nil.mp h ((hcond a).mp h'))
  | cons c l ih =>
    obtain ⟨rfl, hc, hl⟩ := walk_cons.mp h
    refine walk_cons.mpr ⟨rfl, (hcond c).mpr hc, ?_⟩
    rw [hnext c (by simp)]
    exact ih hl fun b hb => hnext b (by simp [hb])

/-- The image of a path under a map that respects the condition and the step. -/
theorem Path.map {β : Type*} {cond' : β → Prop} {next' : β → β} (f : α → β)
    (h : Path cond next a l b)
    (hstep : ∀ c ∈ l, cond' (f c) ∧ next' (f c) = f (next c)) :
    Path cond' next' (f a) (l.map f) (f b) := by
  induction l generalizing a with
  | nil =>
    obtain rfl : a = b := h
    rfl
  | cons d l ih =>
    obtain ⟨rfl, hd, hl⟩ := h
    obtain ⟨hd', hnext⟩ := hstep d (by simp)
    refine ⟨rfl, hd', ?_⟩
    rw [hnext]
    exact ih hl fun c hc => hstep c (by simp [hc])

/-- A walk seen through a map `f` that respects the condition and the step where `I` holds. -/
theorem Walk.map_iff {β : Type*} {cond : α → Prop} {next : α → α} {cond' : β → Prop}
    {next' : β → β} {f : α → β} {I : α → Prop} {a : α} {l' : List β}
    (hcond : ∀ b, I b → (cond' (f b) ↔ cond b))
    (hnext : ∀ b, I b → cond b → I (next b) ∧ next' (f b) = f (next b)) (ha : I a) :
    Walk cond' next' (f a) l' ↔ ∃ l, Walk cond next a l ∧ l' = l.map f := by
  constructor
  · intro h
    induction l' generalizing a with
    | nil => exact ⟨[], walk_nil.mpr fun hc => walk_nil.mp h ((hcond a ha).mpr hc), rfl⟩
    | cons c l' ih =>
      obtain ⟨rfl, hc, hl⟩ := walk_cons.mp h
      have hca := (hcond a ha).mp hc
      obtain ⟨hI, heq⟩ := hnext a ha hca
      rw [heq] at hl
      obtain ⟨l, hw, rfl⟩ := ih hI hl
      exact ⟨a :: l, walk_cons.mpr ⟨rfl, hca, hw⟩, rfl⟩
  · rintro ⟨l, h, rfl⟩
    induction l generalizing a with
    | nil => exact walk_nil.mpr fun hc => walk_nil.mp h ((hcond a ha).mp hc)
    | cons c l ih =>
      obtain ⟨rfl, hc, hl⟩ := walk_cons.mp h
      obtain ⟨hI, heq⟩ := hnext c ha hc
      exact walk_cons.mpr ⟨rfl, (hcond c ha).mpr hc, heq ▸ ih hI hl⟩

end paths

/-! ## Loops -/

section loops

variable {cond : α → Prop} [DecidablePred cond] {next : α → α} {body : α → σ → Except ρ σ}
  {a : α} {s s' : σ} {r : ρ} {n : Nat}

/-- The loop ends by its condition: its body has gone over a walk. -/
theorem whileLoop_ok : whileLoop cond next body n a s = some (.ok s') ↔
    ∃ l, Walk cond next a l ∧ l.length < n ∧ l.foldlM (fun s a => body a s) s = .ok s' := by
  induction n generalizing a s with
  | zero => simp [whileLoop]
  | succ n ih =>
    rw [whileLoop]
    by_cases ha : cond a
    · rw [if_pos ha]
      constructor
      · intro h
        cases hb : body a s with
        | error r => simp [hb] at h
        | ok s₁ =>
          obtain ⟨l, hw, hlen, hl⟩ := ih.mp (by simpa [hb] using h)
          refine ⟨a :: l, walk_cons.mpr ⟨rfl, ha, hw⟩, by simpa using hlen, ?_⟩
          rw [List.foldlM_cons, hb]
          exact hl
      · rintro ⟨l, hw, hlen, hl⟩
        cases l with
        | nil => exact absurd ha (walk_nil.mp hw)
        | cons c l =>
          obtain ⟨rfl, _, hw⟩ := walk_cons.mp hw
          rw [List.foldlM_cons] at hl
          cases hb : body c s with
          | error r => rw [hb] at hl; cases hl
          | ok s₁ =>
            rw [hb] at hl
            simp only
            exact ih.mpr ⟨l, hw, by simpa using hlen, hl⟩
    · rw [if_neg ha]
      constructor
      · intro h
        obtain rfl : s = s' := by simpa using h
        exact ⟨[], walk_nil.mpr ha, Nat.succ_pos n, rfl⟩
      · rintro ⟨l, hw, _, hl⟩
        cases l with
        | nil =>
          obtain rfl : s = s' := Except.ok.inj hl
          rfl
        | cons c l => exact absurd (walk_cons.mp hw).2.1 ha

/-- The loop is left from its body, at the position after a path. -/
theorem whileLoop_error : whileLoop cond next body n a s = some (.error r) ↔
    ∃ l b s', Path cond next a l b ∧ l.length < n ∧
      l.foldlM (fun s a => body a s) s = .ok s' ∧ cond b ∧ body b s' = .error r := by
  induction n generalizing a s with
  | zero => simp [whileLoop]
  | succ n ih =>
    rw [whileLoop]
    by_cases ha : cond a
    · rw [if_pos ha]
      constructor
      · intro h
        cases hb : body a s with
        | error r' =>
          obtain rfl : r' = r := by simpa [hb] using h
          exact ⟨[], a, s, rfl, Nat.succ_pos n, rfl, ha, hb⟩
        | ok s₁ =>
          obtain ⟨l, b, s', hp, hlen, hl, hb', hr⟩ := ih.mp (by simpa [hb] using h)
          refine ⟨a :: l, b, s', ⟨rfl, ha, hp⟩, by simpa using hlen, ?_, hb', hr⟩
          rw [List.foldlM_cons, hb]
          exact hl
      · rintro ⟨l, b, s', hp, hlen, hl, hb', hr⟩
        cases l with
        | nil =>
          obtain rfl : a = b := hp
          obtain rfl : s = s' := Except.ok.inj hl
          simp [hr]
        | cons c l =>
          obtain ⟨rfl, _, hp⟩ := hp
          rw [List.foldlM_cons] at hl
          cases hb : body c s with
          | error r' => rw [hb] at hl; cases hl
          | ok s₁ =>
            rw [hb] at hl
            simp only
            exact ih.mpr ⟨l, b, s', hp, by simpa using hlen, hl, hb', hr⟩
    · rw [if_neg ha]
      constructor
      · simp
      · rintro ⟨l, b, s', hp, _, _, hb', _⟩
        cases l with
        | nil =>
          obtain rfl : a = b := hp
          exact absurd hb' ha
        | cons c l => exact absurd hp.2.1 ha

/-- A body that never leaves the loop. -/
theorem whileLoop_pure {f : α → σ → σ} {out : Except ρ σ} :
    whileLoop cond next (fun a s => .ok (f a s)) n a s = some out ↔
      ∃ l, Walk cond next a l ∧ l.length < n ∧ out = .ok (l.foldl (fun s a => f a s) s) := by
  have hfold : ∀ (l : List α) (s : σ), l.foldlM (fun s a => (.ok (f a s) : Except ρ σ)) s
      = .ok (l.foldl (fun s a => f a s) s) := by
    intro l
    induction l with
    | nil => exact fun _ => rfl
    | cons c l ih => exact fun s => ih (f c s)
  cases out with
  | ok s' =>
    simp only [whileLoop_ok, hfold, Except.ok.injEq]
    exact ⟨fun ⟨l, hw, hn, hs⟩ => ⟨l, hw, hn, hs.symm⟩, fun ⟨l, hw, hn, hs⟩ => ⟨l, hw, hn, hs.symm⟩⟩
  | error r => simp [whileLoop_error]

/-- Where the condition ends the walk, the loop has a result whatever its body does. -/
theorem whileLoop_of_walk {l : List α} (h : Walk cond next a l) (hn : l.length < n) :
    whileLoop cond next body n a s = some (l.foldlM (fun s a => body a s) s) := by
  induction l generalizing a s n with
  | nil =>
    obtain ⟨n, rfl⟩ := Nat.exists_eq_succ_of_ne_zero (by omega : n ≠ 0)
    rw [whileLoop, if_neg (walk_nil.mp h)]
    rfl
  | cons c l ih =>
    obtain ⟨rfl, hc, hl⟩ := walk_cons.mp h
    obtain ⟨n, rfl⟩ := Nat.exists_eq_succ_of_ne_zero (by omega : n ≠ 0)
    rw [whileLoop, if_pos hc, List.foldlM_cons]
    cases body c s with
    | error r => rfl
    | ok s₁ => exact ih hl (by simpa using hn)

/-- The body leaves the loop wherever the walk stops, and may leave it before. -/
theorem whileLoop_of_stopWalk {stop : α → Prop} {l : List α}
    (hstop : ∀ a s, stop a → ∃ r, body a s = .error r) (h : StopWalk cond next stop a l)
    (hn : l.length < n) :
    whileLoop cond next body n a s = some (l.foldlM (fun s a => body a s) s) := by
  induction l generalizing a s n with
  | nil =>
    obtain ⟨n, rfl⟩ := Nat.exists_eq_succ_of_ne_zero (by omega : n ≠ 0)
    rw [whileLoop, if_neg h]
    rfl
  | cons c l ih =>
    obtain ⟨rfl, hc, hl⟩ := h
    obtain ⟨n, rfl⟩ := Nat.exists_eq_succ_of_ne_zero (by omega : n ≠ 0)
    rw [whileLoop, if_pos hc, List.foldlM_cons]
    rcases hl with ⟨hs, -⟩ | ⟨-, hl⟩
    · obtain ⟨r, hr⟩ := hstop c s hs
      rw [hr]
      rfl
    · cases body c s with
      | error r => rfl
      | ok s₁ => exact ih hl (by simpa using hn)

/-- A larger bound does not change the result. -/
theorem whileLoop_mono {k : Nat} {out : Except ρ σ}
    (h : whileLoop cond next body n a s = some out) (hnk : n ≤ k) :
    whileLoop cond next body k a s = some out := by
  cases out with
  | ok s' =>
    obtain ⟨l, hw, hlen, hl⟩ := whileLoop_ok.mp h
    exact whileLoop_ok.mpr ⟨l, hw, by omega, hl⟩
  | error r =>
    obtain ⟨l, b, s', hp, hlen, hl⟩ := whileLoop_error.mp h
    exact whileLoop_error.mpr ⟨l, b, s', hp, by omega, hl⟩

/-- Two results of the loop are equal, whatever the bounds. -/
theorem whileLoop_unique {k : Nat} {out out' : Except ρ σ}
    (h : whileLoop cond next body n a s = some out)
    (h' : whileLoop cond next body k a s = some out') : out = out' := by
  rcases Nat.le_total n k with hnk | hkn
  · rw [whileLoop_mono h hnk] at h'
    exact Option.some.inj h'
  · rw [whileLoop_mono h' hkn] at h
    exact (Option.some.inj h).symm

end loops

/-! ## Reaching a Position -/

section reaches

variable {p : α → Prop} {next : α → α} {a b c : α}

/-- From `a` on, the first position with `p` is `b`. -/
def Reaches (p : α → Prop) (next : α → α) (a b : α) : Prop :=
  ∃ l, Path (fun c => ¬p c) next a l b ∧ p b

theorem Reaches.here (h : p a) : Reaches p next a a := ⟨[], rfl, h⟩

theorem Reaches.step (h : ¬p a) (hr : Reaches p next (next a) b) : Reaches p next a b := by
  obtain ⟨l, hl, hb⟩ := hr
  exact ⟨a :: l, ⟨rfl, h, hl⟩, hb⟩

/-- A deterministic machine reaches one position only. -/
theorem Reaches.unique (h : Reaches p next a b) (h' : Reaches p next a c) : b = c := by
  obtain ⟨l, hl, hb⟩ := h
  obtain ⟨l', hl', hc⟩ := h'
  induction l generalizing a l' with
  | nil =>
    obtain rfl : a = b := hl
    cases l' with
    | nil => exact hl'
    | cons d l' => exact absurd hb hl'.2.1
  | cons d l ih =>
    obtain ⟨rfl, hd, hl⟩ := hl
    cases l' with
    | nil =>
      obtain rfl : d = c := hl'
      exact absurd hc hd
    | cons d' l' => exact ih hl l' hl'.2.2

end reaches

end Walks
