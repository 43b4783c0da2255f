import Avos.Library.Walk

/-! # Counted Loops

  A `for` loop that counts up, with a condition that reads the state and a body that may return
  early (`forLoop`). A bound on the number of tests keeps the loops that never end apart: they
  have no result.

  `Meets Q E x` says that the run `x` ends, with a state that satisfies `Q` or with an early
  return that satisfies `E`. The rules are those of a logic of total correctness; that for loops
  (`forLoop_meets`) asks for an invariant, and for the round in which the condition fails.

  `MeetsIff` also says when a run does not come to its end. A loop over a list does if every
  round does (`forLoop_meetsIff`).

  A loop over the indices of a list, or along a walk, is a fold (`forLoop_eq_foldlM`,
  `forLoop_walk_ok`), and a row of tests of one key is a look-up (`foldlM_lookup`).
-/

open Walks

namespace Loops

universe u v

variable {ρ σ τ : Type u}

/-- A run that may return early, or have no result. -/
abbrev Run (ρ σ : Type u) : Type u := ExceptT ρ Option σ

/-- `for (k = …; cond; k++) body`, with at most `fuel` tests of the condition. -/
def forLoop (cond : Nat → σ → Prop) [∀ k s, Decidable (cond k s)] (body : Nat → σ → Run ρ σ) :
    (fuel : Nat) → Nat → σ → Run ρ σ
  | 0, _, _ => ExceptT.mk none
  | fuel + 1, k, s =>
      if cond k s then body k s >>= fun s => forLoop cond body fuel (k + 1) s else pure s

/-- The run ends, with a state or an early return as given. -/
def Meets (Q : σ → Prop) (E : ρ → Prop) (x : Run ρ σ) : Prop :=
  match x.run with
  | none => False
  | some (.error e) => E e
  | some (.ok s) => Q s

/-- Under the condition `c` the run ends as given. Otherwise it does not come to its end: it
    returns early, or it has no result. -/
def MeetsIff (c : Prop) (Q : σ → Prop) (E : ρ → Prop) (x : Run ρ σ) : Prop :=
  (c → Meets Q E x) ∧ (¬c → ∀ s, x.run ≠ some (.ok s))

variable {Q Q' : σ → Prop} {R : τ → Prop} {E E' : ρ → Prop} {x : Run ρ σ} {s : σ} {e : ρ}

theorem meets_pure : Meets Q E (pure s) ↔ Q s := Iff.rfl

theorem meets_throw : Meets Q E (throw e) ↔ E e := Iff.rfl

theorem Meets.mono (h : Meets Q E x) (hQ : ∀ s, Q s → Q' s) (hE : ∀ e, E e → E' e) :
    Meets Q' E' x := by
  unfold Meets at h ⊢
  split at h
  · exact h.elim
  · exact hE _ h
  · exact hQ _ h

/-- The rule for a sequence. -/
theorem Meets.bind {f : σ → Run ρ τ} (h : Meets Q E x) (hf : ∀ s, Q s → Meets R E (f s)) :
    Meets R E (x >>= f) := by
  unfold Meets at h
  rw [Meets, ExceptT.run_bind]
  cases hx : x.run with
  | none =>
    rw [hx] at h
    exact h.elim
  | some out =>
    rw [hx] at h
    cases out with
    | error e => exact h
    | ok s => exact hf s h

/-- A run that meets something ends with a state or an early return. -/
theorem Meets.cases (h : Meets Q E x) :
    (∃ s, x.run = some (.ok s) ∧ Q s) ∨ ∃ e, x.run = some (.error e) ∧ E e := by
  unfold Meets at h
  split at h
  · exact h.elim
  · next hx => exact .inr ⟨_, hx, h⟩
  · next hx => exact .inl ⟨_, hx, h⟩

theorem Meets.ok (h : Meets Q E x) (hx : x.run = some (.ok s)) : Q s := by
  rw [Meets, hx] at h
  exact h

theorem Meets.run_ne_none (h : Meets Q E x) : x.run ≠ none := by
  intro hx
  rw [Meets, hx] at h
  exact h

/-- The rule for a loop: the invariant holds before each round, and the condition fails in the
    round `n`. -/
theorem forLoop_meets {cond : Nat → σ → Prop} [∀ k s, Decidable (cond k s)]
    {body : Nat → σ → Run ρ σ} {I : Nat → σ → Prop} {n fuel k : Nat}
    (hcond : ∀ k s, k ≤ n → I k s → (cond k s ↔ k < n))
    (hbody : ∀ k s, k < n → I k s → Meets (I (k + 1)) E (body k s))
    (hk : k ≤ n) (hfuel : n - k < fuel) (h : I k s) :
    Meets (I n) E (forLoop cond body fuel k s) := by
  induction fuel generalizing k s with
  | zero => omega
  | succ fuel ih =>
    rw [forLoop]
    split
    · next hc =>
      have hlt := (hcond k s hk h).mp hc
      apply (hbody k s hlt h).bind
      intro s' h'
      exact ih hlt (by omega) h'
    · next hc =>
      have hge : ¬k < n := fun hlt => hc ((hcond k s hk h).mpr hlt)
      rw [show n = k by omega]
      exact h

theorem run_bind_ok {x : Run ρ σ} {f : σ → Run ρ τ} {t : τ}
    (h : (x >>= f).run = some (.ok t)) : ∃ s, x.run = some (.ok s) ∧ (f s).run = some (.ok t) := by
  rw [ExceptT.run_bind] at h
  cases hx : x.run with
  | none =>
    rw [hx] at h
    exact nomatch h
  | some out =>
    rw [hx] at h
    cases out with
    | error e => exact nomatch h
    | ok s => exact ⟨s, rfl, h⟩

/-- Two sequences that go on in the same way from every result of the first part. -/
theorem bind_congr_ok {x : Run ρ σ} {f g : σ → Run ρ τ}
    (h : ∀ s, x.run = some (.ok s) → f s = g s) : x >>= f = x >>= g := by
  apply ExceptT.ext
  rw [ExceptT.run_bind, ExceptT.run_bind]
  cases hx : x.run with
  | none => rfl
  | some out =>
    cases out with
    | error e => rfl
    | ok s => exact congrArg ExceptT.run (h s hx)

/-- The results of a sequence. -/
theorem run_bind_eq_ok {x : Run ρ σ} {f : σ → Run ρ τ} {t : τ} :
    (x >>= f).run = some (.ok t) ↔ ∃ s, x.run = some (.ok s) ∧ (f s).run = some (.ok t) := by
  constructor
  · exact run_bind_ok
  · rintro ⟨s, hx, hf⟩
    rw [ExceptT.run_bind, hx]
    exact hf

/-- What every round keeps holds behind a loop that comes to its end. -/
theorem forLoop_ok {cond : Nat → σ → Prop} [∀ k s, Decidable (cond k s)]
    {body : Nat → σ → Run ρ σ} {I : σ → Prop} {fuel k : Nat} {s' : σ}
    (hbody : ∀ k s s', I s → (body k s).run = some (.ok s') → I s') (h : I s)
    (hrun : (forLoop cond body fuel k s).run = some (.ok s')) : I s' := by
  induction fuel generalizing k s with
  | zero => exact nomatch hrun
  | succ fuel ih =>
    rw [forLoop] at hrun
    split at hrun
    · obtain ⟨s₁, hfirst, hrest⟩ := run_bind_ok hrun
      exact ih (hbody k s s₁ h hfirst) hrest
    · obtain rfl : s = s' := Except.ok.inj (Option.some.inj hrun)
      exact h

/-- A loop over the parts of a list: before a round the invariant holds of what has been worked
    through, and the part of the round comes next. -/
theorem forLoop_flatMap {α γ : Type*} {cond : Nat → σ → Prop} [∀ k s, Decidable (cond k s)]
    {body : Nat → σ → Run ρ σ} {J : List γ → σ → Prop} {f : α → List γ} {l : List α}
    {all before behind : List γ} {fuel : Nat} (hall : all = before ++ l.flatMap f ++ behind)
    (hcond : ∀ k s done, k ≤ l.length → J done s → (cond k s ↔ k < l.length))
    (hbody : ∀ k (hk : k < l.length) done rest s, all = done ++ f l[k] ++ rest → J done s →
      Meets (J (done ++ f l[k])) E (body k s))
    (hfuel : l.length < fuel) (h : J before s) :
    Meets (J (before ++ l.flatMap f)) E (forLoop cond body fuel 0 s) := by
  let I : Nat → σ → Prop := fun k s => J (before ++ (l.take k).flatMap f) s
  suffices hloop : Meets (I l.length) E (forLoop cond body fuel 0 s) by
    show Meets (J (before ++ l.flatMap f)) E _
    rw [← List.take_length (l := l)]
    exact hloop
  apply forLoop_meets (I := I) (n := l.length)
  · intro k s hk hJ
    exact hcond k s _ hk hJ
  · intro k s hk hJ
    have htake : (l.take (k + 1)).flatMap f = (l.take k).flatMap f ++ f l[k] := by
      rw [List.take_add_one, List.getElem?_eq_getElem hk, List.flatMap_append]
      exact congrArg _ (List.append_nil _)
    have hsplit : l.flatMap f = (l.take k).flatMap f ++ f l[k] ++ (l.drop (k + 1)).flatMap f := by
      rw [← htake, ← List.flatMap_append, List.take_append_drop]
    have hI : I (k + 1) = J (before ++ (l.take k).flatMap f ++ f l[k]) := by
      show J (before ++ (l.take (k + 1)).flatMap f) = _
      rw [htake, ← List.append_assoc]
    rw [hI]
    apply hbody k hk _ ((l.drop (k + 1)).flatMap f ++ behind) s ?_ hJ
    rw [hall, hsplit]
    simp only [List.append_assoc]
  · exact Nat.zero_le _
  · omega
  · show J (before ++ []) s
    rw [List.append_nil]
    exact h

/-- A loop over a list: the invariant `I` holds before each round, and the loop comes to its end
    if every round does. -/
theorem forLoop_meetsIff {α : Type*} {cond : Nat → σ → Prop} [∀ k s, Decidable (cond k s)]
    {body : Nat → σ → Run ρ σ} {I : σ → Prop} {c : α → Prop} {l : List α} {fuel : Nat}
    (hcond : ∀ k s, k ≤ l.length → I s → (cond k s ↔ k < l.length))
    (hbody : ∀ k (hk : k < l.length) s, I s → MeetsIff (c l[k]) I E (body k s))
    (hfuel : l.length < fuel) (h : I s) :
    MeetsIff (∀ a ∈ l, c a) I E (forLoop cond body fuel 0 s) := by
  constructor
  · intro hall
    apply forLoop_meets (I := fun _ => I) hcond ?_ (Nat.zero_le _) (by omega) h
    intro k s hk hI
    exact (hbody k hk s hI).1 (hall _ (List.getElem_mem hk))
  · -- up to the first round that does not come to its end, the invariant holds
    suffices hstuck : ∀ fuel k s, I s → k ≤ l.length → (∃ a ∈ l.drop k, ¬c a) → ∀ s',
        (forLoop cond body fuel k s).run ≠ some (.ok s') by
      intro hnot
      obtain ⟨a, ha⟩ := not_forall.mp hnot
      exact hstuck fuel 0 s h (Nat.zero_le _) ⟨a, Classical.not_imp.mp ha⟩
    intro fuel
    induction fuel with
    | zero => exact fun _ _ _ _ _ _ hrun => nomatch hrun
    | succ fuel ih =>
      intro k s hI hle ⟨a, ha, hc⟩ s' hrun
      have hk : k < l.length := by
        rcases Nat.lt_or_ge k l.length with hlt | hge
        · exact hlt
        · rw [List.drop_eq_nil_of_le hge] at ha
          exact absurd ha List.not_mem_nil
      rw [forLoop, if_pos ((hcond k s hle hI).mpr hk)] at hrun
      obtain ⟨s₁, hfirst, hrest⟩ := run_bind_ok hrun
      by_cases hck : c l[k]
      · refine ih (k + 1) s₁ (((hbody k hk s hI).1 hck).ok hfirst) hk ⟨a, ?_, hc⟩ s' hrest
        rw [List.drop_eq_getElem_cons hk] at ha
        rcases List.mem_cons.mp ha with rfl | hmem
        · exact absurd hck hc
        · exact hmem
      · exact (hbody k hk s hI).2 hck s₁ hfirst

/-- A loop whose condition always holds does not come to its end. -/
theorem forLoop_endless {cond : Nat → σ → Prop} [∀ k s, Decidable (cond k s)]
    {body : Nat → σ → Run ρ σ} {fuel k : Nat} {s' : σ} (hcond : ∀ k s, cond k s) :
    (forLoop cond body fuel k s).run ≠ some (.ok s') := by
  induction fuel generalizing k s with
  | zero => exact fun hrun => nomatch hrun
  | succ fuel ih =>
    intro hrun
    rw [forLoop, if_pos (hcond k s)] at hrun
    obtain ⟨s₁, -, hrest⟩ := run_bind_ok hrun
    exact ih hrest

/-- A loop over a list by its indices is a fold over the list. `I` says when the rounds are steps
    of the fold. -/
theorem forLoop_eq_foldlM {α : Type*} {cond : Nat → σ → Prop} [∀ k s, Decidable (cond k s)]
    {body : Nat → σ → Run ρ σ} {I : σ → Prop} {f : σ → α → Run ρ σ} {l : List α} {fuel : Nat}
    (hcond : ∀ k s, k ≤ l.length → I s → (cond k s ↔ k < l.length))
    (hbody : ∀ k (hk : k < l.length) s, I s → body k s = f s l[k])
    (hkeep : ∀ a ∈ l, ∀ s s', I s → (f s a).run = some (.ok s') → I s')
    (hfuel : l.length < fuel) (h : I s) : forLoop cond body fuel 0 s = l.foldlM f s := by
  suffices hrest : ∀ fuel k s, k ≤ l.length → l.length - k < fuel → I s →
      forLoop cond body fuel k s = (l.drop k).foldlM f s from
    hrest fuel 0 s (Nat.zero_le _) hfuel h
  intro fuel
  induction fuel with
  | zero => exact fun _ _ _ hlt => absurd hlt (Nat.not_lt_zero _)
  | succ fuel ih =>
    intro k s hk hlt hI
    rw [forLoop]
    by_cases hend : k < l.length
    · rw [if_pos ((hcond k s hk hI).mpr hend), hbody k hend s hI, List.drop_eq_getElem_cons hend,
        List.foldlM_cons]
      apply bind_congr_ok
      intro s' hrun
      exact ih (k + 1) s' hend (by omega) (hkeep _ (List.getElem_mem hend) s s' hI hrun)
    · rw [if_neg fun hc => hend ((hcond k s hk hI).mp hc), List.drop_eq_nil_of_le (by omega)]
      rfl

/-- A row of tests for different values of the same key is a look-up. `I` says when the key is
    `k`. -/
theorem foldlM_lookup {κ : Type*} {γ : Type*} [DecidableEq κ] {key : σ → κ} {k : κ}
    {run : γ → σ → Run ρ σ} {I : σ → Prop} {l : List (κ × γ)} (hnodup : (l.map Prod.fst).Nodup)
    (hkey : ∀ s, I s → key s = k)
    (hkeep : ∀ p ∈ l, ∀ s s', I s → (run p.2 s).run = some (.ok s') → I s') (h : I s) :
    l.foldlM (fun s p => if key s = p.1 then run p.2 s else pure s) s =
      (l.lookup k).elim (pure s) fun c => run c s := by
  induction l generalizing s with
  | nil => rfl
  | cons p l ih =>
    have hnew : p.1 ∉ l.map Prod.fst := (List.nodup_cons.mp hnodup).1
    have hrest : ∀ s, I s → l.foldlM (fun s p => if key s = p.1 then run p.2 s else pure s) s =
        (l.lookup k).elim (pure s) fun c => run c s :=
      fun s hs => ih (List.nodup_cons.mp hnodup).2
        (fun q hq => hkeep q (List.mem_cons_of_mem _ hq)) hs
    rw [List.foldlM_cons, hkey s h, List.lookup_cons]
    by_cases hp : k = p.1
    · have hnone : l.lookup k = none := by
        rw [List.lookup_eq_none_iff]
        rintro q hq
        rw [hp, bne_iff_ne]
        rintro heq
        exact hnew (List.mem_map.mpr ⟨q, hq, heq.symm⟩)
      have hpure : (run p.2 s >>= fun s =>
          l.foldlM (fun s p => if key s = p.1 then run p.2 s else pure s) s) =
            run p.2 s >>= pure := by
        apply bind_congr_ok
        intro s' hrun
        rw [hrest s' (hkeep p List.mem_cons_self s s' h hrun), hnone]
        rfl
      rw [if_pos hp, hpure, bind_pure, beq_iff_eq.mpr hp]
      rfl
    · rw [if_neg hp, pure_bind, hrest s h, beq_eq_false_iff_ne.mpr hp]

/-- A loop that follows a walk comes to its end if and only if the bound is large enough and the
    fold over the walk comes to its end. -/
theorem forLoop_walk_ok {α : Type v} {ρ σ : Type (max u v)} {c : α → Prop} {next : α → α}
    {cond : Nat → α × σ → Prop} [∀ k s, Decidable (cond k s)]
    {body : Nat → α × σ → Run ρ (α × σ)} {I : σ → Prop} {f : σ → α → Run ρ σ} {l : List α}
    {a : α} {fuel k : Nat} {s s' : σ} (hwalk : Walk c next a l)
    (hcond : ∀ k p, I p.2 → (cond k p ↔ c p.1))
    (hbody : ∀ k p, p.1 ∈ l → I p.2 → body k p = f p.2 p.1 >>= fun s => pure (next p.1, s))
    (hkeep : ∀ a ∈ l, ∀ s s', I s → (f s a).run = some (.ok s') → I s') (h : I s) :
    (∃ b, (forLoop cond body fuel k (a, s)).run = some (.ok (b, s'))) ↔
      l.length < fuel ∧ (l.foldlM f s).run = some (.ok s') := by
  induction l generalizing a s k fuel with
  | nil =>
    have hstop : ¬cond k (a, s) := fun hc => walk_nil.mp hwalk ((hcond k (a, s) h).mp hc)
    cases fuel with
    | zero =>
      constructor
      · rintro ⟨_, hrun⟩
        cases hrun
      · rintro ⟨hlt, -⟩
        exact absurd hlt (Nat.not_lt_zero _)
    | succ fuel =>
      rw [forLoop, if_neg hstop]
      constructor
      · rintro ⟨b, hrun⟩
        have hs : s = s' := congrArg Prod.snd (Except.ok.inj (Option.some.inj hrun))
        exact ⟨Nat.succ_pos _, by rw [hs]; rfl⟩
      · rintro ⟨-, hrun⟩
        have hs : s = s' := Except.ok.inj (Option.some.inj hrun)
        exact ⟨a, by rw [hs]; rfl⟩
  | cons d l ih =>
    obtain ⟨rfl, hc, hl⟩ := walk_cons.mp hwalk
    have hmem : ∀ b ∈ l, b ∈ d :: l := fun b hb => List.mem_cons_of_mem _ hb
    cases fuel with
    | zero =>
      constructor
      · rintro ⟨_, hrun⟩
        cases hrun
      · rintro ⟨hlt, -⟩
        exact absurd hlt (Nat.not_lt_zero _)
    | succ fuel =>
      have hrest : ∀ s₁, (f s d).run = some (.ok s₁) →
          ((∃ b, (forLoop cond body fuel (k + 1) (next d, s₁)).run = some (.ok (b, s'))) ↔
            l.length < fuel ∧ (l.foldlM f s₁).run = some (.ok s')) := by
        intro s₁ hrun
        exact ih hl (fun k p hp hI => hbody k p (hmem _ hp) hI)
          (fun b hb => hkeep b (hmem b hb)) (hkeep d List.mem_cons_self s s₁ h hrun)
      rw [forLoop, if_pos ((hcond k (d, s) h).mpr hc), hbody k (d, s) List.mem_cons_self h,
        List.foldlM_cons, run_bind_eq_ok, bind_assoc]
      simp only [run_bind_eq_ok, pure_bind]
      constructor
      · rintro ⟨b, s₁, hfirst, hloop⟩
        obtain ⟨hlt, hfold⟩ := (hrest s₁ hfirst).mp ⟨b, hloop⟩
        exact ⟨Nat.succ_lt_succ hlt, s₁, hfirst, hfold⟩
      · rintro ⟨hlt, s₁, hfirst, hfold⟩
        obtain ⟨b, hloop⟩ := (hrest s₁ hfirst).mpr ⟨Nat.lt_of_succ_lt_succ hlt, hfold⟩
        exact ⟨b, s₁, hfirst, hloop⟩

end Loops
