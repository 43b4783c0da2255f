import Avos.Taskmaster.OneCpu

/-! # Mutual Exclusion of Sleep Locks

  A waiter drops and retakes the access lock around its sleep, and whatever the others do in
  between, it tests `locked` and sets it within one hold of the access lock. So of the processes
  that release only what they have acquired at most one has the lock
  (`oneHolder_of_reachable`).
-/

open Transition Holder

namespace Avos

namespace Tasks

namespace State

/-! ## Section 1: What an Instruction Does to a Sleep Lock -/

section frame

variable {n : Nat} [NeZero n] {Cpu L : Type*} [DecidableEq Cpu] [DecidableEq L]
  {s : State n Cpu L} {c : Cpu} {b : Bool} {i : Instr n L} {k : List (Instr n L)}
  {fs : List (List (Instr n L))} {p q : Fin n} {l : L}

theorem exec_locked : (s.exec c b i k fs).locked l =
    match i with
    | .setLocked l' => if l = l' then true else s.locked l
    | .clearLocked l' => if l = l' then false else s.locked l
    | _ => s.locked l := by
  rw [exec]
  cases i with
  | processInitialize j =>
    simp only [effect]
    split <;> simp
  | book slots =>
    simp only [effect]
    split
    · simp
    · split <;> simp [setStatus]
  | raiseAlarm l j =>
    simp only [effect]
    split <;> simp [setStatus]
  | testAndSet lock =>
    simp only [effect]
    split <;> simp [record]
  | _ => simp [effect, setStatus, record, Function.update_apply]

theorem exec_holds : (s.exec c b i k fs).holds q l =
    match i with
    | .setLocked l' => if s.running c = some q ∧ l = l' then true else s.holds q l
    | .clearLocked l' => if s.running c = some q ∧ l = l' then false else s.holds q l
    | _ => s.holds q l := by
  rw [exec]
  cases i with
  | processInitialize j =>
    simp only [effect]
    split <;> simp
  | book slots =>
    simp only [effect]
    split
    · simp
    · split <;> simp [setStatus]
  | raiseAlarm l j =>
    simp only [effect]
    split <;> simp [setStatus]
  | testAndSet lock =>
    simp only [effect]
    split <;> simp [record]
  | _ => simp [effect, setStatus, record, eq_comm]

end frame

/-! ## Section 2: The Invariant -/

section property

variable {n : Nat} {Cpu L : Type*}

/-- One process at most has a sleep lock, and `locked` says so. -/
structure OneHolder (s : State n Cpu L) : Prop where
  unique : ∀ p q l, s.holds p l = true → s.holds q l = true → p = q
  locked : ∀ p l, s.holds p l = true → s.locked l = true

end property

/-- The invariant. The access lock is held by the process whose code releases it (`access`), who
    is about to set `locked` has found it clear (`found`), and who is about to clear it has the
    sleep lock (`clears`). -/
structure SleepOk {n : Nat} {Cpu L : Type*} [DecidableEq L] (s : State n Cpu L) : Prop
    extends s.OneHolder where
  access : ∀ l, Held (s.flag (.access l)) fun p => (s.process p).owes (.spin (.access l))
  found : ∀ p f l, f ∈ (s.process p).frames → f.head? = some (.setLocked l) → s.locked l = false
  clears : ∀ p l, (s.process p).owes (.clearLocked l) ≤ if s.holds p l then 1 else 0

section invariant

variable {n : Nat} [NeZero n] {Cpu L : Type*} [DecidableEq Cpu] [DecidableEq L]
  {s : State n Cpu L} {c c' : Cpu} {p q j : Fin n} {b : Bool} {i : Instr n L}
  {k f : List (Instr n L)} {fs : List (List (Instr n L))} {l : L}

omit [NeZero n] [DecidableEq Cpu] in
/-- Code of a process that needs an access lock next holds it. -/
theorem CodeOk.process_owes_pos (hcode : s.CodeOk) (hf : f ∈ (s.process p).frames)
    (hhead : f.head? = some i) (hi : i.needs = some (.access l)) :
    0 < (s.process p).owes (.spin (.access l)) := by
  obtain ⟨k, rfl⟩ : ∃ k, f = i :: k := by
    cases f with
    | nil => cases hhead
    | cons j k =>
      obtain rfl := Option.some.inj hhead
      exact ⟨k, rfl⟩
  have hdis := hcode.process p
  exact Int.lt_of_lt_of_le ((hdis _ hf).owes_pos hi) (hdis.owes_le hf)

omit [NeZero n] [DecidableEq Cpu] in
/-- While a process works on a sleep lock under its access lock, no other code is about to. -/
theorem SleepOk.needs_ne (h : s.SleepOk) (hcode : s.CodeOk) (hrun : s.running c = some p)
    (hframes : (s.current c).frames = (i :: k) :: fs) (hi : i.needs = some (.access l))
    {j : Instr n L} (hhead : f.head? = some j) (hf : f ∈ (s.process q).frames)
    (hother : q ≠ p ∨ f ∈ fs) : j.needs ≠ some (.access l) := by
  intro hj
  have hmem : (i :: k) ∈ (s.process p).frames := by
    rw [← current_of_some hrun, hframes]
    exact List.mem_cons_self
  have hown := hcode.process_owes_pos hmem rfl hi
  rcases hother with hne | hrest
  · exact hne ((h.access l).unique q p (hcode.process_owes_pos hf hhead hj) hown)
  · have hdis := hcode.process p
    have hone := (h.access l).eq_one hown
    rw [← current_of_some hrun, current_eq hframes] at hdis hone
    have hzero := hdis.owes_eq_zero (Int.le_of_eq hone)
      ((hdis _ List.mem_cons_self).owes_pos hi) f hrest
    cases f with
    | nil => cases hhead
    | cons j' k' =>
      obtain rfl := Option.some.inj hhead
      have hpos := (hdis _ (List.mem_cons_of_mem _ hrest)).owes_pos hj
      omega

/-- An instruction of the scheduler has nothing to do with the sleep locks. -/
theorem SleepOk.exec_scheduler (h : s.SleepOk) (hrun : s.running c = none)
    (hside : i.InScheduler true) : (s.exec c b i k fs).SleepOk := by
  have hprocess : ∀ q, (s.exec c b i k fs).process q = s.process q := by
    intro q
    refine exec_process_of_ne (by simp [hrun]) ?_
    rintro rfl
    exact absurd hside (by simp [Instr.InScheduler])
  have hflag : ∀ l, (s.exec c b i k fs).flag (.access l) = s.flag (.access l) := by
    intro l
    rw [exec_flag]
    cases i with
    | testAndSet lock =>
      cases lock with
      | process => simp
      | access l => exact absurd hside (by simp [Instr.InScheduler])
    | clear lock =>
      cases lock with
      | process => simp
      | access l => exact absurd hside (by simp [Instr.InScheduler])
    | _ => rfl
  have hlocked : ∀ l, (s.exec c b i k fs).locked l = s.locked l := by
    intro l
    rw [exec_locked]
    cases i with
    | setLocked l => exact absurd hside (by simp [Instr.InScheduler])
    | clearLocked l => exact absurd hside (by simp [Instr.InScheduler])
    | _ => rfl
  have hholds : ∀ q l, (s.exec c b i k fs).holds q l = s.holds q l := by
    intro q l
    rw [exec_holds]
    cases i with
    | setLocked l => exact absurd hside (by simp [Instr.InScheduler])
    | clearLocked l => exact absurd hside (by simp [Instr.InScheduler])
    | _ => rfl
  refine ⟨⟨fun p q l hp hq => ?_, fun p l hp => ?_⟩, fun l => ?_, fun p f l hf hhead => ?_,
    fun p l => ?_⟩
  · rw [hholds] at hp hq
    exact h.unique p q l hp hq
  · rw [hholds] at hp
    rw [hlocked]
    exact h.locked p l hp
  · rw [hflag]
    exact (h.access l).congr fun q => by rw [hprocess]
  · rw [hprocess] at hf
    rw [hlocked]
    exact h.found p f l hf hhead
  · rw [hprocess, hholds]
    exact h.clears p l

/-- The access locks after an instruction of a process. -/
theorem SleepOk.exec_access (h : s.SleepOk) (hands : s.HandsOver) (hcode : s.CodeOk)
    (hrun : s.running c = some p) (hframes : (s.current c).frames = (i :: k) :: fs) (l : L) :
    Held ((s.exec c b i k fs).flag (.access l))
      fun q => ((s.exec c b i k fs).process q).owes (.spin (.access l)) := by
  have hheld := h.access l
  have hself := hands.exec_owes_self (b := b) (d := .spin (.access l)) hcode hframes hrun
  have hother : ∀ q, q ≠ p → (∀ j, i ≠ .processInitialize j) →
      (s.exec c b i k fs).process q = s.process q := fun q hq hi =>
    (exec_process_other hrun hq).resolve_right fun hinit => hi q hinit.1
  by_cases htake : i = .testAndSet (.access l) ∧ s.flag (.access l) = false
  · obtain ⟨rfl, hfree⟩ := htake
    rw [hfree] at hheld
    have hflag : (s.exec c b (.testAndSet (.access l)) k fs).flag (.access l) = true := by
      simp [exec_flag]
    rw [hflag]
    refine hheld.take (a := p) ?_ fun q hq => by rw [hother q hq (by simp)]
    rw [hself]
    simp [gain, hfree]
  · by_cases hdrop : i = .clear (.access l)
    · subst hdrop
      have hpos := hcode.clear_owes_pos hframes
      rw [current_of_some hrun] at hpos
      refine hheld.drop hpos ?_ fun q hq => by rw [hother q hq (by simp)]
      rw [hself]
      simp [gain]
      omega
    · have hgain : s.gain (.spin (.access l)) i = 0 := by
        cases i with
        | testAndSet lock => simp_all [gain]
        | clear lock => simp_all [gain]
        | _ => rfl
      have hflag : (s.exec c b i k fs).flag (.access l) = s.flag (.access l) := by
        rw [exec_flag]
        cases i with
        | testAndSet lock =>
          by_cases hlock : SpinLock.access l = lock
          · subst hlock
            simpa using htake
          · simp [hlock]
        | clear lock =>
          by_cases hlock : SpinLock.access l = lock
          · exact absurd (hlock ▸ rfl) hdrop
          · simp [hlock]
        | _ => rfl
      rw [hflag]
      refine hheld.mono (fun q => ?_) fun q => ?_
      · by_cases hq : q = p
        · rw [hq, hself, hgain, Int.add_zero]
          exact hheld.nonneg p
        · rcases exec_process_other hrun hq with hsame | ⟨-, hnew⟩
          · rw [hsame]
            exact hheld.nonneg q
          · rw [hnew, owes_new (d := .spin (.access l)) (by simp) (by simp) (by simp)]
      · by_cases hq : q = p
        · rw [hq, hself, hgain, Int.add_zero]
        · rcases exec_process_other hrun hq with hsame | ⟨-, hnew⟩
          · rw [hsame]
          · rw [hnew, owes_new (d := .spin (.access l)) (by simp) (by simp) (by simp)]
            exact hheld.nonneg q

/-- Who is about to set `locked` has found it clear, after an instruction of a process. -/
theorem SleepOk.exec_found (h : s.SleepOk) (hcode : s.CodeOk) (hrun : s.running c = some p)
    (hframes : (s.current c).frames = (i :: k) :: fs) :
    ∀ q f l, f ∈ ((s.exec c b i k fs).process q).frames → f.head? = some (.setLocked l) →
      (s.exec c b i k fs).locked l = false := by
  intro q f l hf hhead
  -- the lock stays as it is, unless the instruction needs the access lock too
  have hkeep : i.needs ≠ some (.access l) → s.locked l = false →
      (s.exec c b i k fs).locked l = false := by
    intro hneeds hfree
    rw [exec_locked]
    cases i with
    | setLocked l' =>
      by_cases hl : l = l'
      · exact absurd (hl ▸ rfl) hneeds
      · simp [hl, hfree]
    | clearLocked l' => simp [hfree]
    | _ => exact hfree
  rcases frames_of_exec hframes hf with ⟨rfl, -⟩ | ⟨hq, rfl⟩ | ⟨hf, hrest⟩
  · cases hhead
  · have hmem : (i :: k) ∈ (s.process q).frames := by
      rw [← current_of_some hq, hframes]
      exact List.mem_cons_self
    cases before_of_head (hcode.process q _ hmem).2.2.2.1 hhead nofun with
    | free _ hfree =>
      rw [exec_locked]
      exact hfree
  · refine hkeep (fun hi => ?_) (h.found q f l hf hhead)
    refine h.needs_ne hcode hrun hframes hi hhead hf ?_ rfl
    by_cases hq : q = p
    · exact .inr (hrest (hq ▸ hrun))
    · exact .inl hq

/-- An instruction of a process. -/
theorem SleepOk.exec_process (h : s.SleepOk) (hands : s.HandsOver) (hcode : s.CodeOk)
    (hrun : s.running c = some p) (hframes : (s.current c).frames = (i :: k) :: fs) :
    (s.exec c b i k fs).SleepOk := by
  have hmem : (i :: k) ∈ (s.process p).frames := by
    rw [← current_of_some hrun, hframes]
    exact List.mem_cons_self
  -- `setLocked` finds the lock clear, so nobody has it
  have hset : ∀ l, i = .setLocked l → ∀ q, s.holds q l = false := by
    rintro l rfl q
    have hfree := h.found p _ l hmem rfl
    by_contra hq
    rw [h.locked q l (by simpa using hq)] at hfree
    cases hfree
  -- `clearLocked` is executed by the process that has the lock
  have hclear : ∀ l, i = .clearLocked l →
      s.holds p l = true ∧ (s.process p).owes (.clearLocked l) = 1 := by
    rintro l rfl
    have hpos := kept_clearLocked.task_owes_pos (d := .clearLocked l) hmem List.mem_cons_self
      (by simp [weight])
    have hle := h.clears p l
    by_cases hp : s.holds p l = true
    · rw [if_pos hp] at hle
      exact ⟨hp, by omega⟩
    · rw [if_neg hp] at hle
      omega
  refine ⟨⟨fun q q' l hq hq' => ?_, fun q l hq => ?_⟩, h.exec_access hands hcode hrun hframes,
    h.exec_found hcode hrun hframes, fun q l => ?_⟩
  · rw [exec_holds] at hq hq'
    cases i with
    | setLocked l' =>
      by_cases hl : l = l'
      · subst hl
        have hnone := hset l rfl
        simp only [hnone, and_true] at hq hq'
        have hpq : p = q := by simpa [hrun] using hq
        have hpq' : p = q' := by simpa [hrun] using hq'
        rw [← hpq, ← hpq']
      · simp only [hl, and_false, if_false] at hq hq'
        exact h.unique q q' l hq hq'
    | clearLocked l' =>
      have hq : s.holds q l = true := by
        dsimp only at hq
        split at hq
        · cases hq
        · exact hq
      have hq' : s.holds q' l = true := by
        dsimp only at hq'
        split at hq'
        · cases hq'
        · exact hq'
      exact h.unique q q' l hq hq'
    | _ => exact h.unique q q' l hq hq'
  · rw [exec_holds] at hq
    rw [exec_locked]
    cases i with
    | setLocked l' =>
      by_cases hl : l = l'
      · simp [hl]
      · simp only [hl, and_false, if_false] at hq ⊢
        exact h.locked q l hq
    | clearLocked l' =>
      by_cases hl : l = l'
      · -- only the process that clears the lock has it, and it has it no longer
        subst hl
        obtain ⟨hp, -⟩ := hclear l rfl
        dsimp only at hq
        split at hq
        · cases hq
        · next hne =>
          obtain rfl := h.unique q p l hq hp
          exact absurd ⟨hrun, rfl⟩ hne
      · simp only [hl, and_false, if_false] at hq ⊢
        exact h.locked q l hq
    | _ => exact h.locked q l hq
  · have hle := h.clears q l
    by_cases hq : q = p
    · subst hq
      rw [hands.exec_owes_self hcode hframes hrun, exec_holds]
      cases i with
      | setLocked l' =>
        simp only [gain, Int.add_zero]
        split
        · split at hle <;> simp <;> omega
        · exact hle
      | clearLocked l' =>
        by_cases hl : l = l'
        · subst hl
          rw [(hclear l rfl).2]
          simp [gain, hrun]
        · simpa [gain, hl, Ne.symm hl] using hle
      | _ => simpa [gain] using hle
    · have hholds : (s.exec c b i k fs).holds q l = s.holds q l := by
        have hne : s.running c ≠ some q := fun hrun' =>
          hq (Option.some.inj (hrun'.symm.trans hrun))
        rw [exec_holds]
        cases i <;> simp [hne]
      rw [hholds]
      rcases exec_process_other hrun hq with hsame | ⟨-, hnew⟩
      · rw [hsame]
        exact hle
      · rw [hnew, owes_new (d := .clearLocked l) (by simp) (by simp) (by simp)]
        split <;> decide

/-! ## Section 3: Every Run -/

omit [NeZero n] [DecidableEq Cpu] in
/-- A process calls `SleepLock_Release` for a lock that it has. -/
theorem Pushes.owes_clearLocked (hf : s.Pushes c p f) : owes (.clearLocked l) f ≤ 0 ∨
    (s.current c).frames = [] ∧ owes (.clearLocked l) f ≤ 1 ∧ s.holds p l = true := by
  cases hf with
  | interrupt => exact .inl (Int.le_refl 0)
  | @call g f hframes hcode =>
    cases g with
    | sleepLockAcquire l' =>
      obtain rfl := Option.some.inj hcode
      simp [Tasks.sleepLockAcquire, spinLockAcquire, weight]
    | sleepLockRelease l' =>
      rw [callCode] at hcode
      split at hcode
      · next hholds =>
        obtain rfl := Option.some.inj hcode
        by_cases hl : l' = l
        · subst hl
          refine .inr ⟨hframes, ?_, hholds⟩
          simp [Tasks.sleepLockRelease, spinLockAcquire, spinLockRelease, weight]
        · left
          simp [Tasks.sleepLockRelease, spinLockAcquire, spinLockRelease, weight, hl]
      · cases hcode
    | processFork =>
      obtain rfl := Option.some.inj hcode
      simp [schedulerBook, spinLockAcquire, weight]

omit [NeZero n] in
/-- A call returns or is made. -/
theorem SleepOk.restack {t : Task n L} (h : s.SleepOk) (ht : s.Restacks c t)
    (hclears : ∀ p l, s.running c = some p →
      t.owes (.clearLocked l) ≤ if s.holds p l then 1 else 0) : (s.setCurrent c t).SleepOk := by
  refine ⟨⟨?_, ?_⟩, fun l => ?_, fun p f l hf hhead => ?_, fun p l => ?_⟩
  · rw [setCurrent_holds]
    exact h.unique
  · rw [setCurrent_holds, setCurrent_locked]
    exact h.locked
  · rw [setCurrent_flag]
    refine (h.access l).congr fun q => ?_
    rw [setCurrent_process]
    split
    · next hrun => rw [ht.owes (.spin (.access l)) fun _ => by simp, current_of_some hrun]
    · rfl
  · rw [setCurrent_locked]
    rw [setCurrent_process] at hf
    split at hf
    · next hrun =>
      rcases ht.made f hf with hold | ⟨-, hstarts⟩
      · exact h.found p f l (by rwa [current_of_some hrun] at hold) hhead
      · rcases hstarts.head with hstart | hstart
        · cases hstart.symm.trans hhead
        · cases hstart.symm.trans hhead
    · exact h.found p f l hf hhead
  · rw [setCurrent_process, setCurrent_holds]
    split
    · next hrun => exact hclears p l hrun
    · exact h.clears p l

omit [DecidableEq Cpu] in
theorem sleepOk_init (hs : s.Initial) : s.SleepOk := by
  have hprocess : ∀ p, (s.process p).frames = [] ∨ s.process p = .new := fun p =>
    (hs.process p).imp And.right And.right
  have hzero : ∀ q (d : Duty n L), d ≠ .veto → d ≠ .locks → d ≠ .spin .process →
      (s.process q).owes d = 0 := by
    intro q d hveto hlocks hlock
    rcases hprocess q with hframes | hnew
    · rw [Task.owes, hframes]
      rfl
    · rw [hnew, owes_new hveto hlocks hlock]
  refine ⟨⟨fun p q l hp => ?_, fun p l hp => ?_⟩, fun l => ?_, fun p f l hf hhead => ?_,
    fun p l => ?_⟩
  · rw [hs.holds] at hp
    cases hp
  · rw [hs.holds] at hp
    cases hp
  · rw [hs.flag]
    have haccess : ∀ q, (s.process q).owes (.spin (.access l)) = 0 := fun q =>
      hzero q (.spin (.access l)) (by simp) (by simp) (by simp)
    refine ⟨fun q => ?_, fun q => ?_, fun q hq => ?_, fun q q' hq => ?_⟩
    · rw [haccess]
    · rw [haccess]
      decide
    · rw [haccess] at hq
      exact absurd hq (by decide)
    · rw [haccess] at hq
      exact absurd hq (by decide)
  · rcases hprocess p with hframes | hnew
    · rw [hframes] at hf
      exact absurd hf List.not_mem_nil
    · rw [hnew] at hf
      obtain rfl := List.mem_singleton.mp hf
      cases hhead
  · rw [hzero p (.clearLocked l) (by simp) (by simp) (by simp)]
    split <;> decide

/-- The invariants of the processes, the CPUs and the sleep locks. -/
def Ok (s : State n Cpu L) : Prop := (s.CodeOk ∧ s.HandsOver) ∧ s.SleepOk

theorem ok_inductive : (tasks n Cpu L).Inductive Ok := by
  refine handsOver_inductive.and (fun s hs => sleepOk_init hs) ?_
  rintro s a s' ⟨hcode, hands⟩ h hs
  obtain ⟨c, b, i, k, fs, -, hframes, rfl⟩ | ⟨c, fs, hframes, rfl⟩ |
    ⟨c, p, f, hrun, hpush, rfl⟩ | ⟨j, hasleep, rfl⟩ := next_cases hs
  · rcases hcode.side hframes with ⟨hrun, hside⟩ | ⟨p, hrun, -⟩
    · exact h.exec_scheduler hrun hside
    · exact h.exec_process hands hcode hrun hframes
  · refine h.restack (restacks_return hframes) fun p l hrun => ?_
    have hle := h.clears p l
    rw [← current_of_some hrun, owes_of_frames (v := (s.current c).vetos) hframes, owes_nil,
      Int.zero_add] at hle
    exact hle
  · refine h.restack (restacks_push hrun hpush) fun q l hrun' => ?_
    obtain rfl : p = q := Option.some.inj (hrun.symm.trans hrun')
    have hle := h.clears p l
    rw [← current_of_some hrun] at hle
    rw [owes_mk_cons]
    rcases hpush.owes_clearLocked (l := l) with hzero | ⟨hframes, hone, hholds⟩
    · exact Int.le_trans (Int.add_le_add_right hzero _) (by rwa [Int.zero_add])
    · rw [if_pos hholds, hframes, owes_mk_nil, Int.add_zero]
      exact hone
  · exact ⟨⟨h.unique, h.locked⟩, h.access, h.found, h.clears⟩

/-- One process at most is between its `SleepLock_Acquire` and the clearing of `locked` in its
    `SleepLock_Release`, and `locked` is set while one is. -/
theorem oneHolder_of_reachable (h : (tasks n Cpu L).Reachable s) : s.OneHolder :=
  (ok_inductive.reachable h).2.toOneHolder

end invariant

/-- While the second process waits, the first has the lock. -/
theorem oneHolder_of_reachable_bothReady :
    ∃ s, bothReady.run untilWait = some s ∧ s.holds 0 () = true ∧ s.OneHolder := by
  have hrun : (bothReady.run untilWait).map (fun s => s.holds 0 ()) = some true := by
    decide +kernel
  obtain ⟨s, hs, hholds⟩ := Option.map_eq_some_iff.mp hrun
  exact ⟨s, hs, hholds, oneHolder_of_reachable (reachable_run initial_bothReady hs)⟩

end State

end Tasks

end Avos
