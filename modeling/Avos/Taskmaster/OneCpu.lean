import Avos.Taskmaster.Handoff

/-! # No Process Runs on Two CPUs

  The rest of the hand-over of `Process_lock`: what a scheduler has chosen, the slots that forks
  have booked, and the steps that are not instructions. In every state that is reached each
  process runs on one CPU at most, and the CPUs switch with `Process_lock` held
  (`oneCpu_of_reachable`).
-/

open Transition Holder

namespace Avos

namespace Tasks

namespace State

/-! ## Section 1: What a Scheduler Has Chosen -/

section chosen

variable {n : Nat} [NeZero n] {Cpu L : Type*} [DecidableEq Cpu] [DecidableEq L]
  {s : State n Cpu L} {c c' : Cpu} {p q j : Fin n} {b : Bool} {i : Instr n L}
  {k f : List (Instr n L)} {fs : List (List (Instr n L))} {d : Duty n L}

omit [NeZero n] [DecidableEq Cpu] in
/-- Code that needs `Process_lock` next holds it. -/
theorem CodeOk.owes_pos (hcode : s.CodeOk) (hf : f ∈ (s.current c).frames)
    (hhead : f.head? = some i) (hi : i.needs = some .process) :
    0 < (s.current c).owes (.spin .process) := by
  obtain ⟨scheduler, hdis⟩ := hcode.current c
  obtain ⟨k, rfl⟩ : ∃ k, f = i :: k := by
    cases f with
    | nil => cases hhead
    | cons j k =>
      obtain rfl := Option.some.inj hhead
      exact ⟨k, rfl⟩
  exact Int.lt_of_lt_of_le ((hdis _ hf).owes_pos hi) (hdis.owes_le hf)

omit [NeZero n] [DecidableEq Cpu] in
/-- While an instruction runs under `Process_lock`, no other code holds the lock. -/
theorem HandsOver.other_owes (h : s.HandsOver) (hcode : s.CodeOk)
    (hframes : (s.current c).frames = (i :: k) :: fs) (hi : i.needs = some .process)
    (hf : f ∈ (s.current c').frames) (hother : c' ≠ c ∨ f ∈ fs) :
    owes (.spin .process) f ≤ 0 := by
  rcases hother with hne | hrest
  · obtain ⟨scheduler, hdis⟩ := hcode.current c'
    have hown := hcode.owes_pos (hframes ▸ List.mem_cons_self) rfl hi
    have hzero := h.held.eq_zero hown hne
    exact Int.le_trans (hdis.owes_le hf) (Int.le_of_eq hzero)
  · obtain ⟨scheduler, hdis⟩ := hcode.current c
    have hone := h.owes_eq_one hcode hframes hi
    rw [current_eq hframes] at hdis hone
    have hzero := hdis.owes_eq_zero (Int.le_of_eq hone)
      ((hdis _ List.mem_cons_self).owes_pos hi) f hrest
    exact Int.le_of_eq hzero

omit [NeZero n] [DecidableEq Cpu] in
/-- Nor is any other code about to use it. -/
theorem HandsOver.needs_ne (h : s.HandsOver) (hcode : s.CodeOk)
    (hframes : (s.current c).frames = (i :: k) :: fs) (hi : i.needs = some .process)
    {j : Instr n L} (hhead : f.head? = some j) (hf : f ∈ (s.current c').frames)
    (hother : c' ≠ c ∨ f ∈ fs) : j.needs ≠ some .process := by
  intro hj
  have hle := h.other_owes hcode hframes hi hf hother
  obtain ⟨scheduler, hdis⟩ := hcode.current c'
  cases f with
  | nil => cases hhead
  | cons j' k' =>
    obtain rfl := Option.some.inj hhead
    have hpos := (hdis _ hf).owes_pos hj
    omega

omit [NeZero n] [DecidableEq Cpu] in
/-- A process that is ready does not run when another CPU holds `Process_lock`. -/
theorem HandsOver.parked_of_runnable (h : s.HandsOver) (hcode : s.CodeOk)
    (hrun : s.running c = none) (hhead : f ∈ (s.current c).frames) (hi : f.head? = some i)
    (hneeds : i.needs = some .process) (hstatus : s.status j = .runnable) : s.Parked j := by
  intro c' hrun'
  rcases h.active c' j hrun' with hrunning | ⟨-, g, hg, hreturn⟩
  · rw [hstatus] at hrunning
    cases hrunning
  · have hpos := hcode.owes_pos hhead hi hneeds
    rw [← current_of_some hrun'] at hg
    have hpos' := hcode.owes_pos hg hreturn rfl
    rw [h.held.unique c' c hpos' hpos, hrun] at hrun'
    cases hrun'

/-- What a scheduler that does not execute the instruction has chosen. -/
theorem HandsOver.chosen_kept (h : s.HandsOver) (hcode : s.CodeOk)
    (hframes : (s.current c).frames = (i :: k) :: fs) (hrun : s.running c' = none)
    (hf : f ∈ (s.scheduler c').frames) (hother : c' ≠ c ∨ f ∈ fs) :
    (f.head? = some (.setRunning j) →
        (s.exec c b i k fs).status j = .runnable ∧ (s.exec c b i k fs).Parked j) ∧
      (f.head? = some (.schedulerSwitch j) →
        (s.exec c b i k fs).status j = .running ∧ (s.exec c b i k fs).Parked j) := by
  have hcur : f ∈ (s.current c').frames := by rwa [current_of_none hrun]
  have hsame : ∀ i', f.head? = some i' → i'.needs = some .process →
      (s.exec c b i k fs).status = s.status ∧ (s.exec c b i k fs).running = s.running := by
    intro i' hhead hneeds
    apply exec_of_needs
    intro hi
    exact h.needs_ne hcode hframes hi hhead hcur hother hneeds
  constructor
  · intro hhead
    obtain ⟨hstatus, hrunning⟩ := hsame _ hhead rfl
    obtain ⟨hrunnable, hparked⟩ := (h.chosen c' f j hrun hf).1 hhead
    refine ⟨by rw [hstatus, hrunnable], fun c'' => ?_⟩
    rw [hrunning]
    exact hparked c''
  · intro hhead
    obtain ⟨hstatus, hrunning⟩ := hsame _ hhead rfl
    obtain ⟨hrunnable, hparked⟩ := (h.chosen c' f j hrun hf).2 hhead
    refine ⟨by rw [hstatus, hrunnable], fun c'' => ?_⟩
    rw [hrunning]
    exact hparked c''

/-- What the scheduler that executes the instruction has chosen. -/
theorem HandsOver.chosen_outcome (h : s.HandsOver) (hcode : s.CodeOk)
    (hframes : (s.current c).frames = (i :: k) :: fs) (hrun : s.running c = none)
    (hsame : (s.exec c b i k fs).running = s.running) :
    ((s.outcomeCode c b i ++ k).head? = some (.setRunning j) →
        (s.exec c b i k fs).status j = .runnable ∧ (s.exec c b i k fs).Parked j) ∧
      ((s.outcomeCode c b i ++ k).head? = some (.schedulerSwitch j) →
        (s.exec c b i k fs).status j = .running ∧ (s.exec c b i k fs).Parked j) := by
  have hmem : (i :: k) ∈ (s.current c).frames := hframes ▸ List.mem_cons_self
  obtain ⟨scheduler, hdis⟩ := hcode.current c
  have hfollows : Follows i k := (hdis _ hmem).2.2.2.1
  have hparked : s.Parked j → (s.exec c b i k fs).Parked j := by
    intro hparked c'
    rw [hsame]
    exact hparked c'
  constructor
  · intro hhead
    cases before_of_head hfollows hhead nofun with
    | runnable _ hrunnable =>
      have hrest := h.parked_of_runnable hcode hrun hmem rfl rfl hrunnable
      exact ⟨by rw [exec_status, hrunnable], hparked hrest⟩
  · intro hhead
    cases before_of_head hfollows hhead nofun with
    | running =>
      obtain ⟨-, hrest⟩ := h.chosen_of_exec hcode hframes
      exact ⟨by simp [exec_status], hparked hrest⟩

omit [NeZero n] in
/-- A stack at rest is not on its way into a switch. -/
theorem head_ne_of_resumable {t : Task n L} (h : t.Resumable) (hf : f ∈ t.frames) (j : Fin n) :
    f.head? ≠ some (.setRunning j) ∧ f.head? ≠ some (.schedulerSwitch j) := by
  have hno := h.2 f hf
  cases f with
  | nil => exact ⟨nofun, nofun⟩
  | cons i k =>
    constructor
    · intro hhead
      obtain rfl := Option.some.inj hhead
      exact hno.1 trivial
    · intro hhead
      obtain rfl := Option.some.inj hhead
      exact hno.1 trivial

theorem HandsOver.exec_chosen (h : s.HandsOver) (hcode : s.CodeOk)
    (hframes : (s.current c).frames = (i :: k) :: fs) :
    ∀ c' f j, (s.exec c b i k fs).running c' = none →
      f ∈ ((s.exec c b i k fs).scheduler c').frames →
      (f.head? = some (.setRunning j) →
          (s.exec c b i k fs).status j = .runnable ∧ (s.exec c b i k fs).Parked j) ∧
        (f.head? = some (.schedulerSwitch j) →
          (s.exec c b i k fs).status j = .running ∧ (s.exec c b i k fs).Parked j) := by
  intro c' f j hrun' hf
  by_cases hc : c' = c
  · subst hc
    rcases hcode.switch_cases b hframes with ⟨hsame, -⟩ | ⟨p, hrun, rfl⟩ | ⟨j', hrun, rfl⟩
    · rw [hsame] at hrun'
      rw [exec_scheduler, if_pos ⟨rfl, hrun'⟩] at hf
      rcases List.mem_cons.mp hf with rfl | hf
      · exact h.chosen_outcome hcode hframes hrun' hsame
      · refine h.chosen_kept hcode hframes hrun' ?_ (.inr hf)
        rw [← current_of_none hrun', hframes]
        exact List.mem_cons_of_mem _ hf
    · -- the scheduler that the process has switched to releases the lock first
      rw [exec_scheduler, if_neg (by simp [hrun])] at hf
      have hne := head_ne_of_resumable (h.scheduler c' p hrun) hf j
      exact ⟨fun hhead => absurd hhead hne.1, fun hhead => absurd hhead hne.2⟩
    · simp [exec_running] at hrun'
  · rw [exec_running_ne hc] at hrun'
    rw [exec_scheduler, if_neg fun hsched => hc hsched.1] at hf
    exact h.chosen_kept hcode hframes hrun' hf (.inl hc)

/-! ## Section 2: Slots That Are Booked -/

/-- A slot is booked, or no longer, only where one fork says so. -/
theorem HandsOver.exec_isBooked (h : s.HandsOver) (hcode : s.CodeOk)
    (hframes : (s.current c).frames = (i :: k) :: fs) :
    (s.exec c b i k fs).status j = .booked ↔
      (s.status j = .booked ∧ i ≠ .activate j ∧ i ≠ .giveBack j) ∨
        s.status j = .idle ∧ ∃ slots, i = .book (j :: slots) := by
  have hstatus : (s.exec c b i k fs).status j = _ := exec_status
  rw [hstatus]
  cases i with
  | setAsleep l =>
    by_cases hrun : s.running c = some j
    · simp [hrun, (h.not_booked hrun).1]
    · simp [hrun]
  | setRunnable =>
    by_cases hrun : s.running c = some j
    · simp [hrun, (h.not_booked hrun).1]
    · simp [hrun]
  | raiseAlarm l j' =>
    by_cases hwake : j = j' ∧ s.status j' = .asleep ∧ s.wakeupOn j' = some l
    · simp [hwake]
    · simp [hwake]
  | book slots =>
    cases slots with
    | nil => simp
    | cons j' slots =>
      by_cases hj : j' = j
      · by_cases hidle : s.status j = .idle
        · simp [hj, hidle]
        · simp [hj, hidle]
      · simp [hj]
  | activate j' =>
    by_cases hj : j = j'
    · simp [hj]
    · simp [hj, Ne.symm hj]
  | giveBack j' =>
    by_cases hj : j = j'
    · simp [hj]
    · simp [hj, Ne.symm hj]
  | setRunning j' =>
    by_cases hj : j = j'
    · subst hj
      simp [(h.chosen_of_exec hcode hframes).1]
    · simp [hj]
  | _ => simp

/-- The stack that executes the instruction. -/
theorem HandsOver.exec_owes_self (h : s.HandsOver) (hcode : s.CodeOk)
    (hframes : (s.current c).frames = (i :: k) :: fs) (hrun : s.running c = some p) :
    ((s.exec c b i k fs).process p).owes d = (s.process p).owes d + s.gain d i := by
  rw [exec_process, if_neg, if_pos hrun, owes_taskAfter hframes, current_of_some hrun]
  rintro ⟨rfl, -⟩
  exact (h.not_booked hrun).1 (h.booked_of_init hcode hframes)

/-- The other stacks. -/
theorem exec_process_other (hrun : s.running c = some p) (hq : q ≠ p) :
    (s.exec c b i k fs).process q = s.process q ∨
      i = .processInitialize q ∧ (s.exec c b i k fs).process q = .new := by
  rw [exec_process]
  split
  · next hinit => exact .inr ⟨hinit.1, rfl⟩
  · rw [if_neg]
    · exact .inl rfl
    · intro hrun'
      exact hq (Option.some.inj (hrun'.symm.trans hrun))

/-- Where the code on a stack comes from: the stack is new, the code is what is left of the call
    that executes the instruction, or it was there before, in another call. -/
theorem frames_of_exec (hframes : (s.current c).frames = (i :: k) :: fs)
    (hf : f ∈ ((s.exec c b i k fs).process q).frames) :
    f = processFirstEntry ∧ i = .processInitialize q ∨
      s.running c = some q ∧ f = s.outcomeCode c b i ++ k ∨
        f ∈ (s.process q).frames ∧ (s.running c = some q → f ∈ fs) := by
  rw [exec_process] at hf
  split at hf
  · next hinit => exact .inl ⟨List.mem_singleton.mp hf, hinit.1⟩
  · split at hf
    · next hrun =>
      rcases List.mem_cons.mp hf with rfl | hf
      · exact .inr (.inl ⟨hrun, rfl⟩)
      · refine .inr (.inr ⟨?_, fun _ => hf⟩)
        rw [← current_of_some hrun, hframes]
        exact List.mem_cons_of_mem _ hf
    · next hrun => exact .inr (.inr ⟨hf, fun hrun' => absurd hrun' hrun⟩)

omit [NeZero n] in
/-- A new stack owes `Process_lock` only. -/
theorem owes_new (hveto : d ≠ .veto) (hlocks : d ≠ .locks) (hlock : d ≠ .spin .process) :
    (Task.new : Task n L).owes d = 0 := by
  cases d with
  | spin lock =>
    cases lock with
    | process => exact absurd rfl hlock
    | access l => simp [Task.new, processFirstEntry, spinLockRelease, weight]
  | veto => exact absurd rfl hveto
  | locks => exact absurd rfl hlocks
  | booked j => simp [Task.new, processFirstEntry, spinLockRelease, weight]
  | clearLocked l => simp [Task.new, processFirstEntry, spinLockRelease, weight]

/-- A booked slot is in the hands of one fork after the instruction. -/
theorem HandsOver.exec_booked (h : s.HandsOver) (hcode : s.CodeOk)
    (hframes : (s.current c).frames = (i :: k) :: fs) (j : Fin n) :
    Held (decide ((s.exec c b i k fs).status j = .booked))
      fun q => ((s.exec c b i k fs).process q).owes (.booked j) := by
  have hheld := h.booked j
  have hstatus := h.exec_isBooked (b := b) (j := j) hcode hframes
  rcases hcode.side hframes with ⟨hrun, hside⟩ | ⟨p, hrun, -⟩
  · -- the scheduler has nothing to do with it
    have hnone : i ≠ .activate j ∧ i ≠ .giveBack j ∧ ∀ slots, i ≠ .book slots := by
      refine ⟨?_, ?_, fun slots => ?_⟩ <;> rintro rfl <;>
        exact absurd hside (by simp [Instr.InScheduler])
    have hflag : decide ((s.exec c b i k fs).status j = .booked) =
        decide (s.status j = .booked) := by
      rw [decide_eq_decide, hstatus]
      simp [hnone]
    rw [hflag]
    refine hheld.congr fun q => ?_
    rw [exec_process_of_ne (by simp [hrun])]
    rintro rfl
    exact absurd hside (by simp [Instr.InScheduler])
  · have hself := h.exec_owes_self (b := b) (d := .booked j) hcode hframes hrun
    have hother : ∀ q, q ≠ p → (∀ j', i ≠ .processInitialize j') →
        (s.exec c b i k fs).process q = s.process q := fun q hq hi =>
      (exec_process_other hrun hq).resolve_right fun hinit => hi q hinit.1
    by_cases htake : s.status j = .idle ∧ ∃ slots, i = .book (j :: slots)
    · -- a fork books the slot
      obtain ⟨hidle, slots, rfl⟩ := htake
      rw [decide_eq_false (by simp [hidle])] at hheld
      rw [decide_eq_true (hstatus.mpr (.inr ⟨hidle, slots, rfl⟩))]
      refine hheld.take (a := p) ?_ fun q hq => ?_
      · rw [hself]
        simp [gain, hidle]
      · rw [hother q hq (by simp)]
    · by_cases hdrop : i = .activate j ∨ i = .giveBack j
      · -- the fork makes the slot runnable or gives it back
        have hpos : 0 < (s.process p).owes (.booked j) := by
          rw [current_of_some hrun] at hframes
          refine kept_booked.task_owes_pos (hframes ▸ List.mem_cons_self) List.mem_cons_self ?_
          rcases hdrop with rfl | rfl <;> simp [weight]
        refine hheld.drop hpos ?_ fun q hq => ?_
        · rw [hself]
          rcases hdrop with rfl | rfl <;> simp [gain] <;> omega
        · rw [hother q hq]
          rcases hdrop with rfl | rfl <;> simp
      · rw [not_or] at hdrop
        have hflag : decide ((s.exec c b i k fs).status j = .booked) =
            decide (s.status j = .booked) := by
          rw [decide_eq_decide, hstatus]
          simp [htake, hdrop]
        have hgain : s.gain (.booked j) i = 0 := by
          cases i with
          | book slots =>
            cases slots with
            | nil => rfl
            | cons j' slots =>
              rw [gain, if_neg]
              rintro ⟨rfl, hidle⟩
              exact htake ⟨hidle, slots, rfl⟩
          | activate j' => simp_all [gain]
          | giveBack j' => simp_all [gain]
          | _ => rfl
        rw [hflag]
        refine hheld.mono (fun q => kept_booked.task_owes_nonneg) fun q => ?_
        by_cases hq : q = p
        · rw [hq, hself, hgain, Int.add_zero]
        · rcases exec_process_other hrun hq with hsame | ⟨-, hnew⟩
          · rw [hsame]
          · rw [hnew, owes_new (d := .booked j) (by simp) (by simp) (by simp)]
            exact kept_booked.task_owes_nonneg

omit [DecidableEq Cpu] [DecidableEq L] in
/-- A fork clones the address space after the stack is made, and makes the slot runnable after
    that. -/
theorem mem_outcome_fork
    (hf : .pagingClone j ∈ s.outcomeCode c b i ∨ .activate j ∈ s.outcomeCode c b i) :
    i = .pagingClone j ∨ i = .processInitialize j ∧ b = true := by
  cases i with
  | testAndSet lock =>
    simp only [outcomeCode] at hf
    split at hf <;> simp at hf
  | whileLocked lock =>
    simp only [outcomeCode] at hf
    split at hf <;> simp [sleepLockWait, sleepLockTake, spinLockRelease, spinLockAcquire,
      processSleepOn] at hf
  | ifPreemptible =>
    simp only [outcomeCode] at hf
    split at hf <;> simp [processPreempt, spinLockRelease, spinLockAcquire] at hf
  | ifPreempt =>
    simp only [outcomeCode] at hf
    split at hf <;> simp at hf
  | book slots =>
    cases slots with
    | nil => simp [outcomeCode, schedulerBook, spinLockRelease, spinLockAcquire] at hf
    | cons j' slots =>
      simp only [outcomeCode] at hf
      split at hf <;> simp [spinLockRelease] at hf
  | processInitialize j' =>
    simp only [outcomeCode] at hf
    split at hf
    · next hb => exact .inr ⟨by simpa [eq_comm] using hf, hb⟩
    · simp [forkFails, spinLockRelease, spinLockAcquire] at hf
  | pagingClone j' =>
    simp only [outcomeCode] at hf
    split at hf
    · left
      simpa [forkSucceeds, spinLockRelease, spinLockAcquire, eq_comm] using hf
    · simp [forkFails, spinLockRelease, spinLockAcquire] at hf
  | ifRunnable j' =>
    simp only [outcomeCode] at hf
    split at hf <;> simp at hf
  | nextProcess j' =>
    simp [outcomeCode, scheduleRound, spinLockRelease, spinLockAcquire] at hf
  | _ => simp [outcomeCode] at hf

/-- The slot that a fork works on has a new stack after the instruction. -/
theorem HandsOver.exec_fresh (h : s.HandsOver)
    (hframes : (s.current c).frames = (i :: k) :: fs) :
    ∀ q f j, f ∈ ((s.exec c b i k fs).process q).frames →
      .pagingClone j ∈ f ∨ .activate j ∈ f → (s.exec c b i k fs).process j = .new := by
  intro q f j hf hj
  -- a slot with a new stack keeps it
  have hkeep : (∃ q g, g ∈ (s.process q).frames ∧ (.pagingClone j ∈ g ∨ .activate j ∈ g)) →
      (s.exec c b i k fs).process j = .new := by
    rintro ⟨q, g, hg, hj⟩
    have hbooked : s.status j = .booked := by
      rcases hj with hj | hj
      · exact h.pending hg hj (by simp [weight])
      · exact h.pending hg hj (by simp [weight])
    rw [exec_process]
    split
    · rfl
    · rw [if_neg fun hrun => (h.not_booked hrun).1 hbooked]
      exact h.fresh q g j hg hj
  rcases frames_of_exec hframes hf with ⟨rfl, -⟩ | ⟨hrun, rfl⟩ | ⟨hf, -⟩
  · simp [processFirstEntry, spinLockRelease] at hj
  · have hmem : (i :: k) ∈ (s.process q).frames := by
      rw [← current_of_some hrun, hframes]
      exact List.mem_cons_self
    by_cases hout : .pagingClone j ∈ s.outcomeCode c b i ∨ .activate j ∈ s.outcomeCode c b i
    · rcases mem_outcome_fork hout with rfl | ⟨rfl, rfl⟩
      · exact hkeep ⟨q, _, hmem, .inl List.mem_cons_self⟩
      · rw [exec_process, if_pos ⟨rfl, rfl⟩]
    · refine hkeep ⟨q, _, hmem, ?_⟩
      simp only [List.mem_append, List.mem_cons] at hj ⊢
      tauto
  · exact hkeep ⟨q, f, hf, hj⟩

/-- An instruction keeps the invariant. -/
theorem HandsOver.exec (h : s.HandsOver) (hcode : s.CodeOk)
    (hframes : (s.current c).frames = (i :: k) :: fs) : (s.exec c b i k fs).HandsOver where
  held := h.exec_held hcode hframes
  phase := h.exec_phase hcode hframes
  alone := h.exec_alone hcode hframes
  active := h.exec_active hcode hframes
  parked := h.exec_parked hcode hframes
  scheduler := h.exec_restingScheduler hcode hframes
  chosen := h.exec_chosen hcode hframes
  booked := h.exec_booked hcode hframes
  fresh := h.exec_fresh hframes

/-! ## Section 3: The Other Steps -/

/-- A call returns, or is made. -/
structure Restacks (s : State n Cpu L) (c : Cpu) (t : Task n L) : Prop where
  owes : ∀ d : Duty n L, (∀ l, d ≠ .clearLocked l) → t.owes d = (s.current c).owes d
  made : ∀ f ∈ t.frames, f ∈ (s.current c).frames ∨ s.running c ≠ none ∧ Starts f
  kept : ∀ f ∈ (s.current c).frames, f ∈ t.frames ∨ f = []

omit [NeZero n] [DecidableEq Cpu] in
theorem restacks_return (hframes : (s.current c).frames = [] :: fs) :
    s.Restacks c { s.current c with frames := fs } := by
  refine ⟨fun d _ => ?_, fun f hf => .inl (hframes ▸ List.mem_cons_of_mem _ hf), fun f hf => ?_⟩
  · rw [owes_of_frames (v := (s.current c).vetos) hframes, owes_nil, Int.zero_add]
  · rw [hframes] at hf
    exact (List.mem_cons.mp hf).symm

omit [NeZero n] [DecidableEq Cpu] in
theorem restacks_push (hrun : s.running c = some p) (hf : s.Pushes c p f) :
    s.Restacks c { s.current c with frames := f :: (s.current c).frames } := by
  refine ⟨fun d hd => ?_, fun g hg => ?_, fun g hg => .inl (List.mem_cons_of_mem _ hg)⟩
  · rw [owes_mk_cons, hf.starts.owes d hd, Int.zero_add]
  · rcases List.mem_cons.mp hg with rfl | hg
    · exact .inr ⟨by simp [hrun], hf.starts⟩
    · exact .inl hg

omit [NeZero n] in
theorem HandsOver.restack {t : Task n L} (h : s.HandsOver) (ht : s.Restacks c t) :
    (s.setCurrent c t).HandsOver := by
  have hcur : ∀ c', (s.setCurrent c t).current c' = if c' = c then t else s.current c' := by
    intro c'
    cases hrun : s.running c' with
    | none =>
      rw [current_of_none (by rw [setCurrent_running, hrun]), setCurrent_scheduler,
        current_of_none hrun]
      by_cases hc : c' = c
      · rw [if_pos ⟨hc, hc ▸ hrun⟩, if_pos hc]
      · rw [if_neg fun hboth => hc hboth.1, if_neg hc]
    | some p =>
      rw [current_of_some (by rw [setCurrent_running, hrun]), setCurrent_process,
        current_of_some hrun]
      by_cases hc : c' = c
      · rw [if_pos (hc ▸ hrun), if_pos hc]
      · rw [if_neg fun hrun' => hc (h.alone c' c p hrun hrun'), if_neg hc]
  have howes : ∀ c' (d : Duty n L), (∀ l, d ≠ .clearLocked l) →
      ((s.setCurrent c t).current c').owes d = (s.current c').owes d := by
    intro c' d hd
    rw [hcur]
    split
    · next hc => rw [hc, ht.owes d hd]
    · rfl
  have hprocess : ∀ q, s.running c ≠ some q → (s.setCurrent c t).process q = s.process q :=
    fun q hq => by rw [setCurrent_process, if_neg hq]
  have hscheduler : ∀ c', s.running c' ≠ none →
      (s.setCurrent c t).scheduler c' = s.scheduler c' := by
    intro c' hrun
    rw [setCurrent_scheduler, if_neg]
    rintro ⟨rfl, hnone⟩
    exact hrun hnone
  refine ⟨?_, fun c' => ?_, ?_, fun c' p hrun => ?_, fun p hparked hidle hbooked => ?_,
    fun c' p hrun => ?_, fun c' f j hrun hf => ?_, fun j => ?_, fun q f j hf hj => ?_⟩
  · rw [setCurrent_flag]
    exact h.held.congr fun c' => howes c' _ fun _ => by simp
  · obtain ⟨φ, hφ, hheld, hno⟩ := h.phase c'
    rw [setCurrent_events]
    refine ⟨φ, hφ, by rw [howes c' (.spin .process) fun _ => by simp, hheld], fun hsw => ?_⟩
    rw [hcur]
    split
    · next hc =>
      subst hc
      intro f hf
      rcases ht.made f hf with hold | ⟨-, hstarts⟩
      · exact hno hsw f hold
      · exact hstarts.noSwitch
    · exact hno hsw
  · rw [setCurrent_running]
    exact h.alone
  · rw [setCurrent_running] at hrun
    rw [setCurrent_status]
    apply (h.active c' p hrun).imp_right
    rintro ⟨hstatus, f, hf, hhead⟩
    refine ⟨hstatus, ?_⟩
    by_cases hc : s.running c = some p
    · refine ⟨f, ?_, hhead⟩
      rw [setCurrent_process, if_pos hc]
      refine (ht.kept f (by rwa [current_of_some hc])).resolve_right ?_
      rintro rfl
      cases hhead
    · exact ⟨f, by rwa [hprocess p hc], hhead⟩
  · rw [setCurrent_status] at hidle hbooked
    have hparked' : s.Parked p := fun c' => by
      rw [← setCurrent_running (s := s) (c := c) (t := t)]
      exact hparked c'
    rw [hprocess p (hparked' c)]
    exact h.parked p hparked' hidle hbooked
  · rw [setCurrent_running] at hrun
    rw [hscheduler c' (by simp [hrun])]
    exact h.scheduler c' p hrun
  · rw [setCurrent_running] at hrun
    have hsched : ∀ g ∈ ((s.setCurrent c t).scheduler c').frames, g ∈ (s.scheduler c').frames := by
      intro g hg
      rw [← current_of_none (by rw [setCurrent_running, hrun]), hcur] at hg
      split at hg
      · next hc =>
        subst hc
        rw [← current_of_none hrun]
        exact (ht.made g hg).resolve_right fun hboth => hboth.1 hrun
      · rwa [← current_of_none hrun]
    rw [setCurrent_status]
    obtain ⟨hset, hswitch⟩ := h.chosen c' f j hrun (hsched f hf)
    have hparked : s.Parked j → (s.setCurrent c t).Parked j := fun hp c'' => by
      rw [setCurrent_running]
      exact hp c''
    exact ⟨fun hhead => (hset hhead).imp_right hparked,
      fun hhead => (hswitch hhead).imp_right hparked⟩
  · rw [setCurrent_status]
    refine (h.booked j).congr fun q => ?_
    rw [setCurrent_process]
    split
    · next hrun => rw [ht.owes (.booked j) fun _ => by simp, current_of_some hrun]
    · rfl
  · -- the slot is booked, so no CPU runs it, and a call that starts has nothing to do with it
    have hold : ∃ g ∈ (s.process q).frames, .pagingClone j ∈ g ∨ .activate j ∈ g := by
      rw [setCurrent_process] at hf
      split at hf
      · next hrun =>
        rcases ht.made f hf with hf | ⟨-, hstarts⟩
        · exact ⟨f, by rwa [current_of_some hrun] at hf, hj⟩
        · have hzero := hstarts.owes (.booked j) fun _ => by simp
          rcases hj with hj | hj
          · have := kept_booked.owes_pos (d := .booked j) hj (by simp [weight])
            omega
          · have := kept_booked.owes_pos (d := .booked j) hj (by simp [weight])
            omega
      · exact ⟨f, hf, hj⟩
    obtain ⟨g, hg, hj⟩ := hold
    have hbooked : s.status j = .booked := by
      rcases hj with hj | hj
      · exact h.pending hg hj (by simp [weight])
      · exact h.pending hg hj (by simp [weight])
    rw [hprocess j fun hrun => (h.not_booked hrun).1 hbooked]
    exact h.fresh q g j hg hj

omit [NeZero n] [DecidableEq Cpu] in
/-- A process that sleeps is woken. -/
theorem HandsOver.wake (h : s.HandsOver) (hasleep : s.status j = .asleep) :
    (s.setStatus j .runnable).HandsOver := by
  have hstatus : ∀ q, (s.setStatus j .runnable).status q =
      if q = j then .runnable else s.status q := fun q => Function.update_apply _ _ _ _
  have hother : ∀ q st, st ≠ .asleep → s.status q = st →
      (s.setStatus j .runnable).status q = st := by
    intro q st hst hq
    rw [hstatus, if_neg]
    · exact hq
    · rintro rfl
      exact hst (hq.symm.trans hasleep)
  refine ⟨h.held, h.phase, h.alone, fun c p hrun => ?_, fun p hparked hidle hbooked => ?_,
    h.scheduler, fun c f q hrun hf => ?_, fun q => ?_, h.fresh⟩
  · rcases h.active c p hrun with hp | ⟨hp, hleaves⟩
    · exact .inl (hother p _ (by decide) hp)
    · refine .inr ⟨?_, hleaves⟩
      rw [hstatus]
      split
      · exact .inl rfl
      · exact hp
  · refine h.parked p hparked ?_ ?_
    · exact fun hp => hidle (hother p _ (by decide) hp)
    · exact fun hp => hbooked (hother p _ (by decide) hp)
  · obtain ⟨hset, hswitch⟩ := h.chosen c f q hrun hf
    exact ⟨fun hhead => (hset hhead).imp_left (hother q _ (by decide)),
      fun hhead => (hswitch hhead).imp_left (hother q _ (by decide))⟩
  · have hsame : decide ((s.setStatus j .runnable).status q = .booked) =
        decide (s.status q = .booked) := by
      rw [decide_eq_decide, hstatus]
      split
      · next hq => simp [hq, hasleep]
      · rfl
    rw [hsame]
    exact h.booked q

/-! ## Section 4: Every Run -/

omit [DecidableEq Cpu] in
theorem handsOver_init (hs : s.Initial) : s.HandsOver := by
  have hcur : ∀ c, s.current c = ⟨[scheduleRound 0], 0⟩ := fun c => by
    rw [current_of_none (hs.running c), hs.scheduler c]
  have hround : ∀ d : Duty n L, (⟨[scheduleRound 0], 0⟩ : Task n L).owes d = 0 := by
    intro d
    cases d <;> simp [scheduleRound, spinLockAcquire, spinLockRelease, weight]
    grind
  have howes : ∀ c, (s.current c).owes (.spin .process) = 0 := fun c => by rw [hcur, hround]
  have hprocess : ∀ p, (s.process p).frames = [] ∨ s.process p = .new := fun p =>
    (hs.process p).imp And.right And.right
  refine ⟨?_, fun c => ⟨.released, by rw [hs.events]; rfl, howes c, by simp⟩, fun c c' p hrun => ?_,
    fun c p hrun => ?_, fun p _ hidle _ => ?_, fun c p hrun => ?_, fun c f j _ hf => ?_,
    fun j => ?_, fun q f j hf hj => ?_⟩
  · rw [hs.flag]
    refine ⟨fun c => ?_, fun c => ?_, fun c hc => ?_, fun c c' hc => ?_⟩
    · rw [howes]
    · rw [howes]
      decide
    · rw [howes] at hc
      exact absurd hc (by decide)
    · rw [howes] at hc
      exact absurd hc (by decide)
  · rw [hs.running] at hrun
    cases hrun
  · rw [hs.running] at hrun
    cases hrun
  · rcases hs.process p with ⟨hp, -⟩ | ⟨-, hnew⟩
    · exact absurd hp hidle
    · rw [hnew]
      exact resumable_new
  · rw [hs.running] at hrun
    cases hrun
  · rw [hs.scheduler] at hf
    obtain rfl := List.mem_singleton.mp hf
    exact ⟨fun h => (by cases h), fun h => (by cases h)⟩
  · have hzero : ∀ q, (s.process q).owes (.booked j) = 0 := by
      intro q
      rcases hprocess q with hframes | hnew
      · rw [Task.owes, hframes]
        rfl
      · rw [hnew]
        simp [Task.new, processFirstEntry, spinLockRelease, weight]
    refine ⟨fun q => ?_, fun q => ?_, fun q hq => ?_, fun q q' hq => ?_⟩
    · rw [hzero]
    · rw [hzero]
      decide
    · rw [hzero] at hq
      exact absurd hq (by decide)
    · rw [hzero] at hq
      exact absurd hq (by decide)
  · rcases hprocess q with hframes | hnew
    · rw [hframes] at hf
      exact absurd hf List.not_mem_nil
    · rw [hnew] at hf
      obtain rfl := List.mem_singleton.mp hf
      simp [processFirstEntry, spinLockRelease] at hj

theorem handsOver_inductive :
    (tasks n Cpu L).Inductive fun s => s.CodeOk ∧ s.HandsOver := by
  refine codeOk_inductive.and (fun s hs => handsOver_init hs) ?_
  intro s a s' hcode h hs
  obtain ⟨c, b, i, k, fs, -, hframes, rfl⟩ | ⟨c, fs, hframes, rfl⟩ |
    ⟨c, p, f, hrun, hpush, rfl⟩ | ⟨j, hasleep, rfl⟩ := next_cases hs
  · exact h.exec hcode hframes
  · exact h.restack (restacks_return hframes)
  · exact h.restack (restacks_push hrun hpush)
  · exact h.wake hasleep

omit [NeZero n] [DecidableEq Cpu] in
/-- A CPU whose code releases `Process_lock` has taken it. -/
theorem HandsOver.holdsProcessLock (h : s.HandsOver)
    (hpos : 0 < (s.current c).owes (.spin .process)) : s.HoldsProcessLock c := by
  obtain ⟨φ, hφ, howes, -⟩ := h.phase c
  rw [howes] at hpos
  cases φ with
  | released => exact absurd hpos (by decide)
  | taken => exact .inl hφ
  | switched => exact .inr hφ

omit [NeZero n] [DecidableEq Cpu] in
theorem HandsOver.owes_of_holds (h : s.HandsOver) (hholds : s.HoldsProcessLock c) :
    0 < (s.current c).owes (.spin .process) := by
  obtain ⟨φ, hφ, howes, -⟩ := h.phase c
  rw [howes]
  rcases hholds with hheld | hheld
  · obtain rfl := Option.some.inj (hφ.symm.trans hheld)
    decide
  · obtain rfl := Option.some.inj (hφ.symm.trans hheld)
    decide

omit [NeZero n] [DecidableEq Cpu] in
theorem HandsOver.switch (h : s.HandsOver) (hcode : s.CodeOk) (hat : s.AtSwitch c) :
    lockPhase (s.events c) = some .taken := by
  obtain ⟨i, k, fs, hframes, hneeds, hsw, hclear, htest⟩ : ∃ i k fs,
      (s.current c).frames = (i :: k) :: fs ∧ i.needs = some (.process : SpinLock L) ∧
        Instr.Switches i ∧ i ≠ .clear .process ∧ i ≠ .testAndSet .process := by
    obtain ⟨k, fs, hframes | ⟨j, hframes⟩⟩ := hat
    · exact ⟨_, k, fs, hframes, rfl, trivial, nofun, nofun⟩
    · exact ⟨_, k, fs, hframes, rfl, trivial, nofun, nofun⟩
  obtain ⟨φ, hφ, howes, hno⟩ := h.phase c
  have hone := h.owes_eq_one hcode hframes hneeds
  rw [howes] at hone
  cases φ with
  | released => exact absurd hone (by decide)
  | taken => exact hφ
  | switched =>
    have htop : NoSwitch (i :: k) := hno rfl _ (hframes ▸ List.mem_cons_self)
    unfold NoSwitch at htop
    split at htop
    · contradiction
    · next heq => exact absurd (List.cons.inj heq).1 hclear
    · next heq => exact absurd (List.cons.inj heq).1 htest
    · next heq =>
      obtain ⟨rfl, -⟩ := List.cons.inj heq
      exact absurd hsw htop.1

/-- No process runs on two CPUs. -/
theorem oneCpu_of_reachable (h : (tasks n Cpu L).Reachable s) : s.OneCpu := by
  obtain ⟨hcode, hands⟩ := handsOver_inductive.reachable h
  refine ⟨hands.alone, fun c p hrun => ?_, fun c => hands.switch hcode, fun c => ?_,
    fun c c' hc hc' => ?_⟩
  · refine (hands.active c p hrun).imp_right fun ⟨hstatus, hleaves⟩ => ⟨hstatus, ?_, hleaves⟩
    obtain ⟨f, hf, hhead⟩ := hleaves
    rw [← current_of_some hrun] at hf
    exact hands.holdsProcessLock (hcode.owes_pos hf hhead rfl)
  · obtain ⟨φ, hφ, -⟩ := hands.phase c
    rw [hφ]
    exact nofun
  · exact hands.held.unique c c' (hands.owes_of_holds hc) (hands.owes_of_holds hc')

/-- What some actions do. -/
def run (s : State n Cpu L) : List (Action n Cpu L) → Option (State n Cpu L)
  | [] => some s
  | a :: as => (s.next a).bind fun s' => s'.run as

theorem exists_states_of_run : ∀ (as : List (Action n Cpu L)) {s s' : State n Cpu L},
    s.run as = some s' → ∃ (states : Nat → State n Cpu L) (labels : Nat → Action n Cpu L),
      states 0 = s ∧ states as.length = s' ∧
        ∀ i < as.length, (states i).next (labels i) = some (states (i + 1)) := by
  intro as
  induction as with
  | nil =>
    intro s s' hrun
    obtain rfl := Option.some.inj hrun
    exact ⟨fun _ => s, fun _ => .wake 0, rfl, rfl, fun i hi => absurd hi (Nat.not_lt_zero i)⟩
  | cons a as ih =>
    intro s s' hrun
    obtain ⟨s'', hstep, hrun⟩ := Option.bind_eq_some_iff.mp hrun
    obtain ⟨states, labels, rfl, rfl, hnext⟩ := ih hrun
    refine ⟨fun i => i.casesOn s states, fun i => i.casesOn a labels, rfl, rfl, ?_⟩
    intro i hi
    cases i with
    | zero => exact hstep
    | succ i => exact hnext i (by simpa using hi)

/-- What some actions do is a run. -/
theorem exists_run {as : List (Action n Cpu L)} {s s' : State n Cpu L} (hs : s.Initial)
    (hrun : s.run as = some s') :
    ∃ states labels, (tasks n Cpu L).Run as.length states labels ∧ states as.length = s' := by
  obtain ⟨states, labels, rfl, hlast, hnext⟩ := exists_states_of_run as hrun
  exact ⟨states, labels, ⟨hs, hnext⟩, hlast⟩

theorem reachable_run {as : List (Action n Cpu L)} {s s' : State n Cpu L} (hs : s.Initial)
    (hrun : s.run as = some s') : (tasks n Cpu L).Reachable s' := by
  obtain ⟨states, labels, h, rfl⟩ := exists_run hs hrun
  exact h.reachable _ (Nat.le_refl _)

end chosen

/-! ## Section 5: Two Processes on Two CPUs -/

/-- Two processes that are ready, two CPUs and one sleep lock. -/
def bothReady : State 2 Bool Unit where
  flag _ := false
  locked _ := false
  status _ := .runnable
  wakeupOn _ := none
  process _ := .new
  scheduler _ := ⟨[scheduleRound ⟨0, Nat.zero_lt_two⟩], 0⟩
  running _ := none
  holds _ _ := false
  accessHeld _ := []
  events _ := []

theorem initial_bothReady : bothReady.Initial :=
  ⟨fun _ => rfl, fun _ => rfl, fun _ => .inr ⟨rfl, rfl⟩, fun _ => rfl, fun _ => rfl,
    fun _ _ => rfl, fun _ => rfl, fun _ => rfl⟩

/-- The first CPU enters the first process, which acquires the lock; the second CPU enters the
    second process, which finds the lock set and drops the access lock. -/
def untilWait : List (Action 2 Bool Unit) :=
  List.replicate 8 (.step false true) ++ .call false (.sleepLockAcquire ()) ::
    List.replicate 7 (.step false true) ++ List.replicate 14 (.step true true) ++
      .call true (.sleepLockAcquire ()) :: List.replicate 5 (.step true true)

/-- Then the first process releases the lock, and the second goes to sleep on it. -/
def untilLost : List (Action 2 Bool Unit) :=
  untilWait ++ .call false (.sleepLockRelease ()) :: List.replicate 12 (.step false true) ++
    List.replicate 4 (.step true true)

theorem oneCpu_of_reachable_bothReady :
    ∃ s, bothReady.run untilWait = some s ∧ s.running false = some 0 ∧ s.running true = some 1 ∧
      s.OneCpu := by
  have hrun : (bothReady.run untilWait).map (fun s => (s.running false, s.running true)) =
      some (some 0, some 1) := by decide +kernel
  obtain ⟨s, hs, hrunning⟩ := Option.map_eq_some_iff.mp hrun
  exact ⟨s, hs, congrArg Prod.fst hrunning, congrArg Prod.snd hrunning,
    oneCpu_of_reachable (reachable_run initial_bothReady hs)⟩

end State

end Tasks

end Avos
