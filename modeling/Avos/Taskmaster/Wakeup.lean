import Avos.Taskmaster.SleepLock

/-! # The Wake-Ups of Sleep Locks

  `SleepLock_Acquire` drops the access lock before it takes `Process_lock` to go to sleep, so
  that a whole `SleepLock_Release` fits in between. A sleeper whose lock is clear is woken in
  every run in which no process goes to sleep at such a moment, and in no other
  (`noLostWakeup_run_iff`).
-/

open Transition Holder

namespace Avos

namespace Tasks

/-! ## Section 1: The Code of a Release -/

section code

variable {n : Nat} {L : Type*} {l l' : L} {j : Fin n} {i : Instr n L} {k f : List (Instr n L)}

theorem suffix_of_not_mem {α : Type*} {x : α} {xs pre rest : List α} (hx : x ∉ pre)
    (h : x :: xs <:+ pre ++ rest) : x :: xs <:+ rest := by
  induction pre with
  | nil => exact h
  | cons y pre ih =>
    rw [List.mem_cons, not_or] at hx
    rcases List.suffix_cons_iff.mp h with heq | h
    · exact absurd (List.cons.inj heq).1 hx.1
    · exact ih hx.2 h

theorem eq_of_suffix {α : Type*} {x : α} {xs pre rest : List α} (hx : x ∉ pre)
    (hrest : x ∉ rest) (h : x :: xs <:+ pre ++ x :: rest) : xs = rest := by
  rcases List.suffix_cons_iff.mp (suffix_of_not_mem hx h) with heq | h
  · exact (List.cons.inj heq).2
  · exact absurd (h.subset List.mem_cons_self) hrest

/-- What `SleepLock_Release` does under `Process_lock` and after it. -/
def releaseAlarms (lock : L) : List (Instr n L) :=
  schedulerRaiseAlarm lock ++ spinLockRelease .process ++ spinLockRelease (.access lock)

theorem mem_releaseAlarms : i ∈ releaseAlarms l ↔ (∃ j, i = .raiseAlarm l j) ∨
    i = .clear .process ∨ i = .decrementVeto ∨ i = .clear (.access l) := by
  simp [releaseAlarms, schedulerRaiseAlarm, spinLockRelease, eq_comm]
  tauto

theorem mem_sleepLockRelease : i ∈ sleepLockRelease l ↔ i ∈ releaseAlarms l ∨
    i = .incrementVeto ∨ i = .testAndSet (.access l) ∨ i = .testAndSet .process ∨
      i = .clearLocked l := by
  simp [sleepLockRelease, releaseAlarms, spinLockAcquire]
  tauto

theorem clearLocked_rest (h : .clearLocked l :: k <:+ (sleepLockRelease l : List (Instr n L))) :
    k = .incrementVeto :: .testAndSet .process :: releaseAlarms l := by
  apply @eq_of_suffix _ (.clearLocked l) k [.incrementVeto, .testAndSet (.access l)]
  · simp
  · simp [mem_releaseAlarms]
  · simpa [sleepLockRelease, spinLockAcquire, releaseAlarms] using h

theorem testAndSet_rest
    (h : .testAndSet .process :: k <:+ (sleepLockRelease l : List (Instr n L))) :
    k = releaseAlarms l := by
  apply @eq_of_suffix _ (.testAndSet .process) k
    [.incrementVeto, .testAndSet (.access l), .clearLocked l, .incrementVeto]
  · simp
  · simp [mem_releaseAlarms]
  · simpa [sleepLockRelease, spinLockAcquire, releaseAlarms] using h

theorem raiseAlarm_rest
    (h : .raiseAlarm l' j :: k <:+ (sleepLockRelease l : List (Instr n L))) :
    l' = l ∧ .testAndSet .process ∉ k := by
  have hsuffix : .raiseAlarm l' j :: k <:+ releaseAlarms l := by
    apply @suffix_of_not_mem _ (.raiseAlarm l' j) k
      [.incrementVeto, .testAndSet (.access l), .clearLocked l, .incrementVeto,
        .testAndSet .process]
    · simp
    · simpa [sleepLockRelease, spinLockAcquire, releaseAlarms] using h
  constructor
  · have hmem := hsuffix.subset List.mem_cons_self
    simpa [mem_releaseAlarms] using hmem
  · intro htest
    have hmem := hsuffix.subset (List.mem_cons_of_mem _ htest)
    simp [mem_releaseAlarms] at hmem

end code

/-! ## Section 2: The Property -/

section property

variable {n : Nat} {Cpu L : Type*}

/-- The code stands between the clearing of `locked` and the end of `Scheduler_RaiseAlarm`. -/
def InRelease (lock : L) (f : List (Instr n L)) : Prop :=
  (∃ j, .raiseAlarm lock j ∈ f) ∧ .clearLocked lock ∉ f

/-- The code goes through the processes under `Process_lock`. -/
def Scanning (lock : L) (f : List (Instr n L)) : Prop :=
  (∃ j, .raiseAlarm lock j ∈ f) ∧ .testAndSet .process ∉ f

namespace State

/-- Process `p` is inside `SleepLock_Release` between clearing `locked` and finishing
    `Scheduler_RaiseAlarm`. -/
def Releasing (s : State n Cpu L) (p : Fin n) (lock : L) : Prop :=
  ∃ f ∈ (s.process p).frames, InRelease lock f

def Asleep (s : State n Cpu L) (lock : L) (q : Fin n) : Prop :=
  s.status q = .asleep ∧ s.wakeupOn q = some lock

/-- Who sleeps on a lock sleeps while it is held, or while a process is about to wake it. -/
def NoLostWakeup (s : State n Cpu L) : Prop :=
  ∀ lock q, s.Asleep lock q → s.locked lock = true ∨ ∃ p, s.Releasing p lock

/-- When the step puts a process to sleep on a lock, the lock is held at that moment, or a
    process is about to raise the alarm. -/
def SleepsInTime (s : State n Cpu L) (a : Action n Cpu L) : Prop :=
  ∀ c b lock k fs, a = .step c b → (s.current c).frames = (.setAsleep lock :: k) :: fs →
    s.locked lock = true ∨ ∃ p, s.Releasing p lock

end State

end property

/-! ## Section 3: What an Instruction Changes -/

namespace State

section frame

variable {n : Nat} [NeZero n] {Cpu L : Type*} [DecidableEq Cpu] [DecidableEq L]
  {s : State n Cpu L} {c c' : Cpu} {b : Bool} {i : Instr n L} {k f : List (Instr n L)}
  {fs : List (List (Instr n L))} {p q : Fin n} {l : L}

theorem exec_wakeupOn : (s.exec c b i k fs).wakeupOn q =
    match i with
    | .setWakeupOn alarm => if s.running c = some q then alarm else s.wakeupOn q
    | .raiseAlarm l j =>
        if q = j ∧ s.status j = .asleep ∧ s.wakeupOn j = some l then none else s.wakeupOn q
    | _ => s.wakeupOn q := by
  rw [exec]
  cases i with
  | processInitialize j =>
    simp only [effect]
    split <;> simp
  | book slots =>
    simp only [effect]
    split
    · simp
    · split <;> simp [setStatus]
  | raiseAlarm l j =>
    simp only [effect, setCurrent_status, setCurrent_wakeupOn]
    split <;> simp_all [Function.update_apply]
  | testAndSet lock =>
    simp only [effect]
    split <;> simp [record]
  | _ => simp [effect, setStatus, record, eq_comm]

omit [NeZero n] [DecidableEq Cpu] in
/-- A process that executes an instruction under `Process_lock` does not sleep, unless it is on
    its way into the switch. -/
theorem HandsOver.not_asleep (h : s.HandsOver) (hcode : s.CodeOk) (hrun : s.running c = some p)
    (hframes : (s.current c).frames = (i :: k) :: fs) (hi : i.needs = some .process)
    (hret : i ≠ .schedulerReturn) : s.status p ≠ .asleep := by
  intro hasleep
  rcases h.active c p hrun with hrunning | ⟨-, f, hf, hhead⟩
  · rw [hrunning] at hasleep
    cases hasleep
  · rw [← current_of_some hrun] at hf
    have hmem := hf
    rw [hframes] at hmem
    rcases List.mem_cons.mp hmem with rfl | hrest
    · exact hret (Option.some.inj hhead)
    · exact h.needs_ne hcode hframes hi hhead hf (.inr hrest) rfl

/-- Who sleeps after the instruction slept before it, and is not woken by it, or is put to sleep
    by it. -/
theorem HandsOver.asleep_of_exec (h : s.HandsOver) (hcode : s.CodeOk)
    (hframes : (s.current c).frames = (i :: k) :: fs) (hasleep : (s.exec c b i k fs).Asleep l q) :
    (s.Asleep l q ∧ i ≠ .raiseAlarm l q) ∨
      ∃ l', i = .setAsleep l' ∧ s.running c = some q ∧ s.wakeupOn q = some l := by
  obtain ⟨hstatus, hwake⟩ := hasleep
  rw [exec_status] at hstatus
  rw [exec_wakeupOn] at hwake
  cases i with
  | setAsleep l' =>
    by_cases hrun : s.running c = some q
    · exact .inr ⟨l', rfl, hrun, hwake⟩
    · simp only [hrun, if_false] at hstatus
      exact .inl ⟨⟨hstatus, hwake⟩, nofun⟩
  | setWakeupOn alarm =>
    by_cases hrun : s.running c = some q
    · exact absurd hstatus (h.not_asleep hcode hrun hframes rfl nofun)
    · simp only [hrun, if_false] at hwake
      exact .inl ⟨⟨hstatus, hwake⟩, nofun⟩
  | setRunnable =>
    by_cases hrun : s.running c = some q
    · simp [hrun] at hstatus
    · simp only [hrun, if_false] at hstatus
      exact .inl ⟨⟨hstatus, hwake⟩, nofun⟩
  | raiseAlarm l' j =>
    by_cases hj : q = j ∧ s.status j = .asleep ∧ s.wakeupOn j = some l'
    · simp [hj] at hstatus
    · simp only [hj, if_false] at hstatus hwake
      refine .inl ⟨⟨hstatus, hwake⟩, ?_⟩
      intro hi
      obtain ⟨rfl, rfl⟩ := Instr.raiseAlarm.inj hi
      exact hj ⟨rfl, hstatus, hwake⟩
  | book slots =>
    by_cases hj : slots.head? = some q ∧ s.status q = .idle
    · simp [hj] at hstatus
    · simp only [hj, if_false] at hstatus
      exact .inl ⟨⟨hstatus, hwake⟩, nofun⟩
  | activate j =>
    by_cases hj : q = j
    · simp [hj] at hstatus
    · simp only [hj, if_false] at hstatus
      exact .inl ⟨⟨hstatus, hwake⟩, nofun⟩
  | giveBack j =>
    by_cases hj : q = j
    · simp [hj] at hstatus
    · simp only [hj, if_false] at hstatus
      exact .inl ⟨⟨hstatus, hwake⟩, nofun⟩
  | setRunning j =>
    by_cases hj : q = j
    · simp [hj] at hstatus
    · simp only [hj, if_false] at hstatus
      exact .inl ⟨⟨hstatus, hwake⟩, nofun⟩
  | _ => exact .inl ⟨⟨hstatus, hwake⟩, nofun⟩

omit [NeZero n] in
/-- Code that goes through the processes holds `Process_lock`. -/
theorem scanning_owes {l : L} {f : List (Instr n L)} (hscan : Scanning l f)
    (hdis : Disciplined false f) : 0 < owes (.spin .process) f := by
  obtain ⟨⟨j, hj⟩, htest⟩ := hscan
  induction f with
  | nil => exact absurd hj List.not_mem_nil
  | cons i k ih =>
    rw [List.mem_cons, not_or] at htest
    rcases List.mem_cons.mp hj with rfl | hj
    · exact hdis.owes_pos rfl
    · have hk := ih hdis.tail htest.2 hj
      have hweight : 0 ≤ weight (.spin .process) i := by
        cases i with
        | testAndSet lock =>
          cases lock with
          | process => exact absurd rfl htest.1
          | access l => simp [weight]
        | clear lock =>
          rw [weight]
          split <;> decide
        | whileLocked lock => simp [weight]
        | book slots => simp [weight]
        | _ => exact Int.le_refl 0
      rw [owes_cons]
      omega

omit [DecidableEq Cpu] [DecidableEq L] in
/-- The outcome of an instruction has no part of a release in it. -/
theorem not_mem_outcome {j : Fin n} :
    .clearLocked l ∉ s.outcomeCode c b i ∧ .raiseAlarm l j ∉ s.outcomeCode c b i := by
  cases i with
  | testAndSet lock =>
    rw [outcomeCode]
    split <;> simp
  | whileLocked lock =>
    rw [outcomeCode]
    split <;> simp [sleepLockWait, sleepLockTake, spinLockRelease, spinLockAcquire,
      processSleepOn]
  | ifPreemptible =>
    rw [outcomeCode]
    split <;> simp [processPreempt, spinLockRelease, spinLockAcquire]
  | ifPreempt =>
    rw [outcomeCode]
    split <;> simp
  | book slots =>
    cases slots with
    | nil => simp [outcomeCode, schedulerBook, spinLockRelease, spinLockAcquire]
    | cons j' slots =>
      rw [outcomeCode]
      split <;> simp [spinLockRelease]
  | processInitialize j' =>
    rw [outcomeCode]
    split <;> simp [forkFails, spinLockRelease, spinLockAcquire]
  | pagingClone j' =>
    rw [outcomeCode]
    split <;> simp [forkSucceeds, forkFails, spinLockRelease, spinLockAcquire]
  | ifRunnable j' =>
    rw [outcomeCode]
    split <;> simp
  | nextProcess j' => simp [outcomeCode, scheduleRound, spinLockRelease, spinLockAcquire]
  | _ => simp [outcomeCode]

omit [DecidableEq Cpu] [DecidableEq L] in
/-- The instructions of a release go on with the code after them, or wait for a lock. -/
theorem outcome_of_mem (hi : i ∈ sleepLockRelease l) :
    s.outcomeCode c b i = [] ∨
      (∃ lock, i = .testAndSet lock) ∧ s.outcomeCode c b i = [i] := by
  rw [mem_sleepLockRelease, mem_releaseAlarms] at hi
  obtain (⟨j, rfl⟩ | rfl | rfl | rfl) | rfl | rfl | rfl | rfl := hi
  · exact .inl rfl
  · exact .inl rfl
  · exact .inl rfl
  · exact .inl rfl
  · exact .inl rfl
  · rw [outcomeCode]
    split
    · exact .inr ⟨⟨_, rfl⟩, rfl⟩
    · exact .inl rfl
  · rw [outcomeCode]
    split
    · exact .inr ⟨⟨_, rfl⟩, rfl⟩
    · exact .inl rfl
  · exact .inl rfl

end frame

/-! ## Section 4: The Invariant -/

/-- The invariant. A slot without a process has an empty stack or a new one (`blank`); code with
    a part of a release in it is the rest of one (`code`); while a process goes through the slots
    it runs, and nobody sleeps on the lock in a slot that it has passed (`scanned`); who is about
    to fall asleep has set `wakeup_on` (`alarm`). -/
structure WakeOk {n : Nat} {Cpu L : Type*} (s : State n Cpu L) : Prop where
  blank : ∀ q, s.status q = .idle ∨ s.status q = .booked →
    (s.process q).frames = [] ∨ s.process q = .new
  code : ∀ p f l, f ∈ (s.process p).frames →
    (.clearLocked l ∈ f ∨ ∃ j, .raiseAlarm l j ∈ f) → f <:+ sleepLockRelease l
  scanned : ∀ p f l, f ∈ (s.process p).frames → Scanning l f →
    (∃ c, s.running c = some p) ∧ ∀ q, .raiseAlarm l q ∉ f → ¬s.Asleep l q
  alarm : ∀ c p f l, s.running c = some p → f ∈ (s.process p).frames →
    f.head? = some (.setAsleep l) → s.wakeupOn p = some l

section invariant

variable {n : Nat} [NeZero n] {Cpu L : Type*} [DecidableEq Cpu] [DecidableEq L]
  {s : State n Cpu L} {c c' : Cpu} {b : Bool} {i : Instr n L} {k f : List (Instr n L)}
  {fs : List (List (Instr n L))} {p q j : Fin n} {l : L}

theorem WakeOk.exec_blank (h : s.WakeOk) (hands : s.HandsOver) (hcode : s.CodeOk)
    (hframes : (s.current c).frames = (i :: k) :: fs)
    (hq : (s.exec c b i k fs).status q = .idle ∨ (s.exec c b i k fs).status q = .booked) :
    ((s.exec c b i k fs).process q).frames = [] ∨ (s.exec c b i k fs).process q = .new := by
  have hbefore : s.status q = .idle ∨ s.status q = .booked := by
    rw [exec_status] at hq
    cases i with
    | setAsleep l' =>
      by_cases hrun : s.running c = some q
      · simp [hrun] at hq
      · simpa [hrun] using hq
    | setRunnable =>
      by_cases hrun : s.running c = some q
      · simp [hrun] at hq
      · simpa [hrun] using hq
    | raiseAlarm l' j =>
      by_cases hj : q = j ∧ s.status j = .asleep ∧ s.wakeupOn j = some l'
      · simp [hj] at hq
      · simpa [hj] using hq
    | book slots =>
      by_cases hj : slots.head? = some q ∧ s.status q = .idle
      · exact .inl hj.2
      · simpa [hj] using hq
    | activate j =>
      by_cases hj : q = j
      · simp [hj] at hq
      · simpa [hj] using hq
    | giveBack j =>
      by_cases hj : q = j
      · subst hj
        exact .inr (hands.booked_of_exec hcode hframes (by simp [weight])
          (by simp [Instr.InScheduler]))
      · simpa [hj] using hq
    | setRunning j =>
      by_cases hj : q = j
      · simp [hj] at hq
      · simpa [hj] using hq
    | _ => exact hq
  rw [exec_process]
  split
  · exact .inr rfl
  · rw [if_neg]
    · exact h.blank q hbefore
    · intro hrun
      have hnot := hands.not_booked hrun
      exact hbefore.elim hnot.2 hnot.1

omit [DecidableEq Cpu] [DecidableEq L] in
/-- The rest of a release after an instruction. -/
theorem suffix_of_outcome (hsuffix : i :: k <:+ sleepLockRelease l) :
    s.outcomeCode c b i ++ k <:+ sleepLockRelease l ∧
      (s.outcomeCode c b i ++ k = k ∨
        (∃ lock, i = .testAndSet lock) ∧ s.outcomeCode c b i ++ k = i :: k) := by
  rcases outcome_of_mem (hsuffix.subset List.mem_cons_self) with hnil | ⟨htest, hself⟩
  · rw [hnil]
    exact ⟨(List.suffix_cons i k).trans hsuffix, .inl rfl⟩
  · rw [hself]
    exact ⟨hsuffix, .inr ⟨htest, rfl⟩⟩

omit [DecidableEq Cpu] [DecidableEq L] in
/-- A part of a release in the outcome of an instruction was there before. -/
theorem mem_of_outcome (hmem : .clearLocked l ∈ s.outcomeCode c b i ++ k ∨
    ∃ j, .raiseAlarm l j ∈ s.outcomeCode c b i ++ k) :
    .clearLocked l ∈ k ∨ ∃ j, .raiseAlarm l j ∈ k := by
  rcases hmem with hmem | ⟨j, hmem⟩
  · exact .inl ((List.mem_append.mp hmem).resolve_left (@not_mem_outcome _ _ _ _ s c b i l 0).1)
  · exact .inr ⟨j, (List.mem_append.mp hmem).resolve_left not_mem_outcome.2⟩

theorem WakeOk.exec_code (h : s.WakeOk) (hframes : (s.current c).frames = (i :: k) :: fs)
    (hf : f ∈ ((s.exec c b i k fs).process p).frames)
    (hmem : .clearLocked l ∈ f ∨ ∃ j, .raiseAlarm l j ∈ f) : f <:+ sleepLockRelease l := by
  rcases frames_of_exec hframes hf with ⟨rfl, -⟩ | ⟨hrun, rfl⟩ | ⟨hf, -⟩
  · simp [processFirstEntry, spinLockRelease] at hmem
  · have htop : (i :: k) ∈ (s.process p).frames := by
      rw [← current_of_some hrun, hframes]
      exact List.mem_cons_self
    have hbefore := mem_of_outcome hmem
    refine (suffix_of_outcome (h.code p _ l htop ?_)).1
    exact hbefore.imp (List.mem_cons_of_mem _) fun hj => hj.imp fun _ => List.mem_cons_of_mem _
  · exact h.code p f l hf hmem

/-- The stack of another call goes through the slots while the instruction is executed. -/
theorem WakeOk.exec_scanned_other (h : s.WakeOk) (hands : s.HandsOver) (hcode : s.CodeOk)
    (hframes : (s.current c).frames = (i :: k) :: fs) (hf : f ∈ (s.process p).frames)
    (hrest : s.running c = some p → f ∈ fs) (hscan : Scanning l f) :
    (∃ c', (s.exec c b i k fs).running c' = some p) ∧
      ∀ q, .raiseAlarm l q ∉ f → ¬(s.exec c b i k fs).Asleep l q := by
  obtain ⟨⟨c', hrun⟩, hpassed⟩ := h.scanned p f l hf hscan
  have hneeds : i.needs ≠ some .process := by
    intro hi
    have hcur : f ∈ (s.current c').frames := by rwa [current_of_some hrun]
    have hother : c' ≠ c ∨ f ∈ fs := by
      by_cases hc : c' = c
      · exact .inr (hrest (hc ▸ hrun))
      · exact .inl hc
    have hle := hands.other_owes hcode hframes hi hcur hother
    have hpos := scanning_owes hscan (hcode.process p f hf)
    omega
  refine ⟨⟨c', ?_⟩, fun q hq hasleep => ?_⟩
  · rw [(exec_of_needs hneeds).2]
    exact hrun
  · rcases hands.asleep_of_exec hcode hframes hasleep with ⟨hold, -⟩ | ⟨l', rfl, -⟩
    · exact hpassed q hq hold
    · exact hneeds rfl

/-- The call that executes the instruction goes through the slots. -/
theorem WakeOk.exec_scanned_self (h : s.WakeOk) (hands : s.HandsOver) (hcode : s.CodeOk)
    (hframes : (s.current c).frames = (i :: k) :: fs) (hrun : s.running c = some p)
    (hscan : Scanning l (s.outcomeCode c b i ++ k)) :
    (∃ c', (s.exec c b i k fs).running c' = some p) ∧
      ∀ q, .raiseAlarm l q ∉ s.outcomeCode c b i ++ k →
        ¬(s.exec c b i k fs).Asleep l q := by
  have htop : (i :: k) ∈ (s.process p).frames := by
    rw [← current_of_some hrun, hframes]
    exact List.mem_cons_self
  obtain ⟨⟨j, hj⟩, htest⟩ := hscan
  obtain ⟨j, hj⟩ : ∃ j, .raiseAlarm l j ∈ k :=
    ⟨j, (List.mem_append.mp hj).resolve_left not_mem_outcome.2⟩
  have hsuffix := h.code p _ l htop (.inr ⟨j, List.mem_cons_of_mem _ hj⟩)
  have hmem := hsuffix.subset List.mem_cons_self
  have hsame : (s.exec c b i k fs).running = s.running := by
    rcases hcode.switch_cases b hframes with ⟨hsame, -⟩ | ⟨p', -, rfl⟩ | ⟨j', -, rfl⟩
    · exact hsame
    · simp [mem_sleepLockRelease, mem_releaseAlarms] at hmem
    · simp [mem_sleepLockRelease, mem_releaseAlarms] at hmem
  refine ⟨⟨c, by rw [hsame, hrun]⟩, fun q hq hasleep => ?_⟩
  have hq' : .raiseAlarm l q ∉ k := fun hmem => hq (List.mem_append_right _ hmem)
  have htest' : .testAndSet .process ∉ k := fun hmem => htest (List.mem_append_right _ hmem)
  by_cases hi : i = .testAndSet .process
  · -- the scan begins, with every slot before it
    subst hi
    rw [testAndSet_rest hsuffix] at hq'
    exact hq' (mem_releaseAlarms.mpr (.inl ⟨q, rfl⟩))
  · have hscan : Scanning l (i :: k) := by
      refine ⟨⟨j, List.mem_cons_of_mem _ hj⟩, ?_⟩
      rw [List.mem_cons, not_or]
      exact ⟨fun heq => hi heq.symm, htest'⟩
    obtain ⟨-, hpassed⟩ := h.scanned p _ l htop hscan
    rcases hands.asleep_of_exec hcode hframes hasleep with ⟨hold, hne⟩ | ⟨l', rfl, -⟩
    · refine hpassed q ?_ hold
      rw [List.mem_cons, not_or]
      exact ⟨fun heq => hne heq.symm, hq'⟩
    · simp [mem_sleepLockRelease, mem_releaseAlarms] at hmem

theorem WakeOk.exec_alarm (h : s.WakeOk) (hands : s.HandsOver) (hcode : s.CodeOk)
    (hframes : (s.current c).frames = (i :: k) :: fs)
    (hrun' : (s.exec c b i k fs).running c' = some q)
    (hf : f ∈ ((s.exec c b i k fs).process q).frames)
    (hhead : f.head? = some (.setAsleep l)) : (s.exec c b i k fs).wakeupOn q = some l := by
  rcases running_of_exec hrun' with hrun | ⟨rfl, rfl⟩
  · rcases frames_of_exec hframes hf with ⟨rfl, -⟩ | ⟨hq, rfl⟩ | ⟨hf, hrest⟩
    · cases hhead
    · have htop : (i :: k) ∈ (s.process q).frames := by
        rw [← current_of_some hq, hframes]
        exact List.mem_cons_self
      cases before_of_head (hcode.process q _ htop).2.2.2.1 hhead nofun with
      | alarm =>
        rw [exec_wakeupOn]
        simp [hq]
    · have hcur : f ∈ (s.current c').frames := by rwa [current_of_some hrun]
      have hother : c' ≠ c ∨ f ∈ fs := by
        by_cases hc : c' = c
        · exact .inr (hrest (hc ▸ hrun))
        · exact .inl hc
      have hneeds : i.needs ≠ some .process := fun hi =>
        hands.needs_ne hcode hframes hi hhead hcur hother rfl
      have hsame : (s.exec c b i k fs).wakeupOn q = s.wakeupOn q := by
        rw [exec_wakeupOn]
        cases i with
        | setWakeupOn alarm => exact absurd rfl hneeds
        | raiseAlarm l' j => exact absurd rfl hneeds
        | _ => rfl
      rw [hsame]
      exact h.alarm c' q f l hrun hf hhead
  · -- a process that is resumed releases `Process_lock` first
    rcases hcode.side hframes with ⟨hrun, -⟩ | ⟨p, -, hside⟩
    · obtain ⟨hcur, hres, -⟩ := hands.exec_switch (b := b) hcode hrun hframes
      rw [← current_of_some hrun', hcur] at hf
      have hno := hres.2 f hf
      cases f with
      | nil => cases hhead
      | cons i' k' =>
        obtain rfl := Option.some.inj hhead
        exact absurd trivial hno.1
    · exact absurd hside (by simp [Instr.InScheduler])

/-- An instruction keeps the invariant. -/
theorem WakeOk.exec (h : s.WakeOk) (hands : s.HandsOver) (hcode : s.CodeOk)
    (hframes : (s.current c).frames = (i :: k) :: fs) : (s.exec c b i k fs).WakeOk where
  blank q hq := h.exec_blank hands hcode hframes hq
  code p f l hf hmem := h.exec_code hframes hf hmem
  scanned p f l hf hscan := by
    rcases frames_of_exec hframes hf with ⟨rfl, -⟩ | ⟨hrun, rfl⟩ | ⟨hf, hrest⟩
    · simp [Scanning, processFirstEntry, spinLockRelease] at hscan
    · exact h.exec_scanned_self hands hcode hframes hrun hscan
    · exact h.exec_scanned_other hands hcode hframes hf hrest hscan
  alarm c' q f l hrun hf hhead := h.exec_alarm hands hcode hframes hrun hf hhead

/-! ## Section 5: Every Run -/

omit [NeZero n] in
/-- A call returns or is made. -/
theorem WakeOk.restack {t : Task n L} (h : s.WakeOk) (hands : s.HandsOver) (ht : s.Restacks c t)
    (hmade : ∀ f ∈ t.frames, f ∈ (s.current c).frames ∨
      (∀ l, Scanning l f → False) ∧
        ∀ l, (.clearLocked l ∈ f ∨ ∃ j, .raiseAlarm l j ∈ f) → f <:+ sleepLockRelease l) :
    (s.setCurrent c t).WakeOk := by
  have hasleep : ∀ l q, (s.setCurrent c t).Asleep l q ↔ s.Asleep l q := by
    intro l q
    rw [Asleep, Asleep, setCurrent_status, setCurrent_wakeupOn]
  refine ⟨fun q hq => ?_, fun p f l hf hmem => ?_, fun p f l hf hscan => ?_,
    fun c' p f l hrun hf hhead => ?_⟩
  · rw [setCurrent_status] at hq
    rw [setCurrent_process, if_neg]
    · exact h.blank q hq
    · intro hrun
      have hnot := hands.not_booked hrun
      exact hq.elim hnot.2 hnot.1
  · rw [setCurrent_process] at hf
    split at hf
    · next hrun =>
      rcases hmade f hf with hold | ⟨-, hnew⟩
      · exact h.code p f l (by rwa [current_of_some hrun] at hold) hmem
      · exact hnew l hmem
    · exact h.code p f l hf hmem
  · rw [setCurrent_running]
    simp only [hasleep]
    rw [setCurrent_process] at hf
    split at hf
    · next hrun =>
      rcases hmade f hf with hold | ⟨hnew, -⟩
      · exact h.scanned p f l (by rwa [current_of_some hrun] at hold) hscan
      · exact absurd hscan (hnew l)
    · exact h.scanned p f l hf hscan
  · rw [setCurrent_running] at hrun
    rw [setCurrent_wakeupOn]
    rw [setCurrent_process] at hf
    split at hf
    · next hrun' =>
      rcases ht.made f hf with hold | ⟨-, hstarts⟩
      · exact h.alarm c' p f l hrun (by rwa [current_of_some hrun'] at hold) hhead
      · rcases hstarts.head with hstart | hstart
        · cases hstart.symm.trans hhead
        · cases hstart.symm.trans hhead
    · exact h.alarm c' p f l hrun hf hhead

omit [DecidableEq Cpu] [DecidableEq L] in
/-- A call that has just been made is at most the whole of a release. -/
theorem Pushes.release (hf : s.Pushes c p f) : (∀ l, Scanning l f → False) ∧
    ∀ l, (.clearLocked l ∈ f ∨ ∃ j, .raiseAlarm l j ∈ f) → f <:+ sleepLockRelease l := by
  cases hf with
  | interrupt => simp [Scanning]
  | @call g f hframes hcode =>
    cases g with
    | sleepLockAcquire l' =>
      obtain rfl := Option.some.inj hcode
      simp [Scanning, Tasks.sleepLockAcquire, spinLockAcquire]
    | sleepLockRelease l' =>
      rw [callCode] at hcode
      split at hcode
      · obtain rfl := Option.some.inj hcode
        refine ⟨fun l hscan => hscan.2 ?_, fun l hmem => ?_⟩
        · simp [mem_sleepLockRelease]
        · have hl : l = l' := by
            simpa [mem_sleepLockRelease, mem_releaseAlarms] using hmem
          exact hl ▸ List.suffix_refl _
      · cases hcode
    | processFork =>
      obtain rfl := Option.some.inj hcode
      simp [Scanning, schedulerBook, spinLockAcquire]

omit [NeZero n] [DecidableEq Cpu] [DecidableEq L] in
theorem WakeOk.wake (h : s.WakeOk) : (s.setStatus j .runnable).WakeOk := by
  have hstatus : ∀ q, (s.setStatus j .runnable).status q =
      if q = j then .runnable else s.status q := fun q => Function.update_apply _ _ _ _
  refine ⟨fun q hq => ?_, h.code, fun p f l hf hscan => ?_, h.alarm⟩
  · rw [hstatus] at hq
    split at hq
    · simp at hq
    · exact h.blank q hq
  · obtain ⟨hrun, hpassed⟩ := h.scanned p f l hf hscan
    refine ⟨hrun, fun q hq hold => hpassed q hq ⟨?_, hold.2⟩⟩
    have hq := hold.1
    rw [hstatus] at hq
    split at hq
    · cases hq
    · exact hq

omit [DecidableEq Cpu] [DecidableEq L] in
theorem wakeOk_init (hs : s.Initial) : s.WakeOk := by
  have hprocess : ∀ p, (s.process p).frames = [] ∨ s.process p = .new := fun p =>
    (hs.process p).imp And.right And.right
  have hnew : ∀ p f, f ∈ (s.process p).frames → f = processFirstEntry := by
    intro p f hf
    rcases hprocess p with hframes | hnew
    · rw [hframes] at hf
      exact absurd hf List.not_mem_nil
    · rw [hnew] at hf
      exact List.mem_singleton.mp hf
  refine ⟨fun q _ => hprocess q, fun p f l hf hmem => ?_, fun p f l hf hscan => ?_,
    fun c p f l hrun => ?_⟩
  · obtain rfl := hnew p f hf
    simp [processFirstEntry, spinLockRelease] at hmem
  · obtain rfl := hnew p f hf
    simp [Scanning, processFirstEntry, spinLockRelease] at hscan
  · rw [hs.running] at hrun
    cases hrun

/-- The invariants that hold in every run. -/
def AllOk (s : State n Cpu L) : Prop := (s.CodeOk ∧ s.HandsOver) ∧ s.WakeOk

theorem allOk_inductive : (tasks n Cpu L).Inductive AllOk := by
  refine handsOver_inductive.and (fun s hs => wakeOk_init hs) ?_
  rintro s a s' ⟨hcode, hands⟩ h hs
  obtain ⟨c, b, i, k, fs, -, hframes, rfl⟩ | ⟨c, fs, hframes, rfl⟩ |
    ⟨c, p, f, hrun, hpush, rfl⟩ | ⟨j, hasleep, rfl⟩ := next_cases hs
  · exact h.exec hands hcode hframes
  · refine h.restack hands (restacks_return hframes) fun f hf => .inl ?_
    rw [hframes]
    exact List.mem_cons_of_mem _ hf
  · refine h.restack hands (restacks_push hrun hpush) fun g hg => ?_
    rcases List.mem_cons.mp hg with rfl | hg
    · exact .inr hpush.release
    · exact .inl hg
  · exact h.wake

/-- A process inside a release stays there, or has just raised the last alarm. -/
theorem WakeOk.releasing_of_exec (h : s.WakeOk) (hands : s.HandsOver) (hcode : s.CodeOk)
    (hframes : (s.current c).frames = (i :: k) :: fs) (hrel : s.Releasing p l) :
    (s.exec c b i k fs).Releasing p l ∨
      ∃ j, i = .raiseAlarm l j ∧ ∀ q, q ≠ j → ¬s.Asleep l q := by
  obtain ⟨f, hf, ⟨j, hj⟩, hclear⟩ := hrel
  -- the stack is not made anew
  have hinit : ¬(i = .processInitialize p ∧ b = true) := by
    rintro ⟨rfl, -⟩
    have hbooked := hands.booked_of_init hcode hframes
    rcases h.blank p (.inr hbooked) with hempty | hnew
    · rw [hempty] at hf
      exact absurd hf List.not_mem_nil
    · rw [hnew] at hf
      obtain rfl := List.mem_singleton.mp hf
      simp [processFirstEntry, spinLockRelease] at hj
  by_cases hrun : s.running c = some p
  · have hstack := hf
    rw [← current_of_some hrun, hframes] at hstack
    rcases List.mem_cons.mp hstack with rfl | hrest
    · by_cases hmore : ∃ j, .raiseAlarm l j ∈ k
      · obtain ⟨j', hj'⟩ := hmore
        refine .inl ⟨s.outcomeCode c b i ++ k, ?_, ⟨j', List.mem_append_right _ hj'⟩, ?_⟩
        · rw [exec_process, if_neg hinit, if_pos hrun]
          exact List.mem_cons_self
        · rw [List.mem_append, not_or]
          exact ⟨(@not_mem_outcome _ _ _ _ s c b i l j').1,
            fun hmem => hclear (List.mem_cons_of_mem _ hmem)⟩
      · -- the scan has passed every slot but the last
        obtain rfl : .raiseAlarm l j = i :=
          (List.mem_cons.mp hj).resolve_right fun hmem => hmore ⟨j, hmem⟩
        refine .inr ⟨j, rfl, fun q hq => ?_⟩
        obtain ⟨-, htest⟩ := raiseAlarm_rest (h.code p _ l hf (.inr ⟨j, hj⟩))
        obtain ⟨-, hpassed⟩ := h.scanned p _ l hf ⟨⟨j, hj⟩, by simpa using htest⟩
        refine hpassed q fun hmem => ?_
        rcases List.mem_cons.mp hmem with heq | hmem
        · exact hq (Instr.raiseAlarm.inj heq).2
        · exact hmore ⟨q, hmem⟩
    · refine .inl ⟨f, ?_, ⟨j, hj⟩, hclear⟩
      rw [exec_process, if_neg hinit, if_pos hrun]
      exact List.mem_cons_of_mem _ hrest
  · refine .inl ⟨f, ?_, ⟨j, hj⟩, hclear⟩
    rw [exec_process, if_neg hinit, if_neg hrun]
    exact hf

/-- Between the clearing of `locked` and the alarm the process is inside the release. -/
theorem WakeOk.releasing_of_clear (h : s.WakeOk) (hrun : s.running c = some p)
    (hframes : (s.current c).frames = (.clearLocked l :: k) :: fs) :
    (s.exec c b (.clearLocked l) k fs).Releasing p l := by
  have htop : (.clearLocked l :: k) ∈ (s.process p).frames := by
    rw [← current_of_some hrun, hframes]
    exact List.mem_cons_self
  have hk := clearLocked_rest (h.code p _ l htop (.inl List.mem_cons_self))
  refine ⟨k, ?_, ⟨0, ?_⟩, ?_⟩
  · rw [exec_process, if_neg nofun, if_pos hrun]
    exact List.mem_cons_self
  · simp [hk, mem_releaseAlarms]
  · simp [hk, mem_releaseAlarms]

theorem noLostWakeup_exec (h : s.AllOk) (hnone : s.NoLostWakeup)
    (hframes : (s.current c).frames = (i :: k) :: fs)
    (hguard : ∀ l, i = .setAsleep l → s.locked l = true ∨ ∃ p, s.Releasing p l) :
    (s.exec c b i k fs).NoLostWakeup := by
  obtain ⟨⟨hcode, hands⟩, hwake⟩ := h
  intro l q hasleep
  -- before the step the lock was held, or about to be announced
  have hbefore : (s.locked l = true ∨ ∃ p, s.Releasing p l) ∧
      ∀ j, i = .raiseAlarm l j → s.Asleep l q ∧ q ≠ j := by
    rcases hands.asleep_of_exec hcode hframes hasleep with ⟨hold, hne⟩ | ⟨l', rfl, hrun, hset⟩
    · exact ⟨hnone l q hold, fun j hj => ⟨hold, fun hq => hne (hq ▸ hj)⟩⟩
    · have htop : (.setAsleep l' :: k) ∈ (s.process q).frames := by
        rw [← current_of_some hrun, hframes]
        exact List.mem_cons_self
      have halarm := hwake.alarm c q _ l' hrun htop rfl
      obtain rfl : l' = l := Option.some.inj (halarm.symm.trans hset)
      exact ⟨hguard l' rfl, nofun⟩
  obtain ⟨hheld | ⟨p, hrel⟩, hraise⟩ := hbefore
  · by_cases hi : i = .clearLocked l
    · subst hi
      rcases hcode.side hframes with ⟨-, hside⟩ | ⟨p, hrun, -⟩
      · exact absurd hside (by simp [Instr.InScheduler])
      · exact .inr ⟨p, hwake.releasing_of_clear hrun hframes⟩
    · left
      rw [exec_locked]
      cases i with
      | setLocked l' => simp [hheld]
      | clearLocked l' =>
        have hne : l ≠ l' := fun heq => hi (heq ▸ rfl)
        simp [hne, hheld]
      | _ => exact hheld
  · rcases hwake.releasing_of_exec (b := b) hands hcode hframes hrel with hrel | ⟨j, hj, hpassed⟩
    · exact .inr ⟨p, hrel⟩
    · obtain ⟨hold, hq⟩ := hraise j hj
      exact absurd hold (hpassed q hq)

/-- A process that goes to sleep at the wrong moment is not woken. -/
theorem not_noLostWakeup_exec (h : s.AllOk)
    (hframes : (s.current c).frames = (.setAsleep l :: k) :: fs)
    (hlate : ¬(s.locked l = true ∨ ∃ p, s.Releasing p l)) :
    ¬(s.exec c b (.setAsleep l) k fs).NoLostWakeup := by
  obtain ⟨⟨hcode, hands⟩, hwake⟩ := h
  rcases hcode.side hframes with ⟨-, hside⟩ | ⟨p, hrun, -⟩
  · exact absurd hside (by simp [Instr.InScheduler])
  · have htop : (.setAsleep l :: k) ∈ (s.process p).frames := by
      rw [← current_of_some hrun, hframes]
      exact List.mem_cons_self
    intro hnone
    have hasleep : (s.exec c b (.setAsleep l) k fs).Asleep l p := by
      constructor
      · rw [exec_status]
        simp [hrun]
      · rw [exec_wakeupOn]
        exact hwake.alarm c p _ l hrun htop rfl
    apply hlate
    rcases hnone l p hasleep with hheld | ⟨q, f, hf, ⟨j, hj⟩, hclear⟩
    · rw [exec_locked] at hheld
      exact .inl hheld
    · refine .inr ⟨q, ?_⟩
      rcases frames_of_exec hframes hf with ⟨rfl, -⟩ | ⟨hq, heq⟩ | ⟨hf, -⟩
      · simp [processFirstEntry, spinLockRelease] at hj
      · obtain rfl : k = f := heq.symm
        refine ⟨.setAsleep l :: k, ?_, ⟨j, List.mem_cons_of_mem _ hj⟩, ?_⟩
        · rw [← current_of_some hq, hframes]
          exact List.mem_cons_self
        · simpa using hclear
      · exact ⟨f, hf, ⟨j, hj⟩, hclear⟩

omit [NeZero n] in
theorem noLostWakeup_restack {t : Task n L} (hnone : s.NoLostWakeup) (ht : s.Restacks c t) :
    (s.setCurrent c t).NoLostWakeup := by
  intro l q hasleep
  rw [Asleep, setCurrent_status, setCurrent_wakeupOn] at hasleep
  rw [setCurrent_locked]
  refine (hnone l q hasleep).imp_right fun ⟨p, f, hf, ⟨j, hj⟩, hclear⟩ =>
    ⟨p, f, ?_, ⟨j, hj⟩, hclear⟩
  rw [setCurrent_process]
  split
  · next hrun =>
    refine (ht.kept f (by rwa [current_of_some hrun])).resolve_right ?_
    rintro rfl
    exact absurd hj List.not_mem_nil
  · exact hf

omit [NeZero n] [DecidableEq Cpu] [DecidableEq L] in
theorem noLostWakeup_wake (hnone : s.NoLostWakeup) : (s.setStatus j .runnable).NoLostWakeup := by
  intro l q hasleep
  refine hnone l q ⟨?_, hasleep.2⟩
  have hq : Function.update s.status j .runnable q = .asleep := hasleep.1
  rw [Function.update_apply] at hq
  split at hq
  · cases hq
  · exact hq

/-- No wake-up is lost along a run exactly when no process goes to sleep on a lock that is clear
    and about which no alarm is to come. -/
theorem noLostWakeup_run_iff {m : Nat} {states : Nat → State n Cpu L}
    {labels : Nat → Action n Cpu L} (h : (tasks n Cpu L).Run m states labels) :
    (∀ i ≤ m, (states i).NoLostWakeup) ↔ ∀ i < m, (states i).SleepsInTime (labels i) := by
  apply h.forall_iff_guard (I := fun s => s.AllOk ∧ s.NoLostWakeup) (P := NoLostWakeup)
  · intro s hs
    refine ⟨allOk_inductive.init s hs, fun l q hasleep => ?_⟩
    have hstatus := hasleep.1
    rcases hs.process q with ⟨hq, -⟩ | ⟨hq, -⟩
    · rw [hq] at hstatus
      cases hstatus
    · rw [hq] at hstatus
      cases hstatus
  · rintro s a s' ⟨hok, hnone⟩ hguard hs
    refine ⟨allOk_inductive.step s a s' hok hs, ?_⟩
    obtain ⟨c, b, i, k, fs, ha, hframes, rfl⟩ | ⟨c, fs, hframes, rfl⟩ |
      ⟨c, p, f, hrun, hpush, rfl⟩ | ⟨j, hasleep, rfl⟩ := next_cases hs
    · refine noLostWakeup_exec hok hnone hframes fun l hl => ?_
      subst hl
      exact hguard c b l k fs ha hframes
    · exact noLostWakeup_restack hnone (restacks_return hframes)
    · exact noLostWakeup_restack hnone (restacks_push hrun hpush)
    · exact noLostWakeup_wake hnone
  · exact fun s hs => hs.2
  · rintro s a s' ⟨hok, -⟩ hlate hs
    simp only [SleepsInTime, not_forall] at hlate
    obtain ⟨c, b, l, k, fs, rfl, hframes, hlate⟩ := hlate
    have hnext : s.next (.step c b) = some s' := hs
    rw [next, hframes] at hnext
    obtain rfl := Option.some.inj hnext
    exact not_noLostWakeup_exec hok hframes hlate

end invariant

theorem run_untilLost : ∃ s, bothReady.run untilLost = some s ∧ ¬s.NoLostWakeup := by
  have hrun : (bothReady.run untilLost).map (fun s => decide (s.status 1 = .asleep ∧
      s.wakeupOn 1 = some () ∧ s.locked () = false ∧
        ∀ p, ∀ f ∈ (s.process p).frames, ∀ j, .raiseAlarm () j ∉ f)) = some true := by
    decide +kernel
  obtain ⟨s, hs, hlost⟩ := Option.map_eq_some_iff.mp hrun
  obtain ⟨hstatus, hwake, hfree, hnone⟩ := of_decide_eq_true hlost
  refine ⟨s, hs, fun h => ?_⟩
  rcases h () 1 ⟨hstatus, hwake⟩ with hheld | ⟨p, f, hf, ⟨j, hj⟩, -⟩
  · rw [hfree] at hheld
    cases hheld
  · exact hnone p f hf j hj

/-- The second process sleeps on a lock that is clear. -/
theorem not_forall_noLostWakeup :
    ¬∀ s, (tasks 2 Bool Unit).Reachable s → s.NoLostWakeup := by
  obtain ⟨s, hs, hlost⟩ := run_untilLost
  intro h
  exact hlost (h s (reachable_run initial_bothReady hs))

/-- In that run a process goes to sleep at the wrong moment. -/
theorem noLostWakeup_run_iff_untilLost : ∃ states labels,
    (tasks 2 Bool Unit).Run untilLost.length states labels ∧
      ¬∀ i < untilLost.length, (states i).SleepsInTime (labels i) := by
  obtain ⟨s, hs, hlost⟩ := run_untilLost
  obtain ⟨states, labels, h, hlast⟩ := exists_run initial_bothReady hs
  refine ⟨states, labels, h, fun hguard => hlost ?_⟩
  rw [← hlast]
  exact (noLostWakeup_run_iff h).mpr hguard _ (Nat.le_refl _)

end State

end Tasks

end Avos
