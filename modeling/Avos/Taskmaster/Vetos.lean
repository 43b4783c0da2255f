import Avos.Taskmaster.Wakeup

/-! # The Preemption Vetos

  `SpinLock_Acquire` counts the lock on the stack that it runs on, and `SpinLock_Release` counts
  it off. `State_Initialize` starts the counter of a process at zero, although the process enters
  with `Process_lock`, which the scheduler has counted on its own stack. So the counter of every
  process is one too low, from its first entry on (`VetoOk.vetos`): a process that holds one lock
  is preemptible, one that holds none is not, and the counter wraps whenever the last lock is
  given back (`vetosRight_iff`).
-/

open Transition Holder

namespace Avos

namespace Tasks

/-! ## Section 1: Inside the Spin Lock Functions -/

section midway

variable {n : Nat} {L : Type*} [DecidableEq L] {i : Instr n L} {k f : List (Instr n L)}
  {fs : List (List (Instr n L))} {v : BitVec 32} {scheduler : Bool} {t : Task n L} {d : Duty n L}

/-- The code stands between the two instructions of `SpinLock_Acquire` or `SpinLock_Release`. -/
def midway : List (Instr n L) → Nat
  | .testAndSet _ :: _ => 1
  | .decrementVeto :: _ => 1
  | _ => 0

/-- How many of the calls on a stack do. -/
def Task.midway (t : Task n L) : Nat := (t.frames.map Tasks.midway).sum

omit [DecidableEq L] in
theorem HeadPlain.midway (h : HeadPlain k) : Tasks.midway k = 0 := by
  cases k with
  | nil => rfl
  | cons i k => cases i <;> first | rfl | exact absurd h not_false

omit [DecidableEq L] in
theorem midway_of_head {j : Instr n L} (hj : k.head? = some j) : midway k = midway [j] := by
  cases k with
  | nil => cases hj
  | cons i k =>
    obtain rfl := Option.some.inj hj
    cases i <;> rfl

/-- The vetos that code gives back are those of the locks that it gives back, and of the lock
    that it is taking or giving back. -/
theorem Disciplined.owes_veto (h : Disciplined scheduler f) :
    owes .veto f = owes .locks f + midway f := by
  induction f with
  | nil => rfl
  | cons i k ih =>
    have hk := ih h.tail
    have hfollows : Follows i k := h.2.2.2.1
    have hplain : HeadPlain k → midway k = 0 := HeadPlain.midway
    rw [owes_cons, owes_cons, hk]
    cases i with
    | incrementVeto =>
      obtain ⟨lock, hlock⟩ := hfollows
      rw [midway_of_head hlock]
      simp [weight, midway]
    | clear lock =>
      have hhead : k.head? = some .decrementVeto := hfollows
      rw [midway_of_head hhead]
      simp [weight, midway]
      omega
    | setWakeupOn alarm =>
      cases alarm with
      | none =>
        rw [hplain hfollows]
        simp [weight, midway]
      | some l =>
        have hhead : k.head? = some (.setAsleep l) := hfollows
        rw [midway_of_head hhead]
        simp [weight, midway]
    | setAsleep l =>
      have hhead : k.head? = some .schedulerReturn := hfollows
      rw [midway_of_head hhead]
      simp [weight, midway]
    | setRunnable =>
      have hhead : k.head? = some .schedulerReturn := hfollows
      rw [midway_of_head hhead]
      simp [weight, midway]
    | setRunning j =>
      have hhead : k.head? = some (.schedulerSwitch j) := hfollows
      rw [midway_of_head hhead]
      simp [weight, midway]
    | schedulerReturn =>
      rw [hplain hfollows.2]
      simp [weight, midway]
    | schedulerSwitch j =>
      rw [hplain hfollows.2]
      simp [weight, midway]
    | ifPreempt =>
      rw [hplain hfollows.2]
      simp [weight, midway]
    | ifRunnable j =>
      rw [hplain hfollows.2]
      simp [weight, midway]
    | decrementVeto =>
      rw [hplain hfollows]
      simp [weight, midway]
      omega
    | _ =>
      rw [hplain hfollows]
      simp [weight, midway]

theorem Task.Disciplined.owes_veto (h : t.Disciplined scheduler) :
    t.owes .veto = t.owes .locks + t.midway := by
  obtain ⟨frames, v⟩ := t
  induction frames with
  | nil => rfl
  | cons f fs ih =>
    have hf := (h f List.mem_cons_self).owes_veto
    have hfs := ih fun g hg => h g (List.mem_cons_of_mem _ hg)
    simp only [owes_mk_cons, Task.midway, List.map_cons, List.sum_cons] at hfs ⊢
    omega

end midway

/-! ## Section 2: How Many Vetos a Stack Has -/

section low

variable {n : Nat} {L : Type*} [DecidableEq L] {i : Instr n L} {k k' f : List (Instr n L)}
  {fs : List (List (Instr n L))} {v : BitVec 32} {m m' : Int} {j : Fin n} {l : L}

/-- The vetos that an instruction may come to have while it is carried out. -/
def Instr.peak : Instr n L → Int
  | .ifPreemptible => 1
  | .processInitialize _ => 1
  | .pagingClone _ => 1
  | .nextProcess _ => 1
  | _ => 0

/-- The code never has more than `m` vetos. -/
def Low (m : Int) : List (Instr n L) → Prop
  | [] => 0 ≤ m
  | i :: k => owes .veto (i :: k) ≤ m ∧ i.peak + owes .veto k ≤ m ∧ Low m k

attribute [local simp] weight Instr.peak Low

theorem Low.owes_le (h : Low m f) : owes .veto f ≤ m := by
  cases f with
  | nil => exact h
  | cons i k => exact h.1

/-- Code in front of other code. -/
theorem Low.append (h : Low m' k) (hk : Low m k') (hm : m' + owes .veto k' ≤ m) :
    Low m (k ++ k') := by
  induction k with
  | nil => exact hk
  | cons i k ih =>
    obtain ⟨howes, hpeak, htail⟩ := h
    rw [owes_cons] at howes
    refine ⟨?_, ?_, ih htail⟩
    · show owes .veto (i :: (k ++ k')) ≤ m
      rw [owes_cons, owes_append]
      omega
    · show i.peak + owes .veto (k ++ k') ≤ m
      rw [owes_append]
      omega

theorem low_wait : Low 1 (sleepLockWait l : List (Instr n L)) := by
  simp [sleepLockWait, spinLockAcquire, spinLockRelease, processSleepOn]

theorem low_take : Low 1 (sleepLockTake l : List (Instr n L)) := by
  simp [sleepLockTake, spinLockRelease]

theorem low_preempt : Low 1 (processPreempt : List (Instr n L)) := by
  simp [processPreempt, spinLockAcquire, spinLockRelease]

theorem low_fork : Low 1 (forkSucceeds j : List (Instr n L)) ∧
    Low 1 (forkFails j : List (Instr n L)) := by
  simp [forkSucceeds, forkFails, spinLockAcquire, spinLockRelease]

theorem low_round : Low 1 (scheduleRound j : List (Instr n L)) := by
  simp [scheduleRound, spinLockAcquire, spinLockRelease]

theorem low_release : Low 2 (sleepLockRelease l : List (Instr n L)) := by
  have hscan : ∀ (slots : List (Fin n)) (k : List (Instr n L)), Low 2 k →
      Low 2 (slots.map (.raiseAlarm l) ++ k) ∧
        owes .veto (slots.map (.raiseAlarm l) ++ k) = owes .veto k := by
    intro slots k hk
    induction slots with
    | nil => exact ⟨hk, rfl⟩
    | cons j slots ih =>
      have hcons : owes .veto (.raiseAlarm l j :: (slots.map (.raiseAlarm l) ++ k)) =
          owes .veto k := by
        rw [owes_cons, ih.2]
        exact Int.zero_add _
      rw [List.map_cons, List.cons_append]
      refine ⟨⟨?_, ?_, ih.1⟩, hcons⟩
      · rw [hcons]
        exact hk.owes_le
      · rw [ih.2]
        exact (Int.zero_add _).trans_le hk.owes_le
  have hend : Low 2 (spinLockRelease .process ++ spinLockRelease (.access l) :
      List (Instr n L)) := by
    simp [spinLockRelease]
  obtain ⟨hlow, howes⟩ := hscan (List.finRange n) _ hend
  have hcode : (sleepLockRelease l : List (Instr n L)) =
      .incrementVeto :: .testAndSet (.access l) :: .clearLocked l :: .incrementVeto ::
        .testAndSet .process :: ((List.finRange n).map (.raiseAlarm l) ++
          (spinLockRelease .process ++ spinLockRelease (.access l))) := by
    simp [sleepLockRelease, spinLockAcquire, schedulerRaiseAlarm]
  rw [hcode]
  generalize (List.finRange n).map (.raiseAlarm l) ++
    (spinLockRelease .process ++ spinLockRelease (.access l)) = tail at hlow howes ⊢
  simp [spinLockRelease] at howes
  simp [howes, hlow]

variable [NeZero n] {Cpu : Type*} {s : State n Cpu L} {c : Cpu} {b : Bool}

/-- The outcome of an instruction stays below the same bound. -/
theorem Low.outcome (h : Low m (i :: k)) : Low m (s.outcomeCode c b i ++ k) := by
  obtain ⟨howes, hpeak, hk⟩ := h
  rw [owes_cons] at howes
  cases i with
  | testAndSet lock =>
    rw [State.outcomeCode]
    split
    · exact ⟨by rwa [owes_cons], hpeak, hk⟩
    · exact hk
  | whileLocked lock =>
    rw [State.outcomeCode]
    split
    · exact low_wait.append hk howes
    · exact low_take.append hk howes
  | ifPreemptible =>
    rw [State.outcomeCode]
    split
    · exact low_preempt.append hk hpeak
    · exact hk
  | ifPreempt =>
    rw [State.outcomeCode]
    split
    · have hlow : Low 0 ([.setRunnable, .schedulerReturn] : List (Instr n L)) := by
        simp
      exact hlow.append hk hpeak
    · exact hk
  | book slots =>
    cases slots with
    | nil =>
      have hlow : Low 1 (spinLockRelease .process ++ schedulerBook : List (Instr n L)) := by
        simp [spinLockRelease, schedulerBook, spinLockAcquire]
      exact hlow.append hk howes
    | cons j slots =>
      rw [State.outcomeCode]
      split
      · have hlow : Low 1 (spinLockRelease .process ++ [.processInitialize j] :
            List (Instr n L)) := by
          simp [spinLockRelease]
        exact hlow.append hk howes
      · refine ⟨?_, hpeak, hk⟩
        show owes .veto (.book slots :: k) ≤ m
        rw [owes_cons]
        exact howes
  | processInitialize j =>
    rw [State.outcomeCode]
    split
    · refine ⟨?_, hpeak, hk⟩
      show owes .veto (.pagingClone j :: k) ≤ m
      rw [owes_cons]
      exact howes
    · exact low_fork.2.append hk hpeak
  | pagingClone j =>
    rw [State.outcomeCode]
    split
    · exact low_fork.1.append hk hpeak
    · exact low_fork.2.append hk hpeak
  | ifRunnable j =>
    rw [State.outcomeCode]
    split
    · have hlow : Low 0 ([.setRunning j, .schedulerSwitch j] : List (Instr n L)) := by
        simp
      exact hlow.append hk hpeak
    · exact hk
  | nextProcess j => exact low_round.append hk hpeak
  | _ => exact hk

/-- A preemption runs only on a stack that had one veto, and takes one more. -/
def Stacked : List (List (Instr n L)) → Prop
  | [] => True
  | f :: fs => Stacked fs ∧ (fs = [] ∧ Low 2 f ∨ f = [] ∨ f = [.ifPreemptible] ∨
      Low 1 f ∧ (⟨fs, 0⟩ : Task n L).owes .veto = 1)

omit [NeZero n] in
theorem Stacked.owes_le (h : Stacked fs) : (⟨fs, v⟩ : Task n L).owes .veto ≤ 2 := by
  induction fs with
  | nil =>
    rw [owes_mk_nil]
    decide
  | cons f fs ih =>
    obtain ⟨hfs, hf⟩ := h
    rw [owes_mk_cons]
    rcases hf with ⟨rfl, hlow⟩ | rfl | rfl | ⟨hlow, hone⟩
    · rw [owes_mk_nil, Int.add_zero]
      exact hlow.owes_le
    · rw [owes_nil, Int.zero_add]
      exact ih hfs
    · simpa using ih hfs
    · have hf := hlow.owes_le
      have hsame : (⟨fs, v⟩ : Task n L).owes .veto = (⟨fs, 0⟩ : Task n L).owes .veto := rfl
      omega

/-- The stack after an instruction. -/
theorem Stacked.outcome (h : Stacked ((i :: k) :: fs))
    (hveto : (s.current c).vetos = 0 →
      (⟨(i :: k) :: fs, 0⟩ : Task n L).owes .veto = 1) :
    Stacked ((s.outcomeCode c b i ++ k) :: fs) := by
  obtain ⟨hfs, hf⟩ := h
  refine ⟨hfs, ?_⟩
  rcases hf with ⟨hnil, hlow⟩ | hnil | hif | ⟨hlow, hone⟩
  · exact .inl ⟨hnil, hlow.outcome⟩
  · cases hnil
  · obtain ⟨rfl, rfl⟩ := List.cons.inj hif
    rw [State.outcomeCode]
    split
    · next hzero =>
      refine .inr (.inr (.inr ⟨?_, ?_⟩))
      · rw [List.append_nil]
        exact low_preempt
      · simpa using hveto hzero
    · exact .inr (.inl rfl)
  · exact .inr (.inr (.inr ⟨hlow.outcome, hone⟩))

end low

/-! ## Section 3: The Counter -/

namespace State

section counter

variable {n : Nat} [NeZero n] {Cpu L : Type*} [DecidableEq Cpu] [DecidableEq L]
  {s : State n Cpu L} {c c' : Cpu} {b : Bool} {i : Instr n L} {k f : List (Instr n L)}
  {fs : List (List (Instr n L))} {p q j : Fin n} {l : L}

theorem exec_accessHeld : (s.exec c b i k fs).accessHeld q =
    match i with
    | .testAndSet lock =>
        if s.running c = some q ∧ s.flag lock = false then accessAfter (s.accessHeld q) lock .take
        else s.accessHeld q
    | .clear lock =>
        if s.running c = some q then accessAfter (s.accessHeld q) lock .release
        else s.accessHeld q
    | _ => s.accessHeld q := by
  have hset : ∀ t, (s.setCurrent c t).accessHeld = s.accessHeld := fun t => by
    unfold setCurrent
    split <;> rfl
  rw [exec]
  cases i with
  | processInitialize j =>
    simp only [effect]
    split <;> simp [hset]
  | book slots =>
    simp only [effect]
    split
    · simp [hset]
    · split <;> simp [setStatus, hset]
  | raiseAlarm l j =>
    simp only [effect]
    split <;> simp [setStatus, hset]
  | testAndSet lock =>
    simp only [effect, setCurrent_flag]
    split
    · next htaken => simp [hset, htaken]
    · next hfree =>
      by_cases hrun : s.running c = some q
      · simp [record, hset, hrun, hfree]
      · simp [record, hset, hrun, Ne.symm hrun]
  | schedulerReturn => simp [effect, record, accessAfter, hset]
  | schedulerSwitch j => simp [effect, record, accessAfter, hset]
  | clear lock => simp [effect, record, hset, eq_comm]
  | _ => simp [effect, setStatus, hset]

/-- The invariant. The counter of a process is one below the vetos that its code gives back
    (`vetos`); the access locks that it has taken are those that its code releases (`count`), and
    with `Process_lock` they are all (`locks`). -/
structure VetoOk (s : State n Cpu L) : Prop where
  vetos : ∀ p, s.status p ≠ .idle → s.status p ≠ .booked →
    (s.process p).vetos = BitVec.ofInt 32 ((s.process p).owes .veto - 1)
  count : ∀ p l, ((s.accessHeld p).count l : Int) = (s.process p).owes (.spin (.access l))
  locks : ∀ p, (s.process p).owes .locks =
    (s.process p).owes (.spin .process) + (s.accessHeld p).length
  stacked : ∀ p, Stacked (s.process p).frames

omit [NeZero n] [DecidableEq Cpu] in
theorem vetosAfter_eq (v : BitVec 32) (i : Instr n L) :
    vetosAfter v i = v + BitVec.ofInt 32 (s.gain .veto i) := by
  cases i with
  | decrementVeto => exact BitVec.sub_eq_add_neg v 1
  | incrementVeto => rfl
  | _ => exact (BitVec.add_zero v).symm

/-- An instruction of the scheduler. -/
theorem VetoOk.exec_scheduler (h : s.VetoOk) (hands : s.HandsOver) (hcode : s.CodeOk)
    (hframes : (s.current c).frames = (i :: k) :: fs) (hrun : s.running c = none)
    (hside : i.InScheduler true) : (s.exec c b i k fs).VetoOk := by
  have hprocess : ∀ q, (s.exec c b i k fs).process q = s.process q := by
    intro q
    refine exec_process_of_ne (by simp [hrun]) ?_
    rintro rfl
    exact absurd hside (by simp [Instr.InScheduler])
  have haccess : ∀ q, (s.exec c b i k fs).accessHeld q = s.accessHeld q := by
    intro q
    rw [exec_accessHeld]
    cases i <;> simp [hrun]
  refine ⟨fun q hidle hbooked => ?_, fun q l => ?_, fun q => ?_, fun q => ?_⟩
  · rw [hprocess]
    rcases hands.live_of_exec hcode hframes hidle hbooked with ⟨hidle, hbooked⟩ | rfl
    · exact h.vetos q hidle hbooked
    · exact absurd hside (by simp [Instr.InScheduler])
  · rw [hprocess, haccess]
    exact h.count q l
  · rw [hprocess, haccess]
    exact h.locks q
  · rw [hprocess]
    exact h.stacked q

omit [NeZero n] [DecidableEq Cpu] in
theorem VetoOk.owes_nonneg (h : s.VetoOk) (hcode : s.CodeOk) :
    0 ≤ (s.process p).owes .veto := by
  have hdis := hcode.process p
  have hspin : 0 ≤ (s.process p).owes (.spin .process) := hdis.owes_nonneg
  have hlocks := h.locks p
  have hveto := hdis.owes_veto
  omega

omit [NeZero n] [DecidableEq Cpu] in
/-- The counter is zero when one veto is to be given back. -/
theorem VetoOk.vetos_eq_zero_iff (h : s.VetoOk) (hands : s.HandsOver) (hcode : s.CodeOk)
    (hrun : s.running c = some p) :
    (s.process p).vetos = 0 ↔ (s.process p).owes .veto = 1 := by
  have hnot := hands.not_booked hrun
  have hle : (s.process p).owes .veto ≤ 2 := (h.stacked p).owes_le
  have hnonneg := h.owes_nonneg (p := p) hcode
  rw [h.vetos p hnot.2 hnot.1]
  generalize (s.process p).owes .veto = w at hle hnonneg ⊢
  obtain rfl | rfl | rfl : w = 0 ∨ w = 1 ∨ w = 2 := by omega
  · decide
  · decide
  · decide

/-- The stack that executes the instruction. -/
theorem VetoOk.exec_self (h : s.VetoOk) (hands : s.HandsOver) (hcode : s.CodeOk)
    (hframes : (s.current c).frames = (i :: k) :: fs) (hrun : s.running c = some p) :
    ((s.exec c b i k fs).process p).vetos =
        BitVec.ofInt 32 (((s.exec c b i k fs).process p).owes .veto - 1) ∧
      (∀ l, (((s.exec c b i k fs).accessHeld p).count l : Int) =
        ((s.exec c b i k fs).process p).owes (.spin (.access l))) ∧
      ((s.exec c b i k fs).process p).owes .locks =
        ((s.exec c b i k fs).process p).owes (.spin .process) +
          ((s.exec c b i k fs).accessHeld p).length ∧
      Stacked ((s.exec c b i k fs).process p).frames := by
  have hnot := hands.not_booked hrun
  have hprocess : (s.exec c b i k fs).process p = s.taskAfter c b i k fs := by
    rw [exec_process, if_neg, if_pos hrun]
    rintro ⟨rfl, -⟩
    exact hnot.1 (hands.booked_of_init hcode hframes)
  have howes : ∀ d, ((s.exec c b i k fs).process p).owes d =
      (s.process p).owes d + s.gain d i := fun d => hands.exec_owes_self hcode hframes hrun
  have hcount := h.count p
  have hlocks := h.locks p
  refine ⟨?_, fun l => ?_, ?_, ?_⟩
  · have hvetos := h.vetos p hnot.2 hnot.1
    have hsum : (s.process p).owes .veto + s.gain .veto i - 1 =
        (s.process p).owes .veto - 1 + s.gain .veto i := by omega
    rw [howes, hprocess, hsum, BitVec.ofInt_add, ← hvetos, ← current_of_some hrun]
    exact vetosAfter_eq _ _
  · rw [howes, ← hcount, exec_accessHeld]
    cases i with
    | testAndSet lock =>
      cases lock with
      | process => simp [accessAfter, gain]
      | access l' =>
        by_cases hfree : s.flag (.access l') = false
        · by_cases hl : l' = l
          · subst hl
            simp [hrun, hfree, accessAfter, gain]
          · simp [hrun, hfree, accessAfter, gain, hl]
        · have htaken : s.flag (.access l') = true := by simpa using hfree
          simp [gain, htaken]
          rintro rfl
          exact htaken
    | clear lock =>
      cases lock with
      | process => simp [accessAfter, gain]
      | access l' =>
        by_cases hl : l' = l
        · subst hl
          have hpos := hcode.clear_owes_pos hframes
          rw [current_of_some hrun, ← hcount] at hpos
          simp [hrun, accessAfter, gain, List.count_erase_self]
          omega
        · simp [hrun, accessAfter, gain, hl, List.count_erase_of_ne (Ne.symm hl)]
    | _ => simp [gain]
  · rw [howes, howes, hlocks, exec_accessHeld]
    cases i with
    | testAndSet lock =>
      by_cases hfree : s.flag lock = false
      · cases lock with
        | process => simp [hrun, hfree, accessAfter, gain]; omega
        | access l' => simp [hrun, hfree, accessAfter, gain]; omega
      · have htaken : s.flag lock = true := by simpa using hfree
        simp [gain, htaken]
        rintro rfl
        exact htaken
    | clear lock =>
      cases lock with
      | process => simp [hrun, accessAfter, gain]; omega
      | access l' =>
        have hpos := hcode.clear_owes_pos hframes
        rw [current_of_some hrun, ← hcount] at hpos
        have hmem : l' ∈ s.accessHeld p := List.count_pos_iff.mp (by omega)
        have hlength := List.length_pos_of_mem hmem
        simp [hrun, accessAfter, gain, List.length_erase_of_mem hmem]
        omega
    | _ => simp [gain]
  · have hstacked := h.stacked p
    rw [← current_of_some hrun, hframes] at hstacked
    rw [hprocess]
    refine hstacked.outcome fun hzero => ?_
    rw [current_of_some hrun, h.vetos_eq_zero_iff hands hcode hrun] at hzero
    rw [← hzero, ← current_of_some hrun, Task.owes, Task.owes, hframes]

/-- An instruction of a process. -/
theorem VetoOk.exec_process (h : s.VetoOk) (hands : s.HandsOver) (hcode : s.CodeOk)
    (hwake : s.WakeOk) (hframes : (s.current c).frames = (i :: k) :: fs)
    (hrun : s.running c = some p) : (s.exec c b i k fs).VetoOk := by
  obtain ⟨hvetos, hcount, hlocks, hstacked⟩ := h.exec_self (b := b) hands hcode hframes hrun
  have haccess : ∀ q, q ≠ p → (s.exec c b i k fs).accessHeld q = s.accessHeld q := by
    intro q hq
    have hne : s.running c ≠ some q := fun hrun' =>
      hq (Option.some.inj (hrun'.symm.trans hrun))
    rw [exec_accessHeld]
    cases i <;> simp [hne]
  -- a slot that gets a new stack has no access lock
  have hnone : ∀ q, i = .processInitialize q → s.accessHeld q = [] := by
    rintro q rfl
    have hbooked := hands.booked_of_init hcode hframes
    have hzero : ∀ l, (s.process q).owes (.spin (.access l)) = 0 := by
      intro l
      rcases hwake.blank q (.inr hbooked) with hempty | hnew
      · rw [Task.owes, hempty]
        rfl
      · rw [hnew, owes_new (d := .spin (.access l)) (by simp) (by simp) (by simp)]
    refine List.eq_nil_iff_forall_not_mem.mpr fun l hl => ?_
    have hpos := List.count_pos_iff.mpr hl
    have hsame := h.count q l
    rw [hzero] at hsame
    omega
  refine ⟨fun q hidle hbooked => ?_, fun q l => ?_, fun q => ?_, fun q => ?_⟩
  · by_cases hq : q = p
    · exact hq ▸ hvetos
    · rcases hands.live_of_exec hcode hframes hidle hbooked with ⟨hidle', hbooked'⟩ | rfl
      · rw [exec_process_of_ne fun hrun' => hq (Option.some.inj (hrun'.symm.trans hrun))]
        · exact h.vetos q hidle' hbooked'
        · rintro rfl
          exact absurd (hands.booked_of_init hcode hframes) hbooked'
      · -- a slot that becomes ready has a new stack
        have hnew : s.process q = .new := by
          rw [current_of_some hrun] at hframes
          exact hands.fresh p _ q (hframes ▸ List.mem_cons_self) (.inr List.mem_cons_self)
        have hne : s.running c ≠ some q := fun hrun' =>
          hq (Option.some.inj (hrun'.symm.trans hrun))
        have hsame : (s.exec c b (.activate q) k fs).process q = s.process q :=
          exec_process_of_ne hne fun hinit => by cases hinit
        rw [hsame, hnew]
        simp [Task.new, processFirstEntry, spinLockRelease, weight]
  · by_cases hq : q = p
    · exact hq ▸ hcount l
    · rw [haccess q hq]
      rcases exec_process_other hrun hq with hsame | ⟨hinit, hnew⟩
      · rw [hsame]
        exact h.count q l
      · rw [hnew, hnone q hinit, owes_new (d := .spin (.access l)) (by simp) (by simp) (by simp)]
        rfl
  · by_cases hq : q = p
    · exact hq ▸ hlocks
    · rw [haccess q hq]
      rcases exec_process_other hrun hq with hsame | ⟨hinit, hnew⟩
      · rw [hsame]
        exact h.locks q
      · rw [hnew, hnone q hinit]
        simp [Task.new, processFirstEntry, spinLockRelease, weight]
  · by_cases hq : q = p
    · exact hq ▸ hstacked
    · rcases exec_process_other hrun hq with hsame | ⟨-, hnew⟩
      · rw [hsame]
        exact h.stacked q
      · rw [hnew]
        refine ⟨trivial, .inl ⟨rfl, ?_⟩⟩
        simp [processFirstEntry, spinLockRelease, Low, weight, Instr.peak]

/-! ## Section 4: Every Run -/

omit [NeZero n] in
/-- A call returns or is made. -/
theorem VetoOk.restack {fs' : List (List (Instr n L))} (h : s.VetoOk)
    (ht : s.Restacks c { s.current c with frames := fs' })
    (hstacked : ∀ p, s.running c = some p → Stacked fs') :
    (s.setCurrent c { s.current c with frames := fs' }).VetoOk := by
  have haccess : (s.setCurrent c { s.current c with frames := fs' }).accessHeld =
      s.accessHeld := by
    unfold setCurrent
    split <;> rfl
  refine ⟨fun q hidle hbooked => ?_, fun q l => ?_, fun q => ?_, fun q => ?_⟩
  · rw [setCurrent_status] at hidle hbooked
    have hvetos := h.vetos q hidle hbooked
    rw [setCurrent_process]
    split
    · next hrun =>
      rw [ht.owes .veto fun _ => by simp]
      rw [current_of_some hrun]
      exact hvetos
    · exact hvetos
  · rw [setCurrent_process, haccess, h.count]
    split
    · next hrun => rw [ht.owes (.spin (.access l)) fun _ => by simp, current_of_some hrun]
    · rfl
  · rw [setCurrent_process, haccess]
    split
    · next hrun =>
      rw [ht.owes .locks fun _ => by simp, ht.owes (.spin .process) fun _ => by simp,
        current_of_some hrun]
      exact h.locks q
    · exact h.locks q
  · rw [setCurrent_process]
    split
    · next hrun => exact hstacked q hrun
    · exact h.stacked q

omit [NeZero n] [DecidableEq Cpu] in
/-- A call is made on an empty stack, an interrupt arrives on any. -/
theorem Pushes.stacked (hf : s.Pushes c p f) (h : Stacked (s.current c).frames) :
    Stacked (f :: (s.current c).frames) := by
  refine ⟨h, ?_⟩
  cases hf with
  | interrupt => exact .inr (.inr (.inl rfl))
  | @call g f hframes hcode =>
    refine .inl ⟨hframes, ?_⟩
    cases g with
    | sleepLockAcquire l =>
      obtain rfl := Option.some.inj hcode
      simp [Tasks.sleepLockAcquire, spinLockAcquire, Low, weight, Instr.peak]
    | sleepLockRelease l =>
      rw [callCode] at hcode
      split at hcode
      · obtain rfl := Option.some.inj hcode
        exact low_release
      · cases hcode
    | processFork =>
      obtain rfl := Option.some.inj hcode
      simp [schedulerBook, spinLockAcquire, Low, weight, Instr.peak]

omit [DecidableEq Cpu] in
theorem vetoOk_init (hs : s.Initial) : s.VetoOk := by
  have hprocess : ∀ p, (s.process p).frames = [] ∨ s.process p = .new := fun p =>
    (hs.process p).imp And.right And.right
  have hnone : ∀ p, (s.process p).frames = [] → ∀ d : Duty n L, (s.process p).owes d = 0 := by
    intro p hframes d
    rw [Task.owes, hframes]
    rfl
  refine ⟨fun p hidle _ => ?_, fun p l => ?_, fun p => ?_, fun p => ?_⟩
  · rcases hs.process p with ⟨hp, -⟩ | ⟨-, hnew⟩
    · exact absurd hp hidle
    · rw [hnew]
      simp [Task.new, processFirstEntry, spinLockRelease, weight]
  · rw [hs.accessHeld]
    rcases hprocess p with hframes | hnew
    · rw [hnone p hframes]
      rfl
    · rw [hnew, owes_new (d := .spin (.access l)) (by simp) (by simp) (by simp)]
      rfl
  · rw [hs.accessHeld]
    rcases hprocess p with hframes | hnew
    · rw [hnone p hframes, hnone p hframes]
      rfl
    · rw [hnew]
      simp [Task.new, processFirstEntry, spinLockRelease, weight]
  · rcases hprocess p with hframes | hnew
    · rw [hframes]
      trivial
    · rw [hnew]
      refine ⟨trivial, .inl ⟨rfl, ?_⟩⟩
      simp [processFirstEntry, spinLockRelease, Low, weight, Instr.peak]

theorem vetoOk_inductive : (tasks n Cpu L).Inductive fun s => s.AllOk ∧ s.VetoOk := by
  refine allOk_inductive.and (fun s hs => vetoOk_init hs) ?_
  rintro s a s' ⟨⟨hcode, hands⟩, hwake⟩ h hs
  obtain ⟨c, b, i, k, fs, -, hframes, rfl⟩ | ⟨c, fs, hframes, rfl⟩ |
    ⟨c, p, f, hrun, hpush, rfl⟩ | ⟨j, hasleep, rfl⟩ := next_cases hs
  · rcases hcode.side hframes with ⟨hrun, hside⟩ | ⟨p, hrun, -⟩
    · exact h.exec_scheduler hands hcode hframes hrun hside
    · exact h.exec_process hands hcode hwake hframes hrun
  · refine h.restack (restacks_return hframes) fun p hrun => ?_
    have hstacked := h.stacked p
    rw [← current_of_some hrun, hframes] at hstacked
    exact hstacked.1
  · refine h.restack (restacks_push hrun hpush) fun q hrun' => hpush.stacked ?_
    rw [current_of_some hrun']
    exact h.stacked q
  · have hstatus : ∀ q, (s.setStatus j .runnable).status q =
        if q = j then .runnable else s.status q := fun q => Function.update_apply _ _ _ _
    refine ⟨fun q hidle hbooked => ?_, h.count, h.locks, h.stacked⟩
    rw [hstatus] at hidle hbooked
    split at hidle
    · next hq =>
      subst hq
      exact h.vetos q (by rw [hasleep]; decide) (by rw [hasleep]; decide)
    · next hq =>
      rw [if_neg hq] at hbooked
      exact h.vetos q hidle hbooked

end counter

/-! ## Section 5: What the Counter Says -/

section property

variable {n : Nat} {Cpu L : Type*}

instance (s : State n Cpu L) (c : Cpu) : Decidable (s.HoldsProcessLock c) :=
  inferInstanceAs (Decidable (_ ∨ _))

/-- The spin locks that CPU `c` holds while it executes process `p`: `Process_lock`, which may
    have come with the switch, and the access locks that the process has taken. -/
def spinLocks (s : State n Cpu L) (c : Cpu) (p : Fin n) : Nat :=
  (if s.HoldsProcessLock c then 1 else 0) + (s.accessHeld p).length

/-- Process `p` decrements its counter next. -/
def Decrements (s : State n Cpu L) (p : Fin n) : Prop :=
  ∃ k fs, (s.process p).frames = (.decrementVeto :: k) :: fs

/-- `STATE_PREEMPTIBLE()` is true for a process that executes in the kernel exactly when its CPU
    holds no spin lock, and the counter does not wrap below zero. -/
structure VetosRight (s : State n Cpu L) (c : Cpu) (p : Fin n) : Prop where
  preemptible : (s.process p).vetos = 0 ↔ s.spinLocks c p = 0
  noWrap : s.Decrements p → (s.process p).vetos ≠ 0

/-- The process holds a spin lock, and another one that it holds, waits for or gives back; or it
    holds none, and takes exactly one. -/
def VetosMatch (s : State n Cpu L) (c : Cpu) (p : Fin n) : Prop :=
  0 < s.spinLocks c p ∧ 2 ≤ s.spinLocks c p + (s.process p).midway ∨
    s.spinLocks c p = 0 ∧ (s.process p).midway = 1 ∧ ¬s.Decrements p

end property

section runs

variable {n : Nat} [NeZero n] {Cpu L : Type*} [DecidableEq Cpu] [DecidableEq L]
  {s : State n Cpu L} {c : Cpu} {p : Fin n}

omit [NeZero n] [DecidableEq Cpu] in
theorem VetoOk.locks_eq (h : s.VetoOk) (hands : s.HandsOver) (hrun : s.running c = some p) :
    (s.process p).owes .locks = s.spinLocks c p := by
  obtain ⟨φ, hφ, howes, -⟩ := hands.phase c
  have hheld : φ.held = if s.HoldsProcessLock c then 1 else 0 := by
    cases φ <;> simp [HoldsProcessLock, hφ, LockPhase.held]
  rw [h.locks, spinLocks, ← current_of_some hrun, howes, hheld]
  split <;> simp

/-- The counter is right for a process that executes exactly when its locks make up for the one
    that was never counted. -/
theorem vetosRight_iff (h : (tasks n Cpu L).Reachable s) (hrun : s.running c = some p) :
    s.VetosRight c p ↔ s.VetosMatch c p := by
  obtain ⟨⟨⟨hcode, hands⟩, -⟩, hvetos⟩ := vetoOk_inductive.reachable h
  have hzero := hvetos.vetos_eq_zero_iff hands hcode hrun
  have hveto := (hcode.process p).owes_veto
  rw [hvetos.locks_eq hands hrun] at hveto
  rw [hveto] at hzero
  constructor
  · rintro ⟨hpreempt, hwrap⟩
    rw [hzero] at hpreempt
    rcases Nat.eq_zero_or_pos (s.spinLocks c p) with hnone | hsome
    · have hone := hpreempt.mpr hnone
      refine .inr ⟨hnone, by omega, fun hdec => ?_⟩
      exact hwrap hdec (hzero.mpr hone)
    · have hne : ¬((s.spinLocks c p : Int) + (s.process p).midway = 1) := fun hone => by
        have := hpreempt.mp hone
        omega
      exact .inl ⟨hsome, by omega⟩
  · rintro (⟨hsome, htwo⟩ | ⟨hnone, hone, hdec⟩)
    · refine ⟨?_, fun _ => ?_⟩
      · rw [hzero]
        omega
      · rw [Ne, hzero]
        omega
    · refine ⟨?_, fun hdec' => absurd hdec' hdec⟩
      rw [hzero]
      omega

end runs

/-- The first CPU enters the first process, and then an interrupt arrives. -/
def untilInterrupt : List (Action 2 Bool Unit) :=
  List.replicate 8 (.step false true) ++ [.interrupt false]

/-- The process holds no lock, and the counter has wrapped. -/
theorem run_untilInterrupt : ∃ s, bothReady.run untilInterrupt = some s ∧
    s.running false = some 0 ∧ (s.process 0).frames = [[.ifPreemptible]] ∧
      s.spinLocks false 0 = 0 ∧ (s.process 0).vetos = 0xFFFFFFFF := by
  have hrun : (bothReady.run untilInterrupt).map (fun s => (s.running false, (s.process 0).frames,
      s.spinLocks false 0, (s.process 0).vetos)) =
        some (some 0, [[.ifPreemptible]], 0, 0xFFFFFFFF) := by
    decide +kernel
  obtain ⟨s, hs, hall⟩ := Option.map_eq_some_iff.mp hrun
  obtain ⟨hrunning, hall⟩ := Prod.mk.inj hall
  obtain ⟨hframes, hall⟩ := Prod.mk.inj hall
  obtain ⟨hlocks, hvetos⟩ := Prod.mk.inj hall
  exact ⟨s, hs, hrunning, hframes, hlocks, hvetos⟩

/-- It can not be preempted in the kernel, although it holds no lock. -/
theorem not_forall_vetosRight : ¬∀ s, (tasks 2 Bool Unit).Reachable s → ∀ c p,
    s.running c = some p → (s.process p).frames ≠ [] → s.VetosRight c p := by
  obtain ⟨s, hs, hrun, hframes, hlocks, hvetos⟩ := run_untilInterrupt
  intro h
  have hright := h s (reachable_run initial_bothReady hs) false 0 hrun (by rw [hframes]; nofun)
  have hzero := hright.preemptible.mpr hlocks
  rw [hvetos] at hzero
  exact absurd hzero (by decide)

theorem vetosRight_iff_untilInterrupt : ∃ s, bothReady.run untilInterrupt = some s ∧
    s.running false = some 0 ∧ (s.VetosRight false 0 ↔ s.VetosMatch false 0) := by
  obtain ⟨s, hs, hrun, -⟩ := run_untilInterrupt
  exact ⟨s, hs, hrun, vetosRight_iff (reachable_run initial_bothReady hs) hrun⟩

end State

end Tasks

end Avos
