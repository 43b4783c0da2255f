import Avos.Taskmaster.TaskCode

/-! # The Steps of the CPUs

  What one step changes and what it leaves alone, field by field, and what a stack holds before
  and after it. In every state that is reached all code is disciplined (`codeOk_inductive`).
-/

open Transition

namespace Avos

namespace Tasks

namespace State

/-! ## Section 1: What a Step Leaves Alone -/

section frame

variable {n : Nat} {Cpu L : Type*} [DecidableEq Cpu] {s : State n Cpu L} {c c' : Cpu} {b : Bool}
  {i : Instr n L} {k : List (Instr n L)} {fs : List (List (Instr n L))} {t : Task n L}
  {p q : Fin n} {o : Option (Fin n)}

@[simp] theorem setCurrent_flag : (s.setCurrent c t).flag = s.flag := by
  unfold setCurrent
  split <;> rfl

@[simp] theorem setCurrent_locked : (s.setCurrent c t).locked = s.locked := by
  unfold setCurrent
  split <;> rfl

@[simp] theorem setCurrent_status : (s.setCurrent c t).status = s.status := by
  unfold setCurrent
  split <;> rfl

@[simp] theorem setCurrent_wakeupOn : (s.setCurrent c t).wakeupOn = s.wakeupOn := by
  unfold setCurrent
  split <;> rfl

@[simp] theorem setCurrent_running : (s.setCurrent c t).running = s.running := by
  unfold setCurrent
  split <;> rfl

@[simp] theorem setCurrent_holds : (s.setCurrent c t).holds = s.holds := by
  unfold setCurrent
  split <;> rfl

@[simp] theorem setCurrent_events : (s.setCurrent c t).events = s.events := by
  unfold setCurrent
  split <;> rfl

theorem setCurrent_process :
    (s.setCurrent c t).process q = if s.running c = some q then t else s.process q := by
  unfold setCurrent
  split
  · next hrun => simp [hrun]
  · next p hrun => simp [hrun, Function.update_apply, eq_comm]

theorem setCurrent_scheduler :
    (s.setCurrent c t).scheduler c' =
      if c' = c ∧ s.running c = none then t else s.scheduler c' := by
  unfold setCurrent
  split
  · next hrun => simp [hrun, Function.update_apply]
  · next p hrun => simp [hrun]

variable [NeZero n] [DecidableEq L]

theorem exec_process : (s.exec c b i k fs).process q =
    if i = .processInitialize q ∧ b then .new
    else if s.running c = some q then s.taskAfter c b i k fs else s.process q := by
  rw [← setCurrent_process, exec]
  cases i with
  | processInitialize j =>
    rw [effect]
    cases b <;> simp [Function.update_apply, eq_comm]
  | book slots =>
    simp only [effect]
    split
    · rfl
    · split <;> rfl
  | raiseAlarm l j =>
    simp only [effect]
    split <;> simp [setStatus]
  | testAndSet lock =>
    simp only [effect]
    split <;> simp [record]
  | _ => simp [effect, setStatus, record]

theorem exec_scheduler : (s.exec c b i k fs).scheduler c' =
    if c' = c ∧ s.running c = none then s.taskAfter c b i k fs else s.scheduler c' := by
  rw [← setCurrent_scheduler, exec]
  cases i with
  | processInitialize j =>
    rw [effect]
    split <;> rfl
  | book slots =>
    simp only [effect]
    split
    · rfl
    · split <;> rfl
  | raiseAlarm l j =>
    simp only [effect]
    split <;> simp [setStatus]
  | testAndSet lock =>
    simp only [effect]
    split <;> simp [record]
  | _ => simp [effect, setStatus, record]

theorem exec_running : (s.exec c b i k fs).running =
    match i with
    | .schedulerReturn => Function.update s.running c none
    | .schedulerSwitch j => Function.update s.running c (some j)
    | _ => s.running := by
  rw [exec]
  cases i with
  | processInitialize j =>
    rw [effect]
    split <;> simp
  | book slots =>
    simp only [effect]
    split
    · simp
    · split <;> simp [setStatus]
  | raiseAlarm l j =>
    simp only [effect]
    split <;> simp [setStatus]
  | testAndSet lock =>
    simp only [effect]
    split <;> simp [record]
  | _ => simp [effect, setStatus, record]

theorem exec_status : (s.exec c b i k fs).status q =
    match i with
    | .setAsleep _ => if s.running c = some q then .asleep else s.status q
    | .setRunnable => if s.running c = some q then .runnable else s.status q
    | .raiseAlarm l j =>
        if q = j ∧ s.status j = .asleep ∧ s.wakeupOn j = some l then .runnable else s.status q
    | .book slots =>
        if slots.head? = some q ∧ s.status q = .idle then .booked else s.status q
    | .activate j => if q = j then .runnable else s.status q
    | .giveBack j => if q = j then .idle else s.status q
    | .setRunning j => if q = j then .running else s.status q
    | _ => s.status q := by
  rw [exec]
  cases i with
  | processInitialize j =>
    simp only [effect]
    split <;> simp
  | book slots =>
    cases slots with
    | nil => simp [effect]
    | cons j slots =>
      simp only [effect, List.head?_cons, Option.some.injEq, setCurrent_status]
      split <;> simp [setStatus, Function.update_apply] <;> grind
  | raiseAlarm l j =>
    simp only [effect, setCurrent_status, setCurrent_wakeupOn]
    split <;> simp_all [setStatus, Function.update_apply]
  | testAndSet lock =>
    simp only [effect]
    split <;> simp [record]
  | _ => simp [effect, setStatus, record, Function.update_apply, eq_comm]

theorem exec_flag {lock : SpinLock L} : (s.exec c b i k fs).flag lock =
    match i with
    | .testAndSet lock' => if lock = lock' then true else s.flag lock
    | .clear lock' => if lock = lock' then false else s.flag lock
    | _ => s.flag lock := by
  rw [exec]
  cases i with
  | processInitialize j =>
    simp only [effect]
    split <;> simp
  | book slots =>
    simp only [effect]
    split
    · simp
    · split <;> simp [setStatus]
  | raiseAlarm l j =>
    simp only [effect]
    split <;> simp [setStatus]
  | testAndSet lock' =>
    simp only [effect]
    split <;> simp_all [record, Function.update_apply]
  | _ => simp [effect, setStatus, record, Function.update_apply]

theorem exec_events : (s.exec c b i k fs).events c' =
    match i with
    | .testAndSet lock =>
        if c' = c ∧ lock = .process ∧ s.flag lock = false then .take :: s.events c'
        else s.events c'
    | .clear lock =>
        if c' = c ∧ lock = .process then .release :: s.events c' else s.events c'
    | .schedulerReturn => if c' = c then .switch :: s.events c' else s.events c'
    | .schedulerSwitch _ => if c' = c then .switch :: s.events c' else s.events c'
    | _ => s.events c' := by
  rw [exec]
  cases i with
  | processInitialize j =>
    simp only [effect]
    split <;> simp
  | book slots =>
    simp only [effect]
    split
    · simp
    · split <;> simp [setStatus]
  | raiseAlarm l j =>
    simp only [effect]
    split <;> simp [setStatus]
  | testAndSet lock' =>
    simp only [effect]
    split <;> simp_all [record]
  | _ => simp [effect, setStatus, record]

/-- The statuses and the CPUs' processes are changed under `Process_lock`. -/
theorem exec_of_needs (hi : i.needs ≠ some .process) :
    (s.exec c b i k fs).status = s.status ∧ (s.exec c b i k fs).running = s.running := by
  constructor
  · funext q
    rw [exec_status]
    cases i <;> simp_all [Instr.needs]
  · rw [exec_running]
    cases i <;> simp_all [Instr.needs]

end frame

end State

/-! ## Section 2: Stacks -/

section tasks

variable {n : Nat} {L : Type*} [DecidableEq L]

/-- What the calls on a stack owe. -/
def Task.owes (t : Task n L) (d : Duty n L) : Int := (t.frames.map (Tasks.owes d)).sum

def Task.Disciplined (t : Task n L) (scheduler : Bool) : Prop :=
  ∀ f ∈ t.frames, Tasks.Disciplined scheduler f

/-- No call on the stack can switch before `Process_lock` is released or waited for. -/
def Task.NoSwitch (t : Task n L) : Prop := ∀ f ∈ t.frames, Tasks.NoSwitch f

/-- A call on the stack goes into `KContext_Switch` next. -/
def Task.Leaves (t : Task n L) : Prop := ∃ f ∈ t.frames, f.head? = some .schedulerReturn

/-- A stack that was switched from: when it is resumed it releases `Process_lock`. -/
def Task.Resumable (t : Task n L) : Prop := t.owes (.spin .process) = 1 ∧ t.NoSwitch

variable {t : Task n L} {d : Duty n L} {f : List (Instr n L)} {fs : List (List (Instr n L))}
  {v : BitVec 32} {scheduler : Bool} {lock : SpinLock L} {i : Instr n L} {k : List (Instr n L)}

@[simp] theorem owes_mk_nil : (⟨[], v⟩ : Task n L).owes d = 0 := rfl

@[simp] theorem owes_mk_cons :
    (⟨f :: fs, v⟩ : Task n L).owes d = Tasks.owes d f + (⟨fs, v⟩ : Task n L).owes d :=
  List.sum_cons

theorem owes_of_frames (h : t.frames = f :: fs) :
    t.owes d = Tasks.owes d f + (⟨fs, v⟩ : Task n L).owes d := by
  rw [Task.owes, h]
  exact List.sum_cons

theorem Task.Disciplined.owes_nonneg (h : t.Disciplined scheduler) :
    0 ≤ t.owes (.spin lock) := by
  obtain ⟨frames, v⟩ := t
  induction frames with
  | nil => exact Int.le_refl 0
  | cons f fs ih =>
    have hf : 0 ≤ Tasks.owes (.spin lock) f := (h f List.mem_cons_self).owes_nonneg
    have hfs := ih fun g hg => h g (List.mem_cons_of_mem _ hg)
    rw [owes_mk_cons]
    omega

/-- What one call holds the stack holds. -/
theorem Task.Disciplined.owes_le (h : t.Disciplined scheduler) (hf : f ∈ t.frames) :
    Tasks.owes (.spin lock) f ≤ t.owes (.spin lock) := by
  obtain ⟨frames, v⟩ := t
  induction frames with
  | nil => exact absurd hf List.not_mem_nil
  | cons g fs ih =>
    have hg : 0 ≤ Tasks.owes (.spin lock) g := (h g List.mem_cons_self).owes_nonneg
    have hrest : (⟨fs, v⟩ : Task n L).Disciplined scheduler := fun g hg =>
      h g (List.mem_cons_of_mem _ hg)
    have hfs : 0 ≤ (⟨fs, v⟩ : Task n L).owes (.spin lock) := hrest.owes_nonneg
    rw [owes_mk_cons]
    rcases List.mem_cons.mp hf with rfl | hf
    · omega
    · have := ih hrest hf
      omega

/-- When a call holds the one lock, the calls below it do not. -/
theorem Task.Disciplined.owes_eq_zero (h : (⟨f :: fs, v⟩ : Task n L).Disciplined scheduler)
    (hone : (⟨f :: fs, v⟩ : Task n L).owes (.spin lock) ≤ 1) (hf : 0 < Tasks.owes (.spin lock) f) :
    ∀ g ∈ fs, Tasks.owes (.spin lock) g = 0 := by
  intro g hg
  have hrest : (⟨fs, v⟩ : Task n L).Disciplined scheduler := fun g hg =>
    h g (List.mem_cons_of_mem _ hg)
  have hle : Tasks.owes (.spin lock) g ≤ _ := hrest.owes_le hg
  have hnonneg : 0 ≤ Tasks.owes (.spin lock) g := (hrest g hg).owes_nonneg
  rw [owes_mk_cons] at hone
  omega

theorem Duty.Kept.task_owes_nonneg (h : d.Kept) : 0 ≤ t.owes d := by
  obtain ⟨frames, v⟩ := t
  induction frames with
  | nil => exact Int.le_refl 0
  | cons f fs ih =>
    have := h.owes_nonneg (k := f)
    rw [owes_mk_cons]
    omega

theorem Duty.Kept.task_owes_pos (h : d.Kept) (hf : f ∈ t.frames) (hi : i ∈ f)
    (hpos : 0 < weight d i) : 0 < t.owes d := by
  obtain ⟨frames, v⟩ := t
  obtain ⟨fs₁, fs₂, rfl⟩ := List.append_of_mem hf
  have hf := h.owes_pos hi hpos
  have h₁ := h.task_owes_nonneg (t := ⟨fs₁, v⟩)
  have h₂ := h.task_owes_nonneg (t := ⟨fs₂, v⟩)
  simp only [Task.owes, List.map_append, List.map_cons, List.sum_append, List.sum_cons] at h₁ h₂ ⊢
  omega

/-- A stack that switches is resumable afterwards. -/
theorem resumable_of_switch (h : (⟨(i :: k) :: fs, v⟩ : Task n L).Disciplined scheduler)
    (hone : (⟨(i :: k) :: fs, v⟩ : Task n L).owes (.spin .process) = 1)
    (hneeds : i.needs = some .process) (hweight : weight (.spin .process) i = 0)
    (hk : Releases k) : (⟨k :: fs, v⟩ : Task n L).Resumable := by
  have hpos := (h _ List.mem_cons_self).owes_pos hneeds
  have hzero := h.owes_eq_zero (Int.le_of_eq hone) hpos
  refine ⟨?_, fun f hf => ?_⟩
  · rw [owes_mk_cons, owes_cons, hweight] at hone
    rw [owes_mk_cons]
    omega
  · rcases List.mem_cons.mp hf with rfl | hf
    · exact hk.noSwitch
    · exact (h f (List.mem_cons_of_mem _ hf)).noSwitch (hzero f hf)

theorem resumable_new : (Task.new : Task n L).Resumable := by
  refine ⟨by simp [Task.new, processFirstEntry, spinLockRelease, weight], fun f hf => ?_⟩
  obtain rfl := List.mem_singleton.mp hf
  trivial

theorem disciplined_new : (Task.new : Task n L).Disciplined false := by
  intro f hf
  obtain rfl := List.mem_singleton.mp hf
  exact disciplined_spinLockRelease

/-- The code of a call that has just been made. -/
structure Starts (f : List (Instr n L)) : Prop where
  disciplined : Tasks.Disciplined false f
  owes : ∀ d, (∀ l, d ≠ .clearLocked l) → Tasks.owes d f = 0
  head : f.head? = some .incrementVeto ∨ f.head? = some .ifPreemptible

theorem Starts.noSwitch (h : Starts f) : Tasks.NoSwitch f :=
  h.disciplined.noSwitch (h.owes _ fun _ => nofun)

end tasks
/-! ## Section 3: The Steps -/

namespace State

variable {n : Nat} {Cpu L : Type*} {s s' : State n Cpu L} {a : Action n Cpu L} {c c' : Cpu}
  {p q j : Fin n} {b : Bool}
  {i : Instr n L} {k f : List (Instr n L)} {fs : List (List (Instr n L))} {t : Task n L}

theorem current_of_none (hrun : s.running c = none) : s.current c = s.scheduler c := by
  rw [current, hrun]

theorem current_of_some (hrun : s.running c = some p) : s.current c = s.process p := by
  rw [current, hrun]

theorem current_eq (hframes : (s.current c).frames = fs) :
    s.current c = ⟨fs, (s.current c).vetos⟩ := by
  rw [← hframes]

variable [DecidableEq L]

/-- The code that is put on the stack of a process: an interrupt, or a call. -/
inductive Pushes (s : State n Cpu L) (c : Cpu) (p : Fin n) : List (Instr n L) → Prop where
  | interrupt : Pushes s c p [.ifPreemptible]
  | call {f code} : (s.current c).frames = [] → s.callCode p f = some code → Pushes s c p code

theorem Pushes.starts (h : s.Pushes c p f) : Starts f := by
  cases h with
  | interrupt =>
    refine ⟨?_, fun d _ => ?_, .inr rfl⟩
    · simp [Tasks.Disciplined, Instr.InScheduler, Instr.needs, Follows, HeadPlain, weight]
    · cases d <;> rfl
  | @call f code _ hcode =>
    cases f with
    | sleepLockAcquire l =>
      obtain rfl := Option.some.inj hcode
      refine ⟨disciplined_acquire, fun d _ => ?_, .inl rfl⟩
      cases d <;> simp [Tasks.sleepLockAcquire, spinLockAcquire, weight]
      grind
    | sleepLockRelease l =>
      rw [callCode] at hcode
      split at hcode
      · obtain rfl := Option.some.inj hcode
        refine ⟨disciplined_release, fun d hd => ?_, .inl rfl⟩
        cases d with
        | clearLocked l' => exact absurd rfl (hd l')
        | _ =>
          simp [Tasks.sleepLockRelease, spinLockAcquire, spinLockRelease, weight]
          try grind
      · cases hcode
    | processFork =>
      obtain rfl := Option.some.inj hcode
      refine ⟨disciplined_book, fun d _ => ?_, .inl rfl⟩
      cases d <;> simp [schedulerBook, spinLockAcquire, weight]
      grind

variable [NeZero n]

theorem Disciplined.taskAfter {scheduler : Bool} (h : (s.current c).Disciplined scheduler)
    (hframes : (s.current c).frames = (i :: k) :: fs) :
    (s.taskAfter c b i k fs).Disciplined scheduler := by
  rw [current_eq hframes] at h
  intro f hf
  rcases List.mem_cons.mp hf with rfl | hf
  · exact (h _ List.mem_cons_self).outcome
  · exact h f (List.mem_cons_of_mem _ hf)

variable [DecidableEq Cpu]

/-- All code is disciplined. -/
structure CodeOk (s : State n Cpu L) : Prop where
  process : ∀ p, (s.process p).Disciplined false
  scheduler : ∀ c, (s.scheduler c).Disciplined true

omit [NeZero n] [DecidableEq Cpu] in
theorem CodeOk.current (h : s.CodeOk) (c : Cpu) :
    ∃ scheduler, (s.current c).Disciplined scheduler := by
  cases hrun : s.running c with
  | none => exact ⟨true, current_of_none hrun ▸ h.scheduler c⟩
  | some p => exact ⟨false, current_of_some hrun ▸ h.process p⟩

omit [NeZero n] in
theorem CodeOk.setCurrent (h : s.CodeOk)
    (ht : ∀ scheduler, (s.current c).Disciplined scheduler →
      (scheduler = true ↔ s.running c = none) → t.Disciplined scheduler) :
    (s.setCurrent c t).CodeOk := by
  refine ⟨fun p => ?_, fun c' => ?_⟩
  · rw [setCurrent_process]
    split
    · next hrun =>
      refine ht false ?_ (by simp [hrun])
      rw [State.current, hrun]
      exact h.process p
    · exact h.process p
  · rw [setCurrent_scheduler]
    split
    · next hrun =>
      refine ht true ?_ (by simp [hrun.2])
      rw [State.current, hrun.2]
      exact h.scheduler c
    · exact h.scheduler c'

/-- The steps: an instruction, a return, an interrupt or a call, and something that wakes a
    process. -/
theorem next_cases (h : s.next a = some s') :
    (∃ c b i k fs, a = .step c b ∧ (s.current c).frames = (i :: k) :: fs ∧
      s' = s.exec c b i k fs) ∨
    (∃ c fs, (s.current c).frames = [] :: fs ∧
      s' = s.setCurrent c { s.current c with frames := fs }) ∨
    (∃ c p f, s.running c = some p ∧ s.Pushes c p f ∧
      s' = s.setCurrent c { s.current c with frames := f :: (s.current c).frames }) ∨
    ∃ j, s.status j = .asleep ∧ s' = s.setStatus j .runnable := by
  cases a with
  | step c b =>
    rw [next] at h
    split at h
    · cases h
    · next fs hframes => exact .inr (.inl ⟨c, fs, hframes, (Option.some.inj h).symm⟩)
    · next i k fs hframes =>
      exact .inl ⟨c, b, i, k, fs, rfl, hframes, (Option.some.inj h).symm⟩
  | call c f =>
    rw [next] at h
    split at h
    · next p hrun hframes =>
      obtain ⟨code, hcode, rfl⟩ := Option.map_eq_some_iff.mp h
      refine .inr (.inr (.inl ⟨c, p, code, hrun, .call hframes hcode, ?_⟩))
      rw [hframes]
    · cases h
  | interrupt c =>
    rw [next] at h
    split at h
    · cases h
    · next p hrun =>
      exact .inr (.inr (.inl ⟨c, p, _, hrun, .interrupt, (Option.some.inj h).symm⟩))
  | wake j =>
    rw [next] at h
    split at h
    · next hasleep => exact .inr (.inr (.inr ⟨j, hasleep, (Option.some.inj h).symm⟩))
    · cases h

theorem codeOk_inductive : (tasks n Cpu L).Inductive CodeOk where
  init s hs := by
    refine ⟨fun p => ?_, fun c => ?_⟩
    · rcases hs.process p with ⟨-, hframes⟩ | ⟨-, hnew⟩
      · intro f hf
        rw [hframes] at hf
        exact absurd hf List.not_mem_nil
      · rw [hnew]
        exact disciplined_new
    · rw [hs.scheduler c]
      intro f hf
      obtain rfl := List.mem_singleton.mp hf
      exact disciplined_round
  step s a s' h hs := by
    obtain ⟨c, b, i, k, fs, -, hframes, rfl⟩ | ⟨c, fs, hframes, rfl⟩ |
      ⟨c, p, f, hrun, hpush, rfl⟩ | ⟨j, hasleep, rfl⟩ := next_cases hs
    · have hcur : (s.setCurrent c (s.taskAfter c b i k fs)).CodeOk :=
        h.setCurrent fun scheduler hd _ => Disciplined.taskAfter hd hframes
      refine ⟨fun p => ?_, fun c' => ?_⟩
      · rw [exec_process]
        split
        · exact disciplined_new
        · rw [← setCurrent_process]
          exact hcur.process p
      · rw [exec_scheduler, ← setCurrent_scheduler]
        exact hcur.scheduler c'
    · refine h.setCurrent fun scheduler hd _ f hf => hd f ?_
      rw [hframes]
      exact List.mem_cons_of_mem _ hf
    · refine h.setCurrent fun scheduler hd hside g hg => ?_
      rcases List.mem_cons.mp hg with rfl | hg
      · obtain rfl : scheduler = false := by simpa [hrun] using hside
        exact hpush.starts.disciplined
      · exact hd g hg
    · exact ⟨h.process, h.scheduler⟩

end State

end Tasks

end Avos
