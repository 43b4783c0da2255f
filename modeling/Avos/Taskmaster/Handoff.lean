import Avos.Library.Holder
import Avos.Taskmaster.TaskSteps

/-! # The Hand-Over of `Process_lock`

  `Process_lock` is taken on one stack and released on another: a CPU that switches keeps it,
  and what it switches to releases it. So a process that does not run stands at a place where it
  releases the lock next, and no two CPUs run one process (`oneCpu_of_reachable`).
-/

open Transition Holder

namespace Avos

namespace Tasks

/-! ## Section 1: The Property -/

/-- What a CPU has done to `Process_lock` last. -/
inductive LockPhase where
  | released
  | taken
  | switched
  deriving DecidableEq

/-- Whether the CPU holds the lock, as a weight. -/
def LockPhase.held : LockPhase → Int
  | .released => 0
  | .taken => 1
  | .switched => 1

/-- A CPU takes `Process_lock`, may switch once, and releases it once. -/
def lockPhase : List LockEvent → Option LockPhase
  | [] => some .released
  | .take :: es => if lockPhase es = some .released then some .taken else none
  | .switch :: es => if lockPhase es = some .taken then some .switched else none
  | .release :: es =>
      if lockPhase es = some .taken ∨ lockPhase es = some .switched then some .released else none

namespace State

section property

variable {n : Nat} {Cpu L : Type*}

/-- CPU `c` holds `Process_lock`: it has taken it, and not released it since. -/
def HoldsProcessLock (s : State n Cpu L) (c : Cpu) : Prop :=
  lockPhase (s.events c) = some .taken ∨ lockPhase (s.events c) = some .switched

/-- CPU `c` executes `KContext_Switch` next. -/
def AtSwitch (s : State n Cpu L) (c : Cpu) : Prop :=
  ∃ k fs, (s.current c).frames = (.schedulerReturn :: k) :: fs ∨
    ∃ i, (s.current c).frames = (.schedulerSwitch i :: k) :: fs

/-- Each process runs on one CPU; one whose status is not `RUNNING` runs only on a CPU that
    holds `Process_lock` on its way into `KContext_Switch`; a CPU switches with `Process_lock`
    held, and what it does to `Process_lock` follows the pattern: taken, switched at most once,
    released once. -/
structure OneCpu (s : State n Cpu L) : Prop where
  alone : ∀ c c' p, s.running c = some p → s.running c' = some p → c = c'
  active : ∀ c p, s.running c = some p → s.status p = .running ∨
    (s.status p = .runnable ∨ s.status p = .asleep) ∧ s.HoldsProcessLock c ∧
      (s.process p).Leaves
  switch : ∀ c, s.AtSwitch c → lockPhase (s.events c) = some .taken
  pattern : ∀ c, lockPhase (s.events c) ≠ none
  holder : ∀ c c', s.HoldsProcessLock c → s.HoldsProcessLock c' → c = c'

end property

/-! ## Section 2: The Invariant -/

/-- No CPU runs process `p`. -/
def Parked {n : Nat} {Cpu L : Type*} (s : State n Cpu L) (p : Fin n) : Prop :=
  ∀ c, s.running c ≠ some p

/-- The invariant. A CPU holds `Process_lock` when the code left on its stack releases it
    (`held`, `phase`); a stack that was switched from releases the lock when it is resumed
    (`parked`, `scheduler`); a process that a scheduler has chosen does not run (`chosen`); a slot
    that is booked is in the hands of one fork, which gives it a new stack (`booked`, `fresh`). -/
structure HandsOver {n : Nat} {Cpu L : Type*} [DecidableEq L] (s : State n Cpu L) : Prop where
  held : Held (s.flag .process) fun c => (s.current c).owes (.spin .process)
  phase : ∀ c, ∃ φ, lockPhase (s.events c) = some φ ∧
    (s.current c).owes (.spin .process) = φ.held ∧ (φ = .switched → (s.current c).NoSwitch)
  alone : ∀ c c' p, s.running c = some p → s.running c' = some p → c = c'
  active : ∀ c p, s.running c = some p → s.status p = .running ∨
    (s.status p = .runnable ∨ s.status p = .asleep) ∧ (s.process p).Leaves
  parked : ∀ p, s.Parked p → s.status p ≠ .idle → s.status p ≠ .booked → (s.process p).Resumable
  scheduler : ∀ c p, s.running c = some p → (s.scheduler c).Resumable
  chosen : ∀ c f i, s.running c = none → f ∈ (s.scheduler c).frames →
    (f.head? = some (.setRunning i) → s.status i = .runnable ∧ s.Parked i) ∧
      (f.head? = some (.schedulerSwitch i) → s.status i = .running ∧ s.Parked i)
  booked : ∀ i, Held (decide (s.status i = .booked)) fun q => (s.process q).owes (.booked i)
  fresh : ∀ q f i, f ∈ (s.process q).frames → .pagingClone i ∈ f ∨ .activate i ∈ f →
    s.process i = .new

section invariant

variable {n : Nat} {Cpu L : Type*} [DecidableEq L] {s : State n Cpu L} {c c' : Cpu} {p q j : Fin n}
  {b : Bool} {i : Instr n L} {k f : List (Instr n L)} {fs : List (List (Instr n L))} {t : Task n L}

/-- A slot that a fork still has to do with is booked. -/
theorem HandsOver.pending (h : s.HandsOver) (hf : f ∈ (s.process q).frames) (hi : i ∈ f)
    (hpos : 0 < weight (.booked j) i) : s.status j = .booked :=
  of_decide_eq_true ((h.booked j).taken q (kept_booked.task_owes_pos hf hi hpos))

theorem HandsOver.not_booked (h : s.HandsOver) (hrun : s.running c = some p) :
    s.status p ≠ .booked ∧ s.status p ≠ .idle := by
  rcases h.active c p hrun with hstatus | ⟨hstatus | hstatus, -⟩ <;> simp [hstatus]

/-- An instruction that needs `Process_lock` has it. -/
theorem HandsOver.owes_eq_one (h : s.HandsOver) (hcode : s.CodeOk)
    (hframes : (s.current c).frames = (i :: k) :: fs) (hi : i.needs = some .process) :
    (s.current c).owes (.spin .process) = 1 := by
  obtain ⟨scheduler, hdis⟩ := hcode.current c
  have hmem : (i :: k) ∈ (s.current c).frames := hframes ▸ List.mem_cons_self
  have hle : owes (.spin .process) _ ≤ _ := hdis.owes_le hmem
  have hpos := (hdis _ hmem).owes_pos hi
  exact h.held.eq_one (Int.lt_of_lt_of_le hpos hle)

end invariant

/-! ## Section 3: An Instruction -/

section exec

variable {n : Nat} [NeZero n] {Cpu L : Type*} [DecidableEq Cpu] [DecidableEq L]
  {s : State n Cpu L} {c c' : Cpu} {p q j : Fin n} {b : Bool} {i : Instr n L}
  {k : List (Instr n L)} {fs : List (List (Instr n L))} {d : Duty n L}

omit [DecidableEq Cpu] in
theorem owes_taskAfter (hframes : (s.current c).frames = (i :: k) :: fs) :
    (s.taskAfter c b i k fs).owes d = (s.current c).owes d + s.gain d i := by
  rw [owes_of_frames (v := 0) hframes, taskAfter, owes_mk_cons, owes_outcome]
  have hfs : ∀ v w, (⟨fs, v⟩ : Task n L).owes d = (⟨fs, w⟩ : Task n L).owes d := fun _ _ => rfl
  rw [hfs _ 0]
  omega

omit [NeZero n] [DecidableEq Cpu] in
/-- A new stack is made for a slot that is booked. -/
theorem HandsOver.booked_of_init (h : s.HandsOver) (hcode : s.CodeOk)
    (hframes : (s.current c).frames = (.processInitialize j :: k) :: fs) :
    s.status j = .booked := by
  cases hrun : s.running c with
  | none =>
    rw [current_of_none hrun] at hframes
    have hdis := hcode.scheduler c _ (hframes ▸ List.mem_cons_self)
    exact absurd hdis.1 (by simp [Instr.InScheduler])
  | some p =>
    rw [current_of_some hrun] at hframes
    exact h.pending (hframes ▸ List.mem_cons_self) List.mem_cons_self (by simp [weight])

theorem exec_running_ne (hne : c' ≠ c) : (s.exec c b i k fs).running c' = s.running c' := by
  rw [exec_running]
  split
  · exact Function.update_of_ne hne _ _
  · exact Function.update_of_ne hne _ _
  · rfl

/-- The other CPUs go on with what they have. -/
theorem HandsOver.exec_current_ne (h : s.HandsOver) (hcode : s.CodeOk)
    (hframes : (s.current c).frames = (i :: k) :: fs) (hne : c' ≠ c) :
    (s.exec c b i k fs).current c' = s.current c' := by
  have hrun' : (s.exec c b i k fs).running c' = s.running c' := exec_running_ne hne
  cases hrun : s.running c' with
  | none =>
    rw [current_of_none hrun, current_of_none (hrun'.trans hrun), exec_scheduler,
      if_neg fun h => hne h.1]
  | some p =>
    rw [current_of_some hrun, current_of_some (hrun'.trans hrun), exec_process, if_neg, if_neg]
    · exact fun hp => hne (h.alone c' c p hrun hp)
    · rintro ⟨rfl, -⟩
      exact (h.not_booked hrun).1 (h.booked_of_init hcode hframes)

/-- After an instruction that does not switch. -/
theorem HandsOver.exec_current (h : s.HandsOver) (hcode : s.CodeOk)
    (hframes : (s.current c).frames = (i :: k) :: fs)
    (hsame : (s.exec c b i k fs).running = s.running) :
    (s.exec c b i k fs).current c = s.taskAfter c b i k fs := by
  cases hrun : s.running c with
  | none =>
    rw [current_of_none (by rw [hsame, hrun]), exec_scheduler, if_pos ⟨rfl, hrun⟩]
  | some p =>
    rw [current_of_some (by rw [hsame, hrun]), exec_process, if_neg, if_pos hrun]
    rintro ⟨rfl, -⟩
    exact (h.not_booked hrun).1 (h.booked_of_init hcode hframes)

/-- A process that switches to the scheduler. -/
theorem HandsOver.exec_return (h : s.HandsOver) (hcode : s.CodeOk) (hrun : s.running c = some p)
    (hframes : (s.current c).frames = (.schedulerReturn :: k) :: fs) :
    (s.exec c b .schedulerReturn k fs).current c = s.scheduler c ∧ (s.scheduler c).Resumable ∧
      (s.exec c b .schedulerReturn k fs).process p = s.taskAfter c b .schedulerReturn k fs ∧
        (s.taskAfter c b .schedulerReturn k fs).Resumable := by
  have hone := h.owes_eq_one hcode hframes rfl
  have hdis : (s.current c).Disciplined false := current_of_some hrun ▸ hcode.process p
  rw [current_eq hframes] at hone hdis
  refine ⟨?_, h.scheduler c p hrun, ?_, ?_⟩
  · rw [current_of_none (by rw [exec_running]; exact Function.update_self _ _ _), exec_scheduler,
      if_neg (by simp [hrun])]
  · rw [exec_process, if_neg (by simp), if_pos hrun]
  · exact resumable_of_switch hdis hone rfl rfl (hdis _ List.mem_cons_self).2.2.2.1.1

/-- A scheduler that switches to a process. -/
theorem HandsOver.exec_switch (h : s.HandsOver) (hcode : s.CodeOk) (hrun : s.running c = none)
    (hframes : (s.current c).frames = (.schedulerSwitch j :: k) :: fs) :
    (s.exec c b (.schedulerSwitch j) k fs).current c = s.process j ∧ (s.process j).Resumable ∧
      (s.exec c b (.schedulerSwitch j) k fs).scheduler c =
          s.taskAfter c b (.schedulerSwitch j) k fs ∧
        (s.taskAfter c b (.schedulerSwitch j) k fs).Resumable ∧ s.status j = .running ∧
          s.Parked j := by
  have hone := h.owes_eq_one hcode hframes rfl
  have hdis : (s.current c).Disciplined true := current_of_none hrun ▸ hcode.scheduler c
  have hmem : (.schedulerSwitch j :: k) ∈ (s.scheduler c).frames := by
    rw [← current_of_none hrun, hframes]
    exact List.mem_cons_self
  obtain ⟨hstatus, hparked⟩ := (h.chosen c _ j hrun hmem).2 rfl
  rw [current_eq hframes] at hone hdis
  refine ⟨?_, h.parked j hparked (by simp [hstatus]) (by simp [hstatus]), ?_, ?_, hstatus,
    hparked⟩
  · rw [current_of_some (by rw [exec_running]; exact Function.update_self _ _ _), exec_process,
      if_neg (by simp), if_neg (by simp [hrun])]
  · rw [exec_scheduler, if_pos ⟨rfl, hrun⟩]
  · exact resumable_of_switch hdis hone rfl rfl (hdis _ List.mem_cons_self).2.2.2.1.1

omit [NeZero n] [DecidableEq Cpu] in
theorem CodeOk.side (hcode : s.CodeOk) (hframes : (s.current c).frames = (i :: k) :: fs) :
    s.running c = none ∧ i.InScheduler true ∨ ∃ p, s.running c = some p ∧ i.InScheduler false := by
  cases hrun : s.running c with
  | none =>
    rw [current_of_none hrun] at hframes
    have hdis : Disciplined true (i :: k) := hcode.scheduler c _ (hframes ▸ List.mem_cons_self)
    exact .inl ⟨rfl, hdis.1⟩
  | some p =>
    rw [current_of_some hrun] at hframes
    have hdis : Disciplined false (i :: k) := hcode.process p _ (hframes ▸ List.mem_cons_self)
    exact .inr ⟨p, rfl, hdis.1⟩

/-- An instruction leaves the processes on the CPUs, or it is one of the two switches. -/
theorem CodeOk.switch_cases (hcode : s.CodeOk) (b : Bool)
    (hframes : (s.current c).frames = (i :: k) :: fs) :
    ((s.exec c b i k fs).running = s.running ∧ i ≠ .schedulerReturn ∧
        ∀ j, i ≠ .schedulerSwitch j) ∨
      (∃ p, s.running c = some p ∧ i = .schedulerReturn) ∨
        ∃ j, s.running c = none ∧ i = .schedulerSwitch j := by
  rw [exec_running]
  rcases hcode.side hframes with ⟨hrun, hside⟩ | ⟨p, hrun, hside⟩
  · cases i with
    | schedulerSwitch j => exact .inr (.inr ⟨j, hrun, rfl⟩)
    | schedulerReturn => exact absurd hside (by simp [Instr.InScheduler])
    | _ => exact .inl ⟨rfl, nofun, nofun⟩
  · cases i with
    | schedulerReturn => exact .inr (.inl ⟨p, hrun, rfl⟩)
    | schedulerSwitch j => exact absurd hside (by simp [Instr.InScheduler])
    | _ => exact .inl ⟨rfl, nofun, nofun⟩

omit [NeZero n] [DecidableEq Cpu] in
/-- Code that releases a lock holds it. -/
theorem CodeOk.clear_owes_pos {lock : SpinLock L} (hcode : s.CodeOk)
    (hframes : (s.current c).frames = (.clear lock :: k) :: fs) :
    0 < (s.current c).owes (.spin lock) := by
  obtain ⟨scheduler, hdis⟩ := hcode.current c
  have hmem : (.clear lock :: k) ∈ (s.current c).frames := hframes ▸ List.mem_cons_self
  have hk : 0 ≤ owes (.spin lock) k := (hdis _ hmem).tail.owes_nonneg
  have hle : owes (.spin lock) (.clear lock :: k) ≤ _ := hdis.owes_le hmem
  rw [owes_cons] at hle
  simp only [weight, if_true] at hle
  omega

/-- The lock is held by the code of one CPU after the instruction. -/
theorem HandsOver.exec_held (h : s.HandsOver) (hcode : s.CodeOk)
    (hframes : (s.current c).frames = (i :: k) :: fs) :
    Held ((s.exec c b i k fs).flag .process)
      fun c' => ((s.exec c b i k fs).current c').owes (.spin .process) := by
  have hother : ∀ c', c' ≠ c → ((s.exec c b i k fs).current c').owes (.spin .process) =
      (s.current c').owes (.spin .process) := fun c' hne => by
    rw [h.exec_current_ne hcode hframes hne]
  -- an instruction that leaves the lock as it is
  have hkeep : (s.exec c b i k fs).flag .process = s.flag .process →
      ((s.exec c b i k fs).current c).owes (.spin .process) =
        (s.current c).owes (.spin .process) →
      Held ((s.exec c b i k fs).flag .process)
        fun c' => ((s.exec c b i k fs).current c').owes (.spin .process) := by
    intro hflag hself
    rw [hflag]
    refine h.held.congr fun c' => ?_
    by_cases hc : c' = c
    · rw [hc, hself]
    · exact hother c' hc
  rcases hcode.switch_cases b hframes with ⟨hsame, -⟩ | ⟨p, hrun, rfl⟩ | ⟨j, hrun, rfl⟩
  · have hcur := h.exec_current hcode hframes hsame
    have hself : ((s.exec c b i k fs).current c).owes (.spin .process) =
        (s.current c).owes (.spin .process) + s.gain (.spin .process) i := by
      rw [hcur, owes_taskAfter hframes]
    by_cases htake : i = .testAndSet .process ∧ s.flag .process = false
    · obtain ⟨rfl, hfree⟩ := htake
      have hflag : (s.exec c b (.testAndSet .process) k fs).flag .process = true := by
        simp [exec_flag]
      have hheld := h.held
      rw [hfree] at hheld
      rw [hflag]
      refine hheld.take ?_ hother
      simpa [gain, hfree] using hself
    · by_cases hclear : i = .clear .process
      · subst hclear
        refine h.held.drop (hcode.clear_owes_pos hframes) ?_ hother
        rw [hself]
        simp [gain]
        omega
      · have hgain : s.gain (.spin .process) i = 0 := by
          cases i with
          | testAndSet lock => simp_all [gain]
          | clear lock => simp_all [gain]
          | _ => rfl
        refine hkeep ?_ (by rw [hself, hgain, Int.add_zero])
        rw [exec_flag]
        split
        · next lock =>
          split
          · next heq =>
            subst heq
            simpa using htake
          · rfl
        · next lock =>
          split
          · next heq => exact absurd (heq ▸ rfl) hclear
          · rfl
        · rfl
  · obtain ⟨hcur, hres, -⟩ := h.exec_return (b := b) hcode hrun hframes
    refine hkeep (by rw [exec_flag]) ?_
    rw [hcur, hres.1, h.owes_eq_one hcode hframes rfl]
  · obtain ⟨hcur, hres, -⟩ := h.exec_switch (b := b) hcode hrun hframes
    refine hkeep (by rw [exec_flag]) ?_
    rw [hcur, hres.1, h.owes_eq_one hcode hframes rfl]

/-- What a CPU has done to the lock follows the pattern. -/
theorem HandsOver.exec_phase (h : s.HandsOver) (hcode : s.CodeOk)
    (hframes : (s.current c).frames = (i :: k) :: fs) (c' : Cpu) :
    ∃ φ, lockPhase ((s.exec c b i k fs).events c') = some φ ∧
      ((s.exec c b i k fs).current c').owes (.spin .process) = φ.held ∧
        (φ = .switched → ((s.exec c b i k fs).current c').NoSwitch) := by
  by_cases hne : c' = c
  · subst hne
    obtain ⟨φ, hφ, howes, hno⟩ := h.phase c'
    -- a CPU that switches has taken the lock and not switched yet
    have htaken : i.Switches → i.needs = some .process → φ = .taken := by
      intro hsw hneeds
      have hone := h.owes_eq_one hcode hframes hneeds
      rw [howes] at hone
      cases φ with
      | released => exact absurd hone (by decide)
      | taken => rfl
      | switched =>
        have htop : NoSwitch (i :: k) := hno rfl _ (hframes ▸ List.mem_cons_self)
        unfold NoSwitch at htop
        split at htop
        · contradiction
        · next heq =>
          obtain ⟨rfl, -⟩ := List.cons.inj heq
          exact absurd hsw not_false
        · next heq =>
          obtain ⟨rfl, -⟩ := List.cons.inj heq
          exact absurd hsw not_false
        · next heq =>
          obtain ⟨rfl, -⟩ := List.cons.inj heq
          exact absurd hsw htop.1
    rcases hcode.switch_cases b hframes with ⟨hsame, hret, hsw⟩ | ⟨p, hrun, rfl⟩ | ⟨j, hrun, rfl⟩
    · have hself : ((s.exec c' b i k fs).current c').owes (.spin .process) =
          φ.held + s.gain (.spin .process) i := by
        rw [h.exec_current hcode hframes hsame, owes_taskAfter hframes, howes]
      by_cases htake : i = .testAndSet .process ∧ s.flag .process = false
      · obtain ⟨rfl, hfree⟩ := htake
        have hheld := h.held
        rw [hfree] at hheld
        have hzero := hheld.free c'
        rw [howes] at hzero
        obtain rfl : φ = .released := by cases φ <;> first | rfl | exact absurd hzero (by decide)
        refine ⟨.taken, ?_, ?_, by simp⟩
        · rw [exec_events]
          simp [hfree, lockPhase, hφ]
        · rw [hself]
          simp [gain, hfree, LockPhase.held]
      · by_cases hclear : i = .clear .process
        · subst hclear
          have hnonneg := (h.exec_held (b := b) hcode hframes).nonneg c'
          rw [hself] at hnonneg
          simp only [gain, if_true] at hnonneg
          have hnot : φ ≠ .released := by
            rintro rfl
            exact absurd hnonneg (by decide)
          refine ⟨.released, ?_, ?_, by simp⟩
          · rw [exec_events]
            cases φ with
            | released => exact absurd rfl hnot
            | taken => simp [lockPhase, hφ]
            | switched => simp [lockPhase, hφ]
          · rw [hself]
            cases φ with
            | released => exact absurd rfl hnot
            | taken => simp [gain, LockPhase.held]
            | switched => simp [gain, LockPhase.held]
        · have hgain : s.gain (.spin .process) i = 0 := by
            cases i with
            | testAndSet lock => simp_all [gain]
            | clear lock => simp_all [gain]
            | _ => rfl
          have hevents : (s.exec c' b i k fs).events c' = s.events c' := by
            rw [exec_events]
            cases i with
            | testAndSet lock => simp_all
            | clear lock => simp_all
            | schedulerReturn => exact absurd rfl hret
            | schedulerSwitch j => exact absurd rfl (hsw j)
            | _ => rfl
          refine ⟨φ, by rw [hevents, hφ], by rw [hself, hgain, Int.add_zero], fun heq => ?_⟩
          rw [h.exec_current hcode hframes hsame]
          have hflag : s.flag .process = true := by
            refine h.held.taken c' ?_
            show 0 < (s.current c').owes _
            rw [howes, heq]
            decide
          intro f hf
          rcases List.mem_cons.mp hf with rfl | hf
          · exact (hno heq _ (hframes ▸ List.mem_cons_self)).outcome hclear hflag
          · exact hno heq f (hframes ▸ List.mem_cons_of_mem _ hf)
    · obtain ⟨hcur, hres, -⟩ := h.exec_return (b := b) hcode hrun hframes
      obtain rfl := htaken trivial rfl
      refine ⟨.switched, ?_, by rw [hcur, hres.1]; rfl, fun _ => by rw [hcur]; exact hres.2⟩
      rw [exec_events]
      simp [lockPhase, hφ]
    · obtain ⟨hcur, hres, -⟩ := h.exec_switch (b := b) hcode hrun hframes
      obtain rfl := htaken trivial rfl
      refine ⟨.switched, ?_, by rw [hcur, hres.1]; rfl, fun _ => by rw [hcur]; exact hres.2⟩
      rw [exec_events]
      simp [lockPhase, hφ]
  · have hevents : (s.exec c b i k fs).events c' = s.events c' := by
      rw [exec_events]
      cases i <;> simp [hne]
    rw [hevents, h.exec_current_ne hcode hframes hne]
    exact h.phase c'

theorem HandsOver.exec_alone (h : s.HandsOver) (hcode : s.CodeOk)
    (hframes : (s.current c).frames = (i :: k) :: fs) :
    ∀ c₁ c₂ q, (s.exec c b i k fs).running c₁ = some q →
      (s.exec c b i k fs).running c₂ = some q → c₁ = c₂ := by
  intro c₁ c₂ q h₁ h₂
  rcases hcode.switch_cases b hframes with ⟨hsame, -⟩ | ⟨p, hrun, rfl⟩ | ⟨j, hrun, rfl⟩
  · rw [hsame] at h₁ h₂
    exact h.alone c₁ c₂ q h₁ h₂
  · have hne : ∀ c', (s.exec c b .schedulerReturn k fs).running c' = some q → c' ≠ c := by
      rintro c' h' rfl
      simp [exec_running] at h'
    rw [exec_running_ne (hne c₁ h₁)] at h₁
    rw [exec_running_ne (hne c₂ h₂)] at h₂
    exact h.alone c₁ c₂ q h₁ h₂
  · obtain ⟨-, -, -, -, -, hparked⟩ := h.exec_switch (b := b) hcode hrun hframes
    have hself : (s.exec c b (.schedulerSwitch j) k fs).running c = some j := by
      simp [exec_running]
    have hcase : ∀ c', (s.exec c b (.schedulerSwitch j) k fs).running c' = some q →
        c' = c ∧ q = j ∨ s.running c' = some q := by
      intro c' h'
      by_cases hc : c' = c
      · rw [hc, hself] at h'
        exact .inl ⟨hc, (Option.some.inj h').symm⟩
      · rw [exec_running_ne hc] at h'
        exact .inr h'
    rcases hcase c₁ h₁ with ⟨rfl, rfl⟩ | h₁'
    · rcases hcase c₂ h₂ with ⟨rfl, -⟩ | h₂'
      · rfl
      · exact absurd h₂' (hparked c₂)
    · rcases hcase c₂ h₂ with ⟨rfl, rfl⟩ | h₂'
      · exact absurd h₁' (hparked c₁)
      · exact h.alone c₁ c₂ q h₁' h₂'

/-- The stack of a process that does not execute the instruction and is not made by it. -/
theorem exec_process_of_ne (hrun : s.running c ≠ some q)
    (hinit : i = .processInitialize q → b = false) :
    (s.exec c b i k fs).process q = s.process q := by
  rw [exec_process, if_neg, if_neg hrun]
  rintro ⟨hi, hb⟩
  rw [hinit hi] at hb
  cases hb

/-- Who runs after the instruction ran before, or was switched to. -/
theorem running_of_exec (hrun : (s.exec c b i k fs).running c' = some q) :
    s.running c' = some q ∨ c' = c ∧ i = .schedulerSwitch q := by
  by_cases hc : c' = c
  · subst hc
    rw [exec_running] at hrun
    split at hrun
    · simp at hrun
    · next j =>
      rw [Function.update_self] at hrun
      exact .inr ⟨rfl, congrArg _ (Option.some.inj hrun)⟩
    · exact .inl hrun
  · rw [exec_running_ne hc] at hrun
    exact .inl hrun

omit [NeZero n] [DecidableEq Cpu] in
/-- An instruction of a fork on slot `j`, which is booked. -/
theorem HandsOver.booked_of_exec (h : s.HandsOver) (hcode : s.CodeOk)
    (hframes : (s.current c).frames = (i :: k) :: fs) (hpos : 0 < weight (.booked j) i)
    (hside : ¬i.InScheduler true) : s.status j = .booked := by
  rcases hcode.side hframes with ⟨-, hside'⟩ | ⟨p, hrun, -⟩
  · exact absurd hside' hside
  · rw [current_of_some hrun] at hframes
    exact h.pending (hframes ▸ List.mem_cons_self) List.mem_cons_self hpos

omit [NeZero n] [DecidableEq Cpu] in
/-- The scheduler sets the status of a process that it has chosen. -/
theorem HandsOver.chosen_of_exec (h : s.HandsOver) (hcode : s.CodeOk)
    (hframes : (s.current c).frames = (.setRunning j :: k) :: fs) :
    s.status j = .runnable ∧ s.Parked j := by
  rcases hcode.side hframes with ⟨hrun, -⟩ | ⟨p, -, hside⟩
  · rw [current_of_none hrun] at hframes
    exact (h.chosen c _ j hrun (hframes ▸ List.mem_cons_self)).1 rfl
  · exact absurd hside (by simp [Instr.InScheduler])

/-- The processes that run after the instruction. -/
theorem HandsOver.exec_active (h : s.HandsOver) (hcode : s.CodeOk)
    (hframes : (s.current c).frames = (i :: k) :: fs) :
    ∀ c' q, (s.exec c b i k fs).running c' = some q →
      (s.exec c b i k fs).status q = .running ∨
        ((s.exec c b i k fs).status q = .runnable ∨ (s.exec c b i k fs).status q = .asleep) ∧
          ((s.exec c b i k fs).process q).Leaves := by
  intro c' q hrun'
  rcases running_of_exec hrun' with hrun | ⟨rfl, rfl⟩
  · obtain ⟨hbooked, hidle⟩ := h.not_booked hrun
    have hact := h.active c' q hrun
    -- a process that is on its way into the switch stays there
    have hleaves : (s.process q).Leaves → ((s.exec c b i k fs).process q).Leaves := by
      rintro ⟨f, hf, hhead⟩
      by_cases hc : c' = c
      · subst hc
        rw [← current_of_some hrun, hframes] at hf
        rcases List.mem_cons.mp hf with rfl | hf
        · obtain rfl := Option.some.inj hhead
          rw [exec_running] at hrun'
          simp at hrun'
        · refine ⟨f, ?_, hhead⟩
          rw [exec_process, if_neg, if_pos hrun]
          · exact List.mem_cons_of_mem _ hf
          · rintro ⟨rfl, -⟩
            exact hbooked (h.booked_of_init hcode hframes)
      · refine ⟨f, ?_, hhead⟩
        rw [exec_process_of_ne (fun hq => hc (h.alone c' c q hrun hq)) fun hi => ?_]
        · exact hf
        · subst hi
          exact absurd (h.booked_of_init hcode hframes) hbooked
    -- a process that falls asleep or is preempted goes into the switch next
    have hfalls : (∃ l, i = .setAsleep l) ∨ i = .setRunnable → s.running c = some q →
        ((s.exec c b i k fs).process q).Leaves := by
      intro hi hq
      have hdis : Disciplined false (i :: k) := hcode.process q _ (by
        rw [← current_of_some hq, hframes]
        exact List.mem_cons_self)
      refine ⟨k, ?_, ?_⟩
      · rw [exec_process, if_neg, if_pos hq]
        · rcases hi with ⟨l, rfl⟩ | rfl <;> exact List.mem_cons_self
        · rcases hi with ⟨l, rfl⟩ | rfl <;> simp
      · rcases hi with ⟨l, rfl⟩ | rfl <;> exact hdis.2.2.2.1
    have hsame : (s.exec c b i k fs).status q = s.status q →
        (s.exec c b i k fs).status q = .running ∨
          ((s.exec c b i k fs).status q = .runnable ∨ (s.exec c b i k fs).status q = .asleep) ∧
            ((s.exec c b i k fs).process q).Leaves := by
      intro heq
      rw [heq]
      exact hact.imp_right fun hact => ⟨hact.1, hleaves hact.2⟩
    have hstatus : (s.exec c b i k fs).status q = _ := exec_status
    cases i with
    | setAsleep l =>
      by_cases hq : s.running c = some q
      · exact .inr ⟨.inr (by simpa [hq] using hstatus), hfalls (.inl ⟨l, rfl⟩) hq⟩
      · exact hsame (by simpa [hq] using hstatus)
    | setRunnable =>
      by_cases hq : s.running c = some q
      · exact .inr ⟨.inl (by simpa [hq] using hstatus), hfalls (.inr rfl) hq⟩
      · exact hsame (by simpa [hq] using hstatus)
    | raiseAlarm l j =>
      by_cases hj : q = j ∧ s.status j = .asleep ∧ s.wakeupOn j = some l
      · rcases hact with hact | ⟨-, hact⟩
        · rw [hj.1, hj.2.1] at hact
          cases hact
        · exact .inr ⟨.inl (by simpa [hj] using hstatus), hleaves hact⟩
      · exact hsame (by simpa [hj] using hstatus)
    | book slots => exact hsame (by simpa [hidle] using hstatus)
    | activate j =>
      have hj : q ≠ j := by
        rintro rfl
        exact hbooked (h.booked_of_exec hcode hframes (by simp [weight])
          (by simp [Instr.InScheduler]))
      exact hsame (by simpa [hj] using hstatus)
    | giveBack j =>
      have hj : q ≠ j := by
        rintro rfl
        exact hbooked (h.booked_of_exec hcode hframes (by simp [weight])
          (by simp [Instr.InScheduler]))
      exact hsame (by simpa [hj] using hstatus)
    | setRunning j =>
      have hj : q ≠ j := by
        rintro rfl
        exact (h.chosen_of_exec hcode hframes).2 c' hrun
      exact hsame (by simpa [hj] using hstatus)
    | _ => exact hsame hstatus
  · rcases hcode.side hframes with ⟨hrun, -⟩ | ⟨p, -, hside⟩
    · obtain ⟨-, -, -, -, hstatus, -⟩ := h.exec_switch (b := b) hcode hrun hframes
      left
      rw [exec_status, hstatus]
    · exact absurd hside (by simp [Instr.InScheduler])

/-- A slot that holds a process held one before the instruction, or a fork has just finished. -/
theorem HandsOver.live_of_exec (h : s.HandsOver) (hcode : s.CodeOk)
    (hframes : (s.current c).frames = (i :: k) :: fs)
    (hidle : (s.exec c b i k fs).status q ≠ .idle)
    (hbooked : (s.exec c b i k fs).status q ≠ .booked) :
    (s.status q ≠ .idle ∧ s.status q ≠ .booked) ∨ i = .activate q := by
  rw [exec_status] at hidle hbooked
  cases i with
  | setAsleep l =>
    by_cases hrun : s.running c = some q
    · exact .inl (h.not_booked hrun).symm
    · simp only [hrun, if_false] at hidle hbooked
      exact .inl ⟨hidle, hbooked⟩
  | setRunnable =>
    by_cases hrun : s.running c = some q
    · exact .inl (h.not_booked hrun).symm
    · simp only [hrun, if_false] at hidle hbooked
      exact .inl ⟨hidle, hbooked⟩
  | raiseAlarm l j =>
    by_cases hj : q = j ∧ s.status j = .asleep ∧ s.wakeupOn j = some l
    · left
      simp [hj.1, hj.2.1]
    · simp only [hj, if_false] at hidle hbooked
      exact .inl ⟨hidle, hbooked⟩
  | book slots =>
    by_cases hj : slots.head? = some q ∧ s.status q = .idle
    · simp [hj] at hbooked
    · simp only [hj, if_false] at hidle hbooked
      exact .inl ⟨hidle, hbooked⟩
  | activate j =>
    by_cases hj : q = j
    · exact .inr (hj ▸ rfl)
    · simp only [hj, if_false] at hidle hbooked
      exact .inl ⟨hidle, hbooked⟩
  | giveBack j =>
    by_cases hj : q = j
    · simp [hj] at hidle
    · simp only [hj, if_false] at hidle hbooked
      exact .inl ⟨hidle, hbooked⟩
  | setRunning j =>
    by_cases hj : q = j
    · subst hj
      left
      simp [(h.chosen_of_exec hcode hframes).1]
    · simp only [hj, if_false] at hidle hbooked
      exact .inl ⟨hidle, hbooked⟩
  | _ => exact .inl ⟨hidle, hbooked⟩

/-- The processes that do not run after the instruction. -/
theorem HandsOver.exec_parked (h : s.HandsOver) (hcode : s.CodeOk)
    (hframes : (s.current c).frames = (i :: k) :: fs) :
    ∀ q, (s.exec c b i k fs).Parked q → (s.exec c b i k fs).status q ≠ .idle →
      (s.exec c b i k fs).status q ≠ .booked → ((s.exec c b i k fs).process q).Resumable := by
  intro q hparked' hidle' hbooked'
  by_cases hq : s.running c = some q
  · -- the process has just switched to the scheduler
    rcases hcode.switch_cases b hframes with ⟨hsame, -⟩ | ⟨p, hrun, rfl⟩ | ⟨j, hrun, rfl⟩
    · exact absurd (by rw [hsame, hq]) (hparked' c)
    · obtain rfl : p = q := Option.some.inj (hrun.symm.trans hq)
      obtain ⟨-, -, hprocess, hres⟩ := h.exec_return (b := b) hcode hrun hframes
      rw [hprocess]
      exact hres
    · rw [hrun] at hq
      cases hq
  · have hparked : s.Parked q := by
      intro c' hrun
      have hc : c' ≠ c := by
        rintro rfl
        exact hq hrun
      exact hparked' c' (by rw [exec_running_ne hc, hrun])
    have hstatus : (s.exec c b i k fs).status q = _ := exec_status
    by_cases hact : i = .activate q
    · subst hact
      have hnew : s.process q = .new := by
        rcases hcode.side hframes with ⟨-, hside⟩ | ⟨p, hrun, -⟩
        · exact absurd hside (by simp [Instr.InScheduler])
        · rw [current_of_some hrun] at hframes
          exact h.fresh p _ q (hframes ▸ List.mem_cons_self) (.inr List.mem_cons_self)
      rw [exec_process_of_ne hq (by simp), hnew]
      exact resumable_new
    · by_cases hinit : i = .processInitialize q
      · subst hinit
        have hbooked := h.booked_of_init hcode hframes
        exact absurd (hstatus.trans hbooked) hbooked'
      · rw [exec_process_of_ne hq fun hi => absurd hi hinit]
        obtain ⟨hidle, hbooked⟩ := (h.live_of_exec hcode hframes hidle' hbooked').resolve_right hact
        exact h.parked q hparked hidle hbooked

theorem HandsOver.exec_restingScheduler (h : s.HandsOver) (hcode : s.CodeOk)
    (hframes : (s.current c).frames = (i :: k) :: fs) :
    ∀ c' q, (s.exec c b i k fs).running c' = some q →
      ((s.exec c b i k fs).scheduler c').Resumable := by
  intro c' q hrun'
  rcases running_of_exec hrun' with hrun | ⟨rfl, rfl⟩
  · rw [exec_scheduler, if_neg]
    · exact h.scheduler c' q hrun
    · rintro ⟨rfl, hnone⟩
      rw [hrun] at hnone
      cases hnone
  · rcases hcode.side hframes with ⟨hrun, -⟩ | ⟨p, -, hside⟩
    · obtain ⟨-, -, hsched, hres, -⟩ := h.exec_switch (b := b) hcode hrun hframes
      rw [hsched]
      exact hres
    · exact absurd hside (by simp [Instr.InScheduler])

end exec
end State
end Tasks
end Avos
