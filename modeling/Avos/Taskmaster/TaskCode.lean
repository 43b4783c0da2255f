import Avos.Taskmaster.Tasks
import Mathlib.Algebra.BigOperators.Group.List.Basic

/-! # Code and the Locks It Holds

  What a stack holds can be read off the code that is left on it: a lock that the code still
  releases more often than it takes it. `owes` counts this, for each spin lock and for all of
  them, for the vetos, the slots that are booked and the sleep locks that are to be cleared.

  `Disciplined` code takes and releases in turn, touches what a lock protects only while it
  holds the lock, and releases `Process_lock` after a switch before it switches again. Every
  outcome of an instruction is disciplined when the instruction was (`Disciplined.outcome`).
-/

namespace Avos

namespace Tasks

variable {n : Nat} {L : Type*}

/-! ## Section 1: Switches -/

/-- An instruction that switches to another stack, or leads to one that does before
    `Process_lock` is released. -/
def Instr.Switches : Instr n L → Prop
  | .setAsleep _ => True
  | .setRunnable => True
  | .schedulerReturn => True
  | .ifPreempt => True
  | .ifRunnable _ => True
  | .setRunning _ => True
  | .schedulerSwitch _ => True
  | _ => False

/-- The code can not switch before `Process_lock` is released or waited for. -/
def NoSwitch : List (Instr n L) → Prop
  | [] => True
  | .clear .process :: _ => True
  | .testAndSet .process :: _ => True
  | i :: k => ¬i.Switches ∧ NoSwitch k

/-- The code releases `Process_lock`, and does not switch before. -/
def Releases : List (Instr n L) → Prop
  | [] => False
  | .clear .process :: _ => True
  | i :: k => ¬i.Switches ∧ Releases k

/-- The code does not start with an instruction that only follows on a certain other one. -/
def HeadPlain : List (Instr n L) → Prop
  | .testAndSet _ :: _ => False
  | .decrementVeto :: _ => False
  | .setLocked _ :: _ => False
  | .setAsleep _ :: _ => False
  | .setRunning _ :: _ => False
  | .schedulerSwitch _ :: _ => False
  | _ => True

/-- What comes after an instruction. -/
def Follows : Instr n L → List (Instr n L) → Prop
  | .incrementVeto, k => ∃ lock, k.head? = some (.testAndSet lock)
  | .clear _, k => k.head? = some .decrementVeto
  | .setWakeupOn (some lock), k => k.head? = some (.setAsleep lock)
  | .setAsleep _, k => k.head? = some .schedulerReturn
  | .setRunnable, k => k.head? = some .schedulerReturn
  | .setRunning i, k => k.head? = some (.schedulerSwitch i)
  | .schedulerReturn, k => Releases k ∧ HeadPlain k
  | .schedulerSwitch _, k => Releases k ∧ HeadPlain k
  | .ifPreempt, k => Releases k ∧ HeadPlain k
  | .ifRunnable _, k => Releases k ∧ HeadPlain k
  | _, k => HeadPlain k

section switches

variable {i : Instr n L} {k k' : List (Instr n L)}

theorem Releases.append (h : Releases k) : Releases (k ++ k') := by
  induction k with
  | nil => exact h.elim
  | cons i k ih =>
    rw [List.cons_append]
    unfold Releases at h ⊢
    split at h
    · contradiction
    · simp_all
    · split <;> simp_all

theorem Releases.noSwitch (h : Releases k) : NoSwitch k := by
  induction k with
  | nil => trivial
  | cons i k ih =>
    unfold Releases at h
    unfold NoSwitch
    split at h
    · contradiction
    · simp_all
    · split <;> simp_all

theorem NoSwitch.append (h : NoSwitch k) (h' : NoSwitch k') : NoSwitch (k ++ k') := by
  induction k with
  | nil => exact h'
  | cons i k ih =>
    rw [List.cons_append]
    unfold NoSwitch at h ⊢
    split at h
    · contradiction
    · simp_all
    · simp_all
    · split <;> simp_all

theorem HeadPlain.append (h : HeadPlain k) (h' : HeadPlain k') : HeadPlain (k ++ k') := by
  cases k with
  | nil => exact h'
  | cons i k => cases i <;> exact h

theorem Follows.append (h : Follows i k) (h' : HeadPlain k') : Follows i (k ++ k') := by
  have hhead : ∀ j, k.head? = some j → (k ++ k').head? = some j := fun j hj => by
    rw [List.head?_append, hj]
    rfl
  cases i with
  | incrementVeto => exact h.imp fun _ => hhead _
  | clear _ => exact hhead _ h
  | setWakeupOn alarm =>
    cases alarm with
    | none => exact HeadPlain.append h h'
    | some l => exact hhead _ h
  | setAsleep _ => exact hhead _ h
  | setRunnable => exact hhead _ h
  | setRunning _ => exact hhead _ h
  | schedulerReturn => exact ⟨h.1.append, h.2.append h'⟩
  | schedulerSwitch _ => exact ⟨h.1.append, h.2.append h'⟩
  | ifPreempt => exact ⟨h.1.append, h.2.append h'⟩
  | ifRunnable _ => exact ⟨h.1.append, h.2.append h'⟩
  | _ => exact HeadPlain.append h h'

end switches

/-! ## Section 2: What Code Owes -/

/-- What is to be given back. -/
inductive Duty (n : Nat) (L : Type*) where
  | spin (lock : SpinLock L)
  | locks
  | veto
  | booked (i : Fin n)
  | clearLocked (lock : L)

variable [DecidableEq L]

/-- What an instruction gives back. A loop that ends with a release counts for it. -/
def weight : Duty n L → Instr n L → Int
  | .spin lock, .testAndSet lock' => if lock' = lock then -1 else 0
  | .spin lock, .clear lock' => if lock' = lock then 1 else 0
  | .spin lock, .whileLocked lock' => if .access lock' = lock then 1 else 0
  | .spin lock, .book _ => if .process = lock then 1 else 0
  | .locks, .testAndSet _ => -1
  | .locks, .clear _ => 1
  | .locks, .whileLocked _ => 1
  | .locks, .book _ => 1
  | .veto, .incrementVeto => -1
  | .veto, .decrementVeto => 1
  | .veto, .whileLocked _ => 1
  | .veto, .book _ => 1
  | .booked i, .processInitialize j => if j = i then 1 else 0
  | .booked i, .pagingClone j => if j = i then 1 else 0
  | .booked i, .activate j => if j = i then 1 else 0
  | .booked i, .giveBack j => if j = i then 1 else 0
  | .clearLocked lock, .clearLocked lock' => if lock' = lock then 1 else 0
  | _, _ => 0

def owes (d : Duty n L) (k : List (Instr n L)) : Int := (k.map (weight d)).sum

section owes

variable {d : Duty n L} {i : Instr n L} {k k' : List (Instr n L)}

@[simp] theorem owes_nil : owes d [] = 0 := rfl

@[simp] theorem owes_cons : owes d (i :: k) = weight d i + owes d k := List.sum_cons

@[simp] theorem owes_append : owes d (k ++ k') = owes d k + owes d k' := by
  rw [owes, List.map_append, List.sum_append]
  rfl

@[simp] theorem owes_schedulerRaiseAlarm {l : L} :
    owes d (schedulerRaiseAlarm l : List (Instr n L)) = 0 := by
  have hzero : ∀ slots : List (Fin n), owes d (slots.map (.raiseAlarm l)) = 0 := by
    intro slots
    induction slots with
    | nil => rfl
    | cons i slots ih =>
      rw [List.map_cons, owes_cons, ih]
      cases d <;> rfl
  exact hzero _

/-- A duty that no instruction takes on. -/
def Duty.Kept (d : Duty n L) : Prop := ∀ i, 0 ≤ weight d i

theorem kept_booked {j : Fin n} : (.booked j : Duty n L).Kept := by
  intro i
  cases i <;> simp only [weight] <;> first | exact Int.le_refl 0 | (split <;> decide)

theorem kept_clearLocked {l : L} : (.clearLocked l : Duty n L).Kept := by
  intro i
  cases i <;> simp only [weight] <;> first | exact Int.le_refl 0 | (split <;> decide)

theorem Duty.Kept.owes_nonneg (h : d.Kept) : 0 ≤ owes d k := by
  induction k with
  | nil => exact Int.le_refl 0
  | cons i k ih =>
    have := h i
    rw [owes_cons]
    omega

theorem Duty.Kept.owes_pos (h : d.Kept) (hi : i ∈ k) (hpos : 0 < weight d i) : 0 < owes d k := by
  obtain ⟨k₁, k₂, rfl⟩ := List.append_of_mem hi
  have h₁ := h.owes_nonneg (k := k₁)
  have h₂ := h.owes_nonneg (k := k₂)
  rw [owes_append, owes_cons]
  omega

end owes

/-! ## Section 3: Disciplined Code -/

/-- The lock under which an instruction runs. -/
def Instr.needs : Instr n L → Option (SpinLock L)
  | .whileLocked lock => some (.access lock)
  | .setLocked lock => some (.access lock)
  | .clearLocked lock => some (.access lock)
  | .setWakeupOn _ => some .process
  | .setAsleep _ => some .process
  | .schedulerReturn => some .process
  | .raiseAlarm _ _ => some .process
  | .ifPreempt => some .process
  | .setRunnable => some .process
  | .book _ => some .process
  | .activate _ => some .process
  | .giveBack _ => some .process
  | .ifRunnable _ => some .process
  | .setRunning _ => some .process
  | .schedulerSwitch _ => some .process
  | _ => none

/-- An instruction of `Schedule`, or of the functions of a process. -/
def Instr.InScheduler : Instr n L → Bool → Prop
  | .incrementVeto, _ => True
  | .decrementVeto, _ => True
  | .testAndSet .process, _ => True
  | .clear .process, _ => True
  | .ifRunnable _, scheduler => scheduler
  | .setRunning _, scheduler => scheduler
  | .schedulerSwitch _, scheduler => scheduler
  | .nextProcess _, scheduler => scheduler
  | _, scheduler => !scheduler

/-- Code in which every instruction has its lock and what it needs after it. -/
def Disciplined (scheduler : Bool) : List (Instr n L) → Prop
  | [] => True
  | i :: k =>
      i.InScheduler scheduler ∧ (∀ lock, 0 ≤ owes (.spin lock) (i :: k)) ∧
        (∀ lock, i.needs = some lock → 0 < owes (.spin lock) (i :: k)) ∧ Follows i k ∧
          Disciplined scheduler k

section disciplined

variable {scheduler : Bool} {i : Instr n L} {k k' : List (Instr n L)} {lock : SpinLock L} {l : L}

theorem Disciplined.tail (h : Disciplined scheduler (i :: k)) : Disciplined scheduler k :=
  h.2.2.2.2

theorem Disciplined.owes_nonneg (h : Disciplined scheduler k) : 0 ≤ owes (.spin lock) k := by
  cases k with
  | nil => exact Int.le_refl 0
  | cons i k => exact h.2.1 lock

/-- An instruction that needs a lock has it. -/
theorem Disciplined.owes_pos (h : Disciplined scheduler (i :: k)) (hi : i.needs = some lock) :
    0 < owes (.spin lock) (i :: k) := h.2.2.1 lock hi

/-- An instruction that runs under `Process_lock`, in front of code that holds it. -/
theorem Disciplined.cons_of_owes (h : Disciplined scheduler k) (hside : i.InScheduler scheduler)
    (hpos : 0 < owes (.spin .process) k) (hneeds : i.needs = some .process)
    (hweight : ∀ lock, weight (.spin lock) i = 0) (hfollows : Follows i k) :
    Disciplined scheduler (i :: k) := by
  have howes : ∀ lock, owes (.spin lock) (i :: k) = owes (.spin lock) k := by
    intro lock
    rw [owes_cons, hweight, Int.zero_add]
  refine ⟨hside, fun lock => ?_, fun lock hlock => ?_, hfollows, h⟩
  · rw [howes]
    exact h.owes_nonneg
  · obtain rfl : SpinLock.process = lock := Option.some.inj (hneeds.symm.trans hlock)
    rw [howes]
    exact hpos

theorem Disciplined.append (h : Disciplined scheduler k) (h' : Disciplined scheduler k')
    (hplain : HeadPlain k') : Disciplined scheduler (k ++ k') := by
  induction k with
  | nil => exact h'
  | cons i k ih =>
    obtain ⟨hside, hnonneg, hneeds, hfollows, hk⟩ := h
    have hle : ∀ lock, owes (.spin lock) (i :: k) ≤ owes (.spin lock) (i :: (k ++ k')) := by
      intro lock
      have hk' : 0 ≤ owes (.spin lock) k' := h'.owes_nonneg
      simp only [owes_cons, owes_append]
      omega
    exact ⟨hside, fun lock => Int.le_trans (hnonneg lock) (hle lock),
      fun lock hi => Int.lt_of_lt_of_le (hneeds lock hi) (hle lock), hfollows.append hplain, ih hk⟩

/-- Where `Process_lock` is not held there is no switch before it is taken. -/
theorem Disciplined.noSwitch (h : Disciplined scheduler k)
    (hzero : owes (.spin .process) k = 0) : NoSwitch k := by
  induction k with
  | nil => trivial
  | cons i k ih =>
    have hneeds : i.needs ≠ some .process := fun hi => by
      have := h.owes_pos hi
      omega
    rw [owes_cons] at hzero
    unfold NoSwitch
    split
    · trivial
    · trivial
    · trivial
    · next hclear htest heq =>
      obtain ⟨rfl, rfl⟩ := List.cons.inj heq
      refine ⟨?_, ih h.tail ?_⟩
      · cases i <;> simp_all [Instr.needs, Instr.Switches]
      · have hweight : weight (.spin .process) i = 0 := by
          cases i with
          | testAndSet lock => cases lock <;> simp_all [weight]
          | clear lock => cases lock <;> simp_all [weight]
          | _ => simp_all [weight, Instr.needs]
        omega

end disciplined

/-! ## Section 4: The Code of the Functions -/

section functions

variable {scheduler : Bool} {lock : L} {i : Fin n} {k : List (Instr n L)}

attribute [local simp] Disciplined Instr.InScheduler Instr.needs Follows HeadPlain weight

theorem disciplined_acquire : Disciplined false (sleepLockAcquire lock : List (Instr n L)) := by
  simp [sleepLockAcquire, spinLockAcquire]
  grind

theorem disciplined_wait : Disciplined false (sleepLockWait lock : List (Instr n L)) := by
  simp only [sleepLockWait, spinLockAcquire, spinLockRelease, processSleepOn, List.cons_append,
    List.nil_append, Disciplined, Instr.InScheduler, Instr.needs, Follows, HeadPlain, Releases,
    owes_cons, owes_nil, weight]
  simp [Instr.Switches]
  grind

theorem disciplined_take : Disciplined false (sleepLockTake lock : List (Instr n L)) := by
  simp [sleepLockTake, spinLockRelease]
  grind

theorem disciplined_raiseAlarm (hk : Disciplined false k) (hp : 0 < owes (.spin .process) k)
    (hplain : HeadPlain k) :
    ∀ slots : List (Fin n), Disciplined false (slots.map (.raiseAlarm lock) ++ k) ∧
      (∀ d, owes d (slots.map (.raiseAlarm lock) ++ k) = owes d k) ∧
        HeadPlain (slots.map (.raiseAlarm lock) ++ k) := by
  intro slots
  induction slots with
  | nil => exact ⟨hk, fun _ => rfl, hplain⟩
  | cons i slots ih =>
    obtain ⟨hdis, howes, hhead⟩ := ih
    have hcons : ∀ d, owes d (.raiseAlarm lock i :: (slots.map (.raiseAlarm lock) ++ k)) =
        owes d k := by
      intro d
      rw [owes_cons, howes]
      cases d <;> exact Int.zero_add _
    rw [List.map_cons, List.cons_append]
    refine ⟨⟨rfl, fun lock' => ?_, fun lock' hneeds => ?_, hhead, hdis⟩, hcons, trivial⟩
    · rw [hcons]
      exact hk.owes_nonneg
    · obtain rfl : SpinLock.process = lock' := Option.some.inj hneeds
      rw [hcons]
      exact hp

theorem disciplined_release : Disciplined false (sleepLockRelease lock : List (Instr n L)) := by
  have hend : Disciplined false
      (spinLockRelease .process ++ spinLockRelease (.access lock) : List (Instr n L)) := by
    simp [spinLockRelease]
    grind
  obtain ⟨halarm, howes, hplain⟩ := @disciplined_raiseAlarm n L _ lock _ hend
    (by simp [spinLockRelease]) trivial (List.finRange n)
  have hcode : (sleepLockRelease lock : List (Instr n L)) =
      .incrementVeto :: .testAndSet (.access lock) :: .clearLocked lock :: .incrementVeto ::
        .testAndSet .process :: ((List.finRange n).map (.raiseAlarm lock) ++
          (spinLockRelease .process ++ spinLockRelease (.access lock))) := by
    simp [sleepLockRelease, spinLockAcquire, schedulerRaiseAlarm]
  rw [hcode]
  generalize (List.finRange n).map (.raiseAlarm lock) ++
    (spinLockRelease .process ++ spinLockRelease (.access lock)) = tail at halarm howes hplain ⊢
  have hveto : ∀ k, HeadPlain (.incrementVeto :: k : List (Instr n L)) := fun _ => trivial
  have hclear : ∀ k, HeadPlain (.clearLocked lock :: k : List (Instr n L)) := fun _ => trivial
  simp only [Disciplined, halarm, owes_cons, howes, Instr.InScheduler, Instr.needs, Follows,
    hplain, hveto, hclear, weight, spinLockRelease, List.cons_append, List.nil_append, owes_nil]
  simp
  grind

theorem disciplined_preempt : Disciplined false (processPreempt : List (Instr n L)) := by
  simp [processPreempt, spinLockRelease, spinLockAcquire, Releases]
  grind

theorem disciplined_book : Disciplined false (schedulerBook : List (Instr n L)) := by
  simp [schedulerBook, spinLockAcquire]
  grind

theorem disciplined_spinLockRelease :
    Disciplined false (spinLockRelease .process : List (Instr n L)) := by
  simp [spinLockRelease]
  grind

theorem disciplined_fork :
    Disciplined false (forkSucceeds i : List (Instr n L)) ∧
      Disciplined false (forkFails i : List (Instr n L)) := by
  simp [forkSucceeds, forkFails, spinLockAcquire, spinLockRelease]
  grind

theorem disciplined_round : Disciplined true (scheduleRound i : List (Instr n L)) := by
  simp [scheduleRound, spinLockAcquire, spinLockRelease, Releases]
  grind

end functions

section outcome

variable [NeZero n] {Cpu : Type*} {s : State n Cpu L} {c : Cpu}
  {b scheduler : Bool} {i : Instr n L} {k : List (Instr n L)}

/-- Code stays disciplined when an instruction is replaced by its outcome. -/
theorem Disciplined.outcome (h : Disciplined scheduler (i :: k)) :
    Disciplined scheduler (s.outcomeCode c b i ++ k) := by
  have hk := h.tail
  have hside : i.InScheduler scheduler := h.1
  cases i with
  | testAndSet lock =>
    rw [State.outcomeCode]
    split
    · exact h
    · exact hk
  | whileLocked lock =>
    obtain rfl : scheduler = false := by simpa [Instr.InScheduler] using hside
    have hplain : HeadPlain k := h.2.2.2.1
    rw [State.outcomeCode]
    split
    · exact disciplined_wait.append hk hplain
    · exact disciplined_take.append hk hplain
  | ifPreemptible =>
    obtain rfl : scheduler = false := by simpa [Instr.InScheduler] using hside
    rw [State.outcomeCode]
    split
    · exact disciplined_preempt.append hk h.2.2.2.1
    · exact hk
  | ifPreempt =>
    obtain rfl : scheduler = false := by simpa [Instr.InScheduler] using hside
    obtain ⟨hrel, hplain⟩ : Releases k ∧ HeadPlain k := h.2.2.2.1
    have hpos : 0 < owes (.spin .process) k := by simpa [weight] using h.owes_pos rfl
    rw [State.outcomeCode]
    split
    · have hnext : Disciplined false (.schedulerReturn :: k) :=
        hk.cons_of_owes rfl hpos rfl (fun _ => rfl) ⟨hrel, hplain⟩
      refine hnext.cons_of_owes rfl ?_ rfl (fun _ => rfl) rfl
      simpa [weight] using hpos
    · exact hk
  | book slots =>
    obtain rfl : scheduler = false := by simpa [Instr.InScheduler] using hside
    cases slots with
    | nil =>
      rw [State.outcomeCode, List.append_assoc]
      exact disciplined_spinLockRelease.append (disciplined_book.append hk h.2.2.2.1) trivial
    | cons j slots =>
      rw [State.outcomeCode]
      split
      · refine Disciplined.append ?_ hk h.2.2.2.1
        simp [spinLockRelease, Disciplined, Instr.InScheduler, Instr.needs, Follows, HeadPlain,
          weight]
        grind
      · exact ⟨hside, h.2.1, h.2.2.1, h.2.2.2.1, hk⟩
  | processInitialize j =>
    obtain rfl : scheduler = false := by simpa [Instr.InScheduler] using hside
    rw [State.outcomeCode]
    split
    · exact ⟨rfl, h.2.1, fun lock hneeds => (nomatch hneeds), h.2.2.2.1, hk⟩
    · exact disciplined_fork.2.append hk h.2.2.2.1
  | pagingClone j =>
    obtain rfl : scheduler = false := by simpa [Instr.InScheduler] using hside
    rw [State.outcomeCode]
    split
    · exact disciplined_fork.1.append hk h.2.2.2.1
    · exact disciplined_fork.2.append hk h.2.2.2.1
  | ifRunnable j =>
    obtain rfl : scheduler = true := by simpa [Instr.InScheduler] using hside
    obtain ⟨hrel, hplain⟩ : Releases k ∧ HeadPlain k := h.2.2.2.1
    have hpos : 0 < owes (.spin .process) k := by simpa [weight] using h.owes_pos rfl
    rw [State.outcomeCode]
    split
    · have hnext : Disciplined true (.schedulerSwitch j :: k) :=
        hk.cons_of_owes rfl hpos rfl (fun _ => rfl) ⟨hrel, hplain⟩
      refine hnext.cons_of_owes rfl ?_ rfl (fun _ => rfl) rfl
      simpa [weight] using hpos
    · exact hk
  | nextProcess j =>
    obtain rfl : scheduler = true := by simpa [Instr.InScheduler] using hside
    exact disciplined_round.append hk h.2.2.2.1
  | _ => exact hk

/-- What an instruction takes, less what it gives back. -/
def State.gain (s : State n Cpu L) : Duty n L → Instr n L → Int
  | .spin lock, .testAndSet lock' => if lock' = lock ∧ s.flag lock = false then 1 else 0
  | .spin lock, .clear lock' => if lock' = lock then -1 else 0
  | .locks, .testAndSet lock => if s.flag lock = false then 1 else 0
  | .locks, .clear _ => -1
  | .veto, .incrementVeto => 1
  | .veto, .decrementVeto => -1
  | .booked i, .book (j :: _) => if j = i ∧ s.status i = .idle then 1 else 0
  | .booked i, .activate j => if j = i then -1 else 0
  | .booked i, .giveBack j => if j = i then -1 else 0
  | .clearLocked lock, .clearLocked lock' => if lock' = lock then -1 else 0
  | _, _ => 0

theorem owes_outcome (d : Duty n L) :
    owes d (s.outcomeCode c b i ++ k) = owes d (i :: k) + s.gain d i := by
  rw [owes_append, owes_cons]
  suffices h : owes d (s.outcomeCode c b i) = weight d i + s.gain d i by omega
  cases i with
  | testAndSet lock =>
    rw [State.outcomeCode]
    split <;> cases d <;> simp [weight, State.gain] <;> grind
  | whileLocked lock =>
    rw [State.outcomeCode]
    split <;> cases d <;> simp [weight, State.gain, sleepLockWait, sleepLockTake,
      spinLockAcquire, spinLockRelease, processSleepOn]
    grind
  | ifPreemptible =>
    rw [State.outcomeCode]
    split <;> cases d <;> simp [weight, State.gain, processPreempt, spinLockAcquire,
      spinLockRelease]
    grind
  | ifPreempt =>
    rw [State.outcomeCode]
    split <;> cases d <;> simp [weight, State.gain]
  | book slots =>
    cases slots with
    | nil =>
      rw [State.outcomeCode]
      cases d <;> simp [weight, State.gain, schedulerBook, spinLockAcquire, spinLockRelease]
      grind
    | cons j slots =>
      rw [State.outcomeCode]
      split <;> cases d <;> simp_all [weight, State.gain, spinLockRelease]
      all_goals grind
  | processInitialize j =>
    rw [State.outcomeCode]
    split <;> cases d <;> simp [weight, State.gain, forkFails, spinLockAcquire, spinLockRelease]
    grind
  | pagingClone j =>
    rw [State.outcomeCode]
    split <;> cases d <;> simp [weight, State.gain, forkSucceeds, forkFails, spinLockAcquire,
      spinLockRelease] <;> grind
  | ifRunnable j =>
    rw [State.outcomeCode]
    split <;> cases d <;> simp [weight, State.gain]
  | nextProcess j =>
    rw [State.outcomeCode]
    cases d <;> simp [weight, State.gain, scheduleRound, spinLockAcquire, spinLockRelease]
    grind
  | _ => cases d <;> simp [State.outcomeCode, weight, State.gain] <;> grind

omit [DecidableEq L] in
/-- A switch is not reached before the release when the instruction did not lead to one. -/
theorem NoSwitch.outcome (h : NoSwitch (i :: k)) (hi : i ≠ .clear .process)
    (htaken : s.flag .process = true) : NoSwitch (s.outcomeCode c b i ++ k) := by
  unfold NoSwitch at h
  split at h
  · contradiction
  · next heq => exact absurd (List.cons.inj heq).1 hi
  · next heq =>
    obtain ⟨rfl, rfl⟩ := List.cons.inj heq
    rw [State.outcomeCode, if_pos htaken]
    trivial
  · next hclear htest heq =>
    obtain ⟨rfl, rfl⟩ := List.cons.inj heq
    obtain ⟨hnot, hk⟩ := h
    refine NoSwitch.append ?_ hk
    cases i with
    | testAndSet lock =>
      rw [State.outcomeCode]
      split
      · cases lock with
        | process => trivial
        | access l => exact ⟨not_false, trivial⟩
      · trivial
    | whileLocked lock =>
      rw [State.outcomeCode]
      split <;> simp [sleepLockWait, sleepLockTake, spinLockRelease, spinLockAcquire, NoSwitch,
        Instr.Switches]
    | ifPreemptible =>
      rw [State.outcomeCode]
      split <;> simp [processPreempt, spinLockAcquire, NoSwitch, Instr.Switches]
    | book slots =>
      cases slots with
      | nil => simp [State.outcomeCode, spinLockRelease, NoSwitch]
      | cons j slots =>
        rw [State.outcomeCode]
        split <;> simp [spinLockRelease, NoSwitch, Instr.Switches]
    | processInitialize j =>
      rw [State.outcomeCode]
      split <;> simp [forkFails, spinLockAcquire, NoSwitch, Instr.Switches]
    | pagingClone j =>
      rw [State.outcomeCode]
      split <;> simp [forkSucceeds, forkFails, spinLockAcquire, NoSwitch, Instr.Switches]
    | nextProcess j =>
      simp [State.outcomeCode, scheduleRound, spinLockAcquire, NoSwitch, Instr.Switches]
    | ifPreempt => exact absurd trivial hnot
    | ifRunnable j => exact absurd trivial hnot
    | _ => trivial

omit [NeZero n] [DecidableEq L] in
theorem HeadPlain.head {j : Instr n L} (h : HeadPlain k) (hj : k.head? = some j) :
    HeadPlain [j] := by
  cases k with
  | nil => cases hj
  | cons i k =>
    obtain rfl := Option.some.inj hj
    cases i <;> exact h

/-- The instructions that come only after certain others, and what the test before them has
    found. -/
inductive Before (s : State n Cpu L) : Instr n L → Instr n L → Prop where
  | test (lock) : Before s .incrementVeto (.testAndSet lock)
  | retest (lock) : s.flag lock = true → Before s (.testAndSet lock) (.testAndSet lock)
  | veto (lock) : Before s (.clear lock) .decrementVeto
  | free (lock) : s.locked lock = false → Before s (.whileLocked lock) (.setLocked lock)
  | alarm (lock) : Before s (.setWakeupOn (some lock)) (.setAsleep lock)
  | runnable (j) : s.status j = .runnable → Before s (.ifRunnable j) (.setRunning j)
  | running (j) : Before s (.setRunning j) (.schedulerSwitch j)

omit [DecidableEq L] in
/-- What the code starts with after an instruction. -/
theorem before_of_head {j : Instr n L} (hfollows : Follows i k)
    (hhead : (s.outcomeCode c b i ++ k).head? = some j) (hj : ¬HeadPlain [j]) :
    Before s i j := by
  have hplain : HeadPlain k → k.head? ≠ some j := fun hk hkj => hj (hk.head hkj)
  cases i with
  | testAndSet lock =>
    rw [State.outcomeCode] at hhead
    split at hhead
    · next htaken =>
      obtain rfl := Option.some.inj hhead
      exact .retest lock htaken
    · exact absurd hhead (hplain hfollows)
  | whileLocked lock =>
    rw [State.outcomeCode] at hhead
    split at hhead
    · obtain rfl := Option.some.inj hhead
      exact absurd trivial hj
    · next hfree =>
      obtain rfl := Option.some.inj hhead
      exact .free lock (by simpa using hfree)
  | ifPreemptible =>
    rw [State.outcomeCode] at hhead
    split at hhead
    · obtain rfl := Option.some.inj hhead
      exact absurd trivial hj
    · exact absurd hhead (hplain hfollows)
  | ifPreempt =>
    rw [State.outcomeCode] at hhead
    split at hhead
    · obtain rfl := Option.some.inj hhead
      exact absurd trivial hj
    · exact absurd hhead (hplain hfollows.2)
  | book slots =>
    cases slots with
    | nil =>
      obtain rfl := Option.some.inj hhead
      exact absurd trivial hj
    | cons j' slots =>
      rw [State.outcomeCode] at hhead
      split at hhead <;> obtain rfl := Option.some.inj hhead <;> exact absurd trivial hj
  | processInitialize j' =>
    rw [State.outcomeCode] at hhead
    split at hhead <;> obtain rfl := Option.some.inj hhead <;> exact absurd trivial hj
  | pagingClone j' =>
    rw [State.outcomeCode] at hhead
    split at hhead <;> obtain rfl := Option.some.inj hhead <;> exact absurd trivial hj
  | ifRunnable j' =>
    rw [State.outcomeCode] at hhead
    split at hhead
    · next hrunnable =>
      obtain rfl := Option.some.inj hhead
      exact .runnable j' hrunnable
    · exact absurd hhead (hplain hfollows.2)
  | nextProcess j' =>
    obtain rfl := Option.some.inj hhead
    exact absurd trivial hj
  | incrementVeto =>
    obtain ⟨lock, hlock⟩ := hfollows
    obtain rfl := Option.some.inj (hlock.symm.trans hhead)
    exact .test lock
  | setWakeupOn alarm =>
    cases alarm with
    | none => exact absurd hhead (hplain hfollows)
    | some l =>
      have hk : k.head? = some (.setAsleep l) := hfollows
      obtain rfl := Option.some.inj (hk.symm.trans hhead)
      exact .alarm l
  | clear lock =>
    have hk : k.head? = some .decrementVeto := hfollows
    obtain rfl := Option.some.inj (hk.symm.trans hhead)
    exact .veto lock
  | setRunning j' =>
    have hk : k.head? = some (.schedulerSwitch j') := hfollows
    obtain rfl := Option.some.inj (hk.symm.trans hhead)
    exact .running j'
  | setAsleep l =>
    have hk : k.head? = some .schedulerReturn := hfollows
    obtain rfl := Option.some.inj (hk.symm.trans hhead)
    exact absurd trivial hj
  | setRunnable =>
    have hk : k.head? = some .schedulerReturn := hfollows
    obtain rfl := Option.some.inj (hk.symm.trans hhead)
    exact absurd trivial hj
  | schedulerReturn => exact absurd hhead (hplain hfollows.2)
  | schedulerSwitch j' => exact absurd hhead (hplain hfollows.2)
  | _ => exact absurd hhead (hplain hfollows)

end outcome

end Tasks

end Avos
