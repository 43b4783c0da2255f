import Avos.Library.Transition
import Avos.Taskmaster.ProcessTable
import Mathlib.Logic.Function.Basic

/-! # Processes on Several CPUs

  Any number of CPUs run `Schedule`, each on a stack of its own, and switch to the processes,
  which sleep on sleep locks, are preempted, fork and go back to the scheduler. The sources are
  `sleeplock.c`, `spinlock.c`, `scheduler.c`, `process.c`, `state.c` and `context.c`.

  The code of a function is a list of instructions. An instruction is one access to what the
  CPUs share, or to the preemption vetos on the current stack; a test or a loop is an instruction
  that puts the code of its outcome in its place. A stack holds the code that is left of each
  call on it, and an interrupt puts a call of `Process_Preempt` on top.

  `n` is `KERNEL_MAX_PROCS`, and `L` are the sleep locks.
-/

open Transition

namespace Avos

namespace Tasks

/-! ## Section 1: Code -/

/-- `Process_lock`, and the `access_lock` of each sleep lock. -/
inductive SpinLock (L : Type*) where
  | process
  | access (lock : L)
  deriving DecidableEq

/-- The instructions. The process of an instruction that names none is
    `STATE_CURRENT->process`. -/
inductive Instr (n : Nat) (L : Type*) where
  -- `SpinLock_Acquire` and `SpinLock_Release`
  | incrementVeto
  | testAndSet (lock : SpinLock L)
  | clear (lock : SpinLock L)
  | decrementVeto
  -- `SleepLock_Acquire` and `SleepLock_Release`
  | whileLocked (lock : L)
  | setLocked (lock : L)
  | clearLocked (lock : L)
  -- `Process_SleepOn(lock)`
  | setWakeupOn (alarm : Option L)
  | setAsleep (lock : L)
  -- `SCHEDULER_RETURN`
  | schedulerReturn
  -- one round of `Scheduler_RaiseAlarm`
  | raiseAlarm (alarm : L) (i : Fin n)
  -- `Process_Preempt`
  | ifPreemptible
  | ifPreempt
  | setRunnable
  -- `Process_Fork`; `book` is the loop of `Scheduler_Book` over the slots that are left
  | book (slots : List (Fin n))
  | processInitialize (forked : Fin n)
  | pagingClone (forked : Fin n)
  | activate (forked : Fin n)
  | giveBack (forked : Fin n)
  -- `Schedule`
  | ifRunnable (i : Fin n)
  | setRunning (i : Fin n)
  | schedulerSwitch (i : Fin n)
  | nextProcess (i : Fin n)
  deriving DecidableEq

section code

variable {n : Nat} {L : Type*}

/-- `SpinLock_Acquire`. -/
def spinLockAcquire (lock : SpinLock L) : List (Instr n L) := [.incrementVeto, .testAndSet lock]

/-- `SpinLock_Release`. -/
def spinLockRelease (lock : SpinLock L) : List (Instr n L) := [.clear lock, .decrementVeto]

/-- `Process_SleepOn`. -/
def processSleepOn (lock : L) : List (Instr n L) :=
  [.setWakeupOn (some lock), .setAsleep lock, .schedulerReturn, .setWakeupOn none]

/-- `SleepLock_Acquire`. -/
def sleepLockAcquire (lock : L) : List (Instr n L) :=
  spinLockAcquire (.access lock) ++ [.whileLocked lock]

/-- The body of the loop in `SleepLock_Acquire`. -/
def sleepLockWait (lock : L) : List (Instr n L) :=
  spinLockRelease (.access lock) ++ spinLockAcquire .process ++ processSleepOn lock ++
    spinLockRelease .process ++ spinLockAcquire (.access lock) ++ [.whileLocked lock]

/-- What `SleepLock_Acquire` does after the loop. -/
def sleepLockTake (lock : L) : List (Instr n L) :=
  .setLocked lock :: spinLockRelease (.access lock)

/-- `Scheduler_RaiseAlarm`. -/
def schedulerRaiseAlarm (alarm : L) : List (Instr n L) :=
  (List.finRange n).map (.raiseAlarm alarm)

/-- `SleepLock_Release`. -/
def sleepLockRelease (lock : L) : List (Instr n L) :=
  spinLockAcquire (.access lock) ++ .clearLocked lock :: (spinLockAcquire .process ++
    schedulerRaiseAlarm lock ++ spinLockRelease .process ++ spinLockRelease (.access lock))

/-- `Process_Preempt`, when the current stack is preemptible. -/
def processPreempt : List (Instr n L) :=
  spinLockAcquire .process ++ [.ifPreempt] ++ spinLockRelease .process

/-- `Scheduler_Book`. -/
def schedulerBook : List (Instr n L) :=
  spinLockAcquire .process ++ [.book (List.finRange n)]

/-- The end of `Process_Fork`. -/
def forkSucceeds (forked : Fin n) : List (Instr n L) :=
  spinLockAcquire .process ++ [.activate forked] ++ spinLockRelease .process

/-- The end of `Process_Fork` when the process could not be made. -/
def forkFails (forked : Fin n) : List (Instr n L) :=
  spinLockAcquire .process ++ [.giveBack forked] ++ spinLockRelease .process

/-- `Process_FirstEntryToUserSpace`. -/
def processFirstEntry : List (Instr n L) := spinLockRelease .process

/-- A round of `Schedule`. -/
def scheduleRound (i : Fin n) : List (Instr n L) :=
  spinLockAcquire .process ++ [.ifRunnable i] ++ spinLockRelease .process ++ [.nextProcess i]

end code

/-! ## Section 2: States -/

/-- A stack: the code that is left of the calls on it, the latest one first, and
    `preemption_vetos`. -/
structure Task (n : Nat) (L : Type*) where
  frames : List (List (Instr n L))
  vetos : BitVec 32

/-- The stack of a new process: `State_Initialize` and `Context_Initialize`. -/
def Task.new {n : Nat} {L : Type*} : Task n L := ⟨[processFirstEntry], 0⟩

/-- What a CPU has done to `Process_lock`: taken it, switched to another stack, released it. -/
inductive LockEvent where
  | take
  | switch
  | release
  deriving DecidableEq

/-- The spin locks, the sleep locks, the processes and the CPUs. `running` is the process
    that executes on a CPU, `none` for its scheduler. The rest is history: `holds` says who has
    set a sleep lock and not cleared it, `accessHeld` which access locks a process has taken and
    not given back, and `events` what each CPU has done to `Process_lock`, the latest first. -/
structure State (n : Nat) (Cpu L : Type*) where
  flag : SpinLock L → Bool
  locked : L → Bool
  status : Fin n → ProcessStatus
  wakeupOn : Fin n → Option L
  process : Fin n → Task n L
  scheduler : Cpu → Task n L
  running : Cpu → Option (Fin n)
  holds : Fin n → L → Bool
  accessHeld : Fin n → List L
  events : Cpu → List LockEvent

/-- A function that a process calls. -/
inductive Function (L : Type*) where
  | sleepLockAcquire (lock : L)
  | sleepLockRelease (lock : L)
  | processFork

/-- A CPU executes an instruction, with the outcome of a test that depends on something else
    (the timer, free memory); a process calls a function; an interrupt arrives; a process that
    sleeps is woken by something else. -/
inductive Action (n : Nat) (Cpu L : Type*) where
  | step (c : Cpu) (outcome : Bool)
  | call (c : Cpu) (f : Function L)
  | interrupt (c : Cpu)
  | wake (i : Fin n)

namespace State

variable {n : Nat} {Cpu L : Type*} [DecidableEq Cpu]

/-- The stack that CPU `c` executes on. -/
def current (s : State n Cpu L) (c : Cpu) : Task n L :=
  match s.running c with
  | none => s.scheduler c
  | some p => s.process p

def setCurrent (s : State n Cpu L) (c : Cpu) (t : Task n L) : State n Cpu L :=
  match s.running c with
  | none => { s with scheduler := Function.update s.scheduler c t }
  | some p => { s with process := Function.update s.process p t }

def setStatus (s : State n Cpu L) (i : Fin n) (status : ProcessStatus) : State n Cpu L :=
  { s with status := Function.update s.status i status }

/-! ## Section 3: Steps -/

variable [NeZero n] [DecidableEq L]

/-- The access locks that a process has, after it has done something to a spin lock. -/
def accessAfter (held : List L) : SpinLock L → LockEvent → List L
  | .access lock, .take => lock :: held
  | .access lock, .release => held.erase lock
  | _, _ => held

/-- CPU `c` does something to a spin lock, for the process `p`. -/
def record (s : State n Cpu L) (c : Cpu) (p : Option (Fin n)) (lock : SpinLock L)
    (e : LockEvent) : State n Cpu L :=
  { s with
    accessHeld := fun q =>
      if some q = p then accessAfter (s.accessHeld q) lock e else s.accessHeld q
    events := fun c' => if c' = c ∧ lock = .process then e :: s.events c' else s.events c' }

/-- The code that takes the place of an instruction. -/
def outcomeCode (s : State n Cpu L) (c : Cpu) (outcome : Bool) : Instr n L → List (Instr n L)
  | .testAndSet lock => if s.flag lock then [.testAndSet lock] else []
  | .whileLocked lock => if s.locked lock then sleepLockWait lock else sleepLockTake lock
  | .ifPreemptible => if (s.current c).vetos = 0 then processPreempt else []
  | .ifPreempt =>
      if (s.running c).map s.status = some .running ∧ outcome then [.setRunnable, .schedulerReturn]
      else []
  | .book slots =>
      match slots with
      | [] => spinLockRelease .process ++ schedulerBook
      | i :: slots =>
          if s.status i = .idle then spinLockRelease .process ++ [.processInitialize i]
          else [.book slots]
  | .processInitialize i => if outcome then [.pagingClone i] else forkFails i
  | .pagingClone i => if outcome then forkSucceeds i else forkFails i
  | .ifRunnable i => if s.status i = .runnable then [.setRunning i, .schedulerSwitch i] else []
  | .nextProcess i => scheduleRound (i + 1)
  | _ => []

/-- The vetos after an instruction. -/
def vetosAfter (v : BitVec 32) : Instr n L → BitVec 32
  | .incrementVeto => v + 1
  | .decrementVeto => v - 1
  | _ => v

/-- What an instruction does to the shared state, for the process `p` (`none` for the
    scheduler). -/
def effect (s : State n Cpu L) (c : Cpu) (outcome : Bool) (p : Option (Fin n)) :
    Instr n L → State n Cpu L
  | .testAndSet lock =>
      if s.flag lock then s
      else { s with flag := Function.update s.flag lock true }.record c p lock .take
  | .clear lock => { s with flag := Function.update s.flag lock false }.record c p lock .release
  | .setLocked lock =>
      { s with
        locked := Function.update s.locked lock true
        holds := fun q l => if some q = p ∧ l = lock then true else s.holds q l }
  | .clearLocked lock =>
      { s with
        locked := Function.update s.locked lock false
        holds := fun q l => if some q = p ∧ l = lock then false else s.holds q l }
  | .setWakeupOn alarm => { s with wakeupOn := fun q => if some q = p then alarm else s.wakeupOn q }
  | .setAsleep _ => { s with status := fun q => if some q = p then .asleep else s.status q }
  | .setRunnable => { s with status := fun q => if some q = p then .runnable else s.status q }
  | .schedulerReturn =>
      { s with running := Function.update s.running c none }.record c p .process .switch
  | .raiseAlarm alarm i =>
      if s.status i = .asleep ∧ s.wakeupOn i = some alarm then
        { s.setStatus i .runnable with wakeupOn := Function.update s.wakeupOn i none }
      else s
  | .book slots =>
      match slots with
      | [] => s
      | i :: _ => if s.status i = .idle then s.setStatus i .booked else s
  | .processInitialize i =>
      if outcome then { s with process := Function.update s.process i .new } else s
  | .activate i => s.setStatus i .runnable
  | .giveBack i => s.setStatus i .idle
  | .setRunning i => s.setStatus i .running
  | .schedulerSwitch i =>
      { s with running := Function.update s.running c (some i) }.record c p .process .switch
  | _ => s

/-- The stack of CPU `c` after `i`, with the code `k` of the same call and the calls `fs` below
    it left. -/
def taskAfter (s : State n Cpu L) (c : Cpu) (outcome : Bool) (i : Instr n L)
    (k : List (Instr n L)) (fs : List (List (Instr n L))) : Task n L :=
  ⟨(s.outcomeCode c outcome i ++ k) :: fs, vetosAfter (s.current c).vetos i⟩

/-- CPU `c` executes `i`. -/
def exec (s : State n Cpu L) (c : Cpu) (outcome : Bool) (i : Instr n L) (k : List (Instr n L))
    (fs : List (List (Instr n L))) : State n Cpu L :=
  (s.setCurrent c (s.taskAfter c outcome i k fs)).effect c outcome (s.running c) i

/-- The code of a function that process `p` calls. A sleep lock is released only by a process
    that has acquired it. -/
def callCode (s : State n Cpu L) (p : Fin n) : Function L → Option (List (Instr n L))
  | .sleepLockAcquire lock => some (Tasks.sleepLockAcquire lock)
  | .sleepLockRelease lock =>
      if s.holds p lock then some (Tasks.sleepLockRelease lock) else none
  | .processFork => some schedulerBook

/-- The next state. -/
def next (s : State n Cpu L) : Action n Cpu L → Option (State n Cpu L)
  | .step c outcome =>
      match (s.current c).frames with
      | [] => none
      | [] :: fs => some (s.setCurrent c { s.current c with frames := fs })
      | (i :: k) :: fs => some (s.exec c outcome i k fs)
  | .call c f =>
      match s.running c, (s.current c).frames with
      | some p, [] =>
          (s.callCode p f).map fun code => s.setCurrent c { s.current c with frames := [code] }
      | _, _ => none
  | .interrupt c =>
      match s.running c with
      | none => none
      | some _ =>
          some (s.setCurrent c { s.current c with
            frames := [.ifPreemptible] :: (s.current c).frames })
  | .wake i => if s.status i = .asleep then some (s.setStatus i .runnable) else none

/-- All CPUs start with `Schedule`. A slot is idle, or holds a process that is ready for its
    first entry. -/
structure Initial (s : State n Cpu L) : Prop where
  flag : ∀ lock, s.flag lock = false
  locked : ∀ lock, s.locked lock = false
  process : ∀ p, s.status p = .idle ∧ (s.process p).frames = [] ∨
    s.status p = .runnable ∧ s.process p = .new
  scheduler : ∀ c, s.scheduler c = ⟨[scheduleRound 0], 0⟩
  running : ∀ c, s.running c = none
  holds : ∀ p lock, s.holds p lock = false
  accessHeld : ∀ p, s.accessHeld p = []
  events : ∀ c, s.events c = []

/-- The processes and CPUs as a transition system. -/
def tasks (n : Nat) [NeZero n] (Cpu L : Type*) [DecidableEq Cpu] [DecidableEq L] :
    System (State n Cpu L) (Action n Cpu L) where
  init := Initial
  step s a s' := s.next a = some s'

end State

end Tasks

end Avos
