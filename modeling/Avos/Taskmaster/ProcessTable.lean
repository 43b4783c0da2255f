import Avos.Library.Chains
import Mathlib.Algebra.GroupWithZero.Nat
import Mathlib.Algebra.Ring.Int.Defs
import Mathlib.Data.List.FinRange

/-! # The Process Table

  `Scheduler_processes`, and the calls of `kernel/core/taskmaster/src/process.c` that
  make, wait for and terminate a process: `Process_Fork` with `Scheduler_Book`,
  `Process_Wait` and `Process_Terminate`.

  A pointer to a process is a slot of the table, and `PROCESS_NULL` is `none`. A call
  that follows a null pointer, or a loop that does not end, has no result.

  The memory of a process (its stack, directory and saved contexts) is no part of
  the table; whether it could be set up is a parameter of `processFork`.
-/

open Chains

namespace Avos

/-- `KERNEL_MAX_PROCS`. -/
abbrev kernelMaxProcs : Nat := 0x40

instance : NeZero kernelMaxProcs := ⟨by decide⟩

/-- A slot of `Scheduler_processes`. -/
abbrev Slot := Fin kernelMaxProcs

/-- `enum Process_Status`. -/
inductive ProcessStatus where
  | idle
  | booked
  | runnable
  | running
  | asleep
  | dead
  deriving DecidableEq, Repr

/-- `struct Process`, less its memory and its alarm. -/
structure Process where
  id : BitVec 32
  parent : Option Slot
  child : Option Slot
  sibling : Option Slot
  numChildren : BitVec 32
  status : ProcessStatus
  exitCode : BitVec 32
  endpoint : BitVec 32
  runTime : BitVec 32

/-- `Scheduler_processes` and `Process_next_pid`. -/
structure ProcessTable where
  procs : Slot → Process
  nextPid : BitVec 32

namespace ProcessTable

variable {t t' : ProcessTable} {p q kid primordial : Slot} {f : Process → Process}
  {head : Option Slot} {l : List Slot} {fuel : Nat}

/-- A store to fields of one process. -/
def modify (t : ProcessTable) (p : Slot) (f : Process → Process) : ProcessTable :=
  { t with procs := Function.update t.procs p (f (t.procs p)) }

@[simp] theorem modify_self : (t.modify p f).procs p = f (t.procs p) := by simp [modify]

@[simp] theorem modify_ne (h : q ≠ p) : (t.modify p f).procs q = t.procs q := by
  simp [modify, h]

theorem modify_apply : (t.modify p f).procs q = if q = p then f (t.procs p) else t.procs q := by
  simp [modify, Function.update_apply]

@[simp] theorem modify_nextPid : (t.modify p f).nextPid = t.nextPid := rfl

/-- The links of the child chains. -/
def sibling (t : ProcessTable) (p : Slot) : Option Slot := (t.procs p).sibling

/-! ## Section 1: Booking and Forking -/

/-- `Scheduler_Book`: the first idle slot. There is no result while no slot is idle:
    the source scans again. -/
def schedulerBook (t : ProcessTable) : Option (Slot × ProcessTable) :=
  match (List.finRange kernelMaxProcs).find? fun i => (t.procs i).status = .idle with
  | none => none
  | some i =>
      some (i, { t.modify i fun proc => { proc with status := .booked, id := t.nextPid } with
        nextPid := t.nextPid + 1 })

/-- `Process_Fork` by the process in slot `parent`, with its result. `initialized` is
    `Process_Initialize(forked_proc) && Paging_Clone(parent_proc, forked_proc)`. -/
def processFork (t : ProcessTable) (parent : Slot) (initialized : Bool) :
    Option (ProcessTable × BitVec 32) :=
  match t.schedulerBook with
  | none => none
  | some (forked, t) =>
      if !initialized then
        some (t.modify forked fun proc => { proc with status := .idle }, -1)
      else
        let t := t.modify forked fun proc =>
          { proc with
            parent := some parent
            child := none
            sibling := (t.procs parent).child
            numChildren := 0
            exitCode := -1
            runTime := (t.procs parent).runTime
            endpoint := (t.procs parent).endpoint }
        let t := t.modify parent fun proc =>
          { proc with numChildren := proc.numChildren + 1, child := some forked }
        let t := t.modify forked fun proc => { proc with status := .runnable }
        some (t, (t.procs parent).id)

/-- A booked slot was idle, and only it changes. -/
theorem schedulerBook_eq_some (h : t.schedulerBook = some (p, t')) :
    (t.procs p).status = .idle ∧
      t' = { t.modify p fun proc => { proc with status := .booked, id := t.nextPid } with
        nextPid := t.nextPid + 1 } := by
  rw [schedulerBook] at h
  split at h
  · cases h
  · next i hfind =>
    obtain ⟨rfl, rfl⟩ := Prod.mk.inj (Option.some.inj h)
    exact ⟨by simpa using List.find?_some hfind, rfl⟩

/-- A fork that fails gives the booked slot back; its pid is spent. -/
theorem processFork_false {r : BitVec 32} (h : t.processFork p false = some (t', r)) :
    ∃ forked, (t.procs forked).status = .idle ∧ r = -1 ∧
      t'.procs forked = { t.procs forked with id := t.nextPid } ∧
      ∀ q, q ≠ forked → t'.procs q = t.procs q := by
  rw [processFork] at h
  split at h
  · cases h
  · next forked tb hbook =>
    obtain ⟨hidle, rfl⟩ := schedulerBook_eq_some hbook
    simp only [Bool.not_false, if_true, Option.some.injEq, Prod.mk.injEq] at h
    obtain ⟨rfl, rfl⟩ := h
    refine ⟨forked, hidle, rfl, ?_, fun q hq => ?_⟩
    · simp [modify, hidle]
    · simp [modify, hq]

/-- A fork that succeeds turns the booked slot into the first child of the caller. -/
theorem processFork_booked {r : BitVec 32} {forked : Slot} {tb : ProcessTable}
    (hp : (t.procs p).status ≠ .idle) (hbook : t.schedulerBook = some (forked, tb))
    (h : t.processFork p true = some (t', r)) :
    (t.procs forked).status = .idle ∧ forked ≠ p ∧ r = (t.procs p).id ∧
      t'.procs forked =
        { id := t.nextPid
          parent := some p
          child := none
          sibling := (t.procs p).child
          numChildren := 0
          status := .runnable
          exitCode := -1
          endpoint := (t.procs p).endpoint
          runTime := (t.procs p).runTime } ∧
      t'.procs p =
        { t.procs p with
          numChildren := (t.procs p).numChildren + 1
          child := some forked } ∧
      ∀ q, q ≠ forked → q ≠ p → t'.procs q = t.procs q := by
  obtain ⟨hidle, rfl⟩ := schedulerBook_eq_some hbook
  have hne : forked ≠ p := fun heq => hp (heq ▸ hidle)
  rw [processFork, hbook] at h
  simp only [Bool.not_true, Bool.false_eq_true, if_false, Option.some.injEq, Prod.mk.injEq] at h
  obtain ⟨rfl, rfl⟩ := h
  refine ⟨hidle, hne, ?_, ?_, ?_, fun q hqf hqp => ?_⟩
  · simp [modify, hne.symm]
  · simp [modify, hne, hne.symm]
  · simp [modify, hne.symm]
  · simp [modify, hqf, hqp]

theorem processFork_true {r : BitVec 32} (hp : (t.procs p).status ≠ .idle)
    (h : t.processFork p true = some (t', r)) :
    ∃ forked, (t.procs forked).status = .idle ∧ forked ≠ p ∧ r = (t.procs p).id ∧
      t'.procs forked =
        { id := t.nextPid
          parent := some p
          child := none
          sibling := (t.procs p).child
          numChildren := 0
          status := .runnable
          exitCode := -1
          endpoint := (t.procs p).endpoint
          runTime := (t.procs p).runTime } ∧
      t'.procs p =
        { t.procs p with
          numChildren := (t.procs p).numChildren + 1
          child := some forked } ∧
      ∀ q, q ≠ forked → q ≠ p → t'.procs q = t.procs q := by
  cases hbook : t.schedulerBook with
  | none =>
    rw [processFork, hbook] at h
    cases h
  | some booked => exact ⟨booked.1, processFork_booked hp hbook h⟩

/-! ## Section 2: Waiting -/

/-- The inner loop of `Process_Wait`: take the first dead process that follows `kid` in
    the chain out of it. -/
def reapSibling (proc : Slot) : Nat → ProcessTable → Slot → Option ProcessTable
  | 0, _, _ => none
  | fuel + 1, t, kid =>
      match (t.procs kid).sibling with
      | none => some t
      | some next =>
          if (t.procs next).status = .dead then
            let t := t.modify next fun process => { process with status := .idle }
            let t := t.modify proc fun process =>
              { process with numChildren := process.numChildren - 1 }
            some (t.modify kid fun process =>
              { process with sibling := (t.procs next).sibling })
          else reapSibling proc fuel t next

/-- One pass of the outer loop of `Process_Wait`, from the call or from where the process
    is resumed to the return or to where it falls asleep. A pass that returns has the
    return value for its second component. -/
def processWait (t : ProcessTable) (proc : Slot) : Option (ProcessTable × Option (BitVec 32)) :=
  if (t.procs proc).numChildren = 0 then some (t, some (-1))
  else
    match (t.procs proc).child with
    | none => none
    | some kid =>
        if (t.procs kid).status = .dead then
          let retval := (t.procs kid).id
          let t := t.modify kid fun process => { process with status := .idle }
          let t := t.modify proc fun process =>
            { process with numChildren := process.numChildren - 1 }
          let t := t.modify proc fun process =>
            { process with child := (t.procs kid).sibling }
          some (t, some retval)
        else
          match t.reapSibling proc kernelMaxProcs kid with
          | none => none
          | some t => some (t.modify proc fun process => { process with status := .asleep }, none)

/-- The inner loop changes nothing, or takes a dead process `next` out of the chain,
    whose link was that of `kid'`. -/
theorem reapSibling_eq_some (hl : Chain t.sibling (some kid) l)
    (h : t.reapSibling p fuel kid = some t') :
    t' = t ∨ ∃ kid' ∈ l, ∃ next, t.sibling kid' = some next ∧ (t.procs next).status = .dead ∧
      t' = (((t.modify next fun proc => { proc with status := .idle }).modify p fun proc =>
        { proc with numChildren := proc.numChildren - 1 }).modify kid' fun proc =>
        { proc with sibling := t.sibling next }) := by
  induction fuel generalizing kid l with
  | zero => cases h
  | succ fuel ih =>
    obtain ⟨l, rfl, htail⟩ := chain_some.mp hl
    rw [reapSibling] at h
    split at h
    · exact .inl (Option.some.inj h).symm
    · next next hnext =>
      split at h
      · next hdead =>
        refine .inr ⟨kid, by simp, next, hnext, hdead, ?_⟩
        rw [← Option.some.inj h]
        have hkeep : (((t.modify next fun process => { process with status := .idle }).modify p
            fun process => { process with numChildren := process.numChildren - 1 }).procs
            next).sibling = (t.procs next).sibling := by
          rw [modify_apply]
          split
          · next heq => simp [heq]
          · simp
        rw [hkeep, sibling]
      · rw [show t.sibling kid = some next from hnext] at htail
        rcases ih htail h with rfl | ⟨kid', hkid, hrest⟩
        · exact .inl rfl
        · exact .inr ⟨kid', by simp [hkid], hrest⟩

/-- The inner loop ends when it runs along a chain. -/
theorem reapSibling_isSome (hl : Chain t.sibling (some kid) l) (hfuel : l.length ≤ fuel) :
    (t.reapSibling p fuel kid).isSome := by
  induction fuel generalizing kid l with
  | zero =>
    obtain ⟨l, rfl, -⟩ := chain_some.mp hl
    simp at hfuel
  | succ fuel ih =>
    obtain ⟨l, rfl, htail⟩ := chain_some.mp hl
    rw [reapSibling]
    split
    · rfl
    · next next hnext =>
      split
      · rfl
      · rw [show t.sibling kid = some next from hnext] at htail
        exact ih htail (by simpa using hfuel)

/-! ## Section 3: Terminating -/

/-- The loop of `Process_Terminate`: every process from `kid` on in the chain gets
    `Process_primordial` for its parent. -/
def reparent (primordial : Slot) : Nat → ProcessTable → Option Slot → Option ProcessTable
  | _, t, none => some t
  | 0, _, some _ => none
  | fuel + 1, t, some kid =>
      let t := t.modify kid fun process => { process with parent := some primordial }
      reparent primordial fuel t (t.procs kid).sibling

/-- `Process_Terminate`. -/
def processTerminate (primordial : Slot) (t : ProcessTable) (proc : Slot) (status : BitVec 32) :
    Option ProcessTable :=
  match t.reparent primordial kernelMaxProcs (t.procs proc).child with
  | none => none
  | some t =>
      some (t.modify proc fun process => { process with exitCode := status, status := .dead })

/-- The loop changes the parent of the processes in the chain, and nothing else. -/
theorem reparent_eq_some (hl : Chain t.sibling head l)
    (h : t.reparent primordial fuel head = some t') :
    t'.nextPid = t.nextPid ∧ ∀ q, t'.procs q =
      if q ∈ l then { t.procs q with parent := some primordial } else t.procs q := by
  induction l generalizing fuel t head with
  | nil =>
    obtain rfl : head = none := hl
    rw [reparent] at h
    simp [Option.some.inj h]
  | cons kid l ih =>
    have hkid := hl.nodup
    obtain ⟨rfl, hl⟩ := hl
    cases fuel with
    | zero => cases h
    | succ fuel =>
      rw [reparent, modify_self] at h
      have hl' : Chain (t.modify kid fun process =>
          { process with parent := some primordial }).sibling (t.sibling kid) l := by
        refine hl.congr fun q _ => ?_
        simp only [sibling, modify_apply]
        split
        · next heq => rw [heq]
        · rfl
      obtain ⟨hpid, hprocs⟩ := ih hl' h
      refine ⟨hpid, fun q => ?_⟩
      rw [hprocs q]
      by_cases hq : q = kid
      · subst hq
        simp [(List.nodup_cons.mp hkid).1]
      · simp [hq]

/-- The process is dead, and its children have a new parent. -/
theorem processTerminate_eq_some {status : BitVec 32} (hl : Chain t.sibling (t.procs p).child l)
    (h : t.processTerminate primordial p status = some t') (q : Slot) :
    t'.procs q = { t.procs q with
      parent := if q ∈ l then some primordial else (t.procs q).parent
      exitCode := if q = p then status else (t.procs q).exitCode
      status := if q = p then .dead else (t.procs q).status } := by
  rw [processTerminate] at h
  split at h
  · cases h
  · next t₁ hreparent =>
    obtain ⟨-, hprocs⟩ := reparent_eq_some hl hreparent
    obtain rfl := Option.some.inj h
    rw [modify_apply, hprocs p, hprocs q]
    by_cases hq : q = p
    · subst hq
      by_cases hmem : q ∈ l <;> simp [hmem]
    · by_cases hmem : q ∈ l <;> simp [hmem, hq]

/-- The loop ends when it runs along a chain. -/
theorem reparent_isSome (hl : Chain t.sibling head l) (hfuel : l.length ≤ fuel) :
    (t.reparent primordial fuel head).isSome := by
  induction l generalizing fuel t head with
  | nil =>
    obtain rfl : head = none := hl
    rw [reparent]
    rfl
  | cons kid l ih =>
    obtain ⟨rfl, hl⟩ := hl
    obtain ⟨fuel, rfl⟩ := Nat.exists_eq_succ_of_ne_zero (n := fuel) (by simp at hfuel; omega)
    rw [reparent, modify_self]
    refine ih (hl.congr fun q _ => ?_) (by simpa using hfuel)
    simp only [sibling, modify_apply]
    split
    · next heq => rw [heq]
    · rfl

end ProcessTable

end Avos
