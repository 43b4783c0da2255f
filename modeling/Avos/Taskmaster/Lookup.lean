import Avos.Taskmaster.ProcessTree

/-! # Looking Up a Process

  `Scheduler_GetProcess` finds the first slot that carries an id. It does not look at the
  status: an idle slot still carries the id of the process that was there before, or 0 if
  there was none.

  Ids are given out in order, so fewer than `2^32` bookings give no id twice. What the
  function finds is then the process with the id exactly as long as no idle slot carries it.
-/

open Transition

namespace Avos

/-- What happens to the slots of the table: one is booked, a booked one is activated or its
    fork fails, an active process gets another status, and a dead one is reaped. -/
inductive SlotAction where
  | book
  | activate (p : Slot)
  | forkFails (p : Slot)
  | change (p : Slot) (status : ProcessStatus)
  | reap (p : Slot)
  deriving DecidableEq

namespace ProcessTable

/-- `Scheduler_GetProcess`; `PROCESS_NULL` is `none`. -/
def schedulerGetProcess (t : ProcessTable) (procId : BitVec 32) : Option Slot :=
  (List.finRange kernelMaxProcs).find? fun i => (t.procs i).id = procId

/-- A store to the status of a process. -/
def setStatus (t : ProcessTable) (p : Slot) (status : ProcessStatus) : ProcessTable :=
  t.modify p fun proc => { proc with status := status }

/-- The table after an action. -/
def act (t : ProcessTable) : SlotAction → Option ProcessTable
  | .book => t.schedulerBook.map Prod.snd
  | .activate p => if (t.procs p).status = .booked then some (t.setStatus p .runnable) else none
  | .forkFails p => if (t.procs p).status = .booked then some (t.setStatus p .idle) else none
  | .change p status =>
      if (t.procs p).status.Active ∧ status.Active then some (t.setStatus p status) else none
  | .reap p => if (t.procs p).status = .dead then some (t.setStatus p .idle) else none

/-- The table as `Scheduler_Initialize` leaves it: all slots are idle and none has had an id. -/
def Unused (t : ProcessTable) : Prop :=
  (∀ p, (t.procs p).status = .idle ∧ (t.procs p).id = 0) ∧ t.nextPid = 1

/-- The slots of the process table from the start on. -/
def slots : System ProcessTable SlotAction where
  init := Unused
  step t a t' := t.act a = some t'

/-- How many of the first `n` actions are bookings. -/
def bookings (actions : Nat → SlotAction) : Nat → Nat
  | 0 => 0
  | n + 1 => bookings actions n + if actions n = .book then 1 else 0

/-- The slot is not idle and carries the id. -/
def Carries (t : ProcessTable) (p : Slot) (procId : BitVec 32) : Prop :=
  (t.procs p).status ≠ .idle ∧ (t.procs p).id = procId

/-- The lookup of the id gives the one process that has it, or none if there is none. -/
structure Finds (t : ProcessTable) (procId : BitVec 32) : Prop where
  found : ∀ p, t.schedulerGetProcess procId = some p ↔ t.Carries p procId
  unique : ∀ p q, t.Carries p procId → t.Carries q procId → p = q
  missing : (∀ p, ¬t.Carries p procId) → t.schedulerGetProcess procId = none

/-! ## Section 1: Ids -/

/-- After `b` bookings the ids given out are `1, …, b`, each to one slot. -/
structure Numbered (t : ProcessTable) (b : Nat) : Prop where
  next : t.nextPid = BitVec.ofNat 32 (b + 1)
  le : ∀ p, (t.procs p).id.toNat ≤ b
  distinct : ∀ p q, (t.procs p).id = (t.procs q).id → (t.procs p).id ≠ 0 → p = q
  used : ∀ p, (t.procs p).status ≠ .idle → (t.procs p).id ≠ 0

variable {t t' : ProcessTable} {p q : Slot} {b : Nat} {procId : BitVec 32}

theorem Unused.numbered (h : t.Unused) : t.Numbered 0 := by
  obtain ⟨hslots, hnext⟩ := h
  refine ⟨hnext, fun p => ?_, fun p q _ hne => ?_, fun p hp => ?_⟩
  · rw [(hslots p).2]
    exact Nat.le_refl 0
  · exact absurd (hslots p).2 hne
  · exact absurd (hslots p).1 hp

/-- A change of the status of a slot that is not idle. -/
theorem Numbered.setStatus (h : t.Numbered b) (hp : (t.procs p).status ≠ .idle)
    (status : ProcessStatus) : (t.setStatus p status).Numbered b := by
  have hid : ∀ q, ((t.setStatus p status).procs q).id = (t.procs q).id := by
    intro q
    rw [ProcessTable.setStatus, modify_apply]
    split
    · next heq => rw [heq]
    · rfl
  refine ⟨h.next, fun q => ?_, fun q r heq hne => ?_, fun q hq => ?_⟩
  · rw [hid]
    exact h.le q
  · rw [hid] at heq hne
    rw [hid] at heq
    exact h.distinct q r heq hne
  · rw [hid]
    by_cases hqp : q = p
    · rw [hqp]
      exact h.used p hp
    · rw [ProcessTable.setStatus, modify_ne hqp] at hq
      exact h.used q hq

/-- What a booking leaves in the slots. -/
theorem schedulerBook_procs (hbook : t.schedulerBook = some (p, t')) :
    t'.nextPid = t.nextPid + 1 ∧ ∀ q, t'.procs q =
      if q = p then { t.procs p with status := .booked, id := t.nextPid } else t.procs q := by
  obtain ⟨-, rfl⟩ := schedulerBook_eq_some hbook
  refine ⟨rfl, fun q => ?_⟩
  dsimp only
  rw [modify_apply]

/-- A booking gives the next id, which no slot has carried. -/
theorem Numbered.book (h : t.Numbered b) (hb : b + 1 < 2 ^ 32)
    (hbook : t.schedulerBook = some (p, t')) : t'.Numbered (b + 1) := by
  obtain ⟨hnext, hprocs⟩ := schedulerBook_procs hbook
  have hid : t.nextPid.toNat = b + 1 := by
    rw [h.next, BitVec.toNat_ofNat, Nat.mod_eq_of_lt hb]
  have hnew : ∀ q, (t.procs q).id ≠ t.nextPid := by
    intro q heq
    have hle := h.le q
    rw [heq, hid] at hle
    omega
  have hids : ∀ q, (t'.procs q).id = if q = p then t.nextPid else (t.procs q).id := by
    intro q
    rw [hprocs]
    split
    · rfl
    · rfl
  refine ⟨?_, fun q => ?_, fun q r heq hne => ?_, fun q hq => ?_⟩
  · rw [hnext, h.next, BitVec.ofNat_add (b + 1) 1]
    rfl
  · rw [hids]
    split
    · exact hid.le
    · exact (h.le q).trans (Nat.le_succ b)
  · rw [hids] at hne
    rw [hids, hids] at heq
    split_ifs at heq hne with hq hr hr
    · rw [hq, hr]
    · exact absurd heq.symm (hnew r)
    · exact absurd heq (hnew q)
    · exact h.distinct q r heq hne
  · rw [hids]
    split
    · intro hzero
      rw [hzero] at hid
      cases hid
    · next hqp =>
      rw [hprocs, if_neg hqp] at hq
      exact h.used q hq

/-- One action. -/
theorem Numbered.act (h : t.Numbered b) {a : SlotAction}
    (hb : b + (if a = .book then 1 else 0) < 2 ^ 32) (hact : t.act a = some t') :
    t'.Numbered (b + if a = .book then 1 else 0) := by
  cases a with
  | book =>
    obtain ⟨⟨p, t₁⟩, hbook, rfl⟩ := Option.map_eq_some_iff.mp hact
    exact h.book hb hbook
  | activate p =>
    simp only [ProcessTable.act] at hact
    split at hact
    · next hp =>
      obtain rfl := Option.some.inj hact
      exact h.setStatus (by simp [hp]) _
    · cases hact
  | forkFails p =>
    simp only [ProcessTable.act] at hact
    split at hact
    · next hp =>
      obtain rfl := Option.some.inj hact
      exact h.setStatus (by simp [hp]) _
    · cases hact
  | change p status =>
    simp only [ProcessTable.act] at hact
    split at hact
    · next hp =>
      obtain rfl := Option.some.inj hact
      exact h.setStatus hp.1.1 _
    · cases hact
  | reap p =>
    simp only [ProcessTable.act] at hact
    split at hact
    · next hp =>
      obtain rfl := Option.some.inj hact
      exact h.setStatus (by simp [hp]) _
    · cases hact

theorem bookings_mono (actions : Nat → SlotAction) {m n : Nat} (hmn : m ≤ n) :
    bookings actions m ≤ bookings actions n := by
  induction n, hmn using Nat.le_induction with
  | base => exact Nat.le_refl _
  | succ n _ ih => exact ih.trans (Nat.le_add_right _ _)

/-- A run with fewer than `2^32` bookings. -/
theorem numbered_of_run {n : Nat} {tables : Nat → ProcessTable} {actions : Nat → SlotAction}
    (hrun : slots.Run n tables actions) (hfew : bookings actions n < 2 ^ 32) {i : Nat}
    (hi : i ≤ n) : (tables i).Numbered (bookings actions i) := by
  induction i with
  | zero => exact Unused.numbered hrun.start
  | succ i ih =>
    have hle := bookings_mono actions hi
    exact (ih (by omega)).act (by exact Nat.lt_of_le_of_lt hle hfew) (hrun.next i hi)

/-! ## Section 2: The Lookup -/

/-- The lookup finds a slot that carries the id, idle or not. -/
theorem id_of_getProcess (h : t.schedulerGetProcess procId = some p) :
    (t.procs p).id = procId := by
  simpa using List.find?_some h

theorem getProcess_eq_none_iff :
    t.schedulerGetProcess procId = none ↔ ∀ p, (t.procs p).id ≠ procId := by
  rw [schedulerGetProcess, List.find?_eq_none]
  simp

/-- A slot that carries the id shadows the others. -/
theorem exists_getProcess (h : (t.procs p).id = procId) :
    ∃ q, t.schedulerGetProcess procId = some q := by
  refine Option.ne_none_iff_exists'.mp fun hnone => ?_
  exact getProcess_eq_none_iff.mp hnone p h

theorem Numbered.finds_iff_live (h : t.Numbered b) :
    t.Finds procId ↔ ∀ p, (t.procs p).status = .idle → (t.procs p).id ≠ procId := by
  constructor
  · intro hfinds p hidle hid
    obtain ⟨q, hq⟩ := exists_getProcess hid
    obtain ⟨hstatus, hqid⟩ := (hfinds.found q).mp hq
    -- the slot found is not idle, so it is another one with the same id
    have hpq := h.distinct q p (hqid.trans hid.symm) (h.used q hstatus)
    exact hstatus (hpq ▸ hidle)
  · intro hidle
    have hcarries : ∀ p, (t.procs p).id = procId → t.Carries p procId := fun p hp =>
      ⟨fun hstatus => hidle p hstatus hp, hp⟩
    have hunique : ∀ p q, t.Carries p procId → t.Carries q procId → p = q := fun p q hp hq =>
      h.distinct p q (hp.2.trans hq.2.symm) (h.used p hp.1)
    refine ⟨fun p => ⟨fun hp => hcarries p (id_of_getProcess hp), fun hp => ?_⟩, hunique,
      fun hnone => ?_⟩
    · obtain ⟨q, hq⟩ := exists_getProcess hp.2
      rw [hq, hunique q p (hcarries q (id_of_getProcess hq)) hp]
    · exact getProcess_eq_none_iff.mpr fun p hp => hnone p (hcarries p hp)

/-- In every state of a run with fewer than `2^32` bookings, the lookup of an id is right
    exactly when no idle slot carries the id. -/
theorem finds_iff {n : Nat} {tables : Nat → ProcessTable} {actions : Nat → SlotAction}
    (hrun : slots.Run n tables actions) (hfew : bookings actions n < 2 ^ 32) {i : Nat}
    (hi : i ≤ n) (procId : BitVec 32) :
    (tables i).Finds procId ↔
      ∀ p, ((tables i).procs p).status = .idle → ((tables i).procs p).id ≠ procId :=
  (numbered_of_run hrun hfew hi).finds_iff_live

/-! ### A Run -/

/-- The table at the start. -/
def unusedTable : ProcessTable where
  procs _ :=
    { id := 0, parent := none, child := none, sibling := none, numChildren := 0
      status := .idle, exitCode := 0, endpoint := 0, runTime := 0 }
  nextPid := 1

/-- The tables along a sequence of actions; one without a result changes nothing. -/
def afterActions (t : ProcessTable) (actions : Nat → SlotAction) : Nat → ProcessTable
  | 0 => t
  | n + 1 => ((t.afterActions actions n).act (actions n)).getD (t.afterActions actions n)

/-- A process is forked, dies and is reaped. -/
def reapedActions : Nat → SlotAction
  | 0 => .book
  | 1 => .activate 0
  | 2 => .change 0 .dead
  | _ => .reap 0

theorem reapedActions_run : slots.Run 4 (unusedTable.afterActions reapedActions) reapedActions := by
  have hacts : ∀ i, i < 4 →
      ((unusedTable.afterActions reapedActions i).act (reapedActions i)).isSome := by decide +kernel
  refine ⟨⟨fun p => ⟨rfl, rfl⟩, rfl⟩, fun i hi => ?_⟩
  obtain ⟨t', ht'⟩ := Option.isSome_iff_exists.mp (hacts i hi)
  simp [slots, afterActions, ht']

theorem finds_iff_reapedActions : (unusedTable.afterActions reapedActions 2).Finds 1 ↔
    ∀ p, ((unusedTable.afterActions reapedActions 2).procs p).status = .idle →
      ((unusedTable.afterActions reapedActions 2).procs p).id ≠ 1 :=
  finds_iff reapedActions_run (by decide) (by decide) 1

/-- The id of the process that was reaped is still found. -/
theorem not_forall_finds : ¬∀ (n : Nat) (tables : Nat → ProcessTable)
    (actions : Nat → SlotAction), slots.Run n tables actions → bookings actions n < 2 ^ 32 →
      ∀ i, i ≤ n → ∀ procId, (tables i).Finds procId := by
  intro hall
  have hfinds := hall 4 _ _ reapedActions_run (by decide) 4 (Nat.le_refl 4) 1
  have hfound : (unusedTable.afterActions reapedActions 4).schedulerGetProcess 1 = some 0 := by
    decide +kernel
  have hidle : ((unusedTable.afterActions reapedActions 4).procs 0).status = .idle := by
    decide +kernel
  exact ((hfinds.found 0).mp hfound).1 hidle

end ProcessTable

end Avos
