import Avos.Memory.PhysMem
import Avos.Synch.IRQLock

/-! # The Lock of the Page Allocator

  `Page_Acquire` and `Page_Release` with `Page_operation_lock` around them. The lock carries
  the interrupt flag and the preemption vetos of the CPU, so a path that returns without
  `IRQLock_Release` leaves more behind than a lock that is taken.

  A call runs on one CPU with no step of another CPU in between. It has no result when it
  finds the lock taken: it spins.
-/

namespace Avos

namespace IRQState

variable {κ ι : Type} [DecidableEq κ] [DecidableEq ι]

/-- CPU `c` executes `n` statements. -/
def advances (s : IRQState κ ι) (c : κ) : Nat → IRQState κ ι
  | 0 => s
  | n + 1 => (s.advance c).advances c n

/-- `IRQLock_Acquire`, if it comes to its end. -/
def irqLockAcquire (s : IRQState κ ι) (c : κ) (l : ι) : Option (IRQState κ ι) :=
  let s := (s.next (.acquire c l)).advances c 5
  if (s.cpu c).pc = .idle then some s else none

/-- `IRQLock_Release` of the lock that was taken last. -/
def irqLockRelease (s : IRQState κ ι) (c : κ) : IRQState κ ι :=
  (s.next (.release c)).advances c 3

variable {s : IRQState κ ι} {c : κ} {l : ι}

/-- A lock that is taken is not taken again. -/
theorem irqLockAcquire_taken (h : s.flag l = true) : s.irqLockAcquire c l = none := by
  simp [irqLockAcquire, advances, next, advance, setCpu, h]

end IRQState

/-! ## Section 1: The Two Calls -/

/-- The CPUs with `Page_operation_lock`, and the allocator. -/
structure PageState (κ : Type) where
  irq : IRQState κ Unit
  mem : PhysMem

/-- A call of `Page_Acquire` or `Page_Release`. -/
inductive PageCall where
  | acquire (order : Nat)
  | release (pointer order : Nat)

/-- The order asked for. -/
def PageCall.order : PageCall → Nat
  | acquire order => order
  | release _ order => order

namespace PageState

variable {κ : Type} [DecidableEq κ]

/-- `Page_Acquire` on CPU `c`. When the search finds nothing, it returns at once. -/
def pageAcquire (s : PageState κ) (c : κ) (order : Nat) : Option (Nat × PageState κ) :=
  match s.irq.irqLockAcquire c () with
  | none => none
  | some irq =>
      match s.mem.acquireFind (pageMaxOrder - order) order with
      | none => some (pageListNull, ⟨irq, s.mem⟩)
      | some _ =>
          let r := s.mem.pageAcquire order
          some (r.1, ⟨irq.irqLockRelease c, r.2⟩)

/-- `Page_Release` on CPU `c`. -/
def pageRelease (s : PageState κ) (c : κ) (pointer order : Nat) : Option (PageState κ) :=
  if pointer = pageListNull then some s
  else
    match s.irq.irqLockAcquire c () with
    | none => none
    | some irq => some ⟨irq.irqLockRelease c, s.mem.pageRelease pointer order⟩

/-- A call, with the state after it returns. -/
def call (s : PageState κ) (c : κ) : PageCall → Option (PageState κ)
  | .acquire order => (s.pageAcquire c order).map Prod.snd
  | .release pointer order => s.pageRelease c pointer order

/-- The lock is free, and the interrupt flag and the vetos of `c` are those of `s`. -/
structure Restored (s s' : PageState κ) (c : κ) : Prop where
  free : s'.irq.flag () = false
  interrupts : (s'.irq.cpu c).interruptsEnabled = (s.irq.cpu c).interruptsEnabled
  vetos : (s'.irq.cpu c).preemptionVetos = (s.irq.cpu c).preemptionVetos

/-- The call returns, everything is as it was on entry, and any further call returns. -/
def Restores (s : PageState κ) (c : κ) (pc : PageCall) : Prop :=
  ∃ s', s.call c pc = some s' ∧ s.Restored s' c ∧
    ∀ next : PageCall, next.order ≤ pageMaxOrder → (s'.call c next).isSome

/-- There is a free block for the call. -/
def HasBlock (s : PageState κ) : PageCall → Prop
  | .acquire order => ∃ i, order ≤ i ∧ i ≤ pageMaxOrder ∧ s.mem.pageLists i ≠ pageListNull
  | .release _ _ => True

/-! ## Section 2: What They Leave -/

variable {s : PageState κ} {c : κ} {order pointer : Nat} {pc : PageCall}

end PageState

end Avos
