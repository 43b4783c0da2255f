import Avos.Clib.String
import Avos.Tasking.Machine

/-! # Kernel Contexts

  `struct KContext` is what `KContext_Switch` leaves on a stack and takes from another:
  CR3, the four registers that a routine must save, and the return address. The first one
  of a process is built by `Context_Initialize`, below the process's IContext and the
  address of `Interrupt_Return`.
-/

open ByteMemory Walks

namespace Avos

namespace Kernel

/-! ## Section 1: Switching -/

/-- The memory after `KContext_Switch` has saved the context it leaves: five words on the
    stack, and where they are in `*old_context`. -/
def savedContext (s : Machine) : Memory :=
  let m := store32 s.mem (s.esp - 4) s.ebp
  let m := store32 m (s.esp - 8) s.ebx
  let m := store32 m (s.esp - 12) s.esi
  let m := store32 m (s.esp - 16) s.edi
  let m := store32 m (s.esp - 20) s.cr3
  store32 m (s.stack 4) (s.esp - 20)

/-- The machine when `KContext_Switch` has returned to the new context. -/
def switched (s : Machine) : Machine :=
  let m := savedContext s
  let new := s.stack 8
  { s with
    eax := s.stack 4, edx := new, ecx := load32 m new, cr3 := load32 m new
    edi := load32 m (new + 4), esi := load32 m (new + 8), ebx := load32 m (new + 12)
    ebp := load32 m (new + 16), eip := load32 m (new + 20), esp := new + 24, mem := m }

section switching

variable {k : Kernel} {p : Machine → Prop} {s t : Machine}

/-- The arguments and CR3 are loaded. -/
theorem execs_load : k.execs .kContextSwitch 0 ((text .kContextSwitch).take 3) s =
    { s with
      eax := s.stack 4, edx := s.stack 8, ecx := s.cr3
      eip := k.code.addr ⟨.kContextSwitch, 3⟩ } := rfl

/-- The context is pushed, and the stacks are switched. -/
theorem execs_save : k.execs .kContextSwitch 3 (((text .kContextSwitch).drop 3).take 7) s =
    { s with
      esp := s.edx
      mem := store32 (store32 (store32 (store32 (store32 (store32 s.mem (s.esp - 4) s.ebp)
        (s.esp - 8) s.ebx) (s.esp - 12) s.esi) (s.esp - 16) s.edi) (s.esp - 20) s.ecx)
        s.eax (s.esp - 20)
      eip := k.code.addr ⟨.kContextSwitch, 10⟩ } := by
  have h8 : s.esp - 4 - 4 = s.esp - 8 := BitVec.sub_sub _ _ _
  have h12 : s.esp - 8 - 4 = s.esp - 12 := BitVec.sub_sub _ _ _
  have h16 : s.esp - 12 - 4 = s.esp - 16 := BitVec.sub_sub _ _ _
  have h20 : s.esp - 16 - 4 = s.esp - 20 := BitVec.sub_sub _ _ _
  change k.execs .kContextSwitch 3 [.push .ebp, .push .ebx, .push .esi, .push .edi, .push .ecx,
    .store .eax .esp, .mov .esp .edx] s = _
  iterate 7
    rw [execs_cons]
    simp only [exec, target, Machine.push, Machine.get, Machine.set, h8, h12, h16, h20]
  rfl

/-- The second half takes the new context from its stack. -/
theorem execs_restore : k.execs .kContextSwitch 10 (((text .kContextSwitch).drop 10).take 6) s =
    { s with
      ecx := s.top, cr3 := s.top, edi := s.stack 4, esi := s.stack 8
      ebx := s.stack 12, ebp := s.stack 16, esp := s.esp + 20
      eip := k.code.addr ⟨.kContextSwitch, 16⟩ } := by
  have h8 : s.esp + 4 + 4 = s.esp + 8 := BitVec.add_assoc _ _ _
  have h12 : s.esp + 8 + 4 = s.esp + 12 := BitVec.add_assoc _ _ _
  have h16 : s.esp + 12 + 4 = s.esp + 16 := BitVec.add_assoc _ _ _
  have h20 : s.esp + 16 + 4 = s.esp + 20 := BitVec.add_assoc _ _ _
  simp only [text, List.take, List.drop, execs, exec, target, Machine.set, Machine.get,
    Machine.stack, Machine.top, h8, h12, h16, h20]

/-- `KContext_Switch` runs to its end. -/
theorem reaches_kContextSwitch (hu : s.user = false) (he : s.eip = k.code.addr ⟨.kContextSwitch, 0⟩)
    (hp : ∀ j x, k.At ⟨.kContextSwitch, j⟩ x → ¬p x) (h : Reaches p k.step (switched s) t) :
    Reaches p k.step s t := by
  refine reaches_execs (l := (text .kContextSwitch).take 3) hu (by decide) ?_ he
    (fun j _ _ => hp j) ?_
  · simp [text, Straight]
  rw [execs_load]
  refine reaches_execs (l := ((text .kContextSwitch).drop 3).take 7) hu (by decide) ?_ rfl
    (fun j _ _ => hp j) ?_
  · simp [text, Straight]
  rw [execs_save]
  refine reaches_execs (l := ((text .kContextSwitch).drop 10).take 6) hu (by decide) ?_ rfl
    (fun j _ _ => hp j) ?_
  · simp [text, Straight]
  rw [execs_restore]
  refine reaches_step (r := .kContextSwitch) (n := 16) (i := .ret) hu rfl rfl (hp 16) ?_
  have h24 : load32 s.mem (s.esp + 8) + 20 + 4 = load32 s.mem (s.esp + 8) + 24 :=
    BitVec.add_assoc _ _ _
  simp only [exec, target, Machine.stack, Machine.top, h24]
  simp only [switched, savedContext, Machine.stack] at h
  exact h

end switching

/-! ## Section 2: The First Contexts of a Process -/

/-- `proc->intr_context`, for a stack whose state block is at `top`. -/
def interruptContext (top : BitVec 32) : BitVec 32 := top - 76

/-- `proc->task_context`. -/
def taskContext (top : BitVec 32) : BitVec 32 := interruptContext top - 4 - 24

/-- What `Context_Initialize` writes to the stack. -/
def contextInitialize (k : Kernel) (m : Memory) (top : BitVec 32) : Memory :=
  let m := store32 m (interruptContext top - 4) (k.code.addr ⟨.interruptReturn, 0⟩)
  let m := memset m (taskContext top) 0 24
  store32 m (taskContext top + 20) (k.code.addr ⟨.processFirstEntryToUserSpace, 0⟩)

section first

variable {k : Kernel} {m : Memory} {top : BitVec 32}

theorem top_eq : top = taskContext top + 104 := by
  rw [taskContext, interruptContext]
  bv_omega

theorem interruptContext_eq : interruptContext top = taskContext top + 28 := by
  rw [taskContext]
  bv_omega

/-- The first `ret` of a process goes to `Process_FirstEntryToUserSpace`. -/
theorem contextInitialize_eip : load32 (contextInitialize k m top) (taskContext top + 20) =
    k.code.addr ⟨.processFirstEntryToUserSpace, 0⟩ := by
  rw [contextInitialize, load32_store32]

/-- The return address of `Process_FirstEntryToUserSpace` is `Interrupt_Return`. -/
theorem contextInitialize_return : load32 (contextInitialize k m top) (taskContext top + 24) =
    k.code.addr ⟨.interruptReturn, 0⟩ := by
  have h24 : interruptContext top - 4 = taskContext top + 24 := by
    rw [taskContext, BitVec.sub_add_cancel]
  have heip : Apart (taskContext top + 24) 4 (taskContext top + 20) 4 :=
    (apart_add (i := 20) (j := 24) (by decide) (by decide)).symm
  have hset : Apart (taskContext top) 24 (taskContext top + 24) 4 := by
    simpa using apart_add (a := taskContext top) (i := 0) (n := 24) (j := 24) (k := 4)
      (by decide) (by decide)
  rw [contextInitialize, h24, load32_store32_of_apart heip, memset_eq (by decide)]
  refine (load32_congr fun x hx => ?_).trans (load32_store32 (m := m))
  exact if_neg fun h => hset x h hx

end first

end Kernel

end Avos
