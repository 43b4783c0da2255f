import Avos.Paging.Clone
import Avos.Taskmaster.Lookup

/-! # Forking a Process

  `Process_Fork` books a slot, gives the new process a stack, contexts and a directory
  (`Process_Initialize`), copies the caller's address space (`Paging_Clone`) and enters the
  process in the tree (`ProcessTable.processFork`).

  A fork that succeeds does what it should, but returns the id of its caller
  (`forks_iff`).
-/

open ByteMemory Chains

namespace Avos

variable {σ : Type*}

/-! ## Section 1: The Code -/

/-- `PAGE_LIST_NULL`. -/
def pageNull : BitVec 32 := 0xFFFFFFFF

/-- An allocator that hands out stacks as well: `Page_Acquire(2)` and `Page_Release(stack, 2)`,
    where 2 is `KERNEL_STACK_SIZE >> KERNEL_PAGE_SIZE_IN_BITS`. -/
structure StackAllocator (σ : Type*) extends FrameAllocator σ where
  acquireStack : σ → Memory → Option (BitVec 32) × σ × Memory
  releaseStack : σ → Memory → BitVec 32 → σ × Memory
  stack_aligned : ∀ a m b, (acquireStack a m).1 = some b → b.toNat % 0x4000 = 0
  stack_free : ∀ a m b, (acquireStack a m).1 = some b →
    ∀ i < 4, free a (b + BitVec.ofNat 32 (0x1000 * i))
  stack_rest : ∀ a m f, free (acquireStack a m).2.1 f →
    free a f ∧ ∀ b, (acquireStack a m).1 = some b → ¬InBytes b 0x4000 f
  stack_frame : ∀ a m x, (∀ f, free a f → ¬InBytes f 0x1000 x) → (acquireStack a m).2.2 x = m x

/-- The fields `kernel_stack`, `task_context` and `intr_context` of a process. -/
structure ProcessMemory where
  base : BitVec 32
  size : BitVec 32
  taskContext : BitVec 32
  intrContext : BitVec 32

/-- The processes with their memory. `pageLock` says that `Page_operation_lock` is taken:
    `Page_Acquire` leaves it so when it finds no page. -/
structure ForkState (σ : Type*) where
  table : ProcessTable
  fields : Slot → ProcessMemory
  paging : PagingState σ
  stacksAcquired : List (BitVec 32)
  stacksReleased : List (BitVec 32)
  pageLock : Bool

/-- The kernel's code, `Kernel_pagedirectory` and the addresses of the slots. -/
structure ForkKernel where
  kernel : Kernel
  kernelDirectory : BitVec 32
  process : Slot → BitVec 32

/-- What `State_Initialize` writes to the state block at `top`. -/
def stateInitialize (m : Memory) (top proc : BitVec 32) : Memory :=
  let m := store32 m (top + 5) proc
  let m := store32 m top 0
  store8 m (top + 4) 0

/-- `IContext_Fork`. -/
def iContextFork (m : Memory) (child parent : BitVec 32) : Memory :=
  store32 (copied m child parent 76) (child + 28) 0

namespace ForkState

/-- `task_context->cr3`. -/
def cr3 (s : ForkState σ) (p : Slot) : BitVec 32 := load32 s.paging.mem (s.fields p).taskContext

/-- `Page_Acquire(2)`. There is no result when the lock is taken. -/
def acquireStack (A : StackAllocator σ) (s : ForkState σ) :
    Option (Option (BitVec 32) × ForkState σ) :=
  if s.pageLock then none
  else
    let r := A.acquireStack s.paging.frames s.paging.mem
    some (r.1, { s with
      paging := { s.paging with mem := r.2.2, frames := r.2.1 }
      stacksAcquired := r.1.toList ++ s.stacksAcquired
      pageLock := r.1.isNone })

/-- `Page_Release(stack, 2)`. -/
def releaseStack (A : StackAllocator σ) (s : ForkState σ) (stack : BitVec 32) :
    Option (ForkState σ) :=
  if stack = pageNull then some s
  else if s.pageLock then none
  else
    let r := A.releaseStack s.paging.frames s.paging.mem stack
    some { s with
      paging := { s.paging with mem := r.2, frames := r.1 }
      stacksReleased := stack :: s.stacksReleased }

/-- `State_Initialize` and `Context_Initialize` for a process that has got a stack. -/
def initializeStack (K : ForkKernel) (s : ForkState σ) (forked : Slot) (base : BitVec 32) :
    ForkState σ :=
  let top := stateFromProc base
  { s with
    fields := Function.update s.fields forked
      { base := base, size := BitVec.ofNat 32 kernelStackSize
        taskContext := Kernel.taskContext top, intrContext := Kernel.interruptContext top }
    paging := { s.paging with
      mem := K.kernel.contextInitialize
        (stateInitialize s.paging.mem top (K.process forked)) top } }

/-- `Process_Initialize`. -/
def processInitialize (A : StackAllocator σ) (K : ForkKernel) (s : ForkState σ) (forked : Slot) :
    Option (Bool × ForkState σ) :=
  match s.acquireStack A with
  | none => none
  | some (none, s) => some (false, s)
  | some (some base, s) =>
      let s := s.initializeStack K forked base
      match PagingState.pagingInitialize A.toFrameAllocator K.kernelDirectory s.paging with
      | (none, paging) => some (false, { s with paging := paging, pageLock := true })
      | (some pgd, paging) =>
          some (true, { s with
            paging := { paging with mem := store32 paging.mem (s.fields forked).taskContext pgd } })

/-- `Process_Initialize(forked_proc) && Paging_Clone(parent_proc, forked_proc)`. When the clone
    fails the lock is taken, and there is no result if `Paging_Terminate` releases anything. -/
def prepare (A : StackAllocator σ) (K : ForkKernel) (s : ForkState σ) (parent forked : Slot) :
    Option (Bool × ForkState σ) :=
  match s.processInitialize A K forked with
  | none => none
  | some (false, s) => some (false, s)
  | some (true, s) =>
      match pagingClone A.toFrameAllocator (s.cr3 parent) (s.cr3 forked) s.paging with
      | none => none
      | some (true, paging) => some (true, { s with paging := paging })
      | some (false, paging) =>
          if paging.released = s.paging.released then
            some (false, { s with paging := paging, pageLock := true })
          else none

/-- `Process_Fork` by the process in slot `parent`, with its result. -/
def fork (A : StackAllocator σ) (K : ForkKernel) (s : ForkState σ) (parent : Slot) :
    Option (BitVec 32 × ForkState σ) :=
  match s.table.schedulerBook with
  | none => none
  | some (forked, table) =>
      match prepare A K { s with table := table } parent forked with
      | none => none
      | some (false, s) =>
          match s.releaseStack A (s.fields forked).base with
          | none => none
          | some s =>
              some (-1, { s with
                table := s.table.modify forked fun proc => { proc with status := .idle } })
      | some (true, s) =>
          let table := s.table.modify forked fun proc =>
            { proc with
              parent := some parent
              child := none
              sibling := (s.table.procs parent).child
              numChildren := 0
              exitCode := -1
              runTime := (s.table.procs parent).runTime
              endpoint := (s.table.procs parent).endpoint }
          let mem := iContextFork s.paging.mem (s.fields forked).intrContext
            (s.fields parent).intrContext
          let table := table.modify parent fun proc =>
            { proc with numChildren := proc.numChildren + 1, child := some forked }
          let table := table.modify forked fun proc => { proc with status := .runnable }
          some ((table.procs parent).id,
            { s with table := table, paging := { s.paging with mem := mem } })

/-- The fork succeeds: a slot can be booked, the new process gets its memory and the caller's
    address space is copied. -/
def Succeeds (A : StackAllocator σ) (K : ForkKernel) (s : ForkState σ) (parent : Slot) : Prop :=
  ∃ forked table s₁, s.table.schedulerBook = some (forked, table) ∧
    prepare A K { s with table := table } parent forked = some (true, s₁)

/-! ## Section 2: The Property -/

/-- A fork by `p` from `s` to `s'` has made the process in `forked`. -/
structure Forked (A : StackAllocator σ) (s s' : ForkState σ) (p forked : Slot) : Prop where
  status : (s.table.procs forked).status = .idle ∧ (s'.table.procs forked).status = .runnable
  parent : (s'.table.procs forked).parent = some p
  head : (s'.table.procs p).child = some forked
  chain : ∀ l, Chain s.table.sibling (s.table.procs p).child l →
    (∀ q ∈ l, (s.table.procs q).status ≠ .idle) →
      Chain s'.table.sibling (s'.table.procs p).child (forked :: l)
  caller : s'.table.procs p =
    { s.table.procs p with
      child := some forked, numChildren := (s.table.procs p).numChildren + 1 }
  callerFields : s'.fields p = s.fields p
  context : userContext s'.paging.mem (s'.fields forked).intrContext =
    { userContext s.paging.mem (s.fields p).intrContext with eax := 0 }
  others : ∀ q, q ≠ forked → q ≠ p →
    s'.table.procs q = s.table.procs q ∧ s'.fields q = s.fields q
  memory : ∀ x, Outside A.toFrameAllocator s.paging.frames x → s'.paging.mem x = s.paging.mem x

/-- It has returned `r`, the id of that process. -/
structure Forks (A : StackAllocator σ) (s s' : ForkState σ) (p : Slot) (r : BitVec 32)
    (forked : Slot) : Prop extends Forked A s s' p forked where
  returned : r = (s'.table.procs forked).id

end ForkState

/-! ## Section 3: The Memory -/

section memory

variable {A : StackAllocator σ} {m m' : Memory} {base top child parent x : BitVec 32} {a : σ}

/-- A stack is made of four frames. -/
theorem inBytes_stack (hbase : base.toNat % 0x4000 = 0) (hx : InBytes base 0x4000 x) :
    ∃ i < 4, InBytes (base + BitVec.ofNat 32 (0x1000 * i)) 0x1000 x := by
  refine ⟨(x - base).toNat / 0x1000, ?_, ?_⟩
  · rw [InBytes] at hx
    omega
  · have hlt := base.isLt
    have hlt' := x.isLt
    rw [InBytes, BitVec.toNat_sub] at hx ⊢
    rw [BitVec.toNat_add, BitVec.toNat_ofNat, BitVec.toNat_sub]
    omega

/-- A stack that is handed out was free. -/
theorem Outside.stack (h : Outside A.toFrameAllocator a x)
    (hb : (A.acquireStack a m).1 = some base) :
    Outside A.toFrameAllocator (A.acquireStack a m).2.1 x ∧
      (A.acquireStack a m).2.2 x = m x ∧ ¬InBytes base kernelStackSize x := by
  refine ⟨fun f hf => h f (A.stack_rest a m f hf).1, A.stack_frame a m x h, fun hx => ?_⟩
  obtain ⟨i, hi, hin⟩ := inBytes_stack (A.stack_aligned a m base hb) (hx.mono (by decide))
  exact h _ (A.stack_free a m base hb i hi) hin

theorem stateInitialize_frame {proc : BitVec 32} (hx : ¬InBytes base kernelStackSize x) :
    stateInitialize m (stateFromProc base) proc x = m x := by
  have hin : ∀ i n : Nat, i + n ≤ 13 → ¬InBytes (stateFromProc base + BitVec.ofNat 32 i) n x := by
    intro i n hi h
    rw [stateFromProc, BitVec.add_assoc, ← BitVec.ofNat_add] at h
    exact hx (h.of_add (by simp only [kernelStackSize]; omega) (by decide))
  have h0 : ¬InBytes (stateFromProc base) 4 x := by simpa using hin 0 4 (by decide)
  have h5 : ¬InBytes (stateFromProc base + 5) 4 x := hin 5 4 (by decide)
  have h4 : x ≠ stateFromProc base + 4 := fun h =>
    hin 4 1 (by decide) (h ▸ inBytes_self (by decide))
  rw [stateInitialize, store8_ne h4, store32_frame h0, store32_frame h5]

theorem load32_copied {i n : Nat} (hi : i + 4 ≤ n) (hn : n ≤ 2 ^ 32) :
    load32 (copied m child parent n) (child + BitVec.ofNat 32 i) =
      load32 m (parent + BitVec.ofNat 32 i) := by
  have hbyte : ∀ j < 4, copied m child parent n (child + BitVec.ofNat 32 (i + j)) =
      m (parent + BitVec.ofNat 32 (i + j)) := by
    intro j hj
    refine (if_pos (inBytes_add (by omega) hn)).trans ?_
    rw [BitVec.add_comm child, BitVec.add_sub_cancel]
  have hadd : ∀ (a : BitVec 32) (j : Nat), a + BitVec.ofNat 32 i + BitVec.ofNat 32 j =
      a + BitVec.ofNat 32 (i + j) := fun a j => by
    rw [BitVec.add_assoc, ← BitVec.ofNat_add]
  have h0 := hbyte 0 (by decide)
  have h1 := hbyte 1 (by decide)
  have h2 := hbyte 2 (by decide)
  have h3 := hbyte 3 (by decide)
  rw [← hadd, ← hadd] at h1 h2 h3
  show _ ++ _ ++ _ ++ _ = _ ++ _ ++ _ ++ _
  rw [Nat.add_zero] at h0
  exact congrArg₂ _ (congrArg₂ _ (congrArg₂ _ h3 h2) h1) h0

/-- The child's registers are the parent's, except for `eax`. -/
theorem userContext_iContextFork :
    userContext (iContextFork m child parent) child = { userContext m parent with eax := 0 } := by
  have hload : ∀ i : Nat, i + 4 ≤ 76 → (i + 4 ≤ 28 ∨ 32 ≤ i) →
      load32 (iContextFork m child parent) (child + BitVec.ofNat 32 i) =
        load32 m (parent + BitVec.ofNat 32 i) := by
    intro i hi hne
    have hapart : Apart (child + BitVec.ofNat 32 i) 4 (child + BitVec.ofNat 32 28) 4 := by
      rcases hne with hne | hne
      · exact apart_add (by omega) (by decide)
      · exact (apart_add (by omega) (by omega)).symm
    exact (load32_store32_of_apart hapart).trans (load32_copied hi (by decide))
  have h0 : load32 (iContextFork m child parent) child = load32 m parent := by
    simpa using hload 0 (by decide) (by decide)
  have heax : load32 (iContextFork m child parent) (child + 28) = 0 := load32_store32
  simp only [userContext, h0, heax, UserContext.mk.injEq, true_and]
  refine ⟨hload 4 (by decide) (by decide), hload 8 (by decide) (by decide),
    hload 16 (by decide) (by decide), hload 20 (by decide) (by decide),
    hload 24 (by decide) (by decide), congrArg _ (hload 32 (by decide) (by decide)),
    congrArg _ (hload 36 (by decide) (by decide)), congrArg _ (hload 40 (by decide) (by decide)),
    congrArg _ (hload 44 (by decide) (by decide)), hload 56 (by decide) (by decide),
    congrArg _ (hload 60 (by decide) (by decide)), hload 64 (by decide) (by decide),
    hload 68 (by decide) (by decide), congrArg _ (hload 72 (by decide) (by decide))⟩

theorem interruptContext_stateFromProc :
    Kernel.interruptContext (stateFromProc base) = base + BitVec.ofNat 32 8103 := by
  rw [Kernel.interruptContext_eq, taskContext_stateFromProc, BitVec.add_assoc]
  rfl

theorem iContextFork_frame (hx : ¬InBytes base kernelStackSize x) :
    iContextFork m (Kernel.interruptContext (stateFromProc base)) parent x = m x := by
  have hin : ∀ i n : Nat, i + n ≤ 76 → ¬InBytes
      (Kernel.interruptContext (stateFromProc base) + BitVec.ofNat 32 i) n x := by
    intro i n hi h
    rw [interruptContext_stateFromProc, BitVec.add_assoc, ← BitVec.ofNat_add] at h
    exact hx (h.of_add (by simp only [kernelStackSize]; omega) (by decide))
  have h28 : ¬InBytes (Kernel.interruptContext (stateFromProc base) + 28) 4 x :=
    hin 28 4 (by decide)
  have h0 : ¬InBytes (Kernel.interruptContext (stateFromProc base)) 76 x := by
    simpa using hin 0 76 (by decide)
  rw [iContextFork, store32_frame h28]
  exact if_neg h0

end memory

/-! ## Section 4: A Fork That Succeeds -/

namespace ForkState

section success

variable {A : StackAllocator σ} {K : ForkKernel} {s s₁ s' : ForkState σ} {p q forked : Slot}
  {r pgd x : BitVec 32} {table : ProcessTable}

theorem pagingInitialize_outside {kernelDirectory : BitVec 32} {t t' : PagingState σ}
    (h : Outside A.toFrameAllocator t.frames x)
    (hs : PagingState.pagingInitialize A.toFrameAllocator kernelDirectory t = (some pgd, t')) :
    Outside A.toFrameAllocator t'.frames x ∧ t'.mem x = t.mem x ∧ ¬InBytes pgd 0x1000 x := by
  rw [PagingState.pagingInitialize] at hs
  split at hs
  · cases congrArg Prod.fst hs
  · next page t₁ ha =>
    obtain rfl : page = pgd := Option.some.inj (congrArg Prod.fst hs)
    obtain rfl := congrArg Prod.snd hs
    obtain ⟨h₁, hmem₁, hpage⟩ := h.acquire ha
    refine ⟨h₁, ?_, hpage⟩
    dsimp only [clearPage]
    rw [directory_frame hpage, hmem₁]

/-- The stack, the contexts and the directory of the new process are in pages that were free. -/
theorem processInitialize_true (hs : s.processInitialize A K forked = some (true, s₁)) :
    ∃ base, s₁.table = s.table ∧
      s₁.fields = Function.update s.fields forked
        { base := base, size := BitVec.ofNat 32 kernelStackSize
          taskContext := Kernel.taskContext (stateFromProc base)
          intrContext := Kernel.interruptContext (stateFromProc base) } ∧
      ∀ x, Outside A.toFrameAllocator s.paging.frames x →
        Outside A.toFrameAllocator s₁.paging.frames x ∧ s₁.paging.mem x = s.paging.mem x ∧
          ¬InBytes base kernelStackSize x ∧ ¬InBytes (s₁.cr3 forked) 0x1000 x := by
  rw [processInitialize, acquireStack] at hs
  split at hs
  · cases hs
  · exact absurd (congrArg Prod.fst (Option.some.inj hs)) (by simp)
  · next base s₂ hstack =>
    split at hstack
    · cases hstack
    · obtain ⟨hbase, rfl⟩ := Prod.mk.inj (Option.some.inj hstack)
      dsimp only at hs
      split at hs
      · exact absurd (congrArg Prod.fst (Option.some.inj hs)) (by simp)
      · next pgd t hdir =>
        obtain rfl := congrArg Prod.snd (Option.some.inj hs)
        refine ⟨base, rfl, rfl, fun x hx => ?_⟩
        obtain ⟨h₁, hmem₁, hout⟩ := hx.stack (m := s.paging.mem) hbase
        obtain ⟨h₂, hmem₂, hpgd⟩ := pagingInitialize_outside (x := x) h₁ hdir
        have htask : Kernel.taskContext (stateFromProc base) = base + BitVec.ofNat 32 8075 :=
          taskContext_stateFromProc
        have hstore : ¬InBytes (base + BitVec.ofNat 32 8075) 4 x := fun h =>
          hout (h.of_add (by decide) (by decide))
        refine ⟨h₂, ?_, hout, ?_⟩
        · simp only [initializeStack, Function.update_self, htask]
          rw [store32_frame hstore, hmem₂, initializeStack]
          dsimp only
          rw [contextInitialize_frame hout, stateInitialize_frame hout, hmem₁]
        · simp only [cr3, initializeStack, Function.update_self, load32_store32]
          exact hpgd

/-- A stack and a frame for the directory are enough. -/
theorem processInitialize_isTrue {base : BitVec 32} {a : σ} {m : Memory}
    (hlock : s.pageLock = false)
    (hstack : A.acquireStack s.paging.frames s.paging.mem = (some base, a, m))
    (hdir : ∀ m, ∃ pgd, (A.acquire a m).1 = some pgd) :
    ∃ s₁, s.processInitialize A K forked = some (true, s₁) := by
  rw [processInitialize, acquireStack, hlock, if_neg (by simp), hstack]
  dsimp only
  split
  · next t hnone =>
    -- the frame for the directory is there
    rw [PagingState.pagingInitialize] at hnone
    split at hnone
    · next t₁ ha =>
      obtain ⟨pgd, hpgd⟩ := hdir ((initializeStack K { s with
        paging := { s.paging with mem := m, frames := a }
        stacksAcquired := (some base).toList ++ s.stacksAcquired
        pageLock := (some base).isNone } forked base).paging.mem)
      have hfst := congrArg Prod.fst ha
      exact absurd (hpgd.symm.trans hfst) (by simp)
    · exact absurd (congrArg Prod.fst hnone) (by simp)
  · exact ⟨_, rfl⟩

theorem prepare_of_clone {t : PagingState σ}
    (hinit : s.processInitialize A K forked = some (true, s₁))
    (hclone : pagingClone A.toFrameAllocator (s₁.cr3 p) (s₁.cr3 forked) s₁.paging =
      some (true, t)) :
    prepare A K s p forked = some (true, { s₁ with paging := t }) := by
  rw [prepare, hinit]
  dsimp only
  rw [hclone]

/-- When the new process is ready, what was in use is as it was. -/
theorem prepare_true (hs : prepare A K s p forked = some (true, s₁)) :
    ∃ base, s₁.table = s.table ∧
      s₁.fields = Function.update s.fields forked
        { base := base, size := BitVec.ofNat 32 kernelStackSize
          taskContext := Kernel.taskContext (stateFromProc base)
          intrContext := Kernel.interruptContext (stateFromProc base) } ∧
      ∀ x, Outside A.toFrameAllocator s.paging.frames x →
        s₁.paging.mem x = s.paging.mem x ∧ ¬InBytes base kernelStackSize x := by
  rw [prepare] at hs
  split at hs
  · cases hs
  · exact absurd (congrArg Prod.fst (Option.some.inj hs)) (by simp)
  · next s₂ hinit =>
    obtain ⟨base, htable, hfields, hmem⟩ := processInitialize_true hinit
    split at hs
    · cases hs
    · next paging hclone =>
      obtain rfl := congrArg Prod.snd (Option.some.inj hs)
      refine ⟨base, htable, hfields, fun x hx => ?_⟩
      obtain ⟨h₂, hmem₂, hout, hdir⟩ := hmem x hx
      obtain ⟨-, hmem₃⟩ := cloneLoop_outside (fun h => hdir (h.mono (by decide))) 512 0 s₂.paging
        (by omega) h₂ (cloneLoop_of_pagingClone hclone)
      exact ⟨hmem₃.trans hmem₂, hout⟩
    · split at hs
      · exact absurd (congrArg Prod.fst (Option.some.inj hs)) (by simp)
      · cases hs

/-- The result of a fork that succeeds, with the table as `processFork` has it. -/
theorem fork_of_prepare (hbook : s.table.schedulerBook = some (forked, table))
    (hs : prepare A K { s with table := table } p forked = some (true, s₁))
    (htable : s₁.table = table) :
    ∃ r t, s.table.processFork p true = some (t, r) ∧
      s.fork A K p = some (r, { s₁ with
        table := t
        paging := { s₁.paging with
          mem := iContextFork s₁.paging.mem (s₁.fields forked).intrContext
            (s₁.fields p).intrContext } }) := by
  rw [fork, ProcessTable.processFork, hbook]
  simp only [hs, htable, Bool.not_true, Bool.false_eq_true, if_false]
  exact ⟨_, _, rfl, rfl⟩

/-- When there is memory for it a fork makes a process, and returns the id of its caller. -/
theorem forked_of_succeeds (hrun : (s.table.procs p).status = .running)
    (hctx : ∀ x, InBytes (s.fields p).intrContext 76 x →
      Outside A.toFrameAllocator s.paging.frames x)
    (hsucc : s.Succeeds A K p) :
    ∃ s' forked, s.fork A K p = some ((s.table.procs p).id, s') ∧ s.Forked A s' p forked ∧
      (s'.table.procs forked).id = s.table.nextPid := by
  obtain ⟨forked, table, s₁, hbook, hprep⟩ := hsucc
  obtain ⟨base, htable, hfields, hmem⟩ := prepare_true hprep
  obtain ⟨r, t, hfork, hresult⟩ := fork_of_prepare hbook hprep htable
  have hrun' : (s.table.procs p).status ≠ .idle := by
    rw [hrun]
    decide
  obtain ⟨hidle, hne, rfl, hchild, hcaller, hrest⟩ :=
    ProcessTable.processFork_booked hrun' hbook hfork
  have hself : s₁.fields forked =
      { base := base, size := BitVec.ofNat 32 kernelStackSize
        taskContext := Kernel.taskContext (stateFromProc base)
        intrContext := Kernel.interruptContext (stateFromProc base) } := by
    rw [hfields, Function.update_self]
  have hother : ∀ q, q ≠ forked → s₁.fields q = s.fields q := fun q hq => by
    rw [hfields, Function.update_of_ne hq]
  refine ⟨_, forked, hresult, ⟨⟨hidle, ?_⟩, ?_, ?_, fun l hl hactive => ?_, hcaller,
    hother p hne.symm, ?_, fun q hqf hqp => ⟨hrest q hqf hqp, hother q hqf⟩, fun x hx => ?_⟩, ?_⟩
  · rw [hchild]
  · rw [hchild]
  · rw [hcaller]
  · have hforked : forked ∉ l := fun hmem => hactive forked hmem hidle
    have hsibling : ∀ q ∈ l, t.sibling q = s.table.sibling q := by
      intro q hq
      have hqf : q ≠ forked := fun heq => hforked (heq ▸ hq)
      rw [ProcessTable.sibling, ProcessTable.sibling]
      by_cases hqp : q = p
      · rw [hqp, hcaller]
      · rw [hrest q hqf hqp]
    have hhead : t.sibling forked = (s.table.procs p).child := by
      rw [ProcessTable.sibling, hchild]
    show Chain t.sibling (t.procs p).child (forked :: l)
    rw [hcaller]
    refine ⟨rfl, ?_⟩
    rw [hhead]
    exact hl.congr hsibling
  · show userContext (iContextFork s₁.paging.mem (s₁.fields forked).intrContext
      (s₁.fields p).intrContext) (s₁.fields forked).intrContext = _
    rw [userContext_iContextFork, hother p hne.symm,
      userContext_congr fun x hx => (hmem x (hctx x hx)).1]
  · show iContextFork s₁.paging.mem (s₁.fields forked).intrContext (s₁.fields p).intrContext x = _
    obtain ⟨hsame, hout⟩ := hmem x hx
    rw [hself, iContextFork_frame hout, hsame]
  · rw [hchild]

/-- The slot that was idle and is runnable now is the only one. -/
theorem Forked.unique {forked' : Slot} (h : s.Forked A s' p forked)
    (h' : s.Forked A s' p forked') (hrun : (s.table.procs p).status = .running) :
    forked' = forked := by
  by_contra hne
  have hp : forked' ≠ p := by
    rintro rfl
    rw [h'.status.1] at hrun
    cases hrun
  have hstatus := h'.status.2
  rw [(h.others forked' hne hp).1, h'.status.1] at hstatus
  cases hstatus

/-- When there is memory for it a fork returns, and what it has done and returned is right if
    and only if the id of the caller is the one that the child has got. -/
theorem forks_iff (A : StackAllocator σ) (K : ForkKernel) (s : ForkState σ) (p : Slot)
    (hrun : (s.table.procs p).status = .running)
    (hctx : ∀ x, InBytes (s.fields p).intrContext 76 x →
      Outside A.toFrameAllocator s.paging.frames x)
    (hsucc : s.Succeeds A K p) :
    ∃ r s', s.fork A K p = some (r, s') ∧
      ((∃ forked, s.Forks A s' p r forked) ↔ (s.table.procs p).id = s.table.nextPid) := by
  obtain ⟨s', forked, hresult, h, hid⟩ := forked_of_succeeds hrun hctx hsucc
  refine ⟨_, s', hresult, ?_⟩
  constructor
  · rintro ⟨forked', h'⟩
    rw [h'.returned, h.unique h'.toForked hrun, hid]
  · intro heq
    exact ⟨forked, h, heq.trans hid.symm⟩

/-- With fewer than `2^32` bookings the id of the caller is not that of its child. -/
theorem id_ne_nextPid {b : Nat} (hb : b + 1 < 2 ^ 32) (hnum : s.table.Numbered b) :
    (s.table.procs p).id ≠ s.table.nextPid := by
  intro heq
  have hle := hnum.le p
  rw [heq, hnum.next, BitVec.toNat_ofNat, Nat.mod_eq_of_lt hb] at hle
  omega

end success

end ForkState

/-! ## Section 5: A Concrete Fork -/

theorem toNat_numbered {n : BitVec 20} : (numbered n).toNat = 0x1000 * n.toNat := by
  have hlt := n.isLt
  rw [numbered, BitVec.toNat_shiftLeft, BitVec.toNat_setWidth, Nat.shiftLeft_eq]
  omega

/-- The frames of a block of four. -/
theorem numbered_add {n : BitVec 20} {i : Nat} :
    numbered n + BitVec.ofNat 32 (0x1000 * i) = numbered (n + BitVec.ofNat 20 i) := by
  refine BitVec.eq_of_toNat_eq ?_
  rw [BitVec.toNat_add, toNat_numbered, toNat_numbered, BitVec.toNat_add, BitVec.toNat_ofNat,
    BitVec.toNat_ofNat]
  omega

/-- Four frames in a row are taken from the head of the list of free frames. -/
def takeStack (l : List (BitVec 20)) (m : Memory) :
    Option (BitVec 32) × List (BitVec 20) × Memory :=
  match l with
  | [] => (none, [], m)
  | n :: l =>
      if n.toNat % 4 = 0 ∧ n + 1 ∈ l ∧ n + 2 ∈ l ∧ n + 3 ∈ l then
        (some (numbered n), l.filter fun k => k.toNat / 4 ≠ n.toNat / 4, m)
      else (none, n :: l, m)

theorem takeStack_aligned :
    ∀ l m b, (takeStack l m).1 = some b → b.toNat % 0x4000 = 0 := by
  rintro (_ | ⟨n, l⟩) m b h
  · cases h
  · rw [takeStack] at h
    split at h
    · next hn =>
      rw [← Option.some.inj h, toNat_numbered]
      omega
    · cases h

theorem takeStack_free :
    ∀ l m b, (takeStack l m).1 = some b →
      ∀ i < 4, frameList.free l (b + BitVec.ofNat 32 (0x1000 * i)) := by
  rintro (_ | ⟨n, l⟩) m b h i hi
  · cases h
  · rw [takeStack] at h
    split at h
    · next hn =>
      rw [← Option.some.inj h, numbered_add]
      refine ⟨_, ?_, rfl⟩
      obtain rfl | rfl | rfl | rfl : i = 0 ∨ i = 1 ∨ i = 2 ∨ i = 3 := by omega
      · exact List.mem_cons.mpr (.inl (BitVec.add_zero n))
      · exact List.mem_cons_of_mem _ hn.2.1
      · exact List.mem_cons_of_mem _ hn.2.2.1
      · exact List.mem_cons_of_mem _ hn.2.2.2
    · cases h

theorem takeStack_rest :
    ∀ l m f, frameList.free (takeStack l m).2.1 f →
      frameList.free l f ∧ ∀ b, (takeStack l m).1 = some b → ¬InBytes b 0x4000 f := by
  rintro (_ | ⟨n, l⟩) m f ⟨k, hk, rfl⟩
  · exact absurd hk List.not_mem_nil
  · rw [takeStack] at hk ⊢
    split at hk
    · next hn =>
      rw [if_pos hn]
      obtain ⟨hk, hne⟩ := List.mem_filter.mp hk
      refine ⟨⟨k, List.mem_cons_of_mem _ hk, rfl⟩, fun b hb hin => of_decide_eq_true hne ?_⟩
      have hlt := k.isLt
      have hlt' := n.isLt
      rw [← Option.some.inj hb, InBytes, BitVec.toNat_sub, toNat_numbered, toNat_numbered] at hin
      omega
    · next hn =>
      rw [if_neg hn]
      exact ⟨⟨k, hk, rfl⟩, fun b hb => (by cases hb)⟩

theorem takeStack_frame :
    ∀ l m x, (∀ f, frameList.free l f → ¬InBytes f 0x1000 x) → (takeStack l m).2.2 x = m x := by
  rintro (_ | ⟨n, l⟩) m x _
  · rfl
  · rw [takeStack]
    split <;> rfl

/-- The list of free frames, with stacks taken from its head. -/
def stackList : StackAllocator (List (BitVec 20)) where
  toFrameAllocator := frameList
  acquireStack := takeStack
  releaseStack l m p :=
    let n : BitVec 20 := p.extractLsb' 12 20
    (n :: (n + 1) :: (n + 2) :: (n + 3) :: l, m)
  stack_aligned := takeStack_aligned
  stack_free := takeStack_free
  stack_rest := takeStack_rest
  stack_frame := takeStack_frame

namespace ForkState

/-- The process in slot 0 runs, with the id 1, and has no pages. Five frames are free. -/
def forkReady : ForkState (List (BitVec 20)) where
  table :=
    { procs := fun p =>
        { id := if p = 0 then 1 else 0, parent := none, child := none, sibling := none
          numChildren := 0, status := if p = 0 then .running else .idle, exitCode := 0
          endpoint := 0, runTime := 0 }
      nextPid := 2 }
  fields _ := { base := 0, size := 0, taskContext := 0, intrContext := 0x100 }
  paging := ⟨fun _ => 0, [0x80300, 0x80301, 0x80302, 0x80303, 0x80304], [], [], []⟩
  stacksAcquired := []
  stacksReleased := []
  pageLock := false

def sampleFork : ForkKernel where
  kernel := Kernel.sampleKernel
  kernelDirectory := 0
  process _ := 0

theorem outside_forkReady {x : BitVec 32} (hx : x.toNat < 0x1000) :
    Outside stackList.toFrameAllocator forkReady.paging.frames x := by
  rintro f ⟨n, hn, rfl⟩ hin
  have hle : 0x80300 ≤ n.toNat ∧ n.toNat ≤ 0x80304 := by
    simp only [forkReady, List.mem_cons, List.not_mem_nil, or_false] at hn
    rcases hn with rfl | rfl | rfl | rfl | rfl <;> simp
  rw [InBytes, BitVec.toNat_sub, toNat_numbered] at hin
  omega

theorem book_forkReady : ∃ table, forkReady.table.schedulerBook = some (1, table) := by
  have hslot : forkReady.table.schedulerBook.map Prod.fst = some 1 := by decide +kernel
  obtain ⟨⟨forked, table⟩, hbook, rfl⟩ := Option.map_eq_some_iff.mp hslot
  exact ⟨table, hbook⟩

theorem acquireStack_stackList {n : BitVec 20} {l : List (BitVec 20)} {m : Memory}
    (hn : n.toNat % 4 = 0 ∧ n + 1 ∈ l ∧ n + 2 ∈ l ∧ n + 3 ∈ l) :
    stackList.acquireStack (n :: l) m =
      (some (numbered n), l.filter fun k => k.toNat / 4 ≠ n.toNat / 4, m) := by
  show (if n.toNat % 4 = 0 ∧ n + 1 ∈ l ∧ n + 2 ∈ l ∧ n + 3 ∈ l then _ else _) = _
  rw [if_pos hn]

theorem acquireStack_forkReady :
    stackList.acquireStack forkReady.paging.frames forkReady.paging.mem =
      (some (numbered 0x80300), [0x80304], forkReady.paging.mem) :=
  acquireStack_stackList (by decide)

theorem succeeds_forkReady : forkReady.Succeeds stackList sampleFork 0 := by
  obtain ⟨table, hbook⟩ := book_forkReady
  obtain ⟨s₁, hinit⟩ : ∃ s₁, processInitialize stackList sampleFork
      { forkReady with table := table } 1 = some (true, s₁) :=
    processInitialize_isTrue (s := { forkReady with table := table }) rfl
      acquireStack_forkReady fun m => ⟨numbered 0x80304, rfl⟩
  obtain ⟨base, -, hfields, hmem⟩ := processInitialize_true hinit
  -- the first page of memory is still zero
  have hzero : ∀ x : BitVec 32, x.toNat < 0x1000 → s₁.paging.mem x = 0 := fun x hx =>
    (hmem x (outside_forkReady hx)).2.1
  have hparent : s₁.fields 0 = forkReady.fields 0 := by
    rw [hfields]
    rfl
  have hcr3 : s₁.cr3 0 = 0 := by
    rw [cr3, hparent]
    refine load32_eq_zero fun x hx => hzero x ?_
    have hx' : (x - 0#32).toNat < 4 := hx
    rw [BitVec.sub_zero] at hx'
    omega
  have hpde : ∀ i, 0 ≤ i → i < 0 + 512 → pde 0 s₁.paging.mem i = 0 := by
    intro i _ hi
    refine load32_eq_zero fun x hx => hzero x ?_
    have hx' : InBytes 0 0x1000 x := inBytes_entryAddr (by omega) hx
    have hx'' : (x - 0#32).toNat < 0x1000 := hx'
    rwa [BitVec.sub_zero] at hx''
  have hclone : pagingClone stackList.toFrameAllocator (s₁.cr3 0) (s₁.cr3 1) s₁.paging =
      some (true, s₁.paging) := by
    rw [hcr3, pagingClone, cloneLoop_of_zero 512 0 s₁.paging hpde]
  exact ⟨1, table, s₁, hbook, prepare_of_clone hinit hclone⟩

theorem context_forkReady {x : BitVec 32} (hx : InBytes (forkReady.fields 0).intrContext 76 x) :
    Outside stackList.toFrameAllocator forkReady.paging.frames x := by
  have hx' : (x - 0x100).toNat < 76 := hx
  have hoff : (0x100 : BitVec 32).toNat = 0x100 := rfl
  have hlt := x.isLt
  rw [BitVec.toNat_sub, hoff] at hx'
  exact outside_forkReady (by omega)

theorem forks_iff_forkReady :
    ∃ r s', forkReady.fork stackList sampleFork 0 = some (r, s') ∧
      ((∃ forked, forkReady.Forks stackList s' 0 r forked) ↔
        (forkReady.table.procs 0).id = forkReady.table.nextPid) :=
  forks_iff stackList sampleFork forkReady 0 rfl (fun _ => context_forkReady) succeeds_forkReady

/-- The fork returns 1, and the child has the id 2. -/
theorem not_forall_forks :
    ¬∀ (s : ForkState (List (BitVec 20))) (p : Slot), (s.table.procs p).status = .running →
      (∀ x, InBytes (s.fields p).intrContext 76 x →
        Outside stackList.toFrameAllocator s.paging.frames x) →
      s.Succeeds stackList sampleFork p →
        ∃ r s', s.fork stackList sampleFork p = some (r, s') ∧
          ∃ forked, s.Forks stackList s' p r forked := by
  intro hall
  obtain ⟨s', forked, hresult, h, hid⟩ :=
    forked_of_succeeds (K := sampleFork) (p := 0) rfl (fun _ => context_forkReady)
      succeeds_forkReady
  obtain ⟨r, s'', hresult', forked', h'⟩ :=
    hall forkReady 0 rfl (fun _ => context_forkReady) succeeds_forkReady
  obtain ⟨rfl, rfl⟩ := Prod.mk.inj (Option.some.inj (hresult.symm.trans hresult'))
  have hreturned := h'.returned
  rw [h.unique h'.toForked rfl, hid] at hreturned
  exact absurd hreturned (by decide)

end ForkState

end Avos
