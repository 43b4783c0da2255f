import Avos.Taskmaster.Fork

/-! # A Fork That Fails

  Memory can run out at the kernel stack, at the directory and at every page table and page of
  the copy. Each time `Page_Acquire` has found no page, and it returns with
  `Page_operation_lock` taken. What `Process_Fork` does then is to give pages back, and
  `Page_Release` waits for the lock: the call does not return (`fork_eq_none`), and the slot
  stays booked.
-/

open ByteMemory

namespace Avos

variable {σ : Type*}

namespace ForkState

/-! ## Section 1: What Is Expected -/

/-- Memory runs out in a fork by `parent`: in `Process_Initialize`, or in `Paging_Clone`. -/
def RunsOut (A : StackAllocator σ) (K : ForkKernel) (s : ForkState σ) (parent : Slot) : Prop :=
  ∃ forked table, s.table.schedulerBook = some (forked, table) ∧
    ((∃ s₁, processInitialize A K { s with table := table } forked = some (false, s₁)) ∨
      ∃ s₁, processInitialize A K { s with table := table } forked = some (true, s₁) ∧
        (cloneLoop A.toFrameAllocator (s₁.cr3 parent) (s₁.cr3 forked) 512 0 s₁.paging).1 = false)

/-- A failed fork by `parent` from `s` to `s'` has left nothing behind: the same pages are
    free, what it released is what it had acquired, the caller's address space and its place in
    the tree are as they were, and the booked slot is idle. -/
structure LeavesNothing (A : StackAllocator σ) (s s' : ForkState σ) (parent : Slot) : Prop where
  free : ∀ f, A.free s'.paging.frames f ↔ A.free s.paging.frames f
  frames : ∃ acquired released, s'.paging.acquired = acquired ++ s.paging.acquired ∧
    s'.paging.released = released ++ s.paging.released ∧ released.Perm acquired
  kernelStacks : ∃ acquired released, s'.stacksAcquired = acquired ++ s.stacksAcquired ∧
    s'.stacksReleased = released ++ s.stacksReleased ∧ released.Perm acquired
  space : ∀ o f x, spaceFrame (s.cr3 parent) s.paging.mem o = some f → InBytes f 0x1000 x →
    s'.paging.mem x = s.paging.mem x
  tree : s'.table.procs parent = s.table.procs parent
  idle : ∀ forked table, s.table.schedulerBook = some (forked, table) →
    (s'.table.procs forked).status = .idle

/-- The fork returns -1 and has left nothing behind. -/
def FailsAtomically (A : StackAllocator σ) (K : ForkKernel) (s : ForkState σ) (parent : Slot) :
    Prop :=
  ∃ s', s.fork A K parent = some (-1, s') ∧ s.LeavesNothing A s' parent

/-- The states from the start on: processes fork, and in between anything may happen that does
    not set the field `kernel_stack.base` of a process. -/
inductive Reachable (A : StackAllocator σ) (K : ForkKernel) : ForkState σ → Prop
  | start {s} : (∀ p, (s.fields p).base = 0) → Reachable A K s
  | fork {s s' p r} : Reachable A K s → s.fork A K p = some (r, s') → Reachable A K s'
  | other {s s'} : Reachable A K s → (∀ p, (s'.fields p).base = (s.fields p).base) →
      Reachable A K s'

/-! ## Section 2: The Stacks of the Slots -/

section slots

variable {A : StackAllocator σ} {K : ForkKernel} {s s₁ s' : ForkState σ} {p q forked : Slot}
  {r : BitVec 32} {ok : Bool} {a : σ} {m : Memory} {base : BitVec 32}

/-- A stack that is handed out is not `PAGE_LIST_NULL`. -/
theorem stack_ne_null (h : (A.acquireStack a m).1 = some base) : base ≠ pageNull := by
  have haligned := A.stack_aligned a m base h
  rintro rfl
  exact absurd haligned (by decide)

/-- `Process_Initialize` sets the base of the stack when it has got one. When there is none
    the slot keeps what it had. -/
theorem processInitialize_base (h : s.processInitialize A K forked = some (ok, s₁))
    (hbase : ∀ q, (s.fields q).base ≠ pageNull) :
    (∀ q, (s₁.fields q).base ≠ pageNull) ∧ (ok = false → s₁.pageLock = true) := by
  rw [processInitialize, acquireStack] at h
  split at h
  · cases h
  · next s₂ hstack =>
    split at hstack
    · cases hstack
    · obtain ⟨hnone, rfl⟩ := Prod.mk.inj (Option.some.inj hstack)
      obtain ⟨rfl, rfl⟩ := Prod.mk.inj (Option.some.inj h)
      refine ⟨hbase, fun _ => ?_⟩
      simp only [hnone, Option.isNone_none]
  · next base s₂ hstack =>
    split at hstack
    · cases hstack
    · obtain ⟨hsome, rfl⟩ := Prod.mk.inj (Option.some.inj hstack)
      dsimp only at h
      have hfields : ∀ q, ((Function.update s.fields forked
          { base := base, size := BitVec.ofNat 32 kernelStackSize
            taskContext := Kernel.taskContext (stateFromProc base)
            intrContext := Kernel.interruptContext (stateFromProc base) }) q).base ≠ pageNull := by
        intro q
        by_cases hq : q = forked
        · rw [hq, Function.update_self]
          exact stack_ne_null hsome
        · rw [Function.update_of_ne hq]
          exact hbase q
      split at h
      · obtain ⟨rfl, rfl⟩ := Prod.mk.inj (Option.some.inj h)
        exact ⟨hfields, fun _ => rfl⟩
      · obtain ⟨rfl, rfl⟩ := Prod.mk.inj (Option.some.inj h)
        exact ⟨hfields, fun h => by cases h⟩

theorem prepare_base (h : prepare A K s p forked = some (ok, s₁))
    (hbase : ∀ q, (s.fields q).base ≠ pageNull) : ∀ q, (s₁.fields q).base ≠ pageNull := by
  rw [prepare] at h
  split at h
  · cases h
  · next s₂ hinit =>
    obtain rfl := congrArg Prod.snd (Option.some.inj h)
    exact (processInitialize_base hinit hbase).1
  · next s₂ hinit =>
    have hbase₂ := (processInitialize_base hinit hbase).1
    split at h
    · cases h
    · obtain rfl := congrArg Prod.snd (Option.some.inj h)
      exact hbase₂
    · split at h
      · obtain rfl := congrArg Prod.snd (Option.some.inj h)
        exact hbase₂
      · cases h

theorem fork_base (h : s.fork A K p = some (r, s')) (hbase : ∀ q, (s.fields q).base ≠ pageNull) :
    ∀ q, (s'.fields q).base ≠ pageNull := by
  rw [fork] at h
  split at h
  · cases h
  · next forked table hbook =>
    split at h
    · cases h
    · next s₁ hprep =>
      have hbase₁ := prepare_base (s := { s with table := table }) hprep hbase
      split at h
      · cases h
      · next s₂ hrel =>
        obtain rfl := congrArg Prod.snd (Option.some.inj h)
        rw [releaseStack] at hrel
        split at hrel
        · rw [← Option.some.inj hrel]
          exact hbase₁
        · split at hrel
          · cases hrel
          · rw [← Option.some.inj hrel]
            exact hbase₁
    · next s₁ hprep =>
      obtain rfl := congrArg Prod.snd (Option.some.inj h)
      show ∀ q, (s₁.fields q).base ≠ pageNull
      exact prepare_base (s := { s with table := table }) hprep hbase

/-- No slot has `PAGE_LIST_NULL` for its stack. -/
theorem base_of_reachable (h : Reachable A K s) : ∀ q, (s.fields q).base ≠ pageNull := by
  induction h with
  | start hzero =>
    intro q
    rw [hzero q]
    decide
  | fork _ hfork ih => exact fork_base hfork ih
  | other _ hsame ih =>
    intro q
    rw [hsame q]
    exact ih q

end slots

/-! ## Section 3: The Clean-Up -/

section cleanup

variable {A : FrameAllocator σ} {dir clone ptab table page : BitVec 32} {s s' : PagingState σ}
  {b : Bool}

theorem copyPage_released {p src : BitVec 32} : (copyPage s p src).released = s.released := by
  rw [copyPage]

theorem clonePage_released {j : Nat} :
    (clonePage ptab table page j s).released = s.released := by
  rw [clonePage, copyPage_released, writeEntry]

theorem cloneEntry_released {j : Nat} :
    (cloneEntry dir clone j table s).released = s.released := by
  rw [cloneEntry, writeEntry]

theorem pageAcquire0_released : (pageAcquire0 A s).2.released = s.released := rfl

theorem cloneTableLoop_released : ∀ (n j : Nat) (s : PagingState σ),
    (cloneTableLoop A ptab table n j s).2.released = s.released := by
  intro n
  induction n with
  | zero =>
    intro j s
    rfl
  | succ n ih =>
    intro j s
    rw [cloneTableLoop]
    split
    · exact ih (j + 1) s
    · have ha := @pageAcquire0_released σ A s
      split
      · next s₁ hs₁ =>
        rw [hs₁] at ha
        exact ha
      · next page s₁ hs₁ =>
        rw [hs₁] at ha
        rw [ih, clonePage_released]
        exact ha

theorem cloneTable_released {i : Nat} (h : cloneTable A dir clone i s = (b, s')) :
    s'.released = s.released := by
  rw [cloneTable] at h
  split at h
  · obtain rfl : s = s' := congrArg Prod.snd h
    rfl
  · have ha := @pageAcquire0_released σ A s
    split at h
    · next s₁ hs₁ =>
      obtain rfl : s₁ = s' := congrArg Prod.snd h
      rw [hs₁] at ha
      exact ha
    · next table s₁ hs₁ =>
      have hloop := @cloneTableLoop_released σ A
        (entryFrame (load32 (cloneEntry dir clone i table s₁).mem (entryAddr dir i))) table 1024 0
        (cloneEntry dir clone i table s₁)
      rw [h] at hloop
      rw [hs₁] at ha
      rw [hloop, cloneEntry_released]
      exact ha

/-- The loops of `Paging_Clone` release nothing. -/
theorem cloneLoop_released : ∀ (n i : Nat) (s : PagingState σ),
    cloneLoop A dir clone n i s = (b, s') → s'.released = s.released := by
  intro n
  induction n with
  | zero =>
    intro i s h
    obtain rfl : s = s' := congrArg Prod.snd h
    rfl
  | succ n ih =>
    intro i s h
    rw [cloneLoop] at h
    split at h
    · next s₁ hround =>
      obtain rfl : s₁ = s' := congrArg Prod.snd h
      exact cloneTable_released hround
    · next s₁ hround => rw [ih (i + 1) s₁ h, cloneTable_released hround]

theorem unmapPagesLoop_released {vaEnd : BitVec 32} :
    ∀ (n : Nat) (va : BitVec 32) (failed : Bool) (s : PagingState σ),
      unmapPagesLoop A dir vaEnd n va failed s = some (b, s') →
        s.released.length ≤ s'.released.length := by
  intro n
  induction n with
  | zero =>
    intro va failed s h
    cases h
  | succ n ih =>
    intro va failed s h
    rw [unmapPagesLoop] at h
    split at h
    · obtain rfl := congrArg Prod.snd (Option.some.inj h)
      exact Nat.le_refl _
    · split at h
      · obtain rfl := congrArg Prod.snd (Option.some.inj h)
        exact Nat.le_refl _
      · refine Nat.le_trans ?_ (ih _ _ _ h)
        obtain hs | ⟨-, -, hs⟩ := @pagingUnmapPage_cases σ A dir s va
        · rw [hs]
        · rw [hs]
          exact Nat.le_succ _

/-- `Paging_Terminate` releases something, whatever it finds. -/
theorem pagingTerminate_released (h : pagingTerminate A dir s = some s') :
    s.released.length < s'.released.length := by
  obtain ⟨⟨b, s₁⟩, hunmap, rfl⟩ := Option.map_eq_some_iff.mp h
  obtain ⟨l, -, hloop⟩ := @released_terminateLoop_length σ A dir 512 0 s₁
  have hle := unmapPagesLoop_released _ _ _ _ hunmap
  show s.released.length < (dir :: (terminateLoop A dir 512 0 s₁).released).length
  rw [hloop, List.length_cons, List.length_append]
  omega

/-- When the clone fails, pages are released. -/
theorem released_of_pagingClone (h : pagingClone A dir clone s = some (false, s')) :
    s'.released ≠ s.released := by
  rw [pagingClone] at h
  split at h
  · next s₁ hs₁ => exact absurd (congrArg Prod.fst (Option.some.inj h)) (by simp)
  · next s₁ hs₁ =>
    obtain ⟨s₂, hterm, heq⟩ := Option.map_eq_some_iff.mp h
    obtain rfl : s₂ = s' := congrArg Prod.snd heq
    have hlt := pagingTerminate_released hterm
    rw [cloneLoop_released 512 0 s hs₁] at hlt
    intro hsame
    rw [hsame] at hlt
    exact Nat.lt_irrefl _ hlt

end cleanup

/-! ## Section 4: The Fork -/

section fork

variable {A : StackAllocator σ} {K : ForkKernel} {s : ForkState σ} {p : Slot}

/-- Wherever memory runs out, the fork does not return. -/
theorem fork_eq_none (hbase : ∀ q, (s.fields q).base ≠ pageNull) (hout : RunsOut A K s p) :
    s.fork A K p = none := by
  obtain ⟨forked, table, hbook, hout⟩ := hout
  rw [fork, hbook]
  rcases hout with ⟨s₁, hinit⟩ | ⟨s₁, hinit, hclone⟩
  · -- the stack of the slot is released, its own or the one of the process before it
    obtain ⟨hbase₁, hlock⟩ := processInitialize_base hinit hbase
    have hprep : prepare A K { s with table := table } p forked = some (false, s₁) := by
      rw [prepare, hinit]
    have hrel : s₁.releaseStack A (s₁.fields forked).base = none := by
      rw [releaseStack, if_neg (hbase₁ forked), if_pos (hlock rfl)]
    simp only [hprep, hrel]
  · have hprep : prepare A K { s with table := table } p forked = none := by
      rw [prepare, hinit]
      dsimp only
      split
      · rfl
      · next paging hs =>
        rw [cloneLoop_of_pagingClone hs] at hclone
        cases hclone
      · next paging hs => rw [if_neg (released_of_pagingClone hs)]
    simp only [hprep]

/-- Were the lock given back, a fork that finds no stack would release the one that the slot
    had before, which it has not acquired. -/
theorem not_leavesNothing_of_releaseStack {s₁ s₂ s' : ForkState σ} {forked : Slot}
    (hbase : ∀ q, (s.fields q).base ≠ pageNull)
    (hnone : s.acquireStack A = some (none, s₁))
    (hrel : { s₁ with pageLock := false }.releaseStack A (s₁.fields forked).base = some s₂)
    (hacquired : s'.stacksAcquired = s₂.stacksAcquired)
    (hreleased : s'.stacksReleased = s₂.stacksReleased) : ¬s.LeavesNothing A s' p := by
  intro h
  obtain ⟨acquired, released, hacq, hrels, hperm⟩ := h.kernelStacks
  rw [acquireStack] at hnone
  split at hnone
  · cases hnone
  · obtain ⟨hstack, rfl⟩ := Prod.mk.inj (Option.some.inj hnone)
    rw [releaseStack, if_neg (hbase forked), if_neg Bool.false_ne_true] at hrel
    obtain rfl := Option.some.inj hrel
    dsimp only at hacquired hreleased
    rw [hacquired, hstack] at hacq
    rw [hreleased] at hrels
    have hlen := congrArg List.length hacq
    have hlen' := congrArg List.length hrels
    have hperm' := hperm.length_eq
    simp only [Option.toList_none, List.nil_append, List.length_append, List.length_cons]
      at hlen hlen'
    omega

end fork

/-- In every reachable state, a fork in which memory runs out does not fail as it should: it
    never returns. -/
theorem not_failsAtomically (A : StackAllocator σ) (K : ForkKernel) (s : ForkState σ) (p : Slot)
    (h : Reachable A K s) (hout : RunsOut A K s p) : ¬s.FailsAtomically A K p := by
  rintro ⟨s', hfork, -⟩
  rw [fork_eq_none (base_of_reachable h) hout] at hfork
  cases hfork

/-! ### A Machine Without Free Pages -/

/-- The machine of `forkReady`, with no page left. -/
def forkExhausted : ForkState (List (BitVec 20)) :=
  { forkReady with paging := ⟨fun _ => 0, [], [], [], []⟩ }

theorem runsOut_forkExhausted : RunsOut stackList sampleFork forkExhausted 0 := by
  obtain ⟨table, hbook⟩ := book_forkReady
  exact ⟨1, table, hbook, .inl ⟨_, rfl⟩⟩

theorem reachable_forkExhausted : Reachable stackList sampleFork forkExhausted :=
  .start fun _ => rfl

theorem not_failsAtomically_forkExhausted :
    ¬forkExhausted.FailsAtomically stackList sampleFork 0 :=
  not_failsAtomically stackList sampleFork forkExhausted 0 reachable_forkExhausted
    runsOut_forkExhausted

theorem not_forall_failsAtomically :
    ¬∀ (s : ForkState (List (BitVec 20))) (p : Slot), Reachable stackList sampleFork s →
      RunsOut stackList sampleFork s p → s.FailsAtomically stackList sampleFork p := by
  intro hall
  obtain ⟨s', hfork, -⟩ :=
    hall forkExhausted 0 reachable_forkExhausted runsOut_forkExhausted
  rw [fork_eq_none (base_of_reachable reachable_forkExhausted) runsOut_forkExhausted] at hfork
  cases hfork

end ForkState

end Avos
