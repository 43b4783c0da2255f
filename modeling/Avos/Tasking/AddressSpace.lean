import Avos.Library.Transition
import Avos.Paging.Paging
import Avos.Tasking.Return
import Mathlib.Logic.Function.Basic

/-! # Page Directories Across Context Switches

  `Paging_Initialize` puts the address of a new page directory into the field `cr3` of the
  process's first context. `KContext_Switch` loads CR3 from this field, and saves CR3 there
  when the process is left. The functions `Paging_*` read the field as a pointer.

  The system has any number of CPUs and processes. Its steps are the initialisation of a
  process, the two switches, and anything else that the context running on a CPU may do.
  What the field holds is always the pointer (`derefsDirectory_of_run`); so what is loaded
  into CR3 is never the physical address (`addressSpaces_iff`).
-/

open ByteMemory Transition

namespace Avos

/-! ## Section 1: The System -/

/-- `KERNEL_STACK_SIZE`. -/
abbrev kernelStackSize : Nat := 0x2000

/-- `STATE_FROM_PROC`, by the base of the process's stack; the block has 13 bytes. -/
def stateFromProc (base : BitVec 32) : BitVec 32 := base + BitVec.ofNat 32 (kernelStackSize - 13)

/-- The loop of `Paging_Initialize`: the `n` entries from entry 512 on are copied from
    `Kernel_pagedirectory`. -/
def copyKernelHalf (m : Memory) (kernelDirectory pgd : BitVec 32) : Nat → Memory
  | 0 => m
  | n + 1 =>
      let m := copyKernelHalf m kernelDirectory pgd n
      let i := BitVec.ofNat 32 (4 * (512 + n))
      store32 m (pgd + i) (load32 m (kernelDirectory + i))

/-- `Paging_Initialize`, when `Page_Acquire` has returned the page `pgd`. -/
def pagingInitialize (m : Memory) (kernelDirectory taskField pgd : BitVec 32) : Memory :=
  let m := memset m pgd 0 0x1000
  let m := copyKernelHalf m kernelDirectory pgd 512
  store32 m (load32 m taskField) pgd

/-- `Process_Initialize`, when `Page_Acquire` has returned the stack `base`. What
    `State_Initialize` writes is not described. -/
def processInitialize (k : Kernel) (m : Memory) (kernelDirectory taskField base pgd : BitVec 32) :
    Memory :=
  let m := k.contextInitialize m (stateFromProc base)
  let m := store32 m taskField (Kernel.taskContext (stateFromProc base))
  pagingInitialize m kernelDirectory taskField pgd

/-- Where the kernel's variables are: the field `task_context` of each process, and the
    stack of each CPU's scheduler, which has the CPU's `kernel_task` at its top. -/
structure SpaceLayout (C P : Type*) where
  kernel : Kernel
  kernelDirectory : BitVec 32
  taskField : P → BitVec 32
  schedulerStack : C → BitVec 32
  schedulerField : C → BitVec 32
  taskField_apart : ∀ p q, p ≠ q → Apart (taskField p) 4 (taskField q) 4
  taskField_scheduler : ∀ p c, Apart (taskField p) 4 (schedulerStack c) kernelStackSize
  schedulerField_mem : ∀ c x, InBytes (schedulerField c) 4 x →
    InBytes (schedulerStack c) kernelStackSize x

/-- The state: the memory, the registers of the CPUs (the memory of these machines is not
    used), the process each CPU runs, and for each initialised process its stack and the
    page directory that was built for it. -/
structure SpaceState (C P : Type*) where
  mem : Memory
  cpu : C → Machine
  running : C → Option P
  live : P → Prop
  stack : P → BitVec 32
  directory : P → BitVec 32

/-- The steps. -/
inductive SpaceStep (C P : Type*) where
  | processInitialize (p : P) (base pgd : BitVec 32)
  | work (c : C)
  | switchTo (c : C) (p : P)
  | switchFrom (c : C) (p : P)

variable {C P : Type*} [DecidableEq C] [DecidableEq P]

namespace SpaceState

/-- The process runs on no CPU. -/
def Resting (s : SpaceState C P) (p : P) : Prop := ∀ c, s.running c ≠ some p

/-- The CPU with the memory. -/
def machine (s : SpaceState C P) (c : C) : Machine := { s.cpu c with mem := s.mem }

/-- The result of `KContext_Switch`. -/
def switch (s : SpaceState C P) (c : C) (r : Option P) : SpaceState C P :=
  let t := Kernel.switched (s.machine c)
  { s with
    mem := t.mem, cpu := Function.update s.cpu c t, running := Function.update s.running c r }

end SpaceState

/-- The pages `Page_Acquire` returns are used by nobody. -/
structure Fresh (L : SpaceLayout C P) (s : SpaceState C P) (p : P) (a : BitVec 32) (n : Nat) :
    Prop where
  stack : ∀ q, s.live q → q ≠ p → Apart a n (s.stack q) kernelStackSize
  taskField : ∀ q, Apart a n (L.taskField q) 4
  scheduler : ∀ c, Apart a n (L.schedulerStack c) kernelStackSize

/-- `KContext_Switch` is called with these arguments, from a stack at `base`. -/
structure CallsSwitch (m : Machine) (base old new : BitVec 32) : Prop where
  old : m.stack 4 = old
  new : m.stack 8 = new
  stack : ∃ j, 20 ≤ j ∧ j + 12 ≤ kernelStackSize ∧ m.esp = base + BitVec.ofNat 32 j

/-- The steps of the system. -/
def spaceStep (L : SpaceLayout C P) (s : SpaceState C P) :
    SpaceStep C P → SpaceState C P → Prop
  | .processInitialize p base pgd, s' =>
      s.Resting p ∧ Fresh L s p base kernelStackSize ∧ Fresh L s p pgd 0x1000 ∧
        Apart base kernelStackSize pgd 0x1000 ∧ 0x80000000 ≤ pgd ∧
        ∃ m, (∀ x, ¬InBytes base kernelStackSize x → m x = s.mem x) ∧
          s' = { s with
            mem := processInitialize L.kernel m L.kernelDirectory (L.taskField p) base pgd
            live := Function.update s.live p True
            stack := Function.update s.stack p base
            directory := Function.update s.directory p pgd }
  | .work c, s' =>
      ∃ m t, t.cr3 = (s.cpu c).cr3 ∧
        (∀ p, s.live p → s.running c ≠ some p →
          ∀ x, InBytes (s.stack p) kernelStackSize x → m x = s.mem x) ∧
        (∀ p x, InBytes (L.taskField p) 4 x → m x = s.mem x) ∧
        s' = { s with mem := m, cpu := Function.update s.cpu c t }
  | .switchTo c p, s' =>
      s.running c = none ∧ s.live p ∧ s.Resting p ∧
        CallsSwitch (s.machine c) (L.schedulerStack c) (L.schedulerField c)
          (load32 s.mem (L.taskField p)) ∧
        s' = s.switch c (some p)
  | .switchFrom c p, s' =>
      s.running c = some p ∧
        CallsSwitch (s.machine c) (s.stack p) (L.taskField p)
          (load32 s.mem (L.schedulerField c)) ∧
        s' = s.switch c none

/-- At the start no process is initialised, and the CPUs run their schedulers. -/
def spaceSystem (L : SpaceLayout C P) : System (SpaceState C P) (SpaceStep C P) where
  init s := (∀ p, ¬s.live p) ∧ ∀ c, s.running c = none
  step := spaceStep L

/-! ## Section 2: The Property -/

/-- What a function `Paging_*` finds in `task_context->cr3` of a process that is not running
    is the higher-half address of the process's page directory. -/
def DerefsDirectory (L : SpaceLayout C P) (s : SpaceState C P) : Prop :=
  ∀ p, s.live p → s.Resting p →
    load32 s.mem (load32 s.mem (L.taskField p)) = s.directory p ∧ 0x80000000 ≤ s.directory p

/-- The step, if it switches to a process, loads the physical address of its page
    directory into CR3. -/
def LoadsPhysical (s : SpaceState C P) (l : SpaceStep C P) (s' : SpaceState C P) : Prop :=
  ∀ c p, l = .switchTo c p → (s'.cpu c).cr3 = physAddr32 (s.directory p)

/-! ## Section 3: What a Step Changes -/

section frames

variable {m : Memory} {kernelDirectory taskField pgd base x : BitVec 32} {n : Nat} {k : Kernel}

theorem copyKernelHalf_frame (hn : n ≤ 512) (hx : ¬InBytes pgd 0x1000 x) :
    copyKernelHalf m kernelDirectory pgd n x = m x := by
  induction n with
  | zero => rfl
  | succ n ih =>
    rw [copyKernelHalf, store32_frame fun h => hx (h.of_add (by omega) (by decide)),
      ih (by omega)]

/-- The directory is built in its page. -/
theorem directory_frame (hx : ¬InBytes pgd 0x1000 x) :
    copyKernelHalf (memset m pgd 0 0x1000) kernelDirectory pgd 512 x = m x := by
  rw [copyKernelHalf_frame (Nat.le_refl _) hx, memset_eq (by decide)]
  exact if_neg hx

theorem pagingInitialize_eq (hfield : Apart pgd 0x1000 taskField 4) :
    pagingInitialize m kernelDirectory taskField pgd =
      store32 (copyKernelHalf (memset m pgd 0 0x1000) kernelDirectory pgd 512)
        (load32 m taskField) pgd := by
  rw [pagingInitialize, load32_congr fun y hy => directory_frame (hfield.symm y hy)]

theorem taskContext_stateFromProc :
    Kernel.taskContext (stateFromProc base) = base + BitVec.ofNat 32 8075 := by
  have h := @Kernel.top_eq (stateFromProc base)
  have h' : base + BitVec.ofNat 32 8075 + 104 = stateFromProc base := BitVec.add_assoc _ _ _
  rw [← h'] at h ⊢
  exact ((BitVec.add_left_inj _).mp h).symm

/-- The stores of `Context_Initialize` are on the stack. -/
theorem contextInitialize_frame (hx : ¬InBytes base kernelStackSize x) :
    k.contextInitialize m (stateFromProc base) x = m x := by
  have htask := @taskContext_stateFromProc base
  have hin : ∀ i n : Nat, i + n ≤ 28 →
      ¬InBytes (Kernel.taskContext (stateFromProc base) + BitVec.ofNat 32 i) n x := by
    intro i n hi h
    rw [htask, BitVec.add_assoc, ← BitVec.ofNat_add] at h
    exact hx (h.of_add (by simp only [kernelStackSize]; omega) (by decide))
  have h20 : ¬InBytes (Kernel.taskContext (stateFromProc base) + 20) 4 x := hin 20 4 (by decide)
  have h0 : ¬InBytes (Kernel.taskContext (stateFromProc base)) 24 x := by
    simpa using hin 0 24 (by decide)
  have hret : Kernel.interruptContext (stateFromProc base) - 4 =
      Kernel.taskContext (stateFromProc base) + BitVec.ofNat 32 24 := by
    rw [Kernel.taskContext]
    exact (BitVec.sub_add_cancel _ _).symm
  rw [Kernel.contextInitialize, store32_frame h20, memset_eq (by decide)]
  refine (if_neg h0).trans ?_
  rw [hret, store32_frame (hin 24 4 (by decide))]

/-- What `Process_Initialize` leaves behind. -/
theorem processInitialize_spec (hfield : Apart base kernelStackSize taskField 4)
    (hpgd : Apart pgd 0x1000 taskField 4) :
    let m' := processInitialize k m kernelDirectory taskField base pgd
    load32 m' taskField = base + BitVec.ofNat 32 8075 ∧
      load32 m' (base + BitVec.ofNat 32 8075) = pgd ∧
      ∀ x, ¬InBytes base kernelStackSize x → ¬InBytes pgd 0x1000 x → ¬InBytes taskField 4 x →
        m' x = m x := by
  have htask := @taskContext_stateFromProc base
  have hin : ∀ y, InBytes (base + BitVec.ofNat 32 8075) 4 y → InBytes base kernelStackSize y :=
    fun y hy => hy.of_add (by decide) (by decide)
  simp only [processInitialize, pagingInitialize_eq hpgd, load32_store32, htask]
  refine ⟨?_, trivial, fun x hx hx' hx'' => ?_⟩
  · rw [load32_store32_of_apart fun y hy hy' => hfield y (hin y hy') hy]
    exact (load32_congr fun y hy => directory_frame (hpgd.symm y hy)).trans load32_store32
  · rw [store32_frame fun h => hx (hin x h), directory_frame hx', store32_frame hx'',
      contextInitialize_frame hx]

variable {c : Machine} {old new : BitVec 32}

/-- `KContext_Switch` writes to the stack it leaves and to `*old_context` only. -/
theorem savedContext_frame (h : CallsSwitch c base old new)
    (hx : ¬InBytes base kernelStackSize x) (hx' : ¬InBytes old 4 x) :
    Kernel.savedContext c x = c.mem x := by
  obtain ⟨j, hj, hj', hesp⟩ := h.stack
  have hstack : ∀ i : Nat, 4 ≤ i → i ≤ 20 → ¬InBytes (c.esp - BitVec.ofNat 32 i) 4 x := by
    intro i hi hi' h4
    have hsub : c.esp - BitVec.ofNat 32 i = base + BitVec.ofNat 32 (j - i) := by
      rw [hesp, show j = j - i + i by omega, BitVec.ofNat_add, ← BitVec.add_assoc,
        BitVec.add_sub_cancel, Nat.add_sub_cancel]
    rw [hsub] at h4
    exact hx (h4.of_add (by simp only [kernelStackSize] at hj' ⊢; omega) (by decide))
  have h4 : ¬InBytes (c.esp - 4) 4 x := hstack 4 (by decide) (by decide)
  have h8 : ¬InBytes (c.esp - 8) 4 x := hstack 8 (by decide) (by decide)
  have h12 : ¬InBytes (c.esp - 12) 4 x := hstack 12 (by decide) (by decide)
  have h16 : ¬InBytes (c.esp - 16) 4 x := hstack 16 (by decide) (by decide)
  have h20 : ¬InBytes (c.esp - 20) 4 x := hstack 20 (by decide) (by decide)
  rw [Kernel.savedContext, h.old, store32_frame hx', store32_frame h20, store32_frame h16,
    store32_frame h12, store32_frame h8, store32_frame h4]

/-- The context that is left: `*old_context` points to it, and CR3 is its first word. -/
theorem savedContext_saved (h : CallsSwitch c base old new)
    (hold : Apart base kernelStackSize old 4) :
    ∃ j, j + 4 ≤ kernelStackSize ∧
      load32 (Kernel.savedContext c) old = base + BitVec.ofNat 32 j ∧
      load32 (Kernel.savedContext c) (base + BitVec.ofNat 32 j) = c.cr3 := by
  obtain ⟨j, hj, hj', hesp⟩ := h.stack
  have hsub : c.esp - 20 = base + BitVec.ofNat 32 (j - 20) := by
    have h20 : base + BitVec.ofNat 32 j = base + BitVec.ofNat 32 (j - 20) + 20 := by
      have hj20 : BitVec.ofNat 32 j = BitVec.ofNat 32 (j - 20) + BitVec.ofNat 32 20 := by
        rw [← BitVec.ofNat_add, Nat.sub_add_cancel hj]
      rw [hj20, ← BitVec.add_assoc]
      rfl
    rw [hesp, h20, BitVec.add_sub_cancel]
  have hap : Apart (base + BitVec.ofNat 32 (j - 20)) 4 old 4 := fun y hy hy' =>
    hold y (hy.of_add (by simp only [kernelStackSize] at hj' ⊢; omega) (by decide)) hy'
  refine ⟨j - 20, by omega, ?_, ?_⟩
  · rw [Kernel.savedContext, h.old, load32_store32, hsub]
  · rw [Kernel.savedContext, h.old, hsub, load32_store32_of_apart hap, load32_store32]

end frames

/-! ## Section 4: The Invariant -/

/-- The stacks are apart from each other and from the kernel's variables; a resting process
    has its directory in the first word of its context, and a running one has it in the
    CPU's CR3. -/
structure SpaceInv (L : SpaceLayout C P) (s : SpaceState C P) : Prop where
  kernelStacks : ∀ p q, s.live p → s.live q → p ≠ q →
    Apart (s.stack p) kernelStackSize (s.stack q) kernelStackSize
  taskField : ∀ p, s.live p → ∀ q, Apart (s.stack p) kernelStackSize (L.taskField q) 4
  scheduler : ∀ p, s.live p → ∀ c,
    Apart (s.stack p) kernelStackSize (L.schedulerStack c) kernelStackSize
  higherHalf : ∀ p, s.live p → 0x80000000 ≤ s.directory p
  resting : ∀ p, s.live p → s.Resting p → ∃ j, j + 4 ≤ kernelStackSize ∧
    load32 s.mem (L.taskField p) = s.stack p + BitVec.ofNat 32 j ∧
    load32 s.mem (s.stack p + BitVec.ofNat 32 j) = s.directory p
  running : ∀ c p, s.running c = some p → s.live p ∧ (s.cpu c).cr3 = s.directory p
  unique : ∀ c c' p, s.running c = some p → s.running c' = some p → c = c'

section steps

variable {L : SpaceLayout C P} {s s' : SpaceState C P} {c : C} {p : P} {base pgd : BitVec 32}

theorem SpaceInv.initial (h : (spaceSystem L).init s) : SpaceInv L s where
  kernelStacks p _ hp := absurd hp (h.1 p)
  taskField p hp := absurd hp (h.1 p)
  scheduler p hp := absurd hp (h.1 p)
  higherHalf p hp := absurd hp (h.1 p)
  resting p hp := absurd hp (h.1 p)
  running c p hc := by rw [h.2 c] at hc; cases hc
  unique c _ p hc := by rw [h.2 c] at hc; cases hc

omit [DecidableEq C] [DecidableEq P] in
/-- A resting process is not changed by what leaves its stack and its field alone. -/
theorem SpaceInv.resting_of_frame (h : SpaceInv L s) (hp : s.live p) (hr : s.Resting p)
    {m : Memory} (hstack : ∀ x, InBytes (s.stack p) kernelStackSize x → m x = s.mem x)
    (hfield : ∀ x, InBytes (L.taskField p) 4 x → m x = s.mem x) :
    ∃ j, j + 4 ≤ kernelStackSize ∧
      load32 m (L.taskField p) = s.stack p + BitVec.ofNat 32 j ∧
      load32 m (s.stack p + BitVec.ofNat 32 j) = s.directory p := by
  obtain ⟨j, hj, hload, hdir⟩ := h.resting p hp hr
  refine ⟨j, hj, ?_, ?_⟩
  · rw [load32_congr hfield, hload]
  · rw [← hdir]
    exact load32_congr fun x hx => hstack x (hx.of_add hj (by decide))

theorem SpaceInv.work (h : SpaceInv L s) (hs : spaceStep L s (.work c) s') : SpaceInv L s' := by
  obtain ⟨m, t, hcr3, hstack, hfield, rfl⟩ := hs
  refine ⟨h.kernelStacks, h.taskField, h.scheduler, h.higherHalf, ?_, ?_, h.unique⟩
  · intro p hp hr
    exact h.resting_of_frame hp hr (hstack p hp (hr c)) (hfield p)
  · intro c' p hc'
    obtain ⟨hp, hcr3'⟩ := h.running c' p hc'
    refine ⟨hp, ?_⟩
    by_cases hcc : c' = c
    · subst hcc
      simpa [hcr3] using hcr3'
    · simpa [hcc] using hcr3'

theorem SpaceInv.processInitialize (h : SpaceInv L s)
    (hs : spaceStep L s (.processInitialize p base pgd) s') : SpaceInv L s' := by
  obtain ⟨hr, hbase, hpgd, hap, hhigh, m, hm, rfl⟩ := hs
  obtain ⟨htask, hcr3, hframe⟩ := @processInitialize_spec m
    L.kernelDirectory _ _ _ L.kernel (hbase.taskField p) (hpgd.taskField p)
  -- what belongs to the other processes is not changed
  have hother : ∀ q, s.live q → q ≠ p → ∀ x,
      InBytes (s.stack q) kernelStackSize x ∨ InBytes (L.taskField q) 4 x →
      processInitialize L.kernel m L.kernelDirectory (L.taskField p) base pgd x = s.mem x := by
    intro q hq hne x hx
    rw [hframe x, hm x]
    · rcases hx with hx | hx
      · exact fun hb => hbase.stack q hq hne x hb hx
      · exact fun hb => hbase.taskField q x hb hx
    · rcases hx with hx | hx
      · exact fun hb => hbase.stack q hq hne x hb hx
      · exact fun hb => hbase.taskField q x hb hx
    · rcases hx with hx | hx
      · exact fun hb => hpgd.stack q hq hne x hb hx
      · exact fun hb => hpgd.taskField q x hb hx
    · rcases hx with hx | hx
      · exact h.taskField q hq p x hx
      · exact L.taskField_apart q p hne x hx
  have hlive : ∀ q, q ≠ p → Function.update s.live p True q → s.live q := by
    intro q hq hl
    simpa [hq] using hl
  constructor
  · intro q q' hq hq' hne
    by_cases hqp : q = p
    · subst hqp
      simpa [hne.symm] using hbase.stack q' (hlive q' hne.symm hq') hne.symm
    · by_cases hqp' : q' = p
      · subst hqp'
        simpa [hqp] using (hbase.stack q (hlive q hqp hq) hqp).symm
      · simpa [hqp, hqp'] using h.kernelStacks q q' (hlive q hqp hq) (hlive q' hqp' hq') hne
  · intro q hq q'
    by_cases hqp : q = p
    · subst hqp
      simpa using hbase.taskField q'
    · simpa [hqp] using h.taskField q (hlive q hqp hq) q'
  · intro q hq c
    by_cases hqp : q = p
    · subst hqp
      simpa using hbase.scheduler c
    · simpa [hqp] using h.scheduler q (hlive q hqp hq) c
  · intro q hq
    by_cases hqp : q = p
    · subst hqp
      simpa using hhigh
    · simpa [hqp] using h.higherHalf q (hlive q hqp hq)
  · intro q hq hrest
    by_cases hqp : q = p
    · subst hqp
      exact ⟨8075, by decide, by simpa using htask, by simpa using hcr3⟩
    · simp only [Function.update_of_ne hqp]
      have hql := hlive q hqp hq
      exact h.resting_of_frame hql hrest (fun x hx => hother q hql hqp x (.inl hx))
        fun x hx => hother q hql hqp x (.inr hx)
  · intro c q hc
    have hqp : q ≠ p := fun heq => hr c (heq ▸ hc)
    simpa [hqp] using h.running c q hc
  · exact h.unique

/-- A switch to a process loads what `Paging_Initialize` has stored: a pointer. -/
theorem SpaceInv.switchTo_cr3 (h : SpaceInv L s) (hs : spaceStep L s (.switchTo c p) s') :
    (s'.cpu c).cr3 = s.directory p := by
  obtain ⟨hc, hp, hr, hcall, rfl⟩ := hs
  obtain ⟨j, hj, hload, hdir⟩ := h.resting p hp hr
  have hkeep : ∀ x, InBytes (s.stack p) kernelStackSize x →
      Kernel.savedContext (s.machine c) x = s.mem x := by
    intro x hx
    exact savedContext_frame hcall (h.scheduler p hp c x hx)
      fun hx' => h.scheduler p hp c x hx (L.schedulerField_mem c x hx')
  simp only [SpaceState.switch, Function.update_self, Kernel.switched, hcall.new, hload]
  rw [← hdir]
  exact load32_congr fun x hx => hkeep x (hx.of_add hj (by decide))

theorem SpaceInv.switchTo (h : SpaceInv L s) (hs : spaceStep L s (.switchTo c p) s') :
    SpaceInv L s' := by
  have hcr3 := h.switchTo_cr3 hs
  obtain ⟨hc, hp, hr, hcall, rfl⟩ := hs
  refine ⟨h.kernelStacks, h.taskField, h.scheduler, h.higherHalf, ?_, ?_, ?_⟩
  · intro q hq hrest
    have hrest' : s.Resting q := by
      intro c' hc'
      by_cases hcc : c' = c
      · rw [hcc, hc] at hc'
        cases hc'
      · exact hrest c' (by simpa [SpaceState.switch, hcc] using hc')
    refine h.resting_of_frame hq hrest' (fun x hx => ?_) (fun x hx => ?_)
    · exact savedContext_frame hcall (h.scheduler q hq c x hx)
        fun hx' => h.scheduler q hq c x hx (L.schedulerField_mem c x hx')
    · exact savedContext_frame hcall (L.taskField_scheduler q c x hx)
        fun hx' => L.taskField_scheduler q c x hx (L.schedulerField_mem c x hx')
  · intro c' q hc'
    by_cases hcc : c' = c
    · subst hcc
      obtain rfl : p = q := by simpa [SpaceState.switch] using hc'
      exact ⟨hp, hcr3⟩
    · have hold : s.running c' = some q := by simpa [SpaceState.switch, hcc] using hc'
      simpa [SpaceState.switch, hcc] using h.running c' q hold
  · intro c₁ c₂ q h₁ h₂
    by_cases hc₁ : c₁ = c
    · by_cases hc₂ : c₂ = c
      · rw [hc₁, hc₂]
      · obtain rfl : p = q := by simpa [SpaceState.switch, hc₁] using h₁
        exact absurd (by simpa [SpaceState.switch, hc₂] using h₂) (hr c₂)
    · by_cases hc₂ : c₂ = c
      · obtain rfl : p = q := by simpa [SpaceState.switch, hc₂] using h₂
        exact absurd (by simpa [SpaceState.switch, hc₁] using h₁) (hr c₁)
      · exact h.unique c₁ c₂ q (by simpa [SpaceState.switch, hc₁] using h₁)
          (by simpa [SpaceState.switch, hc₂] using h₂)

theorem SpaceInv.switchFrom (h : SpaceInv L s) (hs : spaceStep L s (.switchFrom c p) s') :
    SpaceInv L s' := by
  obtain ⟨hc, hcall, rfl⟩ := hs
  obtain ⟨hp, hcr3⟩ := h.running c p hc
  refine ⟨h.kernelStacks, h.taskField, h.scheduler, h.higherHalf, ?_, ?_, ?_⟩
  · intro q hq hrest
    by_cases hqp : q = p
    · subst hqp
      obtain ⟨j, hj, hload, hdir⟩ := savedContext_saved hcall (h.taskField q hp q)
      exact ⟨j, hj, hload, hdir.trans hcr3⟩
    · have hrest' : s.Resting q := by
        intro c' hc'
        by_cases hcc : c' = c
        · rw [hcc, hc] at hc'
          exact hqp (Option.some.inj hc').symm
        · exact hrest c' (by simpa [SpaceState.switch, hcc] using hc')
      refine h.resting_of_frame hq hrest' (fun x hx => ?_) (fun x hx => ?_)
      · exact savedContext_frame hcall (h.kernelStacks q p hq hp hqp x hx) (h.taskField q hq p x hx)
      · exact savedContext_frame hcall (fun hx' => h.taskField p hp q x hx' hx)
          (L.taskField_apart q p hqp x hx)
  · intro c' q hc'
    by_cases hcc : c' = c
    · subst hcc
      simp [SpaceState.switch] at hc'
    · have hold : s.running c' = some q := by simpa [SpaceState.switch, hcc] using hc'
      simpa [SpaceState.switch, hcc] using h.running c' q hold
  · intro c₁ c₂ q h₁ h₂
    by_cases hc₁ : c₁ = c
    · simp [SpaceState.switch, hc₁] at h₁
    · by_cases hc₂ : c₂ = c
      · simp [SpaceState.switch, hc₂] at h₂
      · exact h.unique c₁ c₂ q (by simpa [SpaceState.switch, hc₁] using h₁)
          (by simpa [SpaceState.switch, hc₂] using h₂)

/-- The invariant is kept by every step. -/
theorem spaceInv_inductive : (spaceSystem L).Inductive (SpaceInv L) where
  init _ h := SpaceInv.initial h
  step s l s' h hs := by
    cases l with
    | processInitialize p base pgd => exact h.processInitialize hs
    | work c => exact h.work hs
    | switchTo c p => exact h.switchTo hs
    | switchFrom c p => exact h.switchFrom hs

omit [DecidableEq C] [DecidableEq P] in
theorem SpaceInv.derefsDirectory (h : SpaceInv L s) : DerefsDirectory L s := by
  intro p hp hr
  obtain ⟨j, _, hload, hdir⟩ := h.resting p hp hr
  exact ⟨by rw [hload, hdir], h.higherHalf p hp⟩

end steps

/-! ## Section 5: Runs -/

section runs

variable {L : SpaceLayout C P} {n : Nat} {states : Nat → SpaceState C P}
  {labels : Nat → SpaceStep C P}

/-- In every run the field is the pointer. -/
theorem derefsDirectory_of_run (h : (spaceSystem L).Run n states labels) :
    ∀ i, i ≤ n → DerefsDirectory L (states i) :=
  fun i hi => (spaceInv_inductive.reachable (h.reachable i hi)).derefsDirectory

/-- A switch to a process does not load the physical address. -/
theorem not_loadsPhysical {s s' : SpaceState C P} {c : C} {p : P} (h : SpaceInv L s)
    (hs : spaceStep L s (.switchTo c p) s') : ¬LoadsPhysical s (.switchTo c p) s' := by
  intro hload
  have hphys := hload c p rfl
  rw [h.switchTo_cr3 hs, physAddr32] at hphys
  have hne : s.directory p ≠ s.directory p - 0x80000000 := by bv_omega
  exact hne hphys

/-- The field holds the pointer and the physical address is loaded, all through a run,
    exactly if no step of the run switches to a process. -/
theorem addressSpaces_iff (h : (spaceSystem L).Run n states labels) :
    ((∀ i, i < n → LoadsPhysical (states i) (labels i) (states (i + 1))) ∧
      ∀ i, i ≤ n → DerefsDirectory L (states i)) ↔
      ∀ i, i < n → ∀ c p, labels i ≠ .switchTo c p := by
  constructor
  · rintro ⟨hload, -⟩ i hi c p hl
    have hinv := spaceInv_inductive.reachable (h.reachable i (Nat.le_of_lt hi))
    have hstep := h.next i hi
    have hl' := hload i hi
    rw [hl] at hstep hl'
    exact not_loadsPhysical hinv hstep hl'
  · intro hno
    exact ⟨fun i hi c p hl => absurd hl (hno i hi c p), derefsDirectory_of_run h⟩

end runs

/-! ## Section 6: One Process on One CPU -/

section sample

theorem sampleTaskField_apart :
    ∀ p q : Unit, p ≠ q → Apart (0x80110000 : BitVec 32) 4 0x80110000 4 :=
  fun _ _ h => absurd rfl h

theorem sampleTaskField_scheduler :
    ∀ _ _ : Unit, Apart (0x80110000 : BitVec 32) 4 0x80300000 kernelStackSize := by
  intro _ _ x h h'
  rw [InBytes] at h h'
  simp only [kernelStackSize] at h'
  bv_omega

theorem sampleSchedulerField_mem :
    ∀ (_ : Unit) x, InBytes (0x80301F00 : BitVec 32) 4 x →
      InBytes 0x80300000 kernelStackSize x := by
  intro _ x h
  rw [InBytes] at h ⊢
  simp only [kernelStackSize]
  bv_omega

/-- The kernel's variables. -/
def sampleLayout : SpaceLayout Unit Unit where
  kernel := Kernel.sampleKernel
  kernelDirectory := 0x80105000
  taskField _ := 0x80110000
  schedulerStack _ := 0x80300000
  schedulerField _ := 0x80301F00
  taskField_apart := sampleTaskField_apart
  taskField_scheduler := sampleTaskField_scheduler
  schedulerField_mem := sampleSchedulerField_mem

/-- The scheduler is about to call `KContext_Switch` for the context that the process will
    have once it is initialised. -/
def spaceStart : SpaceState Unit Unit where
  mem := store32 (store32 (fun _ => 0) 0x80301004 0x80301F00) 0x80301008 0x80201F8B
  cpu _ := { Kernel.firstSwitch 0 with esp := 0x80301000 }
  running _ := none
  live _ := False
  stack _ := 0
  directory _ := 0

/-- The process is initialised with the stack `0x80200000` and the directory `0x80400000`. -/
def spaceInitialized : SpaceState Unit Unit :=
  { spaceStart with
    mem := processInitialize Kernel.sampleKernel spaceStart.mem 0x80105000 0x80110000 0x80200000
      0x80400000
    live := Function.update spaceStart.live () True
    stack := Function.update spaceStart.stack () 0x80200000
    directory := Function.update spaceStart.directory () 0x80400000 }

/-- A run that ends with the switch to the process. -/
def sampleRun : Nat → SpaceState Unit Unit
  | 0 => spaceStart
  | 1 => spaceInitialized
  | _ => spaceInitialized.switch () (some ())

def sampleLabels : Nat → SpaceStep Unit Unit
  | 0 => .processInitialize () 0x80200000 0x80400000
  | _ => .switchTo () ()

theorem step_spaceInitialized :
    spaceStep sampleLayout spaceStart (.processInitialize () 0x80200000 0x80400000)
      spaceInitialized := by
  refine ⟨(fun _ h => nomatch h), ⟨fun _ h => h.elim, fun _ x h h' => ?_, fun _ x h h' => ?_⟩,
    ⟨fun _ h => h.elim, fun _ x h h' => ?_, fun _ x h h' => ?_⟩, fun x h h' => ?_, by decide,
    spaceStart.mem, fun _ _ => rfl, rfl⟩
  all_goals
    simp only [InBytes, sampleLayout, kernelStackSize] at h h'
    bv_omega

theorem step_spaceSwitched :
    spaceStep sampleLayout spaceInitialized (.switchTo () ())
      (spaceInitialized.switch () (some ())) := by
  have hfield : Apart 0x80200000 kernelStackSize 0x80110000 4 := by
    intro x h h'
    simp only [InBytes, kernelStackSize] at h h'
    bv_omega
  have hpgd : Apart 0x80400000 0x1000 0x80110000 4 := by
    intro x h h'
    simp only [InBytes] at h h'
    bv_omega
  obtain ⟨htask, -, hframe⟩ := @processInitialize_spec spaceStart.mem
    0x80105000 _ _ _ Kernel.sampleKernel hfield hpgd
  refine ⟨rfl, by simp [spaceInitialized], (fun _ h => by cases h), ⟨?_, ?_, ?_⟩, rfl⟩
  · have hold : load32 spaceInitialized.mem 0x80301004 = load32 spaceStart.mem 0x80301004 := by
      refine load32_congr fun x hx => hframe x ?_ ?_ ?_
      all_goals
        intro h
        simp only [InBytes, kernelStackSize] at h hx
        bv_omega
    refine hold.trans ((load32_store32_of_apart ?_).trans load32_store32)
    intro x h h'
    rw [InBytes] at h h'
    bv_omega
  · have hnew : load32 spaceInitialized.mem 0x80301008 = load32 spaceStart.mem 0x80301008 := by
      refine load32_congr fun x hx => hframe x ?_ ?_ ?_
      all_goals
        intro h
        simp only [InBytes, kernelStackSize] at h hx
        bv_omega
    exact (hnew.trans load32_store32).trans htask.symm
  · exact ⟨0x1000, by decide, by decide, by decide⟩

theorem run_sample : (spaceSystem sampleLayout).Run 2 sampleRun sampleLabels where
  start := ⟨fun _ h => h, fun _ => rfl⟩
  next i hi := by
    match i with
    | 0 => exact step_spaceInitialized
    | 1 => exact step_spaceSwitched

/-- Up to the switch everything is as it should be. -/
theorem addressSpaces_iff_initialized :
    (∀ i, i < 1 → LoadsPhysical (sampleRun i) (sampleLabels i) (sampleRun (i + 1))) ∧
      ∀ i, i ≤ 1 → DerefsDirectory sampleLayout (sampleRun i) := by
  refine (addressSpaces_iff (run_sample.take (by decide : 1 ≤ 2))).mpr ?_
  intro i hi c p
  obtain rfl : i = 0 := by omega
  exact fun hl => nomatch hl

/-- The switch loads `0x80400000` into CR3, not `0x400000`. -/
theorem not_forall_addressSpaces : ¬∀ (L : SpaceLayout Unit Unit) n states labels,
    (spaceSystem L).Run n states labels →
      (∀ i, i < n → LoadsPhysical (states i) (labels i) (states (i + 1))) ∧
        ∀ i, i ≤ n → DerefsDirectory L (states i) := by
  intro h
  have hinv := spaceInv_inductive.reachable (run_sample.reachable 1 (by decide))
  exact not_loadsPhysical hinv step_spaceSwitched ((h _ _ _ _ run_sample).1 1 (by decide))

end sample

end Avos
