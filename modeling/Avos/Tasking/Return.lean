import Avos.Tasking.Context

/-! # Returning to a Process

  `Interrupt_Return` takes the registers of a process from its IContext. It finds the
  IContext by the argument that `Interrupt_DoCommonHandling` has pushed before it calls
  it. A new process comes to `Interrupt_Return` in another way: through the `ret` of
  `Process_FirstEntryToUserSpace`, with the stack that `Context_Initialize` has built.

  `Restores` says that a run reaches `Interrupt_Return` and leaves the kernel with the
  registers that the IContext holds when `Interrupt_Return` is reached. After an interrupt
  it always holds. At the first entry `mov esp, [esp+4]` reads the field `esi` of the
  IContext, and it holds only if this field points to the same registers.
-/

open ByteMemory Walks

namespace Avos

/-! ## Section 1: IContexts -/

/-- The registers of a process. -/
structure UserContext where
  edi : BitVec 32
  esi : BitVec 32
  ebp : BitVec 32
  ebx : BitVec 32
  edx : BitVec 32
  ecx : BitVec 32
  eax : BitVec 32
  gs : BitVec 16
  fs : BitVec 16
  es : BitVec 16
  ds : BitVec 16
  eip : BitVec 32
  cs : BitVec 16
  eflags : BitVec 32
  esp : BitVec 32
  ss : BitVec 16
  deriving DecidableEq

/-- The registers in a `struct IContext`. -/
def userContext (m : Memory) (a : BitVec 32) : UserContext where
  edi := load32 m a
  esi := load32 m (a + 4)
  ebp := load32 m (a + 8)
  ebx := load32 m (a + 16)
  edx := load32 m (a + 20)
  ecx := load32 m (a + 24)
  eax := load32 m (a + 28)
  gs := (load32 m (a + 32)).setWidth 16
  fs := (load32 m (a + 36)).setWidth 16
  es := (load32 m (a + 40)).setWidth 16
  ds := (load32 m (a + 44)).setWidth 16
  eip := load32 m (a + 56)
  cs := (load32 m (a + 60)).setWidth 16
  eflags := load32 m (a + 64)
  esp := load32 m (a + 68)
  ss := (load32 m (a + 72)).setWidth 16

/-- The registers of the machine. -/
def Machine.userContext (s : Machine) : UserContext where
  edi := s.edi
  esi := s.esi
  ebp := s.ebp
  ebx := s.ebx
  edx := s.edx
  ecx := s.ecx
  eax := s.eax
  gs := s.gs
  fs := s.fs
  es := s.es
  ds := s.ds
  eip := s.eip
  cs := s.cs
  eflags := s.eflags
  esp := s.esp
  ss := s.ss

/-- The registers are those of a process: its code segment is not the kernel's. -/
def UserContext.UserMode (c : UserContext) : Prop := c.cs &&& 3 ≠ 0

instance (c : UserContext) : Decidable c.UserMode := inferInstanceAs (Decidable (_ ≠ _))

theorem userContext_congr {m m' : Memory} {a : BitVec 32}
    (h : ∀ x, InBytes a 76 x → m x = m' x) : userContext m a = userContext m' a := by
  have hload : ∀ i : Nat, i + 4 ≤ 76 →
      load32 m (a + BitVec.ofNat 32 i) = load32 m' (a + BitVec.ofNat 32 i) :=
    fun i hi => load32_congr_of_add h hi (by decide)
  have h0 : load32 m a = load32 m' a := load32_congr fun x hx => h x (hx.mono (by decide))
  simp only [userContext, h0, UserContext.mk.injEq, true_and]
  refine ⟨hload 4 (by decide), hload 8 (by decide), hload 16 (by decide), hload 20 (by decide),
    hload 24 (by decide), hload 28 (by decide), congrArg _ (hload 32 (by decide)),
    congrArg _ (hload 36 (by decide)), congrArg _ (hload 40 (by decide)),
    congrArg _ (hload 44 (by decide)), hload 56 (by decide), congrArg _ (hload 60 (by decide)),
    hload 64 (by decide), hload 68 (by decide), congrArg _ (hload 72 (by decide))⟩

/-! ## Section 2: From `Interrupt_Return` to the Process -/

namespace Kernel

section restoring

variable {k : Kernel} {s : Machine}

/-- The machine when `iret` has been executed, from the instruction after the call of
    `Process_Preempt` on. The stack is switched only if the registers are a process's. -/
def restored (s : Machine) : Machine :=
  let c := userContext s.mem (s.stack 4)
  { s with
    edi := c.edi, esi := c.esi, ebp := c.ebp, ebx := c.ebx, edx := c.edx, ecx := c.ecx
    eax := c.eax, gs := c.gs, fs := c.fs, es := c.es, ds := c.ds
    eip := c.eip, cs := c.cs, eflags := c.eflags, user := true
    esp := if c.cs &&& 3 = 0 then s.stack 4 + 68 else c.esp
    ss := if c.cs &&& 3 = 0 then s.ss else c.ss }

theorem execs_popad : k.execs .interruptReturn 1 (((text .interruptReturn).drop 1).take 2) s =
    { s with
      edi := load32 s.mem (s.stack 4), esi := load32 s.mem (s.stack 4 + 4)
      ebp := load32 s.mem (s.stack 4 + 8), ebx := load32 s.mem (s.stack 4 + 16)
      edx := load32 s.mem (s.stack 4 + 20), ecx := load32 s.mem (s.stack 4 + 24)
      eax := load32 s.mem (s.stack 4 + 28), esp := s.stack 4 + 32
      eip := k.code.addr ⟨.interruptReturn, 3⟩ } := rfl

theorem execs_popSegs : k.execs .interruptReturn 3 (((text .interruptReturn).drop 3).take 5) s =
    { s with
      gs := (load32 s.mem s.esp).setWidth 16, fs := (load32 s.mem (s.esp + 4)).setWidth 16
      es := (load32 s.mem (s.esp + 8)).setWidth 16, ds := (load32 s.mem (s.esp + 12)).setWidth 16
      esp := s.esp + 24, eip := k.code.addr ⟨.interruptReturn, 8⟩ } := by
  have h8 : s.esp + 4 + 4 = s.esp + 8 := BitVec.add_assoc _ _ _
  have h12 : s.esp + 8 + 4 = s.esp + 12 := BitVec.add_assoc _ _ _
  have h16 : s.esp + 12 + 4 = s.esp + 16 := BitVec.add_assoc _ _ _
  have h24 : s.esp + 16 + 8 = s.esp + 24 := BitVec.add_assoc _ _ _
  change k.execs .interruptReturn 3 [.popSeg .gs, .popSeg .fs, .popSeg .es, .popSeg .ds,
    .addEsp 8] s = _
  iterate 5
    rw [execs_cons]
    simp only [exec, target, Machine.setSeg, Machine.top, h8, h12, h16, h24]
  rfl

theorem iret_eq : s.iret =
    { s with
      eip := s.top, cs := (s.stack 4).setWidth 16, eflags := s.stack 8, user := true
      esp := if (s.stack 4).setWidth 16 &&& 3 = (0 : BitVec 16) then s.esp + 12 else s.stack 12
      ss := if (s.stack 4).setWidth 16 &&& 3 = (0 : BitVec 16) then s.ss
        else (s.stack 16).setWidth 16 } := by
  simp only [Machine.iret]
  split <;> rfl

/-- The rest of `Interrupt_Return`, once `Process_Preempt` has returned. -/
theorem reaches_restored (hu : s.user = false) (he : s.eip = k.code.addr ⟨.interruptReturn, 1⟩) :
    Reaches (fun x => x.user = true) k.step s (restored s) := by
  have hp : ∀ r j x, k.At ⟨r, j⟩ x → ¬x.user = true := fun r j x h => by simp [h.1]
  refine reaches_execs (l := ((text .interruptReturn).drop 1).take 2) hu (by decide) ?_ he
    (fun j _ _ => hp _ j) ?_
  · simp [text, Straight]
  rw [execs_popad]
  refine reaches_execs (l := ((text .interruptReturn).drop 3).take 5) hu (by decide) ?_ rfl
    (fun j _ _ => hp _ j) ?_
  · simp [text, Straight]
  rw [execs_popSegs]
  refine reaches_step (r := .interruptReturn) (n := 8) (i := .iret) hu rfl rfl (hp _ 8) ?_
  simp only [exec, target, iret_eq, Machine.top, Machine.stack, BitVec.add_assoc]
  have : Reaches (fun x => x.user = true) k.step (restored s) (restored s) := Reaches.here rfl
  simp only [restored, userContext, Machine.stack] at this ⊢
  exact this

/-- What the routines written in C leave to their callers. `Interrupt_Handle` keeps its
    return address and its argument. `Process_Preempt`, when it decides not to switch, and
    `Process_FirstEntryToUserSpace` keep all of the process's stack from their return
    address up to the state block at `top`. -/
structure KeepsStack (k : Kernel) (top : BitVec 32) : Prop where
  handle : ∀ s x, InBytes s.esp 8 x → (k.body .interruptHandle s).mem x = s.mem x
  stack : ∀ r, r = .processPreempt ∨ r = .processFirstEntryToUserSpace → ∀ s x,
    (top - s.esp).toNat ≤ 0x2000 → InBytes s.esp (top - s.esp).toNat x →
    (k.body r s).mem x = s.mem x

variable {top : BitVec 32} {p : Machine → Prop} {j : Nat}

/-- A range that ends at `top`. -/
theorem top_sub (hj : j ≤ 104) :
    (top - (taskContext top + BitVec.ofNat 32 j)).toNat = 104 - j := by
  have h := add_ofNat_sub_add_ofNat (a := taskContext top) hj
  rw [show taskContext top + BitVec.ofNat 32 104 = top from top_eq.symm] at h
  rw [h, BitVec.toNat_ofNat, Nat.mod_eq_of_lt (by omega)]

/-- `Process_Preempt` returns to its caller and keeps the stack. -/
theorem called_keeps (hk : KeepsStack k top) {c : Routine} {r : Routine} {n : Nat}
    (hc : c = .processPreempt ∨ c = .processFirstEntryToUserSpace)
    (hesp : s.esp = taskContext top + BitVec.ofNat 32 (j + 4)) (hj : j + 4 ≤ 104) :
    (called k c r n s).eip = k.code.addr ⟨r, n + 1⟩ ∧
      ∀ x, InBytes s.esp (100 - j) x → (called k c r n s).mem x = s.mem x := by
  have hsub : s.esp - 4 = taskContext top + BitVec.ofNat 32 j := by
    rw [hesp, BitVec.ofNat_add, ← BitVec.add_assoc]
    exact BitVec.add_sub_cancel _ _
  have hkeep : ∀ x, InBytes (taskContext top + BitVec.ofNat 32 j) (104 - j) x →
      (called k c r n s).mem x =
        store32 s.mem (taskContext top + BitVec.ofNat 32 j) (k.code.addr ⟨r, n + 1⟩) x := by
    intro x hx
    rw [← hsub] at hx ⊢
    refine hk.stack c hc { s.push (k.code.addr ⟨r, n + 1⟩) with eip := k.code.addr ⟨c, 0⟩ } x ?_ ?_
    · simp only [Machine.push, hsub, top_sub (show j ≤ 104 by omega)]
      omega
    · simpa only [Machine.push, hsub, top_sub (show j ≤ 104 by omega)] using hx
  constructor
  · have heip : load32 (called k c r n s).mem (s.esp - 4) = k.code.addr ⟨r, n + 1⟩ := by
      rw [hsub]
      refine (load32_congr fun x hx => hkeep x (hx.mono (by omega))).trans load32_store32
    exact heip
  · intro x hx
    rw [hesp] at hx
    have hin : InBytes (taskContext top + BitVec.ofNat 32 j) (104 - j) x := by
      rw [BitVec.ofNat_add, ← BitVec.add_assoc] at hx
      exact hx.of_add (by omega) (by omega)
    rw [hkeep x hin]
    refine store32_frame fun h4 => ?_
    exact apart_add (a := taskContext top) (i := j) (n := 4) (j := j + 4) (k := 100 - j)
      (by omega) (by omega) x h4 hx

end restoring

/-! ## Section 3: The Two Ways -/

/-- The run reaches `Interrupt_Return`, and leaves the kernel with the registers that the
    process's IContext holds then. -/
def Restores (k : Kernel) (top : BitVec 32) (s : Machine) : Prop :=
  ∃ s₁ s₂, Reaches (k.At ⟨.interruptReturn, 0⟩) k.step s s₁ ∧
    Reaches (fun x => x.user = true) k.step s₁ s₂ ∧
    s₂.userContext = userContext s₁.mem (interruptContext top)

/-- The processor has interrupted the process and jumped to `Interrupt_DoCommonHandling`:
    the upper part of the IContext is on the stack. Its registers are those of a process,
    when `Interrupt_Handle` has returned. -/
structure AtInterrupt (k : Kernel) (top : BitVec 32) (s : Machine) : Prop where
  user : s.user = false
  eip : s.eip = k.code.addr ⟨.interruptDoCommonHandling, 0⟩
  esp : s.esp = interruptContext top + 48
  userMode : ∀ s₁, Reaches (k.At ⟨.interruptReturn, 0⟩) k.step s s₁ →
    (userContext s₁.mem (interruptContext top)).UserMode

/-- The scheduler calls `KContext_Switch` for a process that has not run yet. Since
    `Context_Initialize` its stack has been changed in `cr3` and in the IContext only, and
    what `KContext_Switch` writes for the scheduler is elsewhere. -/
structure AtFirstSwitch (k : Kernel) (top : BitVec 32) (s : Machine) : Prop where
  user : s.user = false
  eip : s.eip = k.code.addr ⟨.kContextSwitch, 0⟩
  newContext : s.stack 8 = taskContext top
  built : ∃ m, ∀ x, InBytes (taskContext top + 4) 24 x → s.mem x = contextInitialize k m top x
  stackApart : Apart (s.esp - 20) 20 (taskContext top) 104
  oldApart : Apart (s.stack 4) 4 (taskContext top) 104
  userMode : (userContext s.mem (interruptContext top)).UserMode

/-- When `Process_Preempt` returns, the registers of the IContext are found at the address
    that its field `esi` holds. -/
def EsiFrame (k : Kernel) (top : BitVec 32) (s : Machine) : Prop :=
  ∃ s₁, Reaches (k.At ⟨.interruptReturn, 1⟩) k.step s s₁ ∧
    userContext s₁.mem (userContext s.mem (interruptContext top)).esi =
      userContext s.mem (interruptContext top)

section ways

variable {k : Kernel} {top : BitVec 32} {s s₁ : Machine}

/-- `At` fails in the other routines, and at the other instructions. -/
theorem not_at {q q' : CodePos} (h : q ≠ q') : ∀ x, k.At q x → ¬k.At q' x :=
  fun _ hx hx' => h (hx.unique hx')

/-- `Interrupt_Return` calls `Process_Preempt`, then restores what `[esp+4]` points to. -/
theorem reaches_interruptReturn (hk : KeepsStack k top) (hu : s₁.user = false)
    (he : s₁.eip = k.code.addr ⟨.interruptReturn, 0⟩) {j : Nat}
    (hesp : s₁.esp = taskContext top + BitVec.ofNat 32 (j + 4)) (hj : j + 4 ≤ 104) :
    let d := called k .processPreempt .interruptReturn 0 s₁
    Reaches (k.At ⟨.interruptReturn, 1⟩) k.step s₁ d ∧
      Reaches (fun x => x.user = true) k.step s₁ (restored d) ∧
      ∀ x, InBytes s₁.esp (100 - j) x → d.mem x = s₁.mem x := by
  have hd := called_keeps (r := .interruptReturn) (n := 0) hk (.inl rfl) hesp hj
  refine ⟨?_, ?_, hd.2⟩
  · exact reaches_call rfl hu rfl he (not_at (by simp)) (fun i => not_at (by simp))
      (Reaches.here ⟨hu, pos_of_getElem? (r := .interruptReturn) (n := 1) rfl hd.1⟩)
  · have hp : ∀ r j x, k.At ⟨r, j⟩ x → ¬x.user = true := fun r j x h => by simp [h.1]
    exact reaches_call rfl hu rfl he (hp _ _) (hp _) (reaches_restored hu hd.1)

theorem userContext_interruptContext {m m' : Memory} {j : Nat} (hj : j ≤ 28)
    (h : ∀ x, InBytes (taskContext top + BitVec.ofNat 32 j) (104 - j) x → m x = m' x) :
    userContext m (interruptContext top) = userContext m' (interruptContext top) := by
  refine userContext_congr fun x hx => h x ?_
  have h28 : interruptContext top =
      taskContext top + BitVec.ofNat 32 j + BitVec.ofNat 32 (28 - j) := by
    rw [BitVec.add_assoc, ← BitVec.ofNat_add, Nat.add_sub_cancel' hj]
    exact interruptContext_eq
  rw [h28] at hx
  exact hx.of_add (by omega) (by omega)

/-- If the switched machine is a process's, the registers restored are those pointed to. -/
theorem userContext_restored (h : (userContext s.mem (s.stack 4)).UserMode) :
    (restored s).userContext = userContext s.mem (s.stack 4) := by
  have hcs : ¬(userContext s.mem (s.stack 4)).cs &&& 3 = 0 := h
  simp only [restored, Machine.userContext, if_neg hcs]

/-- `KContext_Switch` writes nothing to the stack of the new process. -/
theorem savedContext_keeps (hs : AtFirstSwitch k top s) :
    ∀ x, InBytes (taskContext top) 104 x → savedContext s x = s.mem x := by
  intro x hx
  have hstack : ∀ n : BitVec 32, n.toNat ≤ 20 → 4 ≤ n.toNat → ¬InBytes (s.esp - n) 4 x := by
    intro n hn hn' h4
    refine hs.stackApart x ?_ hx
    rw [InBytes] at h4 ⊢
    bv_omega
  rw [savedContext, store32_frame fun h => hs.oldApart x h hx,
    store32_frame (hstack 20 (by decide) (by decide)),
    store32_frame (hstack 16 (by decide) (by decide)),
    store32_frame (hstack 12 (by decide) (by decide)),
    store32_frame (hstack 8 (by decide) (by decide)),
    store32_frame (hstack 4 (by decide) (by decide))]

/-- `KContext_Switch` goes to `Process_FirstEntryToUserSpace`. -/
theorem switched_eip (hs : AtFirstSwitch k top s) :
    (switched s).eip = k.code.addr ⟨.processFirstEntryToUserSpace, 0⟩ := by
  obtain ⟨m, hm⟩ := hs.built
  have hsaved := savedContext_keeps hs
  have h1 : load32 (savedContext s) (taskContext top + 20) = load32 s.mem (taskContext top + 20) :=
    load32_congr_of_add (i := 20) hsaved (by decide) (by decide)
  have h2 : load32 s.mem (taskContext top + 4 + 16) =
      load32 (contextInitialize k m top) (taskContext top + 4 + 16) :=
    load32_congr_of_add (i := 16) hm (by decide) (by decide)
  have h3 : taskContext top + 4 + 16 = taskContext top + 20 := BitVec.add_assoc _ _ _
  rw [h3, contextInitialize_eip] at h2
  simp only [switched, hs.newContext]
  exact h1.trans h2

/-- Where a new process reaches `Interrupt_Return`: with an empty stack below its IContext. -/
theorem reaches_first (hk : KeepsStack k top) (hs : AtFirstSwitch k top s) :
    ∃ s₁, Reaches (k.At ⟨.interruptReturn, 0⟩) k.step s s₁ ∧ s₁.user = false ∧
      s₁.eip = k.code.addr ⟨.interruptReturn, 0⟩ ∧
      s₁.esp = taskContext top + BitVec.ofNat 32 28 ∧
      (∀ x, InBytes (taskContext top + BitVec.ofNat 32 24) 80 x → s₁.mem x = s.mem x) ∧
      (∀ t, Reaches (k.At ⟨.interruptReturn, 1⟩) k.step s₁ t →
        Reaches (k.At ⟨.interruptReturn, 1⟩) k.step s t) := by
  have hesp : (switched s).esp = taskContext top + BitVec.ofNat 32 24 := by
    simp only [switched, hs.newContext]
    rfl
  have hsaved := savedContext_keeps hs
  -- the body of `Process_FirstEntryToUserSpace` keeps the stack from its return address on
  have hbody : ∀ x, InBytes (taskContext top + BitVec.ofNat 32 24) 80 x →
      (k.body .processFirstEntryToUserSpace (switched s)).mem x = s.mem x := by
    intro x hx
    have hsub := @top_sub top 24 (by decide)
    rw [hk.stack _ (.inr rfl) (switched s) x (by rw [hesp, hsub]; decide)
      (by rw [hesp, hsub]; exact hx)]
    exact hsaved x (hx.of_add (by decide) (by decide))
  have hret : load32 (k.body .processFirstEntryToUserSpace (switched s)).mem (switched s).esp =
      k.code.addr ⟨.interruptReturn, 0⟩ := by
    obtain ⟨m, hm⟩ := hs.built
    have h2 : load32 s.mem (taskContext top + 4 + 20) =
        load32 (contextInitialize k m top) (taskContext top + 4 + 20) :=
      load32_congr_of_add (i := 20) hm (by decide) (by decide)
    have h3 : taskContext top + 4 + 20 = taskContext top + 24 := BitVec.add_assoc _ _ _
    rw [h3, contextInitialize_return] at h2
    rw [hesp]
    exact (load32_congr fun x hx => hbody x (hx.mono (by decide))).trans h2
  let c := k.body .processFirstEntryToUserSpace (switched s)
  let s₁ : Machine := { switched s with
    eax := c.eax, ecx := c.ecx, edx := c.edx, mem := c.mem
    esp := (switched s).esp + 4, eip := load32 c.mem (switched s).esp }
  have hrun : ∀ p : Machine → Prop, (∀ j x, k.At ⟨.kContextSwitch, j⟩ x → ¬p x) →
      (∀ j x, k.At ⟨.processFirstEntryToUserSpace, j⟩ x → ¬p x) →
      ∀ t, Reaches p k.step s₁ t → Reaches p k.step s t := by
    intro p hp hp' t ht
    refine reaches_kContextSwitch hs.user hs.eip hp ?_
    refine reaches_step (r := .processFirstEntryToUserSpace) (n := 0) (i := .body) hs.user rfl
      (switched_eip hs) (hp' 0) ?_
    exact reaches_step (r := .processFirstEntryToUserSpace) (n := 1) (i := .ret) hs.user rfl rfl
      (hp' 1) ht
  have hs₁ : k.At ⟨.interruptReturn, 0⟩ s₁ :=
    ⟨hs.user, pos_of_getElem? (r := .interruptReturn) (n := 0) rfl hret⟩
  refine ⟨s₁, hrun _ (fun j => not_at (by simp)) (fun j => not_at (by simp)) _ (Reaches.here hs₁),
    hs.user, hret, ?_, hbody, hrun _ (fun j => not_at (by simp)) (fun j => not_at (by simp))⟩
  change (switched s).esp + 4 = _
  rw [hesp]
  exact BitVec.add_assoc _ _ _

/-- The bytes an instruction pushes. -/
def pushed : Instr → Nat
  | .push _ | .pushSeg _ => 4
  | .pushad => 32
  | _ => 0

theorem exec_pushed {q : CodePos} {i : Instr} (hi : 0 < pushed i) :
    (k.exec q s i).esp = s.esp - BitVec.ofNat 32 (pushed i) := by
  cases i with
  | push r => rfl
  | pushSeg r => rfl
  | pushad =>
    simp only [exec, Machine.push, BitVec.sub_sub]
    rfl
  | _ => simp [pushed] at hi

theorem execs_pushed {r : Routine} {n : Nat} {l : List Instr} (hl : ∀ i ∈ l, 0 < pushed i)
    (hu : s.user = false) (he : s.eip = k.code.addr ⟨r, n⟩) :
    (k.execs r n l s).user = false ∧
      (k.execs r n l s).eip = k.code.addr ⟨r, n + l.length⟩ ∧
      (k.execs r n l s).esp = s.esp - BitVec.ofNat 32 (l.map pushed).sum := by
  induction l generalizing n s with
  | nil => simpa [execs] using ⟨hu, he⟩
  | cons i l ih =>
    have hi := hl i List.mem_cons_self
    have hs : Straight i := by
      cases i <;> trivial
    rw [execs_cons]
    obtain ⟨hu', he', hesp⟩ := ih (s := { k.exec ⟨r, n⟩ s i with eip := k.target ⟨r, n⟩ s i })
      (fun j hj => hl j (List.mem_cons_of_mem _ hj)) ((exec_user hs).trans hu)
      (target_straight hs)
    refine ⟨hu', ?_, ?_⟩
    · rw [he', List.length_cons, Nat.add_right_comm, Nat.add_assoc]
    · rw [hesp, List.map_cons, List.sum_cons, BitVec.ofNat_add, ← BitVec.sub_sub]
      exact congrArg (· - _) (exec_pushed hi)

theorem task_sub {n : BitVec 32} : taskContext top + n - 4 = taskContext top + (n - 4) := by
  rw [BitVec.sub_eq_add_neg, BitVec.add_assoc, ← BitVec.sub_eq_add_neg]

/-- When `Interrupt_Handle` is called, the argument is on the stack. -/
theorem reaches_handle {i : Machine} (hi : AtInterrupt k top i) :
    ∃ a, a.user = false ∧ a.eip = k.code.addr ⟨.interruptDoCommonHandling, 6⟩ ∧
      a.esp = taskContext top + 24 ∧
      load32 a.mem (taskContext top + 24) = interruptContext top ∧
      ∀ p : Machine → Prop, (∀ j x, k.At ⟨.interruptDoCommonHandling, j⟩ x → ¬p x) →
        ∀ t, Reaches p k.step a t → Reaches p k.step i t := by
  obtain ⟨hu, he, hesp⟩ := execs_pushed (k := k) (r := .interruptDoCommonHandling) (n := 0)
    (l := (text .interruptDoCommonHandling).take 5) (by decide) hi.user hi.eip
  have hF : (k.execs .interruptDoCommonHandling 0
      ((text .interruptDoCommonHandling).take 5) i).esp = interruptContext top := by
    rw [hesp, hi.esp]
    exact BitVec.add_sub_cancel _ _
  have h24 : interruptContext top - 4 = taskContext top + 24 := by
    rw [taskContext, BitVec.sub_add_cancel]
  generalize hb : k.execs .interruptDoCommonHandling 0
    ((text .interruptDoCommonHandling).take 5) i = b at hu he hF
  refine ⟨{ b.push b.esp with eip := k.code.addr ⟨.interruptDoCommonHandling, 6⟩ }, hu, rfl,
    ?_, ?_, fun p hp t ht => ?_⟩
  · rw [← h24, ← hF]
    rfl
  · rw [← h24, ← hF]
    exact load32_store32
  · refine reaches_execs (l := (text .interruptDoCommonHandling).take 5) hi.user (by decide) ?_
      hi.eip (fun j _ _ => hp j) ?_
    · simp [text, Straight]
    rw [hb]
    exact reaches_step (r := .interruptDoCommonHandling) (n := 5) (i := .push .esp) hu rfl he
      (hp 5) ht

/-- After an interrupt `Interrupt_Return` finds the IContext by its argument. -/
theorem AtInterrupt.restores {i : Machine} (hi : AtInterrupt k top i) (hk : KeepsStack k top) :
    Restores k top i := by
  obtain ⟨a, hau, hae, haesp, harg, hrun⟩ := reaches_handle hi
  let b := called k .interruptHandle .interruptDoCommonHandling 6 a
  have hsub : a.esp - 4 = taskContext top + 20 := by
    rw [haesp, task_sub]
    rfl
  have hap : Apart (taskContext top + 24) 4 (taskContext top + 20) 4 :=
    (apart_add (i := 20) (j := 24) (by decide) (by decide)).symm
  -- `Interrupt_Handle` keeps its return address and its argument
  have hb : ∀ x, InBytes (taskContext top + 20) 8 x → b.mem x =
      store32 a.mem (taskContext top + 20) (k.code.addr ⟨.interruptDoCommonHandling, 7⟩) x := by
    intro x hx
    rw [← hsub] at hx ⊢
    exact hk.handle _ x hx
  have hbe : b.eip = k.code.addr ⟨.interruptDoCommonHandling, 7⟩ := by
    have : load32 b.mem (a.esp - 4) = k.code.addr ⟨.interruptDoCommonHandling, 7⟩ := by
      rw [hsub]
      exact (load32_congr fun x hx => hb x (hx.mono (by decide))).trans load32_store32
    exact this
  have hbarg : load32 b.mem (taskContext top + 24) = interruptContext top := by
    rw [← harg, ← load32_store32_of_apart (m := a.mem)
      (v := k.code.addr ⟨.interruptDoCommonHandling, 7⟩) hap]
    have h4 : taskContext top + 20 + 4 = taskContext top + 24 := BitVec.add_assoc _ _ _
    rw [← h4]
    exact load32_congr_of_add (i := 4) hb (by decide) (by decide)
  -- the call of `Interrupt_Return` pushes one more word
  let s₁ : Machine := { b.push (k.code.addr ⟨.interruptDoCommonHandling, 8⟩) with
    eip := k.code.addr ⟨.interruptReturn, 0⟩ }
  have hs₁ : s₁.esp = taskContext top + BitVec.ofNat 32 (16 + 4) := hsub
  have hs₁arg : load32 s₁.mem (taskContext top + 24) = interruptContext top := by
    have : s₁.mem = store32 b.mem (taskContext top + 20)
        (k.code.addr ⟨.interruptDoCommonHandling, 8⟩) := by
      rw [← hsub]
      rfl
    rw [this, load32_store32_of_apart hap, hbarg]
  obtain ⟨-, hleave, hkeep⟩ := @reaches_interruptReturn k top s₁ hk hau rfl _ hs₁ (by decide)
  have hreach : Reaches (k.At ⟨.interruptReturn, 0⟩) k.step i s₁ := by
    refine hrun _ (fun j => not_at (by simp)) _ ?_
    refine reaches_call rfl hau rfl hae (not_at (by simp)) (fun j => not_at (by simp)) ?_
    exact reaches_step (r := .interruptDoCommonHandling) (n := 7) (i := .call .interruptReturn)
      hau rfl hbe (not_at (by simp))
      (Reaches.here ⟨hau, pos_of_getElem? (r := .interruptReturn) (n := 0) rfl rfl⟩)
  have hstack : (called k .processPreempt .interruptReturn 0 s₁).stack 4 =
      interruptContext top := by
    have h4 : s₁.esp + 4 = taskContext top + 24 := by
      rw [hs₁]
      exact BitVec.add_assoc _ _ _
    rw [← hs₁arg, ← h4]
    exact load32_congr_of_add (i := 4) hkeep (by decide) (by decide)
  have hctx := @userContext_interruptContext top _ _ 20 (by decide)
    (fun x hx => hkeep x (hs₁ ▸ hx))
  refine ⟨s₁, _, hreach, hleave, ?_⟩
  rw [userContext_restored, hstack, hctx]
  rw [hstack, hctx]
  exact hi.userMode s₁ hreach

/-- At the first entry the field `esi` is taken for the address of the IContext. -/
theorem restores_iff_esiFrame (hk : KeepsStack k top) (hs : AtFirstSwitch k top s) :
    Restores k top s ↔ EsiFrame k top s := by
  obtain ⟨s₁, hreach, hu, he, hesp, hmem, hrun⟩ := reaches_first hk hs
  have hctx := userContext_interruptContext (j := 24) (by decide) hmem
  obtain ⟨hat, hleave, hkeep⟩ := reaches_interruptReturn hk (j := 24) hu he hesp (by decide)
  generalize hd : called k .processPreempt .interruptReturn 0 s₁ = d at hat hleave hkeep
  have hstack : d.stack 4 = (userContext s.mem (interruptContext top)).esi := by
    have h28 : s₁.esp = interruptContext top := hesp.trans interruptContext_eq.symm
    have hdesp : d.esp = s₁.esp := by
      rw [← hd]
      rfl
    rw [← hctx, ← h28, Machine.stack, hdesp]
    exact load32_congr_of_add (i := 4) hkeep (by decide) (by decide)
  have hmode := hs.userMode
  constructor
  · rintro ⟨t, t', ht, ht', heq⟩
    obtain rfl := hreach.unique ht
    obtain rfl := hleave.unique ht'
    rw [hctx] at heq
    -- the code segments are equal, so the stack has been switched
    have hcs : (userContext d.mem (d.stack 4)).UserMode := by
      have hcs : (restored d).userContext.cs = (userContext s.mem (interruptContext top)).cs :=
        congrArg UserContext.cs heq
      rw [UserContext.UserMode, ← hcs] at hmode
      exact hmode
    rw [userContext_restored hcs, hstack] at heq
    exact ⟨d, hrun d hat, heq⟩
  · rintro ⟨d', hd', heq⟩
    obtain rfl := (hrun d hat).unique hd'
    refine ⟨s₁, _, hreach, hleave, ?_⟩
    rw [← hstack] at heq
    rw [userContext_restored (by rw [heq]; exact hmode), heq, hctx]

/-- Both ways to a process restore its IContext exactly when, at the first entry, the field
    `esi` points to a copy of it. -/
theorem restores_iff (hk : KeepsStack k top) (hs : AtFirstSwitch k top s) :
    ((∀ i, AtInterrupt k top i → Restores k top i) ∧ Restores k top s) ↔ EsiFrame k top s := by
  rw [restores_iff_esiFrame hk hs]
  exact and_iff_right fun i hi => hi.restores hk

/-- When `Process_Preempt` has returned at the first entry, the IContext is unchanged. -/
theorem reaches_preempted (hk : KeepsStack k top) (hs : AtFirstSwitch k top s) :
    ∃ d, Reaches (k.At ⟨.interruptReturn, 1⟩) k.step s d ∧
      ∀ x, InBytes (interruptContext top) 76 x → d.mem x = s.mem x := by
  obtain ⟨s₁, -, hu, he, hesp, hmem, hrun⟩ := reaches_first hk hs
  obtain ⟨hat, -, hkeep⟩ := reaches_interruptReturn hk (j := 24) hu he hesp (by decide)
  refine ⟨_, hrun _ hat, fun x hx => ?_⟩
  have h28 : s₁.esp = interruptContext top := hesp.trans interruptContext_eq.symm
  have h4 : taskContext top + BitVec.ofNat 32 24 + BitVec.ofNat 32 4 = interruptContext top :=
    (BitVec.add_assoc _ _ _).trans interruptContext_eq.symm
  rw [hkeep x (h28 ▸ hx)]
  rw [← h4] at hx
  exact hmem x (hx.of_add (by decide) (by decide))

end ways

/-! ## Section 4: Two Processes -/

/-- Every routine in its own 256 addresses, one for each instruction. -/
def sampleCode : CodeMap where
  addr q := 0x80100000 + BitVec.ofNat 32
    ((match q.routine with
      | .kContextSwitch => 0x000
      | .interruptDoCommonHandling => 0x100
      | .interruptReturn => 0x200
      | .interruptHandle => 0x300
      | .processPreempt => 0x400
      | .processFirstEntryToUserSpace => 0x500) + q.index)
  pos a :=
    let n := (a - 0x80100000).toNat
    match n / 0x100 with
    | 0 => some ⟨.kContextSwitch, n % 0x100⟩
    | 1 => some ⟨.interruptDoCommonHandling, n % 0x100⟩
    | 2 => some ⟨.interruptReturn, n % 0x100⟩
    | 3 => some ⟨.interruptHandle, n % 0x100⟩
    | 4 => some ⟨.processPreempt, n % 0x100⟩
    | 5 => some ⟨.processFirstEntryToUserSpace, n % 0x100⟩
    | _ => none
  pos_addr r := by cases r <;> decide

/-- The routines in C do nothing. -/
def sampleKernel : Kernel where
  code := sampleCode
  body _ s := ⟨s.eax, s.ecx, s.edx, s.mem⟩

/-- The state block of the new process. -/
def sampleTop : BitVec 32 := 0x80201FF0

/-- A new process whose IContext holds `esi` and a user code segment; the scheduler calls
    `KContext_Switch` from another stack. -/
def firstSwitch (esi : BitVec 32) : Machine where
  eax := 0
  ecx := 0
  edx := 0
  ebx := 0
  esp := 0x80300000
  ebp := 0
  esi := 0
  edi := 0
  ds := 0
  es := 0
  fs := 0
  gs := 0
  cs := 8
  ss := 0x10
  eip := sampleCode.addr ⟨.kContextSwitch, 0⟩
  eflags := 0
  cr3 := 0
  mem := store32 (store32 (store32 (store32
    (contextInitialize sampleKernel (fun _ => 0) sampleTop)
    (interruptContext sampleTop + 4) esi) (interruptContext sampleTop + 60) 0x1B)
    0x80300004 0x80301000) 0x80300008 (taskContext sampleTop)
  user := false

theorem keepsStack_sampleKernel : KeepsStack sampleKernel sampleTop :=
  ⟨fun _ _ _ => rfl, fun _ _ _ _ _ _ => rfl⟩

section sample

variable {esi : BitVec 32}

theorem interruptContext_sampleTop : interruptContext sampleTop = 0x80201FA4 := by decide

theorem taskContext_sampleTop : taskContext sampleTop = 0x80201F88 := by decide

/-- The words of the IContext that are set. -/
theorem firstSwitch_esi : (userContext (firstSwitch esi).mem (interruptContext sampleTop)).esi =
    esi := by
  simp only [userContext, firstSwitch, interruptContext_sampleTop]
  rw [load32_store32_of_apart, load32_store32_of_apart, load32_store32_of_apart, load32_store32]
  all_goals
    intro x h h'
    rw [InBytes] at h h'
    bv_omega

theorem firstSwitch_cs : (userContext (firstSwitch esi).mem (interruptContext sampleTop)).cs =
    0x1B := by
  simp only [userContext, firstSwitch, interruptContext_sampleTop]
  rw [load32_store32_of_apart, load32_store32_of_apart, load32_store32]
  · rfl
  all_goals
    intro x h h'
    rw [InBytes] at h h'
    bv_omega

theorem atFirstSwitch_sample : AtFirstSwitch sampleKernel sampleTop (firstSwitch esi) where
  user := rfl
  eip := rfl
  newContext := load32_store32
  built := by
    refine ⟨fun _ => 0, fun x hx => ?_⟩
    rw [taskContext_sampleTop, InBytes] at hx
    simp only [firstSwitch, interruptContext_sampleTop]
    rw [store32_frame, store32_frame, store32_frame, store32_frame]
    all_goals
      intro h
      rw [InBytes] at h
      bv_omega
  stackApart := by
    intro x h h'
    rw [taskContext_sampleTop, InBytes] at h'
    rw [InBytes] at h
    simp only [firstSwitch] at h
    bv_omega
  oldApart := by
    have hold : (firstSwitch esi).stack 4 = 0x80301000 := by
      refine (load32_store32_of_apart (a := 0x80300004) (b := 0x80300008) ?_).trans load32_store32
      intro x h h'
      rw [InBytes] at h h'
      bv_omega
    intro x h h'
    rw [taskContext_sampleTop, InBytes] at h'
    rw [hold, InBytes] at h
    bv_omega
  userMode := by
    rw [UserContext.UserMode, firstSwitch_cs]
    decide

end sample

/-- A process whose `esi` happens to be the address of its own IContext is restored. -/
theorem restores_iff_self :
    (∀ i, AtInterrupt sampleKernel sampleTop i → Restores sampleKernel sampleTop i) ∧
      Restores sampleKernel sampleTop (firstSwitch (interruptContext sampleTop)) := by
  refine (restores_iff keepsStack_sampleKernel atFirstSwitch_sample).mpr ?_
  obtain ⟨d, hd, hmem⟩ := reaches_preempted keepsStack_sampleKernel atFirstSwitch_sample
  refine ⟨d, hd, ?_⟩
  rw [firstSwitch_esi]
  exact userContext_congr hmem

/-- With `esi` eight bytes further on, it comes to user space with other registers: there
    `esi` is loaded from the field `oesp`. -/
theorem not_forall_restores : ¬∀ k top s, KeepsStack k top → AtFirstSwitch k top s →
    (∀ i, AtInterrupt k top i → Restores k top i) ∧ Restores k top s := by
  intro h
  have hs : AtFirstSwitch sampleKernel sampleTop (firstSwitch (interruptContext sampleTop + 8)) :=
    atFirstSwitch_sample
  have hrestores := (h _ _ _ keepsStack_sampleKernel hs).2
  obtain ⟨d, hd, heq⟩ := (restores_iff_esiFrame keepsStack_sampleKernel hs).mp hrestores
  obtain ⟨d', hd', hmem⟩ := reaches_preempted keepsStack_sampleKernel hs
  obtain rfl := hd.unique hd'
  have hesi := congrArg UserContext.esi heq
  rw [firstSwitch_esi] at hesi
  have hload : load32 d.mem (interruptContext sampleTop + 12) = 0 := by
    have hzero : load32 (firstSwitch (interruptContext sampleTop + 8)).mem
        (interruptContext sampleTop + 12) = 0 := by decide +kernel
    rw [← hzero]
    exact load32_congr_of_add (i := 12) hmem (by decide) (by decide)
  have h12 : interruptContext sampleTop + 8 + 4 = interruptContext sampleTop + 12 := by decide
  simp only [userContext, h12, hload] at hesi
  revert hesi
  decide

end Kernel

end Avos
