import Avos.Library.ByteMemory
import Avos.Library.Walk

/-! # The Processor, as the Task Switching Code Uses It

  The instructions of `kernel/arch/tasking/src/context.asm` and `interrupt.asm`, and a
  32-bit machine that executes them. The routines written in C are single instructions of
  the machine, followed by `ret`; what they do to the memory is a parameter.

  Control flow goes through the memory as in the real machine: `call` pushes the address
  of the next instruction, and `ret` goes where the word at `esp` says.
-/

open ByteMemory Walks

namespace Avos

/-! ## Section 1: Registers and Instructions -/

/-- The general registers. -/
inductive Reg where
  | eax | ecx | edx | ebx | esp | ebp | esi | edi
  deriving DecidableEq, Repr

/-- The segment registers that are pushed and popped. -/
inductive Seg where
  | ds | es | fs | gs
  deriving DecidableEq, Repr

/-- The routines of the task switching code. -/
inductive Routine where
  | kContextSwitch | interruptDoCommonHandling | interruptReturn
  | interruptHandle | processPreempt | processFirstEntryToUserSpace
  deriving DecidableEq, Repr

/-- The instructions these routines consist of. -/
inductive Instr where
  | push (r : Reg)
  | pop (r : Reg)
  | pushSeg (r : Seg)
  | popSeg (r : Seg)
  | pushad
  | popad
  /-- `mov r, [esp+n]` -/
  | loadStack (r : Reg) (n : BitVec 32)
  /-- `mov [r], r'` -/
  | store (r r' : Reg)
  /-- `mov r, r'` -/
  | mov (r r' : Reg)
  /-- `mov r, cr3` -/
  | readCr3 (r : Reg)
  /-- `mov cr3, r` -/
  | writeCr3 (r : Reg)
  /-- `add esp, n` -/
  | addEsp (n : BitVec 32)
  | call (r : Routine)
  | ret
  | iret
  /-- The body of a routine written in C. -/
  | body
  deriving DecidableEq, Repr

/-- The text of the routines. -/
def text : Routine → List Instr
  | .kContextSwitch =>
      [.loadStack .eax 4, .loadStack .edx 8, .readCr3 .ecx,
        .push .ebp, .push .ebx, .push .esi, .push .edi, .push .ecx,
        .store .eax .esp, .mov .esp .edx,
        .pop .ecx, .pop .edi, .pop .esi, .pop .ebx, .pop .ebp,
        .writeCr3 .ecx, .ret]
  | .interruptDoCommonHandling =>
      [.pushSeg .ds, .pushSeg .es, .pushSeg .fs, .pushSeg .gs, .pushad,
        .push .esp, .call .interruptHandle, .call .interruptReturn]
  | .interruptReturn =>
      [.call .processPreempt, .loadStack .esp 4, .popad,
        .popSeg .gs, .popSeg .fs, .popSeg .es, .popSeg .ds, .addEsp 8, .iret]
  | .interruptHandle => [.body, .ret]
  | .processPreempt => [.body, .ret]
  | .processFirstEntryToUserSpace => [.body, .ret]

/-- An instruction of a routine. -/
structure CodePos where
  routine : Routine
  index : Nat
  deriving DecidableEq, Repr

/-- Where the linker has put the instructions. -/
structure CodeMap where
  addr : CodePos → BitVec 32
  pos : BitVec 32 → Option CodePos
  pos_addr : ∀ r (i : Fin (text r).length), pos (addr ⟨r, i⟩) = some ⟨r, i⟩

/-! ## Section 2: The Machine -/

/-- The state of the processor and the memory. `user` is set when the kernel is left. -/
structure Machine where
  eax : BitVec 32
  ecx : BitVec 32
  edx : BitVec 32
  ebx : BitVec 32
  esp : BitVec 32
  ebp : BitVec 32
  esi : BitVec 32
  edi : BitVec 32
  ds : BitVec 16
  es : BitVec 16
  fs : BitVec 16
  gs : BitVec 16
  cs : BitVec 16
  ss : BitVec 16
  eip : BitVec 32
  eflags : BitVec 32
  cr3 : BitVec 32
  mem : Memory
  user : Bool

namespace Machine

def get (s : Machine) : Reg → BitVec 32
  | .eax => s.eax
  | .ecx => s.ecx
  | .edx => s.edx
  | .ebx => s.ebx
  | .esp => s.esp
  | .ebp => s.ebp
  | .esi => s.esi
  | .edi => s.edi

def set (s : Machine) (r : Reg) (v : BitVec 32) : Machine :=
  match r with
  | .eax => { s with eax := v }
  | .ecx => { s with ecx := v }
  | .edx => { s with edx := v }
  | .ebx => { s with ebx := v }
  | .esp => { s with esp := v }
  | .ebp => { s with ebp := v }
  | .esi => { s with esi := v }
  | .edi => { s with edi := v }

def getSeg (s : Machine) : Seg → BitVec 16
  | .ds => s.ds
  | .es => s.es
  | .fs => s.fs
  | .gs => s.gs

def setSeg (s : Machine) (r : Seg) (v : BitVec 16) : Machine :=
  match r with
  | .ds => { s with ds := v }
  | .es => { s with es := v }
  | .fs => { s with fs := v }
  | .gs => { s with gs := v }

/-- Push a word. -/
def push (s : Machine) (v : BitVec 32) : Machine :=
  { s with esp := s.esp - 4, mem := store32 s.mem (s.esp - 4) v }

/-- The word at the top of the stack. -/
def top (s : Machine) : BitVec 32 := load32 s.mem s.esp

/-- The word at `esp + n`. -/
def stack (s : Machine) (n : BitVec 32) : BitVec 32 := load32 s.mem (s.esp + n)

/-- `iret` in the kernel. The stack is switched if the segment it returns to has another
    privilege level. -/
def iret (s : Machine) : Machine :=
  let cs := (s.stack 4).setWidth 16
  let t := { s with eip := s.top, cs := cs, eflags := s.stack 8, user := true }
  if cs &&& 3 = 0 then { t with esp := s.esp + 12 }
  else { t with esp := s.stack 12, ss := (s.stack 16).setWidth 16 }

end Machine

/-- What a routine written in C leaves behind: the memory, and the registers that it need
    not save. -/
structure CResult where
  eax : BitVec 32
  ecx : BitVec 32
  edx : BitVec 32
  mem : Memory

/-- The code the machine runs: the text at its addresses, and the routines written in C. -/
structure Kernel where
  code : CodeMap
  body : Routine → Machine → CResult

namespace Kernel

variable (k : Kernel)

/-- An instruction that does not branch. -/
def exec (p : CodePos) (s : Machine) : Instr → Machine
  | .push r => s.push (s.get r)
  | .pop r => { s with esp := s.esp + 4 }.set r (s.top)
  | .pushSeg r => s.push ((s.getSeg r).setWidth 32)
  | .popSeg r => { s with esp := s.esp + 4 }.setSeg r ((s.top).setWidth 16)
  | .pushad =>
      ((((((((s.push s.eax).push s.ecx).push s.edx).push s.ebx).push s.esp).push s.ebp).push
        s.esi).push s.edi)
  | .popad =>
      { s with
        edi := s.top, esi := s.stack 4, ebp := s.stack 8, ebx := s.stack 16
        edx := s.stack 20, ecx := s.stack 24, eax := s.stack 28, esp := s.esp + 32 }
  | .loadStack r n => s.set r (s.stack n)
  | .store r r' => { s with mem := store32 s.mem (s.get r) (s.get r') }
  | .mov r r' => s.set r (s.get r')
  | .readCr3 r => s.set r s.cr3
  | .writeCr3 r => { s with cr3 := s.get r }
  | .addEsp n => { s with esp := s.esp + n }
  | .call _ => s.push (k.code.addr ⟨p.routine, p.index + 1⟩)
  | .ret => { s with esp := s.esp + 4 }
  | .iret => s.iret
  | .body =>
      let c := k.body p.routine s
      { s with eax := c.eax, ecx := c.ecx, edx := c.edx, mem := c.mem }

/-- Where the machine goes after an instruction. -/
def target (p : CodePos) (s : Machine) : Instr → BitVec 32
  | .call r => k.code.addr ⟨r, 0⟩
  | .ret => s.top
  | .iret => s.top
  | _ => k.code.addr ⟨p.routine, p.index + 1⟩

/-- One instruction. Outside of the kernel and of the text nothing happens. -/
def step (s : Machine) : Machine :=
  if s.user then s
  else
    match k.code.pos s.eip with
    | none => s
    | some p =>
        match (text p.routine)[p.index]? with
        | none => s
        | some i => { k.exec p s i with eip := k.target p s i }

/-! ## Section 3: Running Routines -/

/-- The machine is in the kernel, and the next instruction is the one at `q`. -/
def At (q : CodePos) (s : Machine) : Prop := s.user = false ∧ k.code.pos s.eip = some q

/-- An instruction that goes on with the next one. -/
def Straight : Instr → Prop
  | .call _ | .ret | .iret => False
  | _ => True

/-- Execute instructions of a routine from an index on. -/
def execs (r : Routine) : Nat → List Instr → Machine → Machine
  | _, [], s => s
  | n, i :: l, s => execs r (n + 1) l { k.exec ⟨r, n⟩ s i with eip := k.target ⟨r, n⟩ s i }

section running

variable {k} {p : Machine → Prop} {r : Routine} {n : Nat} {i : Instr} {s t : Machine}

theorem execs_cons {l : List Instr} : k.execs r n (i :: l) s =
    k.execs r (n + 1) l { k.exec ⟨r, n⟩ s i with eip := k.target ⟨r, n⟩ s i } := rfl

/-- The instruction at a position of the text. -/
theorem pos_of_getElem? (hi : (text r)[n]? = some i) (he : s.eip = k.code.addr ⟨r, n⟩) :
    k.code.pos s.eip = some ⟨r, n⟩ := by
  obtain ⟨hn, -⟩ := List.getElem?_eq_some_iff.mp hi
  rw [he]
  exact k.code.pos_addr r ⟨n, hn⟩

theorem step_eq (hu : s.user = false) (hi : (text r)[n]? = some i)
    (he : s.eip = k.code.addr ⟨r, n⟩) :
    k.step s = { k.exec ⟨r, n⟩ s i with eip := k.target ⟨r, n⟩ s i } := by
  simp only [step, hu, Bool.false_eq_true, if_false, pos_of_getElem? hi he, hi]

/-- The machine is at one position only. -/
theorem At.unique {q : CodePos} (h : k.At q s) {q' : CodePos} (h' : k.At q' s) : q = q' :=
  Option.some.inj (h.2.symm.trans h'.2)

/-- One instruction, where `p` does not hold yet. -/
theorem reaches_step (hu : s.user = false) (hi : (text r)[n]? = some i)
    (he : s.eip = k.code.addr ⟨r, n⟩) (hp : ∀ x, k.At ⟨r, n⟩ x → ¬p x)
    (h : Reaches p k.step { k.exec ⟨r, n⟩ s i with eip := k.target ⟨r, n⟩ s i } t) :
    Reaches p k.step s t :=
  Reaches.step (hp s ⟨hu, pos_of_getElem? hi he⟩) (step_eq hu hi he ▸ h)

@[simp] theorem set_user {v : BitVec 32} {g : Reg} : (s.set g v).user = s.user := by
  cases g <;> rfl

@[simp] theorem setSeg_user {v : BitVec 16} {g : Seg} : (s.setSeg g v).user = s.user := by
  cases g <;> rfl

theorem exec_user (hi : Straight i) : (k.exec ⟨r, n⟩ s i).user = s.user := by
  cases i with
  | call _ => exact hi.elim
  | ret => exact hi.elim
  | iret => exact hi.elim
  | _ => simp [exec, Machine.push]

theorem target_straight (hi : Straight i) :
    k.target ⟨r, n⟩ s i = k.code.addr ⟨r, n + 1⟩ := by
  cases i with
  | call _ => exact hi.elim
  | ret => exact hi.elim
  | iret => exact hi.elim
  | _ => rfl

/-- Instructions that do not branch, where `p` does not hold yet. -/
theorem reaches_execs {l : List Instr} (hu : s.user = false)
    (hl : l <+: (text r).drop n) (hs : ∀ i ∈ l, Straight i)
    (he : s.eip = k.code.addr ⟨r, n⟩)
    (hp : ∀ j, n ≤ j → j < n + l.length → ∀ x, k.At ⟨r, j⟩ x → ¬p x)
    (h : Reaches p k.step (k.execs r n l s) t) : Reaches p k.step s t := by
  induction l generalizing n s with
  | nil => exact h
  | cons i l ih =>
    obtain ⟨rest, hrest⟩ := hl
    have hi : (text r)[n]? = some i := by
      have := congrArg (fun l => l[0]?) hrest
      simpa [List.getElem?_drop] using this.symm
    rw [List.length_cons] at hp
    refine reaches_step hu hi he (hp n (by omega) (by omega)) ?_
    refine ih ?_ ?_ (fun j hj => hs j (List.mem_cons_of_mem _ hj)) ?_
      (fun j hj hj' => hp j (by omega) (by omega)) h
    · exact (exec_user (hs i List.mem_cons_self)).trans hu
    · refine ⟨rest, ?_⟩
      have := congrArg List.tail hrest
      simpa [List.tail_drop] using this
    · exact target_straight (hs i List.mem_cons_self)

/-- The machine when a routine written in C has returned, if it has kept its return
    address. -/
def called (k : Kernel) (c : Routine) (r : Routine) (n : Nat) (s : Machine) : Machine :=
  let c := k.body c { s.push (k.code.addr ⟨r, n + 1⟩) with eip := k.code.addr ⟨c, 0⟩ }
  { s with eax := c.eax, ecx := c.ecx, edx := c.edx, mem := c.mem
           eip := load32 c.mem (s.esp - 4) }

/-- A call of a routine written in C, where `p` does not hold yet. -/
theorem reaches_call {c : Routine} (hc : text c = [.body, .ret]) (hu : s.user = false)
    (hi : (text r)[n]? = some (.call c)) (he : s.eip = k.code.addr ⟨r, n⟩)
    (hp : ∀ x, k.At ⟨r, n⟩ x → ¬p x) (hpc : ∀ j x, k.At ⟨c, j⟩ x → ¬p x)
    (h : Reaches p k.step (called k c r n s) t) : Reaches p k.step s t := by
  refine reaches_step hu hi he hp ?_
  refine reaches_step (r := c) (n := 0) (i := .body) hu (by rw [hc]; rfl) rfl (hpc 0) ?_
  refine reaches_step (r := c) (n := 1) (i := .ret) hu (by rw [hc]; rfl) rfl (hpc 1) ?_
  have hesp : s.esp - 4 + 4 = s.esp := BitVec.sub_add_cancel _ _
  simp only [exec, target, Machine.push, Machine.top, hesp]
  exact h

end running

end Kernel

end Avos
