import Avos.Library.Transition
import Mathlib.Algebra.GroupWithZero.Nat
import Mathlib.Algebra.Ring.Int.Defs

/-! # IRQ Locks

  `kernel/core/synch/src/irqlock.c` on any number of CPUs and locks, over the
  spin lock of `spinlock.c`. An IRQ lock disables the interrupts of the CPU that
  takes it; whether they were enabled before is kept in the lock itself, and read
  back through the state block of the CPU on release.

  Every access to shared memory, every change of the interrupt flag and every
  change of the CPU's own state block is a step of its own, so that the steps
  of the CPUs interleave in any way.

  A CPU takes locks it does not hold yet, and releases the one it took last. -/

open Transition

namespace Avos

/-- Where a CPU is in `IRQLock_Acquire` or `IRQLock_Release`, named after the statement
    it executes next. `prio` is the local variable `intr_prio`. -/
inductive IRQLockPc (ι : Type) where
  | idle
  | acqDisable (lock : ι) (prio : BitVec 8)
  | acqVeto (lock : ι) (prio : BitVec 8)
  | acqSpin (lock : ι) (prio : BitVec 8)
  | acqPrevious (lock : ι) (prio : BitVec 8)
  | acqPriority (lock : ι)
  | relClear (lock : ι)
  | relVeto (lock : ι)
  | relEnable (lock : ι)
  deriving DecidableEq

/-- A CPU: its interrupt flag, the fields of its state block, where it is, and the
    locks it has taken, the last one first. -/
structure IRQCpu (ι : Type) where
  interruptsEnabled : Bool
  preemptionVetos : BitVec 32
  interruptPriority : BitVec 8
  pc : IRQLockPc ι
  held : List ι

/-- The CPUs, and the two fields of every lock. -/
structure IRQState (κ ι : Type) where
  cpu : κ → IRQCpu ι
  flag : ι → Bool
  previousInterruptPriority : ι → BitVec 8

/-- A CPU calls `IRQLock_Acquire` or `IRQLock_Release`, or goes on inside; or it does
    something else while it holds no lock, after which its flag, its count and its
    priority may be anything. -/
inductive IRQAction (κ ι : Type) where
  | acquire (c : κ) (lock : ι)
  | release (c : κ)
  | advance (c : κ)
  | other (c : κ) (enabled : Bool) (vetos : BitVec 32) (priority : BitVec 8)

namespace IRQState

section setCpu

variable {κ ι : Type} [DecidableEq κ]

/-- Replace one CPU. -/
def setCpu (s : IRQState κ ι) (c : κ) (cpu : IRQCpu ι) : IRQState κ ι :=
  { s with cpu := Function.update s.cpu c cpu }

@[simp] theorem setCpu_cpu_self (s : IRQState κ ι) (c : κ) (cpu : IRQCpu ι) :
    (s.setCpu c cpu).cpu c = cpu := by simp [setCpu]

theorem setCpu_cpu_ne (s : IRQState κ ι) {c d : κ} (cpu : IRQCpu ι) (h : d ≠ c) :
    (s.setCpu c cpu).cpu d = s.cpu d := by simp [setCpu, h]

@[simp] theorem setCpu_flag (s : IRQState κ ι) (c : κ) (cpu : IRQCpu ι) :
    (s.setCpu c cpu).flag = s.flag := rfl

@[simp] theorem setCpu_previous (s : IRQState κ ι) (c : κ) (cpu : IRQCpu ι) :
    (s.setCpu c cpu).previousInterruptPriority = s.previousInterruptPriority := rfl

end setCpu

variable {κ ι : Type} [DecidableEq κ] [DecidableEq ι]

/-- The statement CPU `c` is at. -/
def advance (s : IRQState κ ι) (c : κ) : IRQState κ ι :=
  let p := s.cpu c
  match p.pc with
  | .idle => s
  -- DisableInterrupts()
  | .acqDisable l prio => s.setCpu c { p with interruptsEnabled := false, pc := .acqVeto l prio }
  -- SpinLock_Acquire(&(lock->lock))
  | .acqVeto l prio =>
      s.setCpu c { p with preemptionVetos := p.preemptionVetos + 1, pc := .acqSpin l prio }
  | .acqSpin l prio =>
      if s.flag l then s
      else { s.setCpu c { p with pc := .acqPrevious l prio } with
        flag := Function.update s.flag l true }
  -- lock->previous_interrupt_priority = intr_prio
  | .acqPrevious l prio =>
      { s.setCpu c { p with pc := .acqPriority l } with
        previousInterruptPriority := Function.update s.previousInterruptPriority l prio }
  -- STATE_CURRENT->interrupt_priority = 0xFF
  | .acqPriority l =>
      s.setCpu c { p with interruptPriority := 0xFF, pc := .idle, held := l :: p.held }
  -- SpinLock_Release(&(lock->lock))
  | .relClear l =>
      { s.setCpu c { p with pc := .relVeto l } with flag := Function.update s.flag l false }
  | .relVeto l =>
      s.setCpu c { p with preemptionVetos := p.preemptionVetos - 1, pc := .relEnable l }
  -- if (STATE_CURRENT->interrupt_priority != 0xFF) EnableInterrupts()
  | .relEnable _ =>
      s.setCpu c { p with
        interruptsEnabled := if p.interruptPriority ≠ 0xFF then true else p.interruptsEnabled
        pc := .idle
        held := p.held.tail }

/-- The first statement of `IRQLock_Acquire` reads the interrupt flag, that of
    `IRQLock_Release` copies the lock's field to the state block. -/
def next (s : IRQState κ ι) : IRQAction κ ι → IRQState κ ι
  | .acquire c l =>
      s.setCpu c { s.cpu c with
        pc := .acqDisable l (if (s.cpu c).interruptsEnabled then 0 else 0xFF) }
  | .release c =>
      match (s.cpu c).held with
      | [] => s
      | l :: _ => s.setCpu c { s.cpu c with
          interruptPriority := s.previousInterruptPriority l, pc := .relClear l }
  | .advance c => s.advance c
  | .other c enabled vetos priority =>
      s.setCpu c { s.cpu c with
        interruptsEnabled := enabled, preemptionVetos := vetos, interruptPriority := priority }

/-- A CPU calls a function when it is in neither, takes distinct locks, and releases
    only while it holds one. -/
def Enabled (s : IRQState κ ι) : IRQAction κ ι → Prop
  | .acquire c l => (s.cpu c).pc = .idle ∧ l ∉ (s.cpu c).held
  | .release c => (s.cpu c).pc = .idle ∧ (s.cpu c).held ≠ []
  | .advance c => (s.cpu c).pc ≠ .idle
  | .other c _ _ _ => (s.cpu c).pc = .idle ∧ (s.cpu c).held = []

instance (s : IRQState κ ι) (a : IRQAction κ ι) : Decidable (s.Enabled a) := by
  cases a <;> unfold Enabled <;> infer_instance

/-- The states reached by a sequence of actions. -/
def after (start : IRQState κ ι) (actions : Nat → IRQAction κ ι) : Nat → IRQState κ ι
  | 0 => start
  | n + 1 => (start.after actions n).next (actions n)

/-- CPU `c` is in neither function and holds no lock. -/
def Unlocked (s : IRQState κ ι) (c : κ) : Prop := (s.cpu c).pc = .idle ∧ (s.cpu c).held = []

end IRQState

/-- All locks are free at the start; flags, counts and priorities are arbitrary. -/
def irqLocks (κ ι : Type) [DecidableEq κ] [DecidableEq ι] :
    System (IRQState κ ι) (IRQAction κ ι) where
  init s := (∀ c, s.Unlocked c) ∧ ∀ l, s.flag l = false
  step s a s' := s.Enabled a ∧ s' = s.next a

/-! ## Section 1: Who owns a lock -/

namespace IRQCpu

variable {ι : Type}

/-- The locks whose flag the CPU has set and not cleared yet, the last one first. -/
def owned (p : IRQCpu ι) : List ι :=
  match p.pc with
  | .acqPrevious l _ => l :: p.held
  | .acqPriority l => l :: p.held
  | .relVeto _ => p.held.tail
  | .relEnable _ => p.held.tail
  | _ => p.held

/-- The CPU takes a lock it does not hold, and releases the one it took last. -/
def Nested (p : IRQCpu ι) : Prop :=
  p.held.Nodup ∧
  match p.pc with
  | .idle => True
  | .acqDisable l _ => l ∉ p.held
  | .acqVeto l _ => l ∉ p.held
  | .acqSpin l _ => l ∉ p.held
  | .acqPrevious l _ => l ∉ p.held
  | .acqPriority l => l ∉ p.held
  | .relClear l => ∃ rest, p.held = l :: rest
  | .relVeto l => ∃ rest, p.held = l :: rest
  | .relEnable l => ∃ rest, p.held = l :: rest

end IRQCpu

namespace IRQState

variable {κ ι : Type}

/-- A lock is owned by one CPU at most, and its flag is set while it is. -/
structure Exclusive (s : IRQState κ ι) : Prop where
  nested : ∀ c, (s.cpu c).Nested
  flag : ∀ c, ∀ l ∈ (s.cpu c).owned, s.flag l = true
  unique : ∀ c d l, l ∈ (s.cpu c).owned → l ∈ (s.cpu d).owned → c = d

variable [DecidableEq κ] {s s' : IRQState κ ι} {c d : κ} {l : ι} {p : IRQCpu ι}

/-- A step of one CPU that takes no lock but one whose flag is clear, and clears no flag
    but that of a lock it gives up. -/
theorem Exclusive.update (h : s.Exclusive) (hcpu : s'.cpu = Function.update s.cpu c p)
    (hnested : p.Nested)
    (htake : ∀ l ∈ p.owned, l ∈ (s.cpu c).owned ∨ s.flag l = false)
    (hflag : ∀ l ∈ p.owned, s'.flag l = true)
    (hclear : ∀ l, s.flag l = true → s'.flag l = true ∨ l ∈ (s.cpu c).owned) : s'.Exclusive := by
  have hself : s'.cpu c = p := by rw [hcpu, Function.update_self]
  have hother : ∀ d, d ≠ c → s'.cpu d = s.cpu d := fun d hd => by
    rw [hcpu, Function.update_of_ne hd]
  -- what `c` owns after the step no other CPU owned before
  have hapart : ∀ d l, d ≠ c → l ∈ p.owned → l ∉ (s.cpu d).owned := by
    intro d l hd hl hld
    rcases htake l hl with hlc | hfree
    · exact hd (h.unique d c l hld hlc)
    · rw [h.flag d l hld] at hfree
      cases hfree
  refine ⟨fun d => ?_, fun d l hl => ?_, fun d e l hd he => ?_⟩
  · by_cases hdc : d = c
    · rw [hdc, hself]
      exact hnested
    · rw [hother d hdc]
      exact h.nested d
  · by_cases hdc : d = c
    · rw [hdc, hself] at hl
      exact hflag l hl
    · rw [hother d hdc] at hl
      rcases hclear l (h.flag d l hl) with hset | hlc
      · exact hset
      · exact absurd (h.unique d c l hl hlc) hdc
  · by_cases hdc : d = c <;> by_cases hec : e = c
    · rw [hdc, hec]
    · rw [hdc, hself] at hd
      rw [hother e hec] at he
      exact absurd he (hapart e l hec hd)
    · rw [hec, hself] at he
      rw [hother d hdc] at hd
      exact absurd hd (hapart d l hdc he)
    · rw [hother d hdc] at hd
      rw [hother e hec] at he
      exact h.unique d e l hd he

/-- A step of one CPU that leaves all flags alone. -/
theorem Exclusive.setCpu (h : s.Exclusive) (hnested : p.Nested)
    (howned : p.owned = (s.cpu c).owned) : (s.setCpu c p).Exclusive :=
  h.update rfl hnested (fun _ hl => .inl (howned ▸ hl)) (fun l hl => h.flag c l (howned ▸ hl))
    (fun _ hl => .inl hl)

variable [DecidableEq ι]

theorem Exclusive.advance (h : s.Exclusive) (c : κ) : (s.advance c).Exclusive := by
  have hn := h.nested c
  have hf := h.flag c
  unfold IRQCpu.Nested at hn
  unfold IRQState.advance
  simp only
  split
  · exact h
  all_goals rename_i hpc; rw [hpc] at hn; obtain ⟨hnd, hn⟩ := hn
  · exact h.setCpu ⟨hnd, hn⟩ (by simp [IRQCpu.owned, hpc])
  · exact h.setCpu ⟨hnd, hn⟩ (by simp [IRQCpu.owned, hpc])
  · -- the lock is taken when its flag was clear
    rename_i l prio
    split_ifs with hflag
    · exact h
    · refine h.update rfl ⟨hnd, hn⟩ (fun m hm => ?_) (fun m hm => ?_) (fun m hm => .inl ?_)
      · rcases List.mem_cons.mp hm with rfl | hm
        · exact .inr (by simpa using hflag)
        · exact .inl (by simpa [IRQCpu.owned, hpc] using hm)
      · by_cases hml : m = l
        · simp [hml]
        · have hmem : m ∈ (s.cpu c).owned := by
            simpa [IRQCpu.owned, hpc] using (List.mem_cons.mp hm).resolve_left hml
          simp [hml, hf m hmem]
      · by_cases hml : m = l <;> simp [hml, hm]
  · exact h.update rfl ⟨hnd, hn⟩ (fun m hm => .inl (by simpa [IRQCpu.owned, hpc] using hm))
      (fun m hm => hf m (by simpa [IRQCpu.owned, hpc] using hm)) (fun m hm => .inl hm)
  · exact h.setCpu ⟨List.nodup_cons.mpr ⟨hn, hnd⟩, trivial⟩ (by simp [IRQCpu.owned, hpc])
  · -- the lock is given up when its flag is cleared
    rename_i l
    obtain ⟨rest, hheld⟩ := hn
    have hfresh : l ∉ rest := (List.nodup_cons.mp (hheld ▸ hnd)).1
    have howned : (s.cpu c).owned = l :: rest := by simp [IRQCpu.owned, hpc, hheld]
    refine h.update rfl ⟨hnd, rest, hheld⟩ (fun m hm => .inl ?_) (fun m hm => ?_) (fun m hm => ?_)
    · rw [howned]
      exact List.mem_cons_of_mem _ (by simpa [IRQCpu.owned, hheld] using hm)
    · have hm : m ∈ rest := by simpa [IRQCpu.owned, hheld] using hm
      have hml : m ≠ l := fun heq => hfresh (heq ▸ hm)
      simp [hml, hf m (by simp [howned, hm])]
    · by_cases hml : m = l
      · exact .inr (by simp [howned, hml])
      · exact .inl (by simp [hml, hm])
  · exact h.setCpu ⟨hnd, hn⟩ (by simp [IRQCpu.owned, hpc])
  · obtain ⟨rest, hheld⟩ := hn
    refine h.setCpu ⟨?_, trivial⟩ (by simp [IRQCpu.owned, hpc])
    rw [hheld, List.tail_cons]
    exact (List.nodup_cons.mp (hheld ▸ hnd)).2

theorem Exclusive.next (h : s.Exclusive) {a : IRQAction κ ι} (ha : s.Enabled a) :
    (s.next a).Exclusive := by
  cases a with
  | acquire c l =>
    obtain ⟨hpc, hl⟩ := ha
    exact h.setCpu ⟨(h.nested c).1, hl⟩ (by simp [IRQCpu.owned, hpc])
  | release c =>
    obtain ⟨hpc, hne⟩ := ha
    simp only [IRQState.next]
    split
    · exact h
    · rename_i l rest hheld
      exact h.setCpu ⟨(h.nested c).1, rest, hheld⟩ (by simp [IRQCpu.owned, hpc])
  | advance c => exact h.advance c
  | other c enabled vetos priority =>
    obtain ⟨hpc, hheld⟩ := ha
    refine h.setCpu ⟨(h.nested c).1, ?_⟩ (by simp [IRQCpu.owned, hpc])
    simp [hpc]

end IRQState

/-! ## Section 2: What a CPU finds when it is done

  `enabled` and `vetos` are the interrupt flag and the count of a CPU while it holds
  no lock. -/

/-- The value the outermost lock keeps is that of the flag, every other lock keeps 0xFF. -/
def savedPriority {ι : Type} (enabled : Bool) : List ι → BitVec 8
  | [] => if enabled then 0 else 0xFF
  | _ :: _ => 0xFF

/-- Each lock of the list keeps what belongs to the locks taken before it. -/
def Saved {ι : Type} (enabled : Bool) (previous : ι → BitVec 8) : List ι → Prop
  | [] => True
  | l :: rest => previous l = savedPriority enabled rest ∧ Saved enabled previous rest

theorem Saved.congr {ι : Type} {enabled : Bool} {previous previous' : ι → BitVec 8} {ls : List ι}
    (h : Saved enabled previous ls) (heq : ∀ l ∈ ls, previous' l = previous l) :
    Saved enabled previous' ls := by
  induction ls with
  | nil => trivial
  | cons l ls ih =>
    refine ⟨?_, ih h.2 (fun m hm => heq m (List.mem_cons_of_mem _ hm))⟩
    rw [heq l List.mem_cons_self]
    exact h.1

namespace IRQCpu

variable {ι : Type}

/-- How many vetos the CPU has added. -/
def count (p : IRQCpu ι) : Nat :=
  match p.pc with
  | .acqSpin _ _ => p.held.length + 1
  | .acqPrevious _ _ => p.held.length + 1
  | .acqPriority _ => p.held.length + 1
  | .relEnable _ => p.held.length - 1
  | _ => p.held.length

/-- The locks whose field holds what the CPU saved there and will still read. -/
def kept (p : IRQCpu ι) : List ι :=
  match p.pc with
  | .acqPriority l => l :: p.held
  | .relClear _ => p.held.tail
  | .relVeto _ => p.held.tail
  | .relEnable _ => p.held.tail
  | _ => p.held

/-- The local variable on the way in, and the state block on the way out, have the
    value that belongs to the locks taken before. -/
def PriorityOk (enabled : Bool) (p : IRQCpu ι) : Prop :=
  match p.pc with
  | .idle => True
  | .acqDisable _ prio => prio = savedPriority enabled p.held
  | .acqVeto _ prio => prio = savedPriority enabled p.held
  | .acqSpin _ prio => prio = savedPriority enabled p.held
  | .acqPrevious _ prio => prio = savedPriority enabled p.held
  | .acqPriority _ => True
  | .relClear _ => p.interruptPriority = savedPriority enabled p.held.tail
  | .relVeto _ => p.interruptPriority = savedPriority enabled p.held.tail
  | .relEnable _ => p.interruptPriority = savedPriority enabled p.held.tail

/-- The interrupts are as they were before the outermost acquire has disabled them, and
    disabled from then on. -/
def FlagOk (enabled : Bool) (p : IRQCpu ι) : Prop :=
  match p.pc with
  | .idle => p.interruptsEnabled = (enabled && p.held.isEmpty)
  | .acqDisable _ _ => p.interruptsEnabled = (enabled && p.held.isEmpty)
  | _ => p.interruptsEnabled = false

/-- Whatever the CPU has done since it held no lock can be undone. -/
structure Restores (enabled : Bool) (vetos : BitVec 32) (previous : ι → BitVec 8)
    (p : IRQCpu ι) : Prop where
  vetos : p.preemptionVetos = vetos + BitVec.ofNat 32 p.count
  saved : Saved enabled previous p.kept
  priority : p.PriorityOk enabled
  flag : p.FlagOk enabled

theorem mem_owned_of_kept {p : IRQCpu ι} {l : ι} (h : l ∈ p.kept) : l ∈ p.owned := by
  cases hpc : p.pc <;> simp only [kept, hpc] at h <;> simp only [owned, hpc]
  case relClear l => exact List.mem_of_mem_tail h
  case acqPrevious l prio => exact List.mem_cons_of_mem _ h
  all_goals exact h

/-- A step of another CPU. -/
theorem Restores.congr {enabled : Bool} {vetos : BitVec 32} {previous previous' : ι → BitVec 8}
    {p : IRQCpu ι} (h : p.Restores enabled vetos previous)
    (heq : ∀ l ∈ p.owned, previous' l = previous l) : p.Restores enabled vetos previous' :=
  ⟨h.vetos, h.saved.congr (fun l hl => heq l (mem_owned_of_kept hl)), h.priority, h.flag⟩

end IRQCpu

namespace IRQState

variable {κ ι : Type} [DecidableEq κ] [DecidableEq ι] {s : IRQState κ ι} {c d : κ}
  {enabled : Bool} {vetos : BitVec 32}

theorem ofNat_add_one (vetos : BitVec 32) (n : Nat) :
    vetos + BitVec.ofNat 32 n + 1 = vetos + BitVec.ofNat 32 (n + 1) := by
  rw [BitVec.ofNat_add, BitVec.add_assoc]
  rfl

/-- A CPU's own step. -/
theorem restores_advance (hx : s.Exclusive)
    (h : (s.cpu c).Restores enabled vetos s.previousInterruptPriority) :
    ((s.advance c).cpu c).Restores enabled vetos (s.advance c).previousInterruptPriority := by
  have hn := (hx.nested c).2
  obtain ⟨hv, hs, hp, hf⟩ := h
  unfold advance
  simp only
  split
  · exact ⟨hv, hs, hp, hf⟩
  all_goals
    rename_i hpc
    simp only [IRQCpu.count, IRQCpu.kept, IRQCpu.PriorityOk, IRQCpu.FlagOk, hpc] at hv hs hp hf hn
  · rw [setCpu_cpu_self]
    exact ⟨hv, hs, hp, rfl⟩
  · rw [setCpu_cpu_self]
    exact ⟨by rw [hv]; exact ofNat_add_one _ _, hs, hp, hf⟩
  · split_ifs
    · refine ⟨?_, ?_, ?_, ?_⟩ <;>
        simp only [IRQCpu.count, IRQCpu.kept, IRQCpu.PriorityOk, IRQCpu.FlagOk, hpc]
      · exact hv
      · exact hs
      · exact hp
      · exact hf
    · simp only [setCpu_cpu_self]
      exact ⟨hv, hs, hp, hf⟩
  · -- the field of a lock that is not held yet is overwritten
    rename_i l prio
    simp only [setCpu_cpu_self]
    refine ⟨hv, ⟨?_, hs.congr (fun m hm => ?_)⟩, trivial, hf⟩
    · simpa using hp
    · have hml : m ≠ l := fun heq => hn (heq ▸ hm)
      simp [hml]
  · rw [setCpu_cpu_self]
    exact ⟨hv, hs, trivial, by simp [IRQCpu.FlagOk, hf]⟩
  · simp only [setCpu_cpu_self]
    exact ⟨hv, hs, hp, hf⟩
  · rename_i l
    obtain ⟨rest, hheld⟩ := hn
    rw [setCpu_cpu_self]
    refine ⟨?_, hs, hp, hf⟩
    rw [hheld, List.length_cons] at hv
    simp only [IRQCpu.count, hheld, List.length_cons, Nat.add_sub_cancel]
    rw [hv, ← ofNat_add_one, BitVec.add_sub_cancel]
  · rename_i l
    obtain ⟨rest, hheld⟩ := hn
    rw [setCpu_cpu_self]
    rw [hheld] at hv hs hp
    refine ⟨by simpa [IRQCpu.count, hheld] using hv, by simpa [IRQCpu.kept, hheld] using hs,
      trivial, ?_⟩
    -- the outermost release finds the value saved by the outermost acquire
    simp only [IRQCpu.FlagOk, hheld, List.tail_cons, hf]
    rw [hp, List.tail_cons]
    cases rest <;> cases enabled <;> simp [savedPriority]

theorem advance_cpu_ne (h : c ≠ d) : (s.advance d).cpu c = s.cpu c := by
  unfold advance
  simp only
  split
  · rfl
  all_goals try exact setCpu_cpu_ne s _ h
  split_ifs
  · rfl
  · exact setCpu_cpu_ne s _ h

/-- A CPU writes the field of a lock it owns. -/
theorem advance_previous {l : ι} (h : l ∉ (s.cpu d).owned) :
    (s.advance d).previousInterruptPriority l = s.previousInterruptPriority l := by
  unfold advance
  simp only
  split
  · rfl
  · rfl
  · rfl
  · split_ifs <;> rfl
  · rename_i m prio hpc
    have hlm : l ≠ m := fun heq => h (by simp [IRQCpu.owned, hpc, heq])
    simp [hlm]
  all_goals rfl

/-- Every step but the CPU's own activity outside the two functions. -/
theorem restores_next (hx : s.Exclusive)
    (h : (s.cpu c).Restores enabled vetos s.previousInterruptPriority) {a : IRQAction κ ι}
    (ha : s.Enabled a) (hother : ∀ e v q, a ≠ .other c e v q) :
    ((s.next a).cpu c).Restores enabled vetos (s.next a).previousInterruptPriority := by
  cases a with
  | acquire d l =>
    by_cases hcd : c = d
    · subst hcd
      obtain ⟨hv, hs, _, hf⟩ := h
      simp only [IRQCpu.count, IRQCpu.kept, IRQCpu.FlagOk, ha.1] at hv hs hf
      simp only [next, setCpu_cpu_self]
      refine ⟨hv, hs, ?_, hf⟩
      simp only [IRQCpu.PriorityOk, hf]
      cases (s.cpu c).held <;> cases enabled <;> simp [savedPriority]
    · simpa only [next, setCpu_cpu_ne s _ hcd, setCpu_previous] using h
  | release d =>
    simp only [next]
    split
    · exact h
    · rename_i l rest hheld
      by_cases hcd : c = d
      · subst hcd
        obtain ⟨hv, hs, _, hf⟩ := h
        simp only [IRQCpu.count, IRQCpu.kept, IRQCpu.FlagOk, ha.1, hheld] at hv hs hf
        rw [setCpu_cpu_self]
        refine ⟨?_, ?_, ?_, ?_⟩ <;>
          simp only [IRQCpu.count, IRQCpu.kept, IRQCpu.PriorityOk, IRQCpu.FlagOk, hheld]
        · exact hv
        · exact hs.2
        · exact hs.1
        · simpa using hf
      · simpa only [setCpu_cpu_ne s _ hcd, setCpu_previous] using h
  | advance d =>
    by_cases hcd : c = d
    · subst hcd
      exact restores_advance hx h
    · rw [next, advance_cpu_ne hcd]
      exact h.congr (fun l hl => advance_previous (fun hld => hcd (hx.unique c d l hl hld)))
  | other d e v q =>
    have hcd : c ≠ d := fun heq => hother e v q (by rw [heq])
    simpa only [next, setCpu_cpu_ne s _ hcd, setCpu_previous] using h

/-! ## Section 3: Every run -/

theorem exclusive_inductive : (irqLocks κ ι).Inductive Exclusive where
  init s := by
    rintro ⟨hidle, hfree⟩
    have howned : ∀ c, (s.cpu c).owned = [] := fun c => by
      simp [IRQCpu.owned, (hidle c).1, (hidle c).2]
    refine ⟨fun c => ?_, fun c l hl => ?_, fun c d l hl _ => ?_⟩
    · simp [IRQCpu.Nested, (hidle c).1, (hidle c).2]
    · simp [howned] at hl
    · simp [howned] at hl
  step := by
    rintro s a s' h ⟨ha, rfl⟩
    exact h.next ha

omit [DecidableEq κ] [DecidableEq ι] in
/-- A CPU that holds no lock has nothing to undo. -/
theorem Unlocked.restores (h : s.Unlocked c) :
    (s.cpu c).Restores (s.cpu c).interruptsEnabled (s.cpu c).preemptionVetos
      s.previousInterruptPriority := by
  obtain ⟨hpc, hheld⟩ := h
  refine ⟨?_, ?_, ?_, ?_⟩
  · simp [IRQCpu.count, hpc, hheld]
  · simp [IRQCpu.kept, hpc, hheld, Saved]
  · simp [IRQCpu.PriorityOk, hpc]
  · simp [IRQCpu.FlagOk, hpc, hheld]

end IRQState

/-- From a moment at which CPU `c` holds no lock on, and until it does something else while
    it holds none: its interrupts are disabled as long as it holds a lock, and when it
    holds none again, its interrupt flag and its count are what they were. -/
theorem irqLock_nesting {κ ι : Type} [DecidableEq κ] [DecidableEq ι] {n : Nat}
    {states : Nat → IRQState κ ι} {actions : Nat → IRQAction κ ι}
    (hrun : (irqLocks κ ι).Run n states actions) {c : κ} {i j : Nat} (hij : i ≤ j) (hj : j ≤ n)
    (hstart : (states i).Unlocked c)
    (hother : ∀ k, i ≤ k → k < j → ∀ e v q, actions k ≠ .other c e v q) :
    (((states j).cpu c).held ≠ [] → ((states j).cpu c).interruptsEnabled = false) ∧
    ((states j).Unlocked c →
      ((states j).cpu c).interruptsEnabled = ((states i).cpu c).interruptsEnabled ∧
      ((states j).cpu c).preemptionVetos = ((states i).cpu c).preemptionVetos) := by
  have hx : ∀ k, k ≤ n → (states k).Exclusive := fun k hk =>
    IRQState.exclusive_inductive.reachable (hrun.reachable k hk)
  have hrestores : ∀ k, i ≤ k → k ≤ j →
      ((states k).cpu c).Restores ((states i).cpu c).interruptsEnabled
        ((states i).cpu c).preemptionVetos (states k).previousInterruptPriority := by
    intro k hik
    induction k, hik using Nat.le_induction with
    | base => exact fun _ => hstart.restores
    | succ k hik ih =>
      intro hkj
      obtain ⟨ha, heq⟩ := hrun.next k (by omega)
      rw [heq]
      exact IRQState.restores_next (hx k (by omega)) (ih (by omega)) ha (hother k hik (by omega))
  obtain ⟨hv, _, _, hf⟩ := hrestores j hij (Nat.le_refl j)
  refine ⟨fun hheld => ?_, fun ⟨hpc, hheld⟩ => ?_⟩
  · unfold IRQCpu.FlagOk at hf
    split at hf
    · rw [hf, List.isEmpty_eq_false_iff.mpr hheld, Bool.and_false]
    · rw [hf, List.isEmpty_eq_false_iff.mpr hheld, Bool.and_false]
    · exact hf
  · simp only [IRQCpu.FlagOk, IRQCpu.count, hpc, hheld] at hv hf
    exact ⟨by simpa using hf, by simpa using hv⟩

/-- Two CPUs with interrupts enabled, and two free locks. -/
def twoCpus : IRQState (Fin 2) (Fin 2) where
  cpu := fun _ => ⟨true, 0, 0, .idle, []⟩
  flag := fun _ => false
  previousInterruptPriority := fun _ => 0

/-- CPU 0 takes both locks. CPU 1 calls `IRQLock_Acquire` on the first one meanwhile, takes it
    when CPU 0 has cleared its flag, and overwrites the lock's field before CPU 0 is done. -/
def contendedActions : Nat → IRQAction (Fin 2) (Fin 2)
  | 0 => .acquire 0 0
  | 6 => .acquire 0 1
  | 12 => .acquire 1 0
  | 13 => .advance 1
  | 14 => .advance 1
  | 15 => .advance 1
  | 16 => .release 0
  | 20 => .release 0
  | 22 => .advance 1
  | 23 => .advance 1
  | _ => .advance 0

theorem irqLock_nesting_twoCpus :
    (((twoCpus.after contendedActions 26).cpu 0).held ≠ [] →
      ((twoCpus.after contendedActions 26).cpu 0).interruptsEnabled = false) ∧
    ((twoCpus.after contendedActions 26).Unlocked 0 →
      ((twoCpus.after contendedActions 26).cpu 0).interruptsEnabled
        = (twoCpus.cpu 0).interruptsEnabled ∧
      ((twoCpus.after contendedActions 26).cpu 0).preemptionVetos
        = (twoCpus.cpu 0).preemptionVetos) := by
  have henabled : ∀ k, k < 26 →
      (twoCpus.after contendedActions k).Enabled (contendedActions k) := by decide +kernel
  have hrun : (irqLocks _ _).Run 26 (twoCpus.after contendedActions) contendedActions :=
    ⟨⟨fun c => ⟨rfl, rfl⟩, fun l => rfl⟩, fun k hk => ⟨henabled k hk, rfl⟩⟩
  refine irqLock_nesting hrun (i := 0) (by decide) (by decide) ⟨rfl, rfl⟩ (fun k _ _ e v q => ?_)
  unfold contendedActions
  split <;> simp

end Avos
