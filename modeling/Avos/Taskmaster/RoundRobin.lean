import Avos.Taskmaster.OneCpu
import Mathlib.Algebra.Group.Fin.Basic
import Mathlib.Data.Fintype.Card

/-! # The Round of the Schedulers

  `Schedule` goes round the slots of the process table, on each CPU on its own. While a process
  waits to be run, no CPU looks at a slot twice, so none enters a process twice before one of
  them has chosen the process that waits (`schedule_roundRobin`).

  The slot that a scheduler comes to next is read off the code that is left on its stack
  (`nextSlot`). What carries the result is how far that slot is from the one that waits.
-/

open Transition

namespace Avos

namespace Tasks

/-! ## Section 1: Where a Scheduler Is -/

section code

variable {n : Nat} {L : Type*}

/-- What a round does after the slot. -/
def roundEnd (i : Fin n) : List (Instr n L) := spinLockRelease .process ++ [.nextProcess i]

/-- What can be left of a round of `Schedule`. -/
inductive RoundCode (i : Fin n) : List (Instr n L) → Prop where
  | round : RoundCode i (scheduleRound i)
  | acquire : RoundCode i (.testAndSet .process :: .ifRunnable i :: roundEnd i)
  | test : RoundCode i (.ifRunnable i :: roundEnd i)
  | choose : RoundCode i (.setRunning i :: .schedulerSwitch i :: roundEnd i)
  | enter : RoundCode i (.schedulerSwitch i :: roundEnd i)
  | release : RoundCode i (roundEnd i)
  | unveto : RoundCode i [.decrementVeto, .nextProcess i]
  | next : RoundCode i [.nextProcess i]

variable [NeZero n]

/-- The slot that a scheduler comes to next: the one that it tests or enters, or, when it is done
    with that, the one after it. -/
def nextSlot : List (Instr n L) → Fin n
  | [] => 0
  | .ifRunnable i :: _ => i
  | .setRunning i :: _ => i
  | .schedulerSwitch i :: _ => i
  | .nextProcess i :: _ => i + 1
  | _ :: k => nextSlot k

/-- The slot is still to be tested. -/
def Untested : List (Instr n L) → Prop
  | [] => False
  | .ifRunnable _ :: _ => True
  | .setRunning _ :: _ => False
  | .schedulerSwitch _ :: _ => False
  | .nextProcess _ :: _ => True
  | _ :: k => Untested k

/-- The slot that an instruction looks at. -/
def Instr.slotTested : Instr n L → Option (Fin n)
  | .ifRunnable i => some i
  | _ => none

/-- The slot of the process that an instruction enters. -/
def Instr.slotEntered : Instr n L → Option (Fin n)
  | .schedulerSwitch i => some i
  | _ => none

end code

namespace State

variable {n : Nat} {Cpu L : Type*} [DecidableEq Cpu]

/-- The instruction that CPU `c` executes in a step. -/
def instrAt (c : Cpu) (s : State n Cpu L) : Action n Cpu L → Option (Instr n L)
  | .step c' _ => if c' = c then (s.current c).frames.head?.bind List.head? else none
  | _ => none

/-- CPU `c` looks at a slot. -/
def testedAt (c : Cpu) (s : State n Cpu L) (a : Action n Cpu L) : Option (Fin n) :=
  (s.instrAt c a).bind Instr.slotTested

/-- CPU `c` enters a process. -/
def enteredAt (c : Cpu) (s : State n Cpu L) (a : Action n Cpu L) : Option (Fin n) :=
  (s.instrAt c a).bind Instr.slotEntered

/-- CPU `c` chooses process `p`. -/
def Chooses (c : Cpu) (p : Fin n) (s : State n Cpu L) (a : Action n Cpu L) : Prop :=
  s.instrAt c a = some (.setRunning p)

/-- Each scheduler is in a round. -/
def InRounds (s : State n Cpu L) : Prop :=
  ∀ c, ∃ i code, (s.scheduler c).frames = [code] ∧ RoundCode i code

/-- The code that is left on the stack of a scheduler. -/
def code (s : State n Cpu L) (c : Cpu) : List (Instr n L) := (s.scheduler c).frames.flatten

end State

/-! ## Section 2: A Step of a Scheduler -/

section round

variable {n : Nat} {L Cpu : Type*} {s : State n Cpu L} {c : Cpu} {b : Bool} {i : Instr n L}
  {j q : Fin n} {k : List (Instr n L)}

/-- The process that is entered is the one in the next slot. -/
theorem of_slotEntered (hq : i.slotEntered = some q) : i = .schedulerSwitch q := by
  cases i <;> cases hq
  rfl

variable [NeZero n]

/-- An instruction after which the scheduler goes on to the slot after. -/
def Instr.Passes (s : State n Cpu L) : Instr n L → Prop
  | .ifRunnable j => s.status j ≠ .runnable
  | .schedulerSwitch _ => True
  | _ => False

/-- What an instruction of `Schedule` leaves is again left of a round. -/
theorem RoundCode.outcome (h : RoundCode j (i :: k)) :
    ∃ j', RoundCode j' (s.outcomeCode c b i ++ k) := by
  generalize hcode : i :: k = code at h
  cases h <;> obtain ⟨rfl, rfl⟩ := List.cons.inj hcode
  case round => exact ⟨j, .acquire⟩
  case acquire =>
    rw [State.outcomeCode]
    split
    · exact ⟨j, .acquire⟩
    · exact ⟨j, .test⟩
  case test =>
    rw [State.outcomeCode]
    split
    · exact ⟨j, .choose⟩
    · exact ⟨j, .release⟩
  case choose => exact ⟨j, .enter⟩
  case enter => exact ⟨j, .release⟩
  case release => exact ⟨j, .unveto⟩
  case unveto => exact ⟨j, .next⟩
  case next => exact ⟨j + 1, .round⟩

/-- The slot stays the same, or the scheduler goes on to the slot after. -/
theorem RoundCode.nextSlot_outcome (h : RoundCode j (i :: k)) [Decidable (i.Passes s)] :
    nextSlot (s.outcomeCode c b i ++ k) =
      if i.Passes s then nextSlot (i :: k) + 1 else nextSlot (i :: k) := by
  generalize hcode : i :: k = code at h
  cases h <;> obtain ⟨rfl, rfl⟩ := List.cons.inj hcode
  case acquire =>
    rw [State.outcomeCode]
    split <;> exact (if_neg id).symm
  case test =>
    rw [State.outcomeCode]
    split
    · next hrunnable => exact (if_neg fun hne => hne hrunnable).symm
    · next hne => exact (if_pos hne).symm
  case enter => exact (if_pos trivial).symm
  all_goals exact (if_neg id).symm

/-- After a test the slot is tested, unless the scheduler goes on to the next one. -/
theorem RoundCode.untested_outcome (h : RoundCode j (i :: k))
    (hnew : Untested (s.outcomeCode c b i ++ k)) : i.Passes s ∨ Untested (i :: k) ∧
      i.slotTested = none := by
  generalize hcode : i :: k = code at h
  cases h <;> obtain ⟨rfl, rfl⟩ := List.cons.inj hcode
  case test =>
    rw [State.outcomeCode] at hnew
    split at hnew
    · exact hnew.elim
    · next hne => exact .inl hne
  case choose => exact hnew.elim
  case enter => exact .inl trivial
  all_goals exact .inr ⟨trivial, rfl⟩

/-- The slot that is tested is the next one, and it was untested. -/
theorem RoundCode.of_slotTested (h : RoundCode j (i :: k))
    (hq : i.slotTested = some q) : q = nextSlot (i :: k) ∧ Untested (i :: k) ∧
      (i.Passes s ↔ s.status q ≠ .runnable) := by
  generalize hcode : i :: k = code at h
  cases h <;> obtain ⟨rfl, rfl⟩ := List.cons.inj hcode
  case test =>
    obtain rfl := Option.some.inj hq
    exact ⟨rfl, trivial, Iff.rfl⟩
  all_goals cases hq

/-- The scheduler does not go on past a process that is ready without entering it. -/
theorem RoundCode.nextSlot_ne (h : RoundCode j (i :: k)) (hpass : i.Passes s)
    (hp : s.status q = .runnable) (henter : i ≠ .schedulerSwitch q) : nextSlot (i :: k) ≠ q := by
  generalize hcode : i :: k = code at h
  cases h <;> obtain ⟨rfl, rfl⟩ := List.cons.inj hcode
  case test =>
    rintro rfl
    exact hpass hp
  case enter =>
    rintro rfl
    exact henter rfl
  all_goals exact hpass.elim

end round

namespace State

section steps

variable {n : Nat} [NeZero n] {Cpu L : Type*} [DecidableEq Cpu] [DecidableEq L]
  {s s' : State n Cpu L} {a : Action n Cpu L} {c : Cpu} {p : Fin n} {i : Instr n L}

omit [NeZero n] [DecidableEq L] in
theorem instrAt_of_frames {b : Bool} {k : List (Instr n L)} {fs : List (List (Instr n L))}
    (hframes : (s.current c).frames = (i :: k) :: fs) :
    s.instrAt c (.step c b) = some i := by
  rw [instrAt, if_pos rfl, hframes]
  rfl

omit [NeZero n] [DecidableEq L] in
/-- An instruction that a CPU executes is the next one on its stack. -/
theorem frames_of_instrAt (h : s.instrAt c a = some i) :
    ∃ b k fs, a = .step c b ∧ (s.current c).frames = (i :: k) :: fs := by
  cases a with
  | step c' b =>
    rw [instrAt] at h
    split at h
    · next hc =>
      subst hc
      obtain ⟨f, hf, hhead⟩ := Option.bind_eq_some_iff.mp h
      obtain ⟨fs, hframes⟩ := List.head?_eq_some_iff.mp hf
      obtain ⟨k, rfl⟩ := List.head?_eq_some_iff.mp hhead
      exact ⟨b, k, fs, rfl, hframes⟩
    · cases h
  | call _ _ => cases h
  | interrupt _ => cases h
  | wake _ => cases h

/-- A process that is ready stays so until a scheduler chooses it. -/
theorem HandsOver.runnable_next (h : s.HandsOver) (hcode : s.CodeOk) (hs : s.next a = some s')
    (hp : s.status p = .runnable) : s'.status p = .runnable ∨ ∃ c, s.Chooses c p a := by
  obtain ⟨c, b, i, k, fs, rfl, hframes, rfl⟩ | ⟨c, fs, -, rfl⟩ | ⟨c, q, f, -, -, rfl⟩ |
    ⟨q, -, rfl⟩ := next_cases hs
  · rw [exec_status]
    cases i with
    | setAsleep l =>
      refine .inl ?_
      -- what runs and is ready is on its way into the scheduler, not to sleep
      have hrun : s.running c ≠ some p := by
        intro hrun
        rcases h.active c p hrun with hrunning | ⟨-, f, hf, hhead⟩
        · rw [hp] at hrunning
          cases hrunning
        · rw [← current_of_some hrun] at hf
          have hrest : f ∈ fs := by
            rw [hframes] at hf
            rcases List.mem_cons.mp hf with rfl | hrest
            · cases hhead
            · exact hrest
          exact h.needs_ne hcode hframes rfl hhead hf (.inr hrest) rfl
      exact (if_neg hrun).trans hp
    | setRunnable =>
      refine .inl ?_
      dsimp only
      split
      · rfl
      · exact hp
    | raiseAlarm l j =>
      refine .inl ?_
      dsimp only
      split
      · rfl
      · exact hp
    | book slots =>
      refine .inl ((if_neg ?_).trans hp)
      rintro ⟨-, hidle⟩
      rw [hp] at hidle
      cases hidle
    | activate j =>
      refine .inl ?_
      dsimp only
      split
      · rfl
      · exact hp
    | giveBack j =>
      refine .inl ((if_neg ?_).trans hp)
      -- a fork gives back a slot that is booked
      rintro rfl
      obtain ⟨-, hside⟩ | ⟨q, hrun, -⟩ := hcode.side hframes
      · cases hside
      · rw [current_of_some hrun] at hframes
        have hbooked : s.status p = .booked :=
          h.pending (hframes ▸ List.mem_cons_self) List.mem_cons_self (by simp [weight])
        rw [hp] at hbooked
        cases hbooked
    | setRunning j =>
      by_cases hj : p = j
      · subst hj
        exact .inr ⟨c, instrAt_of_frames hframes⟩
      · exact .inl ((if_neg hj).trans hp)
    | _ => exact .inl hp
  · exact .inl ((congrFun setCurrent_status p).trans hp)
  · exact .inl ((congrFun setCurrent_status p).trans hp)
  · refine .inl ?_
    simp only [setStatus, Function.update_apply]
    split
    · rfl
    · exact hp

/-- A scheduler that executes nothing stays where it is. -/
theorem InRounds.scheduler_eq (h : s.InRounds) (hs : s.next a = some s')
    (hidle : s.running c = none → s.instrAt c a = none) : s'.scheduler c = s.scheduler c := by
  obtain ⟨c', b, i, k, fs, rfl, hframes, rfl⟩ | ⟨c', fs, hframes, rfl⟩ | ⟨c', q, f, hrun, -, rfl⟩ |
    ⟨q, -, rfl⟩ := next_cases hs
  · rw [exec_scheduler, if_neg]
    rintro ⟨rfl, hnone⟩
    have hinstr := hidle hnone
    rw [instrAt_of_frames hframes] at hinstr
    cases hinstr
  · rw [setCurrent_scheduler, if_neg]
    -- a round does not return
    rintro ⟨rfl, hnone⟩
    obtain ⟨j, code, hcode, hround⟩ := h c
    rw [current_of_none hnone, hcode] at hframes
    obtain ⟨rfl, -⟩ := List.cons.inj hframes
    cases hround
  · rw [setCurrent_scheduler, if_neg]
    rintro ⟨rfl, hnone⟩
    rw [hrun] at hnone
    cases hnone
  · rfl

omit [NeZero n] in
/-- A process looks at no slot, and enters none. -/
theorem CodeOk.events_of_some (hcode : s.CodeOk) (hrun : s.running c = some p) :
    s.testedAt c a = none ∧ s.enteredAt c a = none := by
  rw [testedAt, enteredAt]
  cases hi : s.instrAt c a with
  | none => exact ⟨rfl, rfl⟩
  | some i =>
    obtain ⟨b, k, fs, -, hframes⟩ := frames_of_instrAt hi
    obtain ⟨hnone, -⟩ | ⟨-, -, hside⟩ := hcode.side hframes
    · rw [hrun] at hnone
      cases hnone
    · cases i <;> first | exact ⟨rfl, rfl⟩ | cases hside

/-- A step leaves a scheduler where it is, or it executes the next instruction of its round. -/
theorem InRounds.next_code (h : s.InRounds) (hcode : s.CodeOk) (hs : s.next a = some s')
    (c : Cpu) : (s'.scheduler c = s.scheduler c ∧ s.testedAt c a = none ∧ s.enteredAt c a = none) ∨
      ∃ b i k, s.running c = none ∧ s.instrAt c a = some i ∧ (s.scheduler c).frames = [i :: k] ∧
        (s'.scheduler c).frames = [s.outcomeCode c b i ++ k] := by
  cases hrun : s.running c with
  | some q =>
    refine .inl ⟨h.scheduler_eq hs fun hnone => ?_, hcode.events_of_some hrun⟩
    rw [hrun] at hnone
    cases hnone
  | none =>
    cases hi : s.instrAt c a with
    | none =>
      refine .inl ⟨h.scheduler_eq hs fun _ => hi, ?_, ?_⟩
      · rw [testedAt, hi]
        rfl
      · rw [enteredAt, hi]
        rfl
    | some i =>
      obtain ⟨b, k, fs, rfl, hframes⟩ := frames_of_instrAt hi
      rw [next, hframes] at hs
      obtain rfl := Option.some.inj hs
      obtain ⟨j, code, hcode, -⟩ := h c
      rw [current_of_none hrun, hcode] at hframes
      obtain ⟨rfl, rfl⟩ := List.cons.inj hframes
      refine .inr ⟨b, i, k, rfl, rfl, hcode, ?_⟩
      rw [exec_scheduler, if_pos ⟨rfl, hrun⟩]
      rfl

theorem inRounds_inductive :
    (tasks n Cpu L).Inductive fun s => (s.CodeOk ∧ s.HandsOver) ∧ s.InRounds := by
  refine handsOver_inductive.and (fun s hs c => ?_) fun s a s' hinv h hs c => ?_
  · exact ⟨0, scheduleRound 0, by rw [hs.scheduler c], .round⟩
  · obtain ⟨hsame, -⟩ | ⟨b, i, k, -, -, hframes, hframes'⟩ := h.next_code hinv.1 hs c
    · rw [hsame]
      exact h c
    · obtain ⟨j, code, hcode, hround⟩ := h c
      rw [hcode] at hframes
      obtain ⟨rfl, -⟩ := List.cons.inj hframes
      obtain ⟨j', hround'⟩ := hround.outcome
      exact ⟨j', _, hframes', hround'⟩

end steps

end State

/-! ## Section 3: While a Process Waits -/

section waits

variable {n : Nat} [NeZero n] {L Cpu : Type*} {s : State n Cpu L} {c : Cpu} {b : Bool}
  {i : Instr n L} {j p q : Fin n} {k code : List (Instr n L)} {tested entered : List (Fin n)}

/-- How far slot `p` is ahead of slot `q` in the round. -/
def ahead (p q : Fin n) : Nat := (p - q).val

theorem ahead_succ (h : q ≠ p) : ahead p (q + 1) + 1 = ahead p q := by
  have hsub : p - q ≠ 0 := sub_ne_zero_of_ne h.symm
  have hpos : 0 < (p - q).val := Nat.pos_of_ne_zero fun hzero => hsub (Fin.ext hzero)
  rw [ahead, ahead, sub_add_eq_sub_sub, Fin.val_sub_one_of_ne_zero hsub]
  omega

/-- What a scheduler has looked at and entered while `p` waits: it lies behind the slot that the
    scheduler comes to next, and the earlier the farther. -/
structure Behind (p : Fin n) (code : List (Instr n L)) (tested entered : List (Fin n)) :
    Prop where
  tested_le : ∀ q ∈ tested, ahead p (nextSlot code) ≤ ahead p q
  tested_lt : Untested code → ∀ q ∈ tested, ahead p (nextSlot code) < ahead p q
  entered_lt : ∀ q ∈ entered, ahead p (nextSlot code) < ahead p q
  tested_sorted : tested.Pairwise fun q q' => ahead p q < ahead p q'
  entered_sorted : entered.Pairwise fun q q' => ahead p q < ahead p q'

theorem Behind.start : Behind p code [] [] :=
  ⟨nofun, fun _ => nofun, nofun, .nil, .nil⟩

theorem pairwise_toList_append {γ : Type*} {R : γ → γ → Prop} {o : Option γ} {l : List γ}
    (h : ∀ a ∈ o.toList, ∀ b ∈ l, R a b) (hl : l.Pairwise R) : (o.toList ++ l).Pairwise R := by
  cases o with
  | none => exact hl
  | some a => exact .cons (h a (Option.mem_toList.mpr rfl)) hl

/-- An instruction keeps this, when it does not enter `p`. -/
theorem Behind.outcome (h : Behind p (i :: k) tested entered) (hround : RoundCode j (i :: k))
    (hp : s.status p = .runnable) (henter : i ≠ .schedulerSwitch p) :
    Behind p (s.outcomeCode c b i ++ k) (i.slotTested.toList ++ tested)
      (i.slotEntered.toList ++ entered) := by
  classical
  have hnext := hround.nextSlot_outcome (s := s) (c := c) (b := b)
  -- what is tested or entered is the next slot
  have htested : ∀ q ∈ i.slotTested.toList, q = nextSlot (i :: k) ∧ Untested (i :: k) := by
    intro q hq
    obtain ⟨hslot, huntested, -⟩ := hround.of_slotTested (s := s) (Option.mem_toList.mp hq)
    exact ⟨hslot, huntested⟩
  have hentered : ∀ q ∈ i.slotEntered.toList, q = nextSlot (i :: k) ∧ i.Passes s := by
    intro q hq
    obtain rfl := of_slotEntered (Option.mem_toList.mp hq)
    exact ⟨rfl, trivial⟩
  have htested_sorted := pairwise_toList_append (fun q hq q' hq' => by
    obtain ⟨rfl, huntested⟩ := htested q hq
    exact h.tested_lt huntested q' hq') h.tested_sorted
  have hentered_sorted := pairwise_toList_append (fun q hq q' hq' => by
    obtain ⟨rfl, -⟩ := hentered q hq
    exact h.entered_lt q' hq') h.entered_sorted
  by_cases hpass : i.Passes s
  · -- the scheduler comes nearer to `p`
    have hsucc := ahead_succ (hround.nextSlot_ne hpass hp henter)
    rw [if_pos hpass] at hnext
    have hlt : ∀ q ∈ i.slotTested.toList ++ tested,
        ahead p (nextSlot (s.outcomeCode c b i ++ k)) < ahead p q := by
      intro q hq
      rw [hnext]
      rcases List.mem_append.mp hq with hq | hq
      · obtain ⟨rfl, -⟩ := htested q hq
        omega
      · have hle := h.tested_le q hq
        omega
    refine ⟨fun q hq => Nat.le_of_lt (hlt q hq), fun _ => hlt, fun q hq => ?_, htested_sorted,
      hentered_sorted⟩
    rw [hnext]
    rcases List.mem_append.mp hq with hq | hq
    · obtain ⟨rfl, -⟩ := hentered q hq
      omega
    · have hlt := h.entered_lt q hq
      omega
  · -- the scheduler stays at its slot
    rw [if_neg hpass] at hnext
    refine ⟨fun q hq => ?_, fun huntested q hq => ?_, fun q hq => ?_, htested_sorted,
      hentered_sorted⟩
    · rw [hnext]
      rcases List.mem_append.mp hq with hq | hq
      · obtain ⟨rfl, -⟩ := htested q hq
        exact Nat.le_refl _
      · exact h.tested_le q hq
    · obtain ⟨hold, hnone⟩ := (hround.untested_outcome huntested).resolve_left hpass
      rw [hnone] at hq
      rw [hnext]
      exact h.tested_lt hold q hq
    · rw [hnext]
      rcases List.mem_append.mp hq with hq | hq
      · exact absurd (hentered q hq).2 hpass
      · exact h.entered_lt q hq

theorem Behind.tested_nodup (h : Behind p code tested entered) : tested.Nodup :=
  h.tested_sorted.imp fun hlt heq => Nat.ne_of_lt hlt (congrArg (ahead p) heq)

theorem Behind.entered_nodup (h : Behind p code tested entered) : entered.Nodup :=
  h.entered_sorted.imp fun hlt heq => Nat.ne_of_lt hlt (congrArg (ahead p) heq)

theorem Behind.not_entered (h : Behind p code tested entered) : p ∉ entered := by
  intro hp
  have hlt := h.entered_lt p hp
  have hzero : ahead p p = 0 := by
    rw [ahead, sub_self]
    rfl
  omega

end waits

namespace State

section run

variable {n : Nat} [NeZero n] {Cpu L : Type*} [DecidableEq Cpu] [DecidableEq L]
  {s s' : State n Cpu L} {a : Action n Cpu L} {c : Cpu} {p : Fin n}
  {states : Nat → State n Cpu L} {labels : Nat → Action n Cpu L} {m j k : Nat}

/-- A step, while `p` waits. -/
theorem InRounds.behind_next (h : s.InRounds) (hcode : s.CodeOk) (hands : s.HandsOver)
    (hs : s.next a = some s') (hp : s.status p = .runnable) {tested entered : List (Fin n)}
    (hbehind : Behind p (s.code c) tested entered) :
    Behind p (s'.code c) ((s.testedAt c a).toList ++ tested)
      ((s.enteredAt c a).toList ++ entered) := by
  obtain ⟨hsame, htested, hentered⟩ | ⟨b, i, k, hrun, hi, hframes, hframes'⟩ :=
    h.next_code hcode hs c
  · rw [code, hsame, htested, hentered]
    exact hbehind
  · obtain ⟨j, code, hcode, hround⟩ := h c
    rw [hcode] at hframes
    obtain ⟨rfl, -⟩ := List.cons.inj hframes
    have hold : s.code c = i :: k := by
      rw [State.code, hcode]
      exact List.append_nil _
    have hnew : s'.code c = s.outcomeCode c b i ++ k := by
      rw [State.code, hframes']
      exact List.append_nil _
    rw [hold] at hbehind
    rw [hnew, testedAt, enteredAt, hi]
    refine hbehind.outcome hround hp ?_
    -- what is entered has been chosen before
    rintro rfl
    have hmem : (.schedulerSwitch p :: k) ∈ (s.scheduler c).frames := by
      rw [hcode]
      exact List.mem_cons_self
    obtain ⟨hrunning, -⟩ := (hands.chosen c _ p hrun hmem).2 rfl
    rw [hp] at hrunning
    cases hrunning

/-- While a process is ready, no CPU looks at a slot twice or enters a process twice, before some
    CPU has chosen the process. -/
theorem schedule_roundRobin (h : (tasks n Cpu L).Run m states labels) (hjk : j + k ≤ m)
    (hp : (states j).status p = .runnable) :
    (∃ t c, j ≤ t ∧ t < j + k ∧ (states t).Chooses c p (labels t)) ∨
      (states (j + k)).status p = .runnable ∧ ∀ c,
        (eventsFrom (testedAt c) states labels j k).Nodup ∧
          (eventsFrom (enteredAt c) states labels j k).Nodup ∧
            p ∉ eventsFrom (enteredAt c) states labels j k := by
  have hinv : ∀ i ≤ m, ((states i).CodeOk ∧ (states i).HandsOver) ∧ (states i).InRounds :=
    fun i hi => inRounds_inductive.reachable (h.reachable i hi)
  suffices hbehind : (∃ t c, j ≤ t ∧ t < j + k ∧ (states t).Chooses c p (labels t)) ∨
      (states (j + k)).status p = .runnable ∧ ∀ c, Behind p ((states (j + k)).code c)
        (eventsFrom (testedAt c) states labels j k) (eventsFrom (enteredAt c) states labels j k) by
    refine hbehind.imp_right fun ⟨hrunnable, hbehind⟩ => ⟨hrunnable, fun c => ?_⟩
    exact ⟨(hbehind c).tested_nodup, (hbehind c).entered_nodup, (hbehind c).not_entered⟩
  induction k with
  | zero => exact .inr ⟨hp, fun c => .start⟩
  | succ k ih =>
    rcases ih (by omega) with ⟨t, c, hjt, htk, hchooses⟩ | ⟨hrunnable, hbehind⟩
    · exact .inl ⟨t, c, hjt, by omega, hchooses⟩
    · have hstep : (states (j + k)).next (labels (j + k)) = some (states (j + k + 1)) :=
        h.next (j + k) (by omega)
      obtain ⟨⟨hcode, hands⟩, hrounds⟩ := hinv (j + k) (by omega)
      rcases hands.runnable_next hcode hstep hrunnable with hrunnable' | ⟨c, hchooses⟩
      · exact .inr ⟨hrunnable', fun c =>
          hrounds.behind_next hcode hands hstep hrunnable (hbehind c)⟩
      · exact .inl ⟨j + k, c, by omega, by omega, hchooses⟩

/-- So a process is chosen before a CPU has looked at more slots than there are. -/
theorem chooses_of_tested (h : (tasks n Cpu L).Run m states labels) (hjk : j + k ≤ m)
    (hp : (states j).status p = .runnable)
    (hmany : n < (eventsFrom (testedAt c) states labels j k).length) :
    ∃ t c, j ≤ t ∧ t < j + k ∧ (states t).Chooses c p (labels t) := by
  rcases schedule_roundRobin h hjk hp with hchosen | ⟨-, hbehind⟩
  · exact hchosen
  · have hle := (hbehind c).1.length_le_card
    rw [Fintype.card_fin] at hle
    omega

/-- The first CPU enters the first process while the second one waits. -/
theorem schedule_roundRobin_bothReady : ∃ states labels, states 0 = bothReady ∧
    (tasks 2 Bool Unit).Run 8 states labels ∧ (states 8).running false = some 0 ∧
      ((∃ t c, 0 ≤ t ∧ t < 0 + 8 ∧ (states t).Chooses c 1 (labels t)) ∨
        (states (0 + 8)).status 1 = .runnable ∧ ∀ c,
          (eventsFrom (testedAt c) states labels 0 8).Nodup ∧
            (eventsFrom (enteredAt c) states labels 0 8).Nodup ∧
              1 ∉ eventsFrom (enteredAt c) states labels 0 8) := by
  have hrun : (bothReady.run (List.replicate 8 (.step false true))).map
      (fun s => s.running false) = some (some 0) := by decide +kernel
  obtain ⟨s, hs, hrunning⟩ := Option.map_eq_some_iff.mp hrun
  obtain ⟨states, labels, hstart, hend, hnext⟩ := exists_states_of_run _ hs
  have h : (tasks 2 Bool Unit).Run 8 states labels := ⟨hstart ▸ initial_bothReady, hnext⟩
  refine ⟨states, labels, hstart, h, ?_, schedule_roundRobin h (Nat.le_refl _) ?_⟩
  · rw [← hrunning, ← hend]
    rfl
  · rw [hstart]
    rfl

end run

end State

end Tasks

end Avos
