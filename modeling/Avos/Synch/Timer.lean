import Avos.Library.ByteMemory
import Avos.Library.Seqlock
import Avos.Library.Transition
import Mathlib.Algebra.Group.Nat.Defs
import Mathlib.Algebra.GroupWithZero.Nat
import Mathlib.Algebra.Ring.Int.Defs

/-! # Timers

  `kernel/core/timer/src/timer.c`: a count of 64 bits that an interrupt handler increments, and
  that others read. `Timer_Increment` makes `seq_counter` odd, changes `ticks`, and makes it
  even again; `Timer_GetTicks` reads `seq_counter`, `ticks` and `seq_counter`, and starts again
  when the two values are not the same or are odd.

  An access to `seq_counter` is one step. One to `ticks` is made half by half, and the halves
  may come in any order; the increment stores a half as soon as it has loaded what this half
  depends on. An access to the whole word is two steps of which nothing comes in between.

  There is one writer and any number of readers. The state counts the increments that have
  begun and that are complete; the code does not have these two fields.
-/

open Transition Seqlock

namespace Avos.Timer

/-! ## Section 1: The Halves of a Word -/

inductive Half where
  | low
  | high
  deriving DecidableEq

/-- The halves of a 64-bit word. -/
def half (v : BitVec 64) : Half → BitVec 32
  | .low => v.setWidth 32
  | .high => v.extractLsb' 32 32

/-- The 64-bit word with these halves. -/
def join (x : Half → BitVec 32) : BitVec 64 := x .high ++ x .low

/-- The halves of the word after the one whose halves have been loaded: the high half depends
    on the carry. -/
def addOne (loaded : Half → Option (BitVec 32)) : Half → Option (BitVec 32)
  | .low => (loaded .low).map (· + 1)
  | .high => (loaded .low).bind fun l =>
      (loaded .high).map fun h => if l = BitVec.allOnes 32 then h + 1 else h

theorem join_half (v : BitVec 64) : join (half v) = v := ByteMemory.halves_append v

theorem half_low_succ (v : BitVec 64) : half (v + 1) .low = half v .low + 1 := by
  show (v + 1).setWidth 32 = v.setWidth 32 + 1
  rw [BitVec.setWidth_add _ _ (by decide)]
  rfl

/-- The carry of the low half. -/
theorem half_high_succ (v : BitVec 64) :
    half (v + 1) .high =
      if half v .low = BitVec.allOnes 32 then half v .high + 1 else half v .high := by
  show (v + 1).extractLsb' 32 32 =
    if v.setWidth 32 = BitVec.allOnes 32 then v.extractLsb' 32 32 + 1 else v.extractLsb' 32 32
  have hlow : v.setWidth 32 = BitVec.allOnes 32 ↔ v.toNat % 2 ^ 32 = 2 ^ 32 - 1 := by
    rw [← BitVec.toNat_inj, BitVec.toNat_setWidth, BitVec.toNat_allOnes]
  have hone : (1 : BitVec 64).toNat = 1 := rfl
  have hone' : (1 : BitVec 32).toNat = 1 := rfl
  apply BitVec.eq_of_toNat_eq
  rw [BitVec.extractLsb'_toNat, BitVec.toNat_add, hone, Nat.shiftRight_eq_div_pow]
  split
  · next h =>
    rw [hlow] at h
    rw [BitVec.toNat_add, BitVec.extractLsb'_toNat, hone', Nat.shiftRight_eq_div_pow]
    omega
  · next h =>
    rw [hlow] at h
    rw [BitVec.extractLsb'_toNat, Nat.shiftRight_eq_div_pow]
    omega

/-- What is computed from halves of `v` are halves of `v + 1`. -/
theorem eq_half_of_addOne {loaded : Half → Option (BitVec 32)} {v : BitVec 64} {x : BitVec 32}
    {h : Half} (hloaded : ∀ h x, loaded h = some x → x = half v h)
    (hx : addOne loaded h = some x) : x = half (v + 1) h := by
  cases h with
  | low =>
    obtain ⟨l, hl, rfl⟩ := Option.map_eq_some_iff.mp hx
    rw [hloaded .low l hl, half_low_succ]
  | high =>
    obtain ⟨l, hl, hx⟩ := Option.bind_eq_some_iff.mp hx
    obtain ⟨y, hy, rfl⟩ := Option.map_eq_some_iff.mp hx
    rw [hloaded .low l hl, hloaded .high y hy, half_high_succ]

theorem loaded_of_addOne {loaded : Half → Option (BitVec 32)} {x : BitVec 32} {h : Half}
    (hx : addOne loaded h = some x) : loaded h ≠ none := by
  intro hnone
  cases h with
  | low =>
    rw [addOne, hnone] at hx
    cases hx
  | high =>
    obtain ⟨l, hl, hx⟩ := Option.bind_eq_some_iff.mp hx
    rw [hnone] at hx
    cases hx

/-! ## Section 2: Model -/

/-- An increment of `ticks` that is going on. -/
structure Update where
  loaded : Half → Option (BitVec 32)
  stored : Half → Bool

/-- Where a reader is in `Timer_GetTicks`: it loads `tickseq0`, the halves of `ticks`, and
    `tickseq1`, and checks them. -/
inductive Reader where
  | idle
  | start
  | reading (tickseq0 : BitVec 32) (seen : Half → Option (BitVec 32))
  | check (tickseq0 : BitVec 32) (ticks : BitVec 64) (tickseq1 : BitVec 32)

/-- `struct Timer`, the writer and the readers. -/
structure State (ι : Type*) where
  seqCounter : BitVec 32
  ticks : Half → BitVec 32
  writer : Option Update
  reader : ι → Reader
  begun : Nat
  completed : Nat

/-- The steps of `Timer_Increment`, and those of `Timer_GetTicks` for the reader `r`. -/
inductive Action (ι : Type*) where
  | beginIncrement
  | load (h : Half)
  | store (h : Half)
  | endIncrement
  | call (r : ι)
  | loadSeq0 (r : ι)
  | read (r : ι) (h : Half)
  | loadSeq1 (r : ι)
  | again (r : ι)
  | ret (r : ι) (ticks : BitVec 64)

section model

variable {ι : Type*}

/-- `seq_counter` is odd, and nothing of `ticks` has been loaded. -/
def State.beginIncrement (s : State ι) : State ι :=
  { s with
    seqCounter := s.seqCounter + 1
    writer := some ⟨fun _ => none, fun _ => false⟩
    begun := s.begun + 1 }

def State.load (s : State ι) (u : Update) (h : Half) : State ι :=
  { s with writer := some { u with loaded := Function.update u.loaded h (some (s.ticks h)) } }

def State.store (s : State ι) (u : Update) (h : Half) (x : BitVec 32) : State ι :=
  { s with
    ticks := Function.update s.ticks h x
    writer := some { u with stored := Function.update u.stored h true } }

/-- `seq_counter` is even again. -/
def State.endIncrement (s : State ι) : State ι :=
  { s with
    seqCounter := s.seqCounter + 1
    writer := none
    completed := s.completed + 1 }

def State.setReader [DecidableEq ι] (s : State ι) (r : ι) (x : Reader) : State ι :=
  { s with reader := Function.update s.reader r x }

/-- `tickseq0 != tickseq1 || (tickseq0 & 1)`. -/
def Retries (tickseq0 tickseq1 : BitVec 32) : Prop := tickseq0 ≠ tickseq1 ∨ tickseq0 &&& 1 ≠ 0

/-- A timer that starts at 0. -/
def timer (ι : Type*) [DecidableEq ι] : System (State ι) (Action ι) where
  init s :=
    s.seqCounter = 0 ∧ s.ticks = half 0 ∧ s.writer = none ∧ s.reader = (fun _ => .idle) ∧
      s.begun = 0 ∧ s.completed = 0
  step s a s' :=
    match a with
    | .beginIncrement => s.writer = none ∧ s' = s.beginIncrement
    | .load h => ∃ u, s.writer = some u ∧ u.loaded h = none ∧ s' = s.load u h
    | .store h =>
        ∃ u x, s.writer = some u ∧ u.stored h = false ∧ addOne u.loaded h = some x ∧
          s' = s.store u h x
    | .endIncrement =>
        ∃ u, s.writer = some u ∧ (∀ h, u.stored h = true) ∧ s' = s.endIncrement
    | .call r => s.reader r = .idle ∧ s' = s.setReader r .start
    | .loadSeq0 r =>
        s.reader r = .start ∧ s' = s.setReader r (.reading s.seqCounter fun _ => none)
    | .read r h =>
        ∃ q seen, s.reader r = .reading q seen ∧ seen h = none ∧
          s' = s.setReader r (.reading q (Function.update seen h (some (s.ticks h))))
    | .loadSeq1 r =>
        ∃ q seen, s.reader r = .reading q (fun h => some (seen h)) ∧
          s' = s.setReader r (.check q (join seen) s.seqCounter)
    | .again r =>
        ∃ q t q', s.reader r = .check q t q' ∧ Retries q q' ∧ s' = s.setReader r .start
    | .ret r t =>
        ∃ q q', s.reader r = .check q t q' ∧ ¬Retries q q' ∧ s' = s.setReader r .idle

variable [DecidableEq ι] {s s' : State ι} {a : Action ι}

/-- What a step does: one of the writer, or one that changes a reader only. -/
theorem step_cases (hstep : (timer ι).step s a s') :
    (s.writer = none ∧ s' = s.beginIncrement) ∨
      (∃ u h, s.writer = some u ∧ u.loaded h = none ∧ s' = s.load u h) ∨
      (∃ u h x, s.writer = some u ∧ addOne u.loaded h = some x ∧ s' = s.store u h x) ∨
      (∃ u, s.writer = some u ∧ (∀ h, u.stored h = true) ∧ s' = s.endIncrement) ∨
      ∃ r x, s' = s.setReader r x := by
  cases a with
  | beginIncrement => exact .inl hstep
  | load h =>
    obtain ⟨u, hu, hnone, hs'⟩ := hstep
    exact .inr (.inl ⟨u, h, hu, hnone, hs'⟩)
  | store h =>
    obtain ⟨u, x, hu, -, hx, hs'⟩ := hstep
    exact .inr (.inr (.inl ⟨u, h, x, hu, hx, hs'⟩))
  | endIncrement => exact .inr (.inr (.inr (.inl hstep)))
  | call r => exact .inr (.inr (.inr (.inr ⟨r, _, hstep.2⟩)))
  | loadSeq0 r => exact .inr (.inr (.inr (.inr ⟨r, _, hstep.2⟩)))
  | read r h =>
    obtain ⟨q, seen, -, -, hs'⟩ := hstep
    exact .inr (.inr (.inr (.inr ⟨r, _, hs'⟩)))
  | loadSeq1 r =>
    obtain ⟨q, seen, -, hs'⟩ := hstep
    exact .inr (.inr (.inr (.inr ⟨r, _, hs'⟩)))
  | again r =>
    obtain ⟨q, t, q', -, -, hs'⟩ := hstep
    exact .inr (.inr (.inr (.inr ⟨r, _, hs'⟩)))
  | ret r t =>
    obtain ⟨q, q', -, -, hs'⟩ := hstep
    exact .inr (.inr (.inr (.inr ⟨r, _, hs'⟩)))

end model

/-! ## Section 3: The Writer -/

/-- An increment of `v` that is going on: what it has stored is of `v + 1`, and the rest is of
    `v`, as is what it has loaded. -/
structure Update.Increments (u : Update) (v : BitVec 64) (ticks : Half → BitVec 32) : Prop where
  stored_eq : ∀ h, u.stored h = true → ticks h = half (v + 1) h
  kept_eq : ∀ h, u.stored h = false → ticks h = half v h
  loaded_eq : ∀ h x, u.loaded h = some x → x = half v h
  stored_loaded : ∀ h, u.stored h = true → u.loaded h ≠ none

namespace Update.Increments

variable {u : Update} {v : BitVec 64} {ticks : Half → BitVec 32} {x : BitVec 32} {h : Half}

theorem start : Increments ⟨fun _ => none, fun _ => false⟩ v (half v) where
  stored_eq := by
    intro h hstored
    cases hstored
  kept_eq _ _ := rfl
  loaded_eq := by
    intro h x hx
    cases hx
  stored_loaded := by
    intro h hstored
    cases hstored

/-- A half that has not been loaded has not been stored, so it is one of `v`. -/
theorem load (hu : u.Increments v ticks) (hnone : u.loaded h = none) :
    Increments { u with loaded := Function.update u.loaded h (some (ticks h)) } v ticks where
  stored_eq := hu.stored_eq
  kept_eq := hu.kept_eq
  loaded_eq := by
    intro h' x hx
    have hfree : u.stored h = false := by
      by_contra hstored
      exact hu.stored_loaded h (by simpa using hstored) hnone
    by_cases heq : h' = h
    · rw [heq] at hx ⊢
      have hx' : some (ticks h) = some x := (Function.update_self h _ u.loaded).symm.trans hx
      rw [← Option.some.inj hx', hu.kept_eq h hfree]
    · exact hu.loaded_eq h' x ((Function.update_of_ne heq _ u.loaded).symm.trans hx)
  stored_loaded := by
    intro h' hstored
    show Function.update u.loaded h (some (ticks h)) h' ≠ none
    rw [Function.update_apply]
    split
    · exact Option.some_ne_none _
    · exact hu.stored_loaded h' hstored

/-- A half that is stored is one of `v + 1`. -/
theorem store (hu : u.Increments v ticks) (hx : addOne u.loaded h = some x) :
    Increments { u with stored := Function.update u.stored h true } v
      (Function.update ticks h x) where
  stored_eq := by
    intro h' hstored
    -- the other half stays as it is
    by_cases heq : h' = h
    · rw [heq, Function.update_self]
      exact eq_half_of_addOne hu.loaded_eq hx
    · rw [Function.update_of_ne heq]
      exact hu.stored_eq h' ((Function.update_of_ne heq _ u.stored).symm.trans hstored)
  kept_eq := by
    intro h' hkept
    have heq : h' ≠ h := by
      rintro rfl
      have htrue : true = false := (Function.update_self h' _ u.stored).symm.trans hkept
      cases htrue
    rw [Function.update_of_ne heq]
    exact hu.kept_eq h' ((Function.update_of_ne heq _ u.stored).symm.trans hkept)
  loaded_eq := hu.loaded_eq
  stored_loaded := by
    intro h' hstored
    by_cases heq : h' = h
    · rw [heq]
      exact loaded_of_addOne hx
    · exact hu.stored_loaded h' ((Function.update_of_ne heq _ u.stored).symm.trans hstored)

end Update.Increments

/-- What `seq_counter` would be without a bound. -/
def State.version {ι : Type*} (s : State ι) : Nat := s.begun + s.completed

/-- `seq_counter` counts what has begun and what is complete, and `ticks` is the number of
    increments that are complete while there is none going on. -/
structure Counts {ι : Type*} (s : State ι) : Prop where
  seq : s.seqCounter = BitVec.ofNat 32 s.version
  resting : s.writer = none →
    s.begun = s.completed ∧ s.ticks = half (BitVec.ofNat 64 s.completed)
  changing : ∀ u, s.writer = some u →
    s.begun = s.completed + 1 ∧ u.Increments (BitVec.ofNat 64 s.completed) s.ticks

section writer

variable {ι : Type*} {s s' : State ι} {a : Action ι}

theorem ofNat_succ {w n : Nat} : BitVec.ofNat w n + 1 = BitVec.ofNat w (n + 1) :=
  (BitVec.ofNat_add n 1).symm

/-- An even version says that there is no increment going on. -/
theorem Counts.resting_of_even (hs : Counts s) (heven : s.version % 2 = 0) :
    s.writer = none ∧ s.begun = s.completed ∧ s.ticks = half (BitVec.ofNat 64 s.completed) := by
  cases hw : s.writer with
  | none => exact ⟨rfl, hs.resting hw⟩
  | some u =>
    have hbegun := (hs.changing u hw).1
    rw [State.version] at heven
    omega

theorem Counts.begun_le (hs : Counts s) : s.begun ≤ s.completed + 1 := by
  cases hw : s.writer with
  | none =>
    have hbegun := (hs.resting hw).1
    omega
  | some u =>
    have hbegun := (hs.changing u hw).1
    omega

theorem Counts.beginIncrement (hs : Counts s) (hnone : s.writer = none) :
    Counts s.beginIncrement where
  seq := by
    show s.seqCounter + 1 = BitVec.ofNat 32 (s.begun + 1 + s.completed)
    rw [hs.seq, ofNat_succ, Nat.add_right_comm]
    rfl
  resting := by
    intro hw
    cases hw
  changing := by
    intro u hu
    obtain ⟨hbegun, hticks⟩ := hs.resting hnone
    obtain rfl := Option.some.inj hu
    refine ⟨congrArg (· + 1) hbegun, ?_⟩
    show Update.Increments _ (BitVec.ofNat 64 s.completed) s.ticks
    rw [hticks]
    exact .start

theorem Counts.endIncrement {u : Update} (hs : Counts s) (hu : s.writer = some u)
    (hstored : ∀ h, u.stored h = true) : Counts s.endIncrement where
  seq := by
    show s.seqCounter + 1 = BitVec.ofNat 32 (s.begun + (s.completed + 1))
    rw [hs.seq, ofNat_succ]
    rfl
  resting := by
    intro _
    obtain ⟨hbegun, hinc⟩ := hs.changing u hu
    refine ⟨hbegun, ?_⟩
    show s.ticks = half (BitVec.ofNat 64 (s.completed + 1))
    rw [← ofNat_succ]
    exact funext fun h => hinc.stored_eq h (hstored h)
  changing := by
    intro u' hu'
    cases hu'

variable [DecidableEq ι]

theorem counts_step (hs : Counts s) (hstep : (timer ι).step s a s') : Counts s' := by
  obtain ⟨hnone, rfl⟩ | ⟨u, h, hu, hnone, rfl⟩ | ⟨u, h, x, hu, hx, rfl⟩ | ⟨u, hu, hstored, rfl⟩ |
    ⟨r, x, rfl⟩ := step_cases hstep
  · exact hs.beginIncrement hnone
  · obtain ⟨hbegun, hinc⟩ := hs.changing u hu
    refine ⟨hs.seq, fun hw => (by cases hw), fun u' hu' => ?_⟩
    obtain rfl := Option.some.inj hu'
    exact ⟨hbegun, hinc.load hnone⟩
  · obtain ⟨hbegun, hinc⟩ := hs.changing u hu
    refine ⟨hs.seq, fun hw => (by cases hw), fun u' hu' => ?_⟩
    obtain rfl := Option.some.inj hu'
    exact ⟨hbegun, hinc.store hx⟩
  · exact hs.endIncrement hu hstored
  · exact ⟨hs.seq, hs.resting, hs.changing⟩

theorem counts_init (hs : (timer ι).init s) : Counts s := by
  obtain ⟨hseq, hticks, hwriter, -, hbegun, hcompleted⟩ := hs
  refine ⟨?_, fun _ => ⟨?_, ?_⟩, fun u hu => ?_⟩
  · rw [hseq, State.version, hbegun, hcompleted]
    rfl
  · rw [hbegun, hcompleted]
  · rw [hticks, hcompleted]
    rfl
  · rw [hwriter] at hu
    cases hu

theorem counts_inductive : (timer ι).Inductive Counts where
  init _ hs := counts_init hs
  step _ _ _ hs hstep := counts_step hs hstep

/-- No step takes back what has begun or is complete. -/
theorem count_le_of_step (hstep : (timer ι).step s a s') :
    s.begun ≤ s'.begun ∧ s.completed ≤ s'.completed := by
  obtain ⟨-, rfl⟩ | ⟨u, h, -, -, rfl⟩ | ⟨u, h, x, -, -, rfl⟩ | ⟨u, -, -, rfl⟩ | ⟨r, x, rfl⟩ :=
    step_cases hstep
  · exact ⟨Nat.le_succ _, Nat.le_refl _⟩
  · exact ⟨Nat.le_refl _, Nat.le_refl _⟩
  · exact ⟨Nat.le_refl _, Nat.le_refl _⟩
  · exact ⟨Nat.le_refl _, Nat.le_succ _⟩
  · exact ⟨Nat.le_refl _, Nat.le_refl _⟩

/-- `ticks` stays as it is while there is no increment going on. -/
theorem ticks_of_step (hnone : s.writer = none) (hstep : (timer ι).step s a s') :
    s'.ticks = s.ticks := by
  obtain ⟨-, rfl⟩ | ⟨u, h, -, -, rfl⟩ | ⟨u, h, x, hu, -, rfl⟩ | ⟨u, -, -, rfl⟩ | ⟨r, x, rfl⟩ :=
    step_cases hstep
  · rfl
  · rfl
  · rw [hnone] at hu
    cases hu
  · rfl
  · rfl

end writer

/-! ## Section 4: The Readers -/

section reader

variable {ι : Type*} [DecidableEq ι] {n i j k m : Nat} {states : Nat → State ι}
  {labels : Nat → Action ι} {r : ι}

theorem counts_of_run (hrun : (timer ι).Run n states labels) (hi : i ≤ n) : Counts (states i) :=
  counts_inductive.reachable (hrun.reachable i hi)

theorem count_le_of_run (hrun : (timer ι).Run n states labels) (hij : i ≤ j) (hj : j ≤ n) :
    (states i).begun ≤ (states j).begun ∧ (states i).completed ≤ (states j).completed := by
  induction j, hij using Nat.le_induction with
  | base => exact ⟨Nat.le_refl _, Nat.le_refl _⟩
  | succ j _ ih =>
    obtain ⟨hb, hc⟩ := ih (by omega)
    obtain ⟨hb', hc'⟩ := count_le_of_step (hrun.next j (by omega))
    exact ⟨hb.trans hb', hc.trans hc'⟩

/-- A timer is a sequence lock over the halves of `ticks`. -/
theorem locked_of_run (hrun : (timer ι).Run n states labels) :
    Locked n (fun i => (states i).version) fun i => (states i).ticks where
  mono := by
    intro i hi
    obtain ⟨hb, hc⟩ := count_le_of_step (hrun.next i hi)
    exact Nat.add_le_add hb hc
  still := by
    intro i hi heven
    have hnone := ((counts_of_run hrun (Nat.le_of_lt hi)).resting_of_even heven).1
    exact ticks_of_step hnone (hrun.next i hi)

/-- What a reader has, it has got between the states `i` and `m`, in the order of its loads. -/
def Tracks (states : Nat → State ι) (i m : Nat) : Reader → Prop
  | .idle => True
  | .start => True
  | .reading q seen => ∃ k, i < k ∧ k ≤ m ∧ q = (states k).seqCounter ∧
      ∀ h x, seen h = some x → ∃ t, k ≤ t ∧ t ≤ m ∧ x = (states t).ticks h
  | .check q ticks q' => ∃ k k' seen, i < k ∧ k ≤ k' ∧ k' ≤ m ∧ q = (states k).seqCounter ∧
      q' = (states k').seqCounter ∧ ticks = join seen ∧
      ∀ h, ∃ t, k ≤ t ∧ t ≤ k' ∧ seen h = (states t).ticks h

omit [DecidableEq ι] in
theorem Tracks.succ {x : Reader} (hx : Tracks states i m x) : Tracks states i (m + 1) x := by
  cases x with
  | idle => trivial
  | start => trivial
  | reading q seen =>
    obtain ⟨k, hik, hkm, hq, hseen⟩ := hx
    refine ⟨k, hik, by omega, hq, fun h x hx => ?_⟩
    obtain ⟨t, hkt, htm, ht⟩ := hseen h x hx
    exact ⟨t, hkt, by omega, ht⟩
  | check q ticks q' =>
    obtain ⟨k, k', seen, hik, hkk', hk'm, hrest⟩ := hx
    exact ⟨k, k', seen, hik, hkk', by omega, hrest⟩

/-- A step of the reader `r'`. -/
theorem tracks_setReader {r' : ι} {x : Reader} (hr : Tracks states i m ((states m).reader r))
    (hs : states (m + 1) = (states m).setReader r' x) (hx : r = r' → Tracks states i (m + 1) x) :
    Tracks states i (m + 1) ((states (m + 1)).reader r) := by
  have hreader : (states (m + 1)).reader r = if r = r' then x else (states m).reader r := by
    rw [hs]
    exact Function.update_apply _ _ _ _
  rw [hreader]
  split
  · next heq => exact hx heq
  · exact hr.succ

theorem tracks_step {a : Action ι} (him : i < m) (hr : Tracks states i m ((states m).reader r))
    (hstep : (timer ι).step (states m) a (states (m + 1))) :
    Tracks states i (m + 1) ((states (m + 1)).reader r) := by
  cases a with
  | beginIncrement =>
    obtain ⟨-, hs⟩ := hstep
    rw [hs]
    exact hr.succ
  | load h =>
    obtain ⟨u, -, -, hs⟩ := hstep
    rw [hs]
    exact hr.succ
  | store h =>
    obtain ⟨u, x, -, -, -, hs⟩ := hstep
    rw [hs]
    exact hr.succ
  | endIncrement =>
    obtain ⟨u, -, -, hs⟩ := hstep
    rw [hs]
    exact hr.succ
  | call r' => exact tracks_setReader hr hstep.2 fun _ => trivial
  | loadSeq0 r' =>
    refine tracks_setReader hr hstep.2 fun _ => ⟨m, him, by omega, rfl, fun h x hx => ?_⟩
    cases hx
  | read r' h =>
    -- the half is read in the state `m`, the others were read before
    obtain ⟨q, seen, hread, -, hs⟩ := hstep
    refine tracks_setReader hr hs fun heq => ?_
    rw [heq, hread] at hr
    obtain ⟨k, hik, hkm, hq, hseen⟩ := hr
    refine ⟨k, hik, by omega, hq, fun h' x hx => ?_⟩
    rw [Function.update_apply] at hx
    split at hx
    · next heq' => exact ⟨m, hkm, by omega, by rw [← Option.some.inj hx, heq']⟩
    · obtain ⟨t, hkt, htm, ht⟩ := hseen h' x hx
      exact ⟨t, hkt, by omega, ht⟩
  | loadSeq1 r' =>
    -- `k'` is the state `m`: all halves were read up to it
    obtain ⟨q, seen, hread, hs⟩ := hstep
    refine tracks_setReader hr hs fun heq => ?_
    rw [heq, hread] at hr
    obtain ⟨k, hik, hkm, hq, hseen⟩ := hr
    exact ⟨k, m, seen, hik, hkm, by omega, hq, rfl, rfl, fun h => hseen h (seen h) rfl⟩
  | again r' =>
    obtain ⟨q, t, q', -, -, hs⟩ := hstep
    exact tracks_setReader hr hs fun _ => trivial
  | ret r' t =>
    obtain ⟨q, q', -, -, hs⟩ := hstep
    exact tracks_setReader hr hs fun _ => trivial

/-- From a call on. -/
theorem tracks_of_run (hrun : (timer ι).Run n states labels) (hcall : labels i = .call r)
    (him : i < m) (hm : m ≤ n) : Tracks states i m ((states m).reader r) := by
  induction m, Nat.succ_le_of_lt him using Nat.le_induction with
  | base =>
    have hstep := hrun.next i (by omega)
    rw [hcall] at hstep
    obtain ⟨-, hs⟩ := hstep
    have hstart : (states (i + 1)).reader r = .start := by
      rw [hs]
      exact Function.update_self _ _ _
    rw [hstart]
    trivial
  | succ m hle ih =>
    exact tracks_step (Nat.lt_of_succ_le hle) (ih hle (by omega)) (hrun.next m (by omega))

theorem and_one_eq_zero_iff {v : Nat} : BitVec.ofNat 32 v &&& 1 = 0 ↔ v % 2 = 0 := by
  have hone : (1 : BitVec 32).toNat = 1 := rfl
  have hzero : (0 : BitVec 32).toNat = 0 := rfl
  rw [← BitVec.toNat_inj, BitVec.toNat_and, BitVec.toNat_ofNat, hone, hzero, Nat.and_one_is_mod]
  omega

/-- What `Timer_GetTicks` returns is the number of complete increments at an instant between
    the call and the return, if fewer than 2^31 increments begin and are complete in between. -/
theorem getTicks_consistent (hrun : (timer ι).Run n states labels) {v : BitVec 64}
    (hij : i < j) (hj : j < n) (hcall : labels i = .call r) (hret : labels j = .ret r v)
    (hfew : (states j).completed < (states i).begun + 2 ^ 31) :
    ∃ k, i < k ∧ k ≤ j ∧ v = BitVec.ofNat 64 (states k).completed := by
  have hstep := hrun.next j hj
  rw [hret] at hstep
  obtain ⟨q, q', hcheck, hok, -⟩ := hstep
  have htracks := tracks_of_run hrun hcall hij (Nat.le_of_lt hj)
  rw [hcheck] at htracks
  obtain ⟨k, k', seen, hik, hkk', hk'j, hq, hq', rfl, hseen⟩ := htracks
  -- `k` is the instant of `tickseq0`, and `k'` that of `tickseq1`
  rw [Retries, not_or, not_not, not_not] at hok
  obtain ⟨hsame, heven⟩ := hok
  have hk := counts_of_run hrun (show k ≤ n by omega)
  have hk' := counts_of_run hrun (show k' ≤ n by omega)
  rw [hq, hk.seq, and_one_eq_zero_iff] at heven
  rw [hq, hq', hk.seq, hk'.seq] at hsame
  obtain ⟨-, hbegun, hticks⟩ := hk.resting_of_even heven
  -- the version cannot have come round
  have hle := (locked_of_run hrun).version_le hkk' (show k' ≤ n by omega)
  have hstart := count_le_of_run hrun (Nat.le_of_lt hik) (show k ≤ n by omega)
  have hend := count_le_of_run hrun hk'j (Nat.le_of_lt hj)
  have hversion : (states k').version = (states k).version := by
    -- at most 2^31 - 1 increments in between, and one that has begun
    have hbound := hk'.begun_le
    refine version_eq hle ?_ hsame.symm
    show (states k').begun + (states k').completed <
      (states k).begun + (states k).completed + 2 ^ 32
    omega
  have hsnap := (locked_of_run hrun).snapshot (show k' ≤ n by omega) hseen heven hversion
  refine ⟨k, hik, by omega, ?_⟩
  rw [hsnap, hticks, join_half]

end reader

/-! ### An increment during a call -/

section run

variable {ι : Type*} [DecidableEq ι]

/-- A step that is possible is carried out. -/
def State.apply (s : State ι) : Action ι → State ι
  | .beginIncrement => s.beginIncrement
  | .load h => s.writer.elim s fun u => s.load u h
  | .store h => s.writer.elim s fun u => (addOne u.loaded h).elim s fun x => s.store u h x
  | .endIncrement => s.endIncrement
  | .call r => s.setReader r .start
  | .loadSeq0 r => s.setReader r (.reading s.seqCounter fun _ => none)
  | .read r h =>
      match s.reader r with
      | .reading q seen =>
          s.setReader r (.reading q (Function.update seen h (some (s.ticks h))))
      | _ => s
  | .loadSeq1 r =>
      match s.reader r with
      | .reading q seen =>
          s.setReader r (.check q (join fun h => (seen h).getD 0) s.seqCounter)
      | _ => s
  | .again r => s.setReader r .start
  | .ret r _ => s.setReader r .idle

end run

/-- A reader calls `Timer_GetTicks` just before an increment. -/
def lateRead : List (Action Unit) :=
  [.call (), .beginIncrement, .load .low, .load .high, .store .low, .store .high, .endIncrement,
    .loadSeq0 (), .read () .low, .read () .high, .loadSeq1 (), .ret () 1]

/-- The states of a timer that starts at 0. -/
def statesOf (actions : List (Action Unit)) (i : Nat) : State Unit :=
  (actions.take i).foldl State.apply ⟨0, half 0, none, fun _ => .idle, 0, 0⟩

theorem run_lateRead :
    (timer Unit).Run 12 (statesOf lateRead) fun i => lateRead.getD i .beginIncrement where
  start := ⟨rfl, rfl, rfl, rfl, rfl, rfl⟩
  next := by
    intro i hi
    obtain rfl | rfl | rfl | rfl | rfl | rfl | rfl | rfl | rfl | rfl | rfl | rfl : i = 0 ∨ i = 1 ∨
      i = 2 ∨ i = 3 ∨ i = 4 ∨ i = 5 ∨ i = 6 ∨ i = 7 ∨ i = 8 ∨ i = 9 ∨ i = 10 ∨ i = 11 := by omega
    · exact ⟨rfl, rfl⟩
    · exact ⟨rfl, rfl⟩
    · exact ⟨_, rfl, rfl, rfl⟩
    · exact ⟨_, rfl, rfl, rfl⟩
    · exact ⟨_, _, rfl, rfl, rfl, rfl⟩
    · exact ⟨_, _, rfl, rfl, rfl, rfl⟩
    · refine ⟨_, rfl, fun h => ?_, rfl⟩
      cases h
      · rfl
      · rfl
    · exact ⟨rfl, rfl⟩
    · exact ⟨_, _, rfl, rfl, rfl⟩
    · exact ⟨_, _, rfl, rfl, rfl⟩
    · refine ⟨2, half 1, congrArg (Reader.reading 2) (funext fun h => ?_), rfl⟩
      cases h
      · rfl
      · rfl
    · refine ⟨2, 2, rfl, ?_, rfl⟩
      rw [Retries]
      decide

theorem getTicks_consistent_lateRead :
    ∃ k, 0 < k ∧ k ≤ 11 ∧ (1 : BitVec 64) = BitVec.ofNat 64 (statesOf lateRead k).completed :=
  getTicks_consistent run_lateRead (by decide) (by decide) rfl rfl (by decide)

end Avos.Timer
