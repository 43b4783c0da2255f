import Avos.Devices.Keyboard
import Avos.Devices.Terminal

/-! # Typing

  `Keyboard_HandleInterrupt` of `kernel/devices/keyboard/src/keyboard.c`: every interrupt of the
  keyboard prints what `Keyboard_GetChar` gives, and is ended with `LocalAPIC_EOI`.

  A key with a prefix takes two interrupts, and the first of them prints nothing. An interrupt that
  finds no byte prints `0xFF`.

  Next to the driver stands a typewriter, which knows the keys that are held and whether Caps Lock
  is on, and has a terminal for its paper. As long as the events of a run are such that the bits of
  `shift` show the keys (`State.Guard`), the screen shows the paper (`typing_shown`).
-/

open ByteMemory Transition

namespace Avos.Keyboard

/-! ## Section 1: The Code -/

/-- The keys and `shift`, the console, and the number of interrupts that have been ended. -/
structure Desk where
  keys : State
  console : Console
  eois : Nat

/-- `Keyboard_HandleInterrupt`, by what the two ports give: `shift`, the console, and the number of
    interrupts that have been ended. -/
def handleInterrupt (shift : BitVec 32) (console : Console) (eois : Nat)
    (call : BitVec 8 × BitVec 8) : Option (BitVec 32 × Console × Nat) :=
  let answer := getChar call.1 call.2 shift
  (console.printChar answer.1).map fun console => (answer.2, console, eois + 1)

/-- One interrupt after the other. -/
def handleInterrupts (shift : BitVec 32) (console : Console) (eois : Nat) :
    List (BitVec 8 × BitVec 8) → Option (BitVec 32 × Console × Nat)
  | [] => some (shift, console, eois)
  | call :: calls =>
      (handleInterrupt shift console eois call).bind fun r =>
        handleInterrupts r.1 r.2.1 r.2.2 calls

namespace Desk

/-- After an event whose codes these interrupts take. -/
def next (d : Desk) (l : KeyEvent × List (BitVec 8 × BitVec 8)) : Option Desk :=
  (handleInterrupts d.keys.shift d.console d.eois l.2).map fun r =>
    ⟨d.keys.after l.1 r.1, r.2.1, r.2.2⟩

/-- When `Console_Initialize` has returned, and no key is held. -/
def start (mem : Memory) (cursor : BitVec 16) : Desk where
  keys := ⟨fun _ => false, 0, 0, 0⟩
  console := (Console.atPowerOn mem cursor).consoleInitialize
  eois := 0

/-- The interrupts of an event take its codes. Others between them find no byte. -/
structure Fits (d : Desk) (l : KeyEvent × List (BitVec 8 × BitVec 8)) : Prop where
  allows : d.keys.Allows l.1
  codes : taken l.2 = l.1.scancodes

/-- The keyboard and the screen. -/
def system : System Desk (KeyEvent × List (BitVec 8 × BitVec 8)) where
  init d := ∃ mem cursor, d = start mem cursor
  step d l d' := d.Fits l ∧ d.next l = some d'

end Desk

/-! ## Section 2: The Typewriter -/

/-- A small letter for a capital, and a capital for a small letter. -/
def flipCase (c : BitVec 8) : BitVec 8 :=
  if char 'a' ≤ c ∧ c ≤ char 'z' then c + (char 'A' - char 'a')
  else if char 'A' ≤ c ∧ c ≤ char 'Z' then c + (char 'a' - char 'A')
  else c

/-- What is printed by interrupts that take one byte for each of these characters. -/
def fill : List (BitVec 8 × BitVec 8) → List (BitVec 8) → List (BitVec 8)
  | [], _ => []
  | call :: calls, cs =>
      if call.1 &&& 1 = 0 then 0xFF :: fill calls cs else cs.headD 0 :: fill calls cs.tail

/-- The keys that are held, whether Caps Lock is on, and the paper. -/
structure Typewriter where
  held : Key → Bool
  caps : Bool
  paper : Terminal

namespace Typewriter

/-- Nothing has been typed. -/
def start : Typewriter := ⟨fun _ => false, false, .start⟩

variable (w : Typewriter)

/-- A key of this kind is held. -/
def Holds (m : Modifier) : Prop := w.held m.left = true ∨ w.held m.right = true

instance (m : Modifier) : Decidable (w.Holds m) := inferInstanceAs (Decidable (_ ∨ _))

/-- The table for the keys that are held. Ctrl goes before Shift. -/
def table : BitVec 8 → BitVec 8 :=
  if w.Holds .ctl then ctlmap else if w.Holds .shift then shiftmap else normalmap

/-- The keys after an event. -/
def keysAfter (e : KeyEvent) : Typewriter where
  held := e.apply w.held
  caps := w.caps ^^ decide (e.IsPress w.held .capsLock)
  paper := w.paper

/-- The character of a key. -/
def charOf (k : Key) : BitVec 8 :=
  if w.caps then flipCase (w.table k.index) else w.table k.index

/-- The character for each code of an event: `0` for a prefix and for a release. -/
def chars : KeyEvent → List (BitVec 8)
  | .press k => k.escape.map (fun _ => 0) ++ [(w.keysAfter (.press k)).charOf k]
  | .release k => k.escape.map (fun _ => 0) ++ [0]

/-- An event. -/
def type (l : KeyEvent × List (BitVec 8 × BitVec 8)) : Typewriter :=
  { w.keysAfter l.1 with paper := w.paper.printAll (fill l.2 (w.chars l.1)) }

/-- The first `i` events. -/
def typeAll (labels : Nat → KeyEvent × List (BitVec 8 × BitVec 8)) (i : Nat) : Typewriter :=
  ((List.range i).map labels).foldl type start

end Typewriter

/-! ## Section 3: The Characters of an Event -/

/-- What `Keyboard_GetChar` gives for a key whose place in the tables is `data`, when it has
    updated `shift`. -/
def glyph (shift : BitVec 32) (data : BitVec 8) : BitVec 8 :=
  let c := charcode.getD (shift &&& (keyCtl ||| keyShift)).toNat (fun _ => 0) data
  if shift &&& keyCapsLock ≠ 0 then flipCase c else c

/-- What `Keyboard_GetChar` gives for each of these bytes. -/
def answers : List (BitVec 8) → BitVec 32 → List (BitVec 8)
  | [], _ => []
  | data :: codes, shift =>
      (getChar 1 data shift).1 :: answers codes (getChar 1 data shift).2

section chars

variable {shift : BitVec 32} {calls : List (BitVec 8 × BitVec 8)} {codes : List (BitVec 8)}
  {k : Key} {console : Console} {eois : Nat} {w : Typewriter}

/-- A call without a byte. -/
theorem getChar_empty {call : BitVec 8 × BitVec 8} (h : call.1 &&& 1 = 0) :
    getChar call.1 call.2 shift = (0xFF, shift) := if_pos h

/-- A call with a byte. -/
theorem getChar_full {call : BitVec 8 × BitVec 8} (h : ¬call.1 &&& 1 = 0) :
    getChar call.1 call.2 shift = getChar 1 call.2 shift := by
  rw [getChar, getChar, if_neg h]
  rfl

/-- Interrupts print the characters that `Keyboard_GetChar` gives for the bytes that they take, and
    every one of them is ended if the console prints at all. -/
theorem handleInterrupts_eq :
    handleInterrupts shift console eois calls =
      (console.printChars (fill calls (answers (taken calls) shift))).map fun console =>
        (getChars calls shift, console, eois + calls.length) := by
  induction calls generalizing shift console eois with
  | nil => rfl
  | cons call calls ih =>
    -- after the first interrupt the others are those of the tail
    have hrest : ∀ c shift', getChar call.1 call.2 shift = (c, shift') →
        handleInterrupts shift console eois (call :: calls) =
          (console.printChar c).bind fun console =>
            (console.printChars (fill calls (answers (taken calls) shift'))).map fun console =>
              (getChars calls shift', console, eois + (calls.length + 1)) := by
      intro c shift' hcall
      unfold handleInterrupts handleInterrupt
      rw [hcall]
      dsimp only
      rw [Option.bind_map]
      refine Option.bind_congr fun console' _ => ?_
      show handleInterrupts shift' console' (eois + 1) calls = _
      rw [ih, Nat.add_right_comm, ← Nat.add_assoc]
    have hgetChars : getChars (call :: calls) shift =
        getChars calls (getChar call.1 call.2 shift).2 := rfl
    by_cases hempty : call.1 &&& 1 = 0
    · have htaken : taken (call :: calls) = taken calls := by
        unfold taken
        rw [List.filter_cons_of_neg (by simpa using hempty)]
      have hcall : getChar call.1 call.2 shift = (0xFF, shift) := getChar_empty hempty
      rw [hrest _ _ hcall, hgetChars, hcall, htaken, fill, if_pos hempty, Console.printChars,
        Option.map_bind]
      rfl
    · have htaken : taken (call :: calls) = call.2 :: taken calls := by
        unfold taken
        rw [List.filter_cons_of_pos (by simpa using hempty), List.map_cons]
      have hcall : getChar call.1 call.2 shift = getChar 1 call.2 shift := getChar_full hempty
      rw [hrest _ _ hcall, hgetChars, hcall, htaken, answers, fill, if_neg hempty,
        List.headD_cons, List.tail_cons, Console.printChars, Option.map_bind]
      rfl

/-- What a press gives, by `shift` after it. -/
theorem answers_press (h : shift.getLsbD 6 = false) :
    answers (KeyEvent.press k).scancodes shift =
      k.escape.map (fun _ => 0) ++ [glyph ((KeyEvent.press k).next shift) k.index] := by
  obtain ⟨e, c, hc, hne⟩ := k
  obtain ⟨-, -, hlow⟩ := or_high c hc
  have hescape : c ≠ 0xE0 := by bv_omega
  cases e
  · show [(getChar 1 c shift).1] = _
    rw [getChar, if_neg (by decide), if_neg hescape, if_neg (not_not.mpr hlow),
      if_neg (not_not.mpr (and_escape_eq_zero.mpr h))]
    rfl
  · obtain ⟨hset, hclear⟩ := or_escape h
    show [0, (getChar 1 c (shift ||| keyE0Esc)).1] = _
    rw [getChar, if_neg (by decide), if_neg hescape, if_neg (not_not.mpr hlow), if_pos hset,
      hclear]
    rfl

/-- A release gives nothing to print. -/
theorem answers_release :
    answers (KeyEvent.release k).scancodes shift = k.escape.map (fun _ => 0) ++ [0] := by
  obtain ⟨e, c, hc, hne⟩ := k
  obtain ⟨hhigh, hlow, -⟩ := or_high c hc
  have hescape : c ||| 0x80 ≠ 0xE0 := by
    intro h
    rw [h] at hlow
    exact hne hlow.symm
  have hzero : ∀ shift, (getChar 1 (c ||| 0x80) shift).1 = 0 := by
    intro shift
    rw [getChar, if_neg (by decide), if_neg hescape, if_pos hhigh]
  cases e
  · show [(getChar 1 (c ||| 0x80) shift).1] = _
    rw [hzero]
    rfl
  · show [0, (getChar 1 (c ||| 0x80) (shift ||| keyE0Esc)).1] = _
    rw [hzero]
    rfl

/-- The two bits that choose the table. -/
theorem and_ctl_shift :
    shift &&& (keyCtl ||| keyShift) =
      (if shift.getLsbD 1 then 2 else 0) ||| (if shift.getLsbD 0 then 1 else 0) := by
  have hctl : shift &&& keyCtl = if shift.getLsbD 1 then 2 else 0 := BitVec.and_twoPow shift 1
  have hshift : shift &&& keyShift = if shift.getLsbD 0 then 1 else 0 := BitVec.and_twoPow shift 0
  rw [BitVec.and_or_distrib_left, hctl, hshift]

/-- Where the bits show the keys, the character is that of the typewriter. -/
theorem glyph_eq (hbits : ∀ m : Modifier, shift.getLsbD m.pos = true ↔ w.Holds m)
    (hcaps : shift.getLsbD 3 = w.caps) : glyph shift k.index = w.charOf k := by
  have hshift : shift.getLsbD 0 = decide (w.Holds .shift) := by
    rw [Bool.eq_iff_iff, decide_eq_true_iff]
    exact hbits .shift
  have hctl : shift.getLsbD 1 = decide (w.Holds .ctl) := by
    rw [Bool.eq_iff_iff, decide_eq_true_iff]
    exact hbits .ctl
  have htable : charcode.getD (shift &&& (keyCtl ||| keyShift)).toNat (fun _ => 0) = w.table := by
    unfold Typewriter.table
    rw [and_ctl_shift, hshift, hctl]
    by_cases hc : w.Holds .ctl
    · by_cases hs : w.Holds .shift
      · simp [hc, hs, charcode]
      · simp [hc, hs, charcode]
    · by_cases hs : w.Holds .shift
      · simp [hc, hs, charcode]
      · simp [hc, hs, charcode]
  have hlock : shift &&& keyCapsLock ≠ 0 ↔ w.caps = true := by
    rw [← hcaps]
    exact and_bit_ne_zero (by decide)
  unfold glyph Typewriter.charOf
  rw [htable]
  simp only [hlock]

end chars

/-! ## Section 4: Runs -/

/-- The desk is that of the typewriter: the bits of `shift` show its keys, and the screen its
    paper. -/
structure Matches (s₀ : Console) (d : Desk) (w : Typewriter) : Prop where
  held : d.keys.held = w.held
  caps : d.keys.shift.getLsbD 3 = w.caps
  inv : d.keys.Inv
  printing : Console.Printing s₀ d.console
  shows : Console.Shows d.console w.paper

section runs

variable {s₀ : Console} {d d' : Desk} {w : Typewriter} {n : Nat} {states : Nat → Desk}
  {l : KeyEvent × List (BitVec 8 × BitVec 8)}
  {labels : Nat → KeyEvent × List (BitVec 8 × BitVec 8)}

/-- Caps Lock after an event. -/
theorem caps_next {e : KeyEvent} (h : Matches s₀ d w) (hguard : d.keys.Guard e) :
    (e.next d.keys.shift).getLsbD 3 = (w.keysAfter e).caps := by
  cases e with
  | press k =>
    show ((d.keys.shift ||| shiftcode k.index) ^^^ togglecode k.index).getLsbD 3 =
      (w.caps ^^ decide (k = Key.capsLock ∧ w.held .capsLock = false))
    rw [BitVec.getLsbD_xor, BitVec.getLsbD_or, shiftcode_capsLock, Bool.or_false, h.caps]
    congr 1
    rw [Bool.eq_iff_iff, togglecode_index, decide_eq_true_iff, ← h.held]
    exact ⟨fun hk => ⟨hk, hk ▸ hguard hk⟩, fun hk => hk.1⟩
  | release k =>
    show (d.keys.shift &&& ~~~(shiftcode k.index ||| keyE0Esc)).getLsbD 3 =
      (w.caps ^^ decide False)
    rw [release_capsLock, h.caps, decide_false, Bool.xor_false]

/-- The bits of Shift and Ctrl after an event. -/
theorem bits_next {e : KeyEvent} (h : Matches s₀ d w) (hguard : d.keys.Guard e) (m : Modifier) :
    (e.next d.keys.shift).getLsbD m.pos = true ↔ (w.keysAfter e).Holds m := by
  have hbits := (State.inv_next h.inv hguard).modifiers m
  rw [State.bit_iff] at hbits
  unfold Typewriter.Holds
  show _ ↔ e.apply w.held m.left = true ∨ e.apply w.held m.right = true
  rw [← h.held]
  exact hbits

/-- `Keyboard_GetChar` gives the characters of the typewriter. -/
theorem answers_eq {e : KeyEvent} (h : Matches s₀ d w) (hguard : d.keys.Guard e) :
    answers e.scancodes d.keys.shift = w.chars e := by
  cases e with
  | press k =>
    rw [answers_press h.inv.escape, glyph_eq (bits_next h hguard) (caps_next h hguard)]
    rfl
  | release k => exact answers_release

/-- Whatever happens, the interrupts return. -/
theorem exists_next (h : Console.Printing s₀ d.console) :
    ∃ d', d.next l = some d' ∧ Console.Printing s₀ d'.console := by
  obtain ⟨console, hconsole, hprinting⟩ :=
    h.printChars (fill l.2 (answers (taken l.2) d.keys.shift))
  refine ⟨⟨d.keys.after l.1 (getChars l.2 d.keys.shift), console, d.eois + l.2.length⟩, ?_,
    hprinting⟩
  unfold Desk.next
  rw [handleInterrupts_eq, hconsole]
  rfl

/-- An event that meets the guard: the interrupts return, and the typewriter types the same. -/
theorem matches_next (h : Matches s₀ d w) (hguard : d.keys.Guard l.1) (hfits : d.Fits l) :
    ∃ d', d.next l = some d' ∧ Matches s₀ d' (w.type l) ∧ d'.eois = d.eois + l.2.length := by
  have hchars : fill l.2 (answers (taken l.2) d.keys.shift) = fill l.2 (w.chars l.1) := by
    rw [hfits.codes, answers_eq h hguard]
  have hshift : getChars l.2 d.keys.shift = l.1.next d.keys.shift :=
    State.getChars_scancodes h.inv.escape l.1 hfits.codes
  obtain ⟨console, hconsole, hprinting⟩ := h.printing.printChars (fill l.2 (w.chars l.1))
  obtain ⟨console', hconsole', hshows⟩ := h.shows.printChars h.printing (fill l.2 (w.chars l.1))
  obtain rfl := Option.some.inj (hconsole.symm.trans hconsole')
  refine ⟨⟨d.keys.after l.1 (l.1.next d.keys.shift), console, d.eois + l.2.length⟩, ?_, ?_, rfl⟩
  · unfold Desk.next
    rw [handleInterrupts_eq, hchars, hconsole, hshift]
    rfl
  · refine ⟨?_, caps_next h hguard, State.inv_next h.inv hguard, hprinting, hshows⟩
    show l.1.apply d.keys.held = l.1.apply w.held
    rw [h.held]

theorem matches_start (mem : Memory) (cursor : BitVec 16) :
    Matches (Console.atPowerOn mem cursor).consoleInitialize (Desk.start mem cursor) .start where
  held := rfl
  caps := by
    show (0 : BitVec 32).getLsbD 3 = false
    decide
  inv := State.inv_init
  printing := Console.printing_consoleInitialize _ rfl rfl
  shows := Console.shows_consoleInitialize _ rfl

/-- The events of a run. -/
theorem matches_run (h : Desk.system.Run n states labels)
    (hguard : ∀ i, i < n → (states i).keys.Guard (labels i).1) :
    ∃ s₀, ∀ i, i ≤ n → Matches s₀ (states i) (Typewriter.typeAll labels i) ∧
      (states i).eois = (((List.range i).map labels).map fun l => l.2.length).sum := by
  obtain ⟨mem, cursor, hstart⟩ := h.start
  refine ⟨(Console.atPowerOn mem cursor).consoleInitialize, ?_⟩
  intro i
  induction i with
  | zero =>
    intro _
    rw [hstart]
    exact ⟨matches_start mem cursor, rfl⟩
  | succ i ih =>
    intro hi
    obtain ⟨hmatches, heois⟩ := ih (by omega)
    obtain ⟨hfits, hnext⟩ := h.next i hi
    obtain ⟨d', hd', hmatches', heois'⟩ := matches_next hmatches (hguard i hi) hfits
    obtain rfl := Option.some.inj (hnext.symm.trans hd')
    unfold Typewriter.typeAll
    rw [List.range_succ, List.map_append, List.foldl_append, List.map_append, List.sum_append,
      heois', heois]
    exact ⟨hmatches', rfl⟩

/-- Whatever is typed, as long as no key of Shift or Ctrl is released while the other one is held
    and Caps Lock does not send its code again: the screen shows what the typewriter has on its
    paper, every interrupt has been ended, and the interrupts of the next event return as well. -/
theorem typing_shown (h : Desk.system.Run n states labels)
    (hguard : ∀ i, i < n → (states i).keys.Guard (labels i).1) :
    Console.Shows (states n).console (Typewriter.typeAll labels n).paper ∧
      (states n).keys.held = (Typewriter.typeAll labels n).held ∧
      (states n).eois = (((List.range n).map labels).map fun l => l.2.length).sum ∧
      ∀ l, (states n).Fits l → ∃ d', Desk.system.step (states n) l d' := by
  obtain ⟨s₀, hrun⟩ := matches_run h hguard
  obtain ⟨hmatches, heois⟩ := hrun n (Nat.le_refl n)
  refine ⟨hmatches.shows, hmatches.held, heois, ?_⟩
  intro l hfits
  obtain ⟨d', hd', -⟩ := exists_next hmatches.printing
  exact ⟨d', hfits, hd'⟩

/-- The states while events happen one after the other. -/
def Desk.statesOf (labels : Nat → KeyEvent × List (BitVec 8 × BitVec 8)) : Nat → Desk
  | 0 => start (fun _ => 0) 0
  | i + 1 => ((statesOf labels i).next (labels i)).getD (statesOf labels i)

/-- They are a run, if every event fits. -/
theorem run_statesOf (hfits : ∀ i, i < n → (Desk.statesOf labels i).Fits (labels i)) :
    Desk.system.Run n (Desk.statesOf labels) labels := by
  have hprinting : ∀ i, Console.Printing (Console.atPowerOn (fun _ => 0) 0).consoleInitialize
      (Desk.statesOf labels i).console := by
    intro i
    induction i with
    | zero => exact Console.printing_consoleInitialize _ rfl rfl
    | succ i ih =>
      obtain ⟨d', hd', hprinting'⟩ := exists_next ih
      show Console.Printing _ (((Desk.statesOf labels i).next (labels i)).getD _).console
      rw [hd']
      exact hprinting'
  refine ⟨⟨_, _, rfl⟩, fun i hi => ⟨hfits i hi, ?_⟩⟩
  obtain ⟨d', hd', -⟩ := exists_next (hprinting i)
  show _ = some (((Desk.statesOf labels i).next (labels i)).getD _)
  rw [hd']
  rfl

/-- Left Shift and the letter `a` are pressed, with an interrupt before the second code that finds
    no byte. -/
def capitalA : List (KeyEvent × List (BitVec 8 × BitVec 8)) :=
  [(.press .leftShift, [(1, 0x2A)]),
    (.press ⟨false, 0x1E, by decide, by decide⟩, [(0, 0), (1, 0x1E)])]

/-- The screen shows what the typewriter has typed, with a capital in the second place. -/
theorem typing_shown_capitalA :
    Console.Shows (Desk.statesOf (fun i => capitalA.getD i (.press .capsLock, [])) 2).console
        (Typewriter.typeAll (fun i => capitalA.getD i (.press .capsLock, [])) 2).paper ∧
      (Typewriter.typeAll (fun i => capitalA.getD i (.press .capsLock, [])) 2).paper.char 0 1 =
        char 'A' := by
  have hrun : Desk.system.Run 2 (Desk.statesOf fun i => capitalA.getD i (.press .capsLock, []))
      (fun i => capitalA.getD i (.press .capsLock, [])) := by
    apply run_statesOf
    intro i hi
    obtain rfl | rfl : i = 0 ∨ i = 1 := by omega
    · exact ⟨trivial, by decide⟩
    · exact ⟨trivial, by decide⟩
  refine ⟨(typing_shown hrun ?_).1, by decide⟩
  intro i hi
  obtain rfl | rfl : i = 0 ∨ i = 1 := by omega
  · intro hk
    exact absurd hk (by decide)
  · intro hk
    exact absurd hk (by decide)

end runs

end Avos.Keyboard
