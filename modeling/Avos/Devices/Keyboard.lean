import Avos.Library.Transition
import Mathlib.Data.BitVec
import Mathlib.Algebra.Group.Nat.Defs
import Mathlib.Algebra.GroupWithZero.Nat
import Mathlib.Algebra.Ring.Int.Defs

/-! # The Keyboard

  `Keyboard_GetChar` of `kernel/devices/keyboard/src/keyboard.c`, and the keys that the bits of
  its variable `shift` stand for.

  A key has a scancode of seven bits, with or without the prefix `0xE0`. A press sends it, and
  sends it again while the key is held; a release sends it with the highest bit. No key has the
  code `0x60`, since its release would be the prefix.

  There is one bit for the two Shift keys and one for the two Ctrl keys, and the code does not
  know which keys are held. So a release clears the bit even while the other key of its kind
  is held, and Caps Lock changes its bit each time that its code is sent. Nothing else goes
  wrong (`showsKeys_iff`).
-/

open Transition

namespace Avos.Keyboard

/-! ## Section 1: The Tables -/

def keyShift : BitVec 32 := 1 <<< 0
def keyCtl : BitVec 32 := 1 <<< 1
def keyAlt : BitVec 32 := 1 <<< 2
def keyCapsLock : BitVec 32 := 1 <<< 3
def keyNumLock : BitVec 32 := 1 <<< 4
def keyScrollLock : BitVec 32 := 1 <<< 5
def keyE0Esc : BitVec 32 := 1 <<< 6

/-- `Keyboard_shiftcode`. -/
def shiftcode (data : BitVec 8) : BitVec 32 :=
  if data = 0x1D then keyCtl
  else if data = 0x2A then keyShift
  else if data = 0x36 then keyShift
  else if data = 0x38 then keyAlt
  else if data = 0x9D then keyCtl
  else if data = 0xB8 then keyAlt
  else 0

/-- `Keyboard_togglecode`. -/
def togglecode (data : BitVec 8) : BitVec 32 :=
  if data = 0x3A then keyCapsLock
  else if data = 0x45 then keyNumLock
  else if data = 0x46 then keyScrollLock
  else 0

/-- A character of a table. -/
def char (c : Char) : BitVec 8 := BitVec.ofNat 8 c.toNat

/-- The keys with a prefix; the characters of two of them depend on the table. -/
def extendedMap (enter div : BitVec 8) (data : BitVec 8) : BitVec 8 :=
  if data = 0x9C then enter
  else if data = 0xB5 then div
  else if data = 0xC8 then 0xE2
  else if data = 0xD0 then 0xE3
  else if data = 0xC9 then 0xE6
  else if data = 0xD1 then 0xE7
  else if data = 0xCB then 0xE4
  else if data = 0xCD then 0xE5
  else if data = 0x97 then 0xE0
  else if data = 0xCF then 0xE1
  else if data = 0xD2 then 0xE8
  else if data = 0xD3 then 0xE9
  else 0

/-- The rows `0x30` to `0x50` from the place of the keypad's `*` on. -/
def keypadRows : List (BitVec 8) :=
  [char '*', 0, char ' ', 0, 0, 0, 0, 0, 0, 0, 0, 0, 0, 0, 0, 0, char '7',
    char '8', char '9', char '-', char '4', char '5', char '6', char '+', char '1',
    char '2', char '3', char '0', char '.', 0, 0, 0, 0]

/-- `Keyboard_normalmap`. -/
def normalmap (data : BitVec 8) : BitVec 8 :=
  let rows := [0, 0x1B] ++ ['1', '2', '3', '4', '5', '6', '7', '8', '9', '0', '-', '='].map char ++
    [0x08, 0x09] ++ ['q', 'w', 'e', 'r', 't', 'y', 'u', 'i', 'o', 'p', '[', ']'].map char ++
    [0x0A, 0] ++ ['a', 's', 'd', 'f', 'g', 'h', 'j', 'k', 'l', ';'].map char ++
    [0x27, 0x60, 0, 0x5C] ++ ['z', 'x', 'c', 'v', 'b', 'n', 'm', ',', '.', '/'].map char ++
    [0] ++ keypadRows
  if data.toNat < rows.length then rows.getD data.toNat 0 else extendedMap 0x0A (char '/') data

/-- `Keyboard_shiftmap`. -/
def shiftmap (data : BitVec 8) : BitVec 8 :=
  let rows := [0, 0x1B] ++ ['!', '@', '#', '$', '%', '^', '&', '*', '(', ')', '_', '+'].map char ++
    [0x08, 0x09] ++ ['Q', 'W', 'E', 'R', 'T', 'Y', 'U', 'I', 'O', 'P'].map char ++
    [0x7B, 0x7D, 0x0A, 0] ++ ['A', 'S', 'D', 'F', 'G', 'H', 'J', 'K', 'L', ':'].map char ++
    [0x22, 0x7E, 0, 0x7C] ++ ['Z', 'X', 'C', 'V', 'B', 'N', 'M', '<', '>', '?'].map char ++
    [0] ++ keypadRows
  if data.toNat < rows.length then rows.getD data.toNat 0 else extendedMap 0x0A (char '/') data

/-- `C(x)`. -/
def ctl (x : BitVec 8) : BitVec 8 := x - char '@'

/-- `Keyboard_ctlmap`. -/
def ctlmap (data : BitVec 8) : BitVec 8 :=
  let rows := List.replicate 16 0 ++
    (['Q', 'W', 'E', 'R', 'T', 'Y', 'U', 'I', 'O', 'P'].map char).map ctl ++ [0, 0, 0x0D, 0] ++
    (['A', 'S', 'D', 'F', 'G', 'H', 'J', 'K', 'L'].map char).map ctl ++
    [0, 0, 0, 0, ctl 0x5C] ++ (['Z', 'X', 'C', 'V', 'B', 'N', 'M'].map char).map ctl ++
    [0, 0, ctl (char '/'), 0, 0]
  if data.toNat < rows.length then rows.getD data.toNat 0
  else extendedMap 0x0D (ctl (char '/')) data

/-- `charcode`. -/
def charcode : List (BitVec 8 → BitVec 8) := [normalmap, shiftmap, ctlmap, ctlmap]

example : [0x1E, 0x2B, 0x39, 0x53].map normalmap = [char 'a', 0x5C, char ' ', char '.'] := by
  decide

example : [0x1E, 0x2B, 0x35, 0x9C].map ctlmap = [0x01, 0x1C, 0xEF, 0x0D] := by decide

/-! ## Section 2: `Keyboard_GetChar` -/

/-- `Keyboard_GetChar`, by what the two ports give: the character, and `shift`. The data port
    is read only if the status port says that there is a byte. -/
def getChar (status data : BitVec 8) (shift : BitVec 32) : BitVec 8 × BitVec 32 :=
  if status &&& 1 = 0 then (0xFF, shift)
  else if data = 0xE0 then (0, shift ||| keyE0Esc)
  else if data &&& 0x80 ≠ 0 then
    -- a key is released
    let data := if shift &&& keyE0Esc ≠ 0 then data else data &&& 0x7F
    (0, shift &&& ~~~(shiftcode data ||| keyE0Esc))
  else
    -- behind the prefix the code gets its highest bit
    let (data, shift) :=
      if shift &&& keyE0Esc ≠ 0 then (data ||| 0x80, shift &&& ~~~keyE0Esc) else (data, shift)
    let shift := shift ||| shiftcode data
    let shift := shift ^^^ togglecode data
    let c := charcode.getD (shift &&& (keyCtl ||| keyShift)).toNat (fun _ => 0) data
    let c :=
      if shift &&& keyCapsLock ≠ 0 then
        if char 'a' ≤ c ∧ c ≤ char 'z' then c + (char 'A' - char 'a')
        else if char 'A' ≤ c ∧ c ≤ char 'Z' then c + (char 'a' - char 'A')
        else c
      else c
    (c, shift)

/-- `shift` after calls that find these values at the ports. -/
def getChars (calls : List (BitVec 8 × BitVec 8)) (shift : BitVec 32) : BitVec 32 :=
  calls.foldl (fun shift call => (getChar call.1 call.2 shift).2) shift

/-- The bytes that calls take from the data port. -/
def taken (calls : List (BitVec 8 × BitVec 8)) : List (BitVec 8) :=
  (calls.filter fun call => call.1 &&& 1 ≠ 0).map Prod.snd

/-- Calls without a byte change nothing. -/
theorem getChars_eq (calls : List (BitVec 8 × BitVec 8)) (shift : BitVec 32) :
    getChars calls shift =
      (taken calls).foldl (fun shift data => (getChar 1 data shift).2) shift := by
  induction calls generalizing shift with
  | nil => rfl
  | cons call calls ih =>
    show getChars calls (getChar call.1 call.2 shift).2 = _
    rw [ih, taken, taken]
    by_cases hempty : call.1 &&& 1 = 0
    · rw [getChar, if_pos hempty, List.filter_cons_of_neg (by simpa using hempty)]
    · have hcall : getChar call.1 call.2 shift = getChar 1 call.2 shift := by
        rw [getChar, getChar, if_neg hempty]
        rfl
      rw [hcall, List.filter_cons_of_pos (by simpa using hempty)]
      rfl

/-! ## Section 3: Keys -/

/-- A key of the keyboard, by its scancode. -/
structure Key where
  extended : Bool
  code : BitVec 8
  code_lt : code < 0x80
  code_ne : code ≠ 0x60
  deriving DecidableEq

namespace Key

def leftShift : Key := ⟨false, 0x2A, by decide, by decide⟩
def rightShift : Key := ⟨false, 0x36, by decide, by decide⟩
def leftCtl : Key := ⟨false, 0x1D, by decide, by decide⟩
def rightCtl : Key := ⟨true, 0x1D, by decide, by decide⟩
def capsLock : Key := ⟨false, 0x3A, by decide, by decide⟩

/-- The prefix of a key. -/
def escape (k : Key) : List (BitVec 8) := if k.extended then [0xE0] else []

/-- The place of a key in the tables. -/
def index (k : Key) : BitVec 8 := if k.extended then k.code ||| 0x80 else k.code

end Key

/-- A key is pressed, or sends its code again; or it is released. -/
inductive KeyEvent where
  | press (k : Key)
  | release (k : Key)

namespace KeyEvent

/-- The bytes that the keyboard sends. -/
def scancodes : KeyEvent → List (BitVec 8)
  | press k => k.escape ++ [k.code]
  | release k => k.escape ++ [k.code ||| 0x80]

end KeyEvent

/-- What an event makes of `shift` when no prefix is left in it. -/
def KeyEvent.next (shift : BitVec 32) : KeyEvent → BitVec 32
  | press k => (shift ||| shiftcode k.index) ^^^ togglecode k.index
  | release k => shift &&& ~~~(shiftcode k.index ||| keyE0Esc)

/-- A kind of keys of which there are two. -/
inductive Modifier where
  | shift
  | ctl

namespace Modifier

def left : Modifier → Key
  | shift => .leftShift
  | ctl => .leftCtl

def right : Modifier → Key
  | shift => .rightShift
  | ctl => .rightCtl

/-- The place of its bit. -/
def pos : Modifier → Nat
  | shift => 0
  | ctl => 1

/-- `KEY_SHIFT` or `KEY_CTL`. -/
def bit (m : Modifier) : BitVec 32 := (1 : BitVec 32) <<< m.pos

end Modifier

section codes

variable {k : Key} {m : Modifier} {shift : BitVec 32} {i : Nat}

/-- The highest bit of a byte below `0x80`. -/
theorem or_high : ∀ c : BitVec 8, c < 0x80 →
    (c ||| 0x80) &&& 0x80 ≠ 0 ∧ (c ||| 0x80) &&& 0x7F = c ∧ c &&& 0x80 = 0 := by
  decide

theorem Key.index_inj {k k' : Key} (h : k.index = k'.index) : k = k' := by
  obtain ⟨e, c, hc, hne⟩ := k
  obtain ⟨e', c', hc', hne'⟩ := k'
  obtain ⟨hhigh, hlow, hzero⟩ := or_high c hc
  obtain ⟨hhigh', hlow', hzero'⟩ := or_high c' hc'
  cases e
  · cases e'
    · obtain rfl : c = c' := h
      rfl
    · have heq : c = c' ||| 0x80 := h
      rw [heq] at hzero
      exact absurd hzero hhigh'
  · cases e'
    · have heq : c ||| 0x80 = c' := h
      rw [← heq] at hzero'
      exact absurd hzero' hhigh
    · have heq : c ||| 0x80 = c' ||| 0x80 := h
      rw [heq, hlow'] at hlow
      obtain rfl := hlow
      rfl

/-- A bit that is set. -/
theorem and_bit_ne_zero (hi : i < 32) :
    shift &&& (1 : BitVec 32) <<< i ≠ 0 ↔ shift.getLsbD i = true := by
  have hbit : shift &&& (1 : BitVec 32) <<< i =
      if shift.getLsbD i then BitVec.twoPow 32 i else 0 :=
    (congrArg (shift &&& ·) (BitVec.twoPow_eq 32 i).symm).trans (BitVec.and_twoPow shift i)
  have hne : BitVec.twoPow 32 i ≠ 0 := by
    intro h
    have hzero := congrArg (fun x => x.getLsbD i) h
    rw [BitVec.getLsbD_twoPow] at hzero
    simp [hi] at hzero
  rw [hbit]
  split
  · next h => exact iff_of_true hne h
  · next h => exact iff_of_false (not_not.mpr rfl) h

theorem shiftcode_index : (shiftcode k.index).getLsbD m.pos = true ↔ k = m.left ∨ k = m.right := by
  have hcodes : ∀ d : BitVec 8, (shiftcode d).getLsbD m.pos = true ↔
      d = m.left.index ∨ d = m.right.index := by
    cases m
    · decide
    · decide
  rw [hcodes]
  constructor
  · rintro (h | h)
    · exact .inl (Key.index_inj h)
    · exact .inr (Key.index_inj h)
  · rintro (rfl | rfl)
    · exact .inl rfl
    · exact .inr rfl

theorem togglecode_index : (togglecode k.index).getLsbD 3 = true ↔ k = .capsLock := by
  have hcodes : ∀ d : BitVec 8, (togglecode d).getLsbD 3 = true ↔ d = Key.capsLock.index := by
    decide
  rw [hcodes]
  constructor
  · exact Key.index_inj
  · rintro rfl
    rfl

/-- A bit has one table at most. -/
theorem togglecode_modifier : ∀ d : BitVec 8, (togglecode d).getLsbD m.pos = false := by
  cases m
  · decide
  · decide

theorem shiftcode_capsLock : ∀ d : BitVec 8, (shiftcode d).getLsbD 3 = false := by decide

theorem codes_escape : ∀ d : BitVec 8,
    (shiftcode d).getLsbD 6 = false ∧ (togglecode d).getLsbD 6 = false := by decide

/-! ### What an event does to `shift` -/

theorem and_escape_eq_zero : shift &&& keyE0Esc = 0 ↔ shift.getLsbD 6 = false := by
  rw [← not_iff_not, Bool.not_eq_false]
  exact and_bit_ne_zero (by decide)

theorem or_escape (h : shift.getLsbD 6 = false) :
    (shift ||| keyE0Esc) &&& keyE0Esc ≠ 0 ∧ (shift ||| keyE0Esc) &&& ~~~keyE0Esc = shift := by
  have hbit : ∀ i, keyE0Esc.getLsbD i = decide (i = 6) := by
    intro i
    show (BitVec.twoPow 32 6).getLsbD i = _
    rw [BitVec.getLsbD_twoPow]
    simp [eq_comm]
  constructor
  · rw [Ne, and_escape_eq_zero, BitVec.getLsbD_or, hbit]
    simp
  · refine BitVec.eq_of_getLsbD_eq fun i hi => ?_
    rw [BitVec.getLsbD_and, BitVec.getLsbD_or, BitVec.getLsbD_not, hbit]
    by_cases h6 : i = 6
    · rw [h6, h]
      simp
    · simp [h6, hi]

/-- The codes of a press set the bits of the key, and change those that it toggles. -/
theorem foldl_press (h : shift.getLsbD 6 = false) :
    (KeyEvent.press k).scancodes.foldl (fun shift data => (getChar 1 data shift).2) shift =
      (shift ||| shiftcode k.index) ^^^ togglecode k.index := by
  obtain ⟨e, c, hc, hne⟩ := k
  obtain ⟨-, -, hlow⟩ := or_high c hc
  have hescape : c ≠ 0xE0 := by bv_omega
  -- with a prefix there are two calls, and the first sets `KEY_E0ESC`
  cases e
  · show (getChar 1 c shift).2 = _
    rw [getChar, if_neg (by decide), if_neg hescape, if_neg (not_not.mpr hlow),
      if_neg (not_not.mpr (and_escape_eq_zero.mpr h))]
    rfl
  · obtain ⟨hset, hclear⟩ := or_escape h
    show (getChar 1 c (shift ||| keyE0Esc)).2 = _
    rw [getChar, if_neg (by decide), if_neg hescape, if_neg (not_not.mpr hlow), if_pos hset,
      hclear]
    rfl

/-- The codes of a release clear the bits of the key. -/
theorem foldl_release (h : shift.getLsbD 6 = false) :
    (KeyEvent.release k).scancodes.foldl (fun shift data => (getChar 1 data shift).2) shift =
      shift &&& ~~~(shiftcode k.index ||| keyE0Esc) := by
  obtain ⟨e, c, hc, hne⟩ := k
  obtain ⟨hhigh, hlow, -⟩ := or_high c hc
  have hescape : c ||| 0x80 ≠ 0xE0 := by
    intro h
    rw [h] at hlow
    exact hne hlow.symm
  cases e
  · show (getChar 1 (c ||| 0x80) shift).2 = _
    rw [getChar, if_neg (by decide), if_neg hescape, if_pos hhigh,
      if_neg (not_not.mpr (and_escape_eq_zero.mpr h)), hlow]
    rfl
  · obtain ⟨hset, hclear⟩ := or_escape h
    show (getChar 1 (c ||| 0x80) (shift ||| keyE0Esc)).2 = _
    rw [getChar, if_neg (by decide), if_neg hescape, if_pos hhigh, if_pos hset]
    show (shift ||| keyE0Esc) &&& ~~~(shiftcode (c ||| 0x80) ||| keyE0Esc) =
      shift &&& ~~~(shiftcode (c ||| 0x80) ||| keyE0Esc)
    have hnot : ~~~(shiftcode (c ||| 0x80) ||| keyE0Esc) =
        ~~~keyE0Esc &&& ~~~(shiftcode (c ||| 0x80) ||| keyE0Esc) := by
      rw [BitVec.not_or, ← BitVec.and_assoc, BitVec.and_comm (~~~keyE0Esc), BitVec.and_assoc,
        BitVec.and_self]
    rw [show (shift ||| keyE0Esc) &&& ~~~(shiftcode (c ||| 0x80) ||| keyE0Esc) = _ from
      congrArg _ hnot, ← BitVec.and_assoc, hclear]

/-! ### The bits after an event -/

theorem press_modifier :
    ((shift ||| shiftcode k.index) ^^^ togglecode k.index).getLsbD m.pos = true ↔
      shift.getLsbD m.pos = true ∨ k = m.left ∨ k = m.right := by
  rw [BitVec.getLsbD_xor, BitVec.getLsbD_or, togglecode_modifier, Bool.xor_false, Bool.or_eq_true,
    shiftcode_index]

theorem press_capsLock :
    ((shift ||| shiftcode k.index) ^^^ togglecode k.index).getLsbD 3 = shift.getLsbD 3 ↔
      k ≠ .capsLock := by
  rw [BitVec.getLsbD_xor, BitVec.getLsbD_or, shiftcode_capsLock, Bool.or_false, Ne,
    ← togglecode_index]
  cases shift.getLsbD 3
  · simp
  · simp

theorem press_escape :
    ((shift ||| shiftcode k.index) ^^^ togglecode k.index).getLsbD 6 = shift.getLsbD 6 := by
  rw [BitVec.getLsbD_xor, BitVec.getLsbD_or, (codes_escape _).1, (codes_escape _).2,
    Bool.or_false, Bool.xor_false]

theorem escape_pos (hi : i ≠ 6) : keyE0Esc.getLsbD i = false := by
  show (BitVec.twoPow 32 6).getLsbD i = false
  rw [BitVec.getLsbD_twoPow]
  simp [Ne.symm hi]

theorem release_modifier :
    (shift &&& ~~~(shiftcode k.index ||| keyE0Esc)).getLsbD m.pos = true ↔
      shift.getLsbD m.pos = true ∧ ¬(k = m.left ∨ k = m.right) := by
  have hpos : m.pos ≠ 6 ∧ m.pos < 32 := by
    cases m
    · decide
    · decide
  rw [← shiftcode_index, BitVec.getLsbD_and, BitVec.getLsbD_not, BitVec.getLsbD_or,
    escape_pos hpos.1, Bool.or_false, decide_eq_true hpos.2, Bool.true_and, Bool.and_eq_true,
    Bool.not_eq_true', Bool.not_eq_true]

theorem release_capsLock :
    (shift &&& ~~~(shiftcode k.index ||| keyE0Esc)).getLsbD 3 = shift.getLsbD 3 := by
  rw [BitVec.getLsbD_and, BitVec.getLsbD_not, BitVec.getLsbD_or, escape_pos (by decide),
    shiftcode_capsLock]
  exact Bool.and_true _

theorem release_escape : (shift &&& ~~~(shiftcode k.index ||| keyE0Esc)).getLsbD 6 = false := by
  have hbit : keyE0Esc.getLsbD 6 = true := by decide
  simp [hbit]

/-- Whether the bit of Caps Lock has changed. -/
theorem and_capsLock_eq {shift' : BitVec 32} :
    shift &&& keyCapsLock = shift' &&& keyCapsLock ↔ shift.getLsbD 3 = shift'.getLsbD 3 := by
  have hbit : ∀ x : BitVec 32, x &&& keyCapsLock = if x.getLsbD 3 then keyCapsLock else 0 :=
    fun x => BitVec.and_twoPow x 3
  have hne : keyCapsLock ≠ 0#32 := by decide
  rw [hbit, hbit]
  cases shift.getLsbD 3
  · cases shift'.getLsbD 3
    · simp
    · simp [hne.symm]
  · cases shift'.getLsbD 3
    · simp [hne]
    · simp

end codes

/-! ## Section 4: Runs -/

/-- The keys that are held and `shift`; how often Caps Lock has been pressed, and how often its
    bit has changed. -/
structure State where
  held : Key → Bool
  shift : BitVec 32
  presses : Nat
  changes : Nat

/-- The keys after an event: a key that is pressed is held. -/
def KeyEvent.apply (held : Key → Bool) : KeyEvent → Key → Bool
  | press k => Function.update held k true
  | release k => Function.update held k false

/-- The event goes on with a key that was not held. -/
def KeyEvent.IsPress (held : Key → Bool) (k : Key) : KeyEvent → Prop
  | press k' => k' = k ∧ held k = false
  | release _ => False

instance (held : Key → Bool) (k : Key) (e : KeyEvent) : Decidable (e.IsPress held k) := by
  cases e
  · exact inferInstanceAs (Decidable (_ ∧ _))
  · exact inferInstanceAs (Decidable False)

namespace State

/-- After an event that leaves this value in `shift`. -/
def after (s : State) (e : KeyEvent) (shift : BitVec 32) : State where
  held := e.apply s.held
  shift := shift
  presses := s.presses + if e.IsPress s.held .capsLock then 1 else 0
  changes := s.changes + if s.shift &&& keyCapsLock = shift &&& keyCapsLock then 0 else 1

/-- A key is released only while it is held. -/
def Allows (s : State) : KeyEvent → Prop
  | .press _ => True
  | .release k => s.held k = true

/-- The keyboard sends the codes of an event, and calls of `Keyboard_GetChar` take them. Other
    calls between them find no byte. -/
def system : System State (KeyEvent × List (BitVec 8 × BitVec 8)) where
  init s := s = ⟨fun _ => false, 0, 0, 0⟩
  step s l s' :=
    s.Allows l.1 ∧ taken l.2 = l.1.scancodes ∧ s' = s.after l.1 (getChars l.2 s.shift)

/-- The bits show the keys: those of Shift and Ctrl whether one of the two is held, and that of
    Caps Lock has changed as often as the key was pressed. -/
structure ShowsKeys (s : State) : Prop where
  modifiers : ∀ m : Modifier, s.shift &&& m.bit ≠ 0 ↔ s.held m.left = true ∨ s.held m.right = true
  capsLock : s.changes = s.presses

/-- No key of Shift or Ctrl is released while the other one is held, and Caps Lock does not
    send its code again. -/
def Guard (s : State) : KeyEvent → Prop
  | .press k => k = .capsLock → s.held k = false
  | .release k => ∀ m : Modifier,
      (k = m.left → s.held m.right = false) ∧ (k = m.right → s.held m.left = false)

/-- What every event of a run keeps. -/
structure Inv (s : State) : Prop extends ShowsKeys s where
  escape : s.shift.getLsbD 6 = false

section step

variable {s s' : State} {e : KeyEvent} {calls : List (BitVec 8 × BitVec 8)} {k : Key}

theorem bit_iff {shift : BitVec 32} {m : Modifier} :
    shift &&& m.bit ≠ 0 ↔ shift.getLsbD m.pos = true := by
  refine and_bit_ne_zero ?_
  cases m
  · decide
  · decide

/-- A key is held after its press, and the others are as before. -/
theorem apply_press {held : Key → Bool} {k' : Key} :
    (KeyEvent.press k).apply held k' = true ↔ held k' = true ∨ k = k' := by
  show Function.update held k true k' = true ↔ _
  rw [Function.update_apply]
  split
  · next h => exact iff_of_true rfl (.inr h.symm)
  · next h => exact (or_iff_left fun h' => h h'.symm).symm

theorem apply_release {held : Key → Bool} {k' : Key} :
    (KeyEvent.release k).apply held k' = true ↔ held k' = true ∧ k ≠ k' := by
  show Function.update held k false k' = true ↔ _
  rw [Function.update_apply]
  split
  · next h => exact iff_of_false Bool.false_ne_true fun h' => h'.2 h.symm
  · next h => exact (and_iff_left fun h' => h h'.symm).symm

theorem left_ne_right (m : Modifier) : m.left ≠ m.right := by
  cases m
  · decide
  · decide

/-- How often the bit has changed after a press. -/
theorem changes_press :
    (s.after (.press k) ((s.shift ||| shiftcode k.index) ^^^ togglecode k.index)).changes =
      s.changes + if k = .capsLock then 1 else 0 := by
  have hsame : s.shift &&& keyCapsLock =
      ((s.shift ||| shiftcode k.index) ^^^ togglecode k.index) &&& keyCapsLock ↔ k ≠ .capsLock := by
    rw [and_capsLock_eq, eq_comm, press_capsLock]
  unfold after
  dsimp only
  by_cases hk : k = .capsLock
  · rw [if_pos hk, if_neg fun h => hsame.mp h hk]
  · rw [if_neg hk, if_pos (hsame.mpr hk)]

theorem changes_release :
    (s.after (.release k) (s.shift &&& ~~~(shiftcode k.index ||| keyE0Esc))).changes =
      s.changes := by
  unfold after
  dsimp only
  rw [if_pos (and_capsLock_eq.mpr release_capsLock.symm), Nat.add_zero]

theorem presses_press {shift : BitVec 32} :
    (s.after (.press k) shift).presses =
      s.presses + if k = .capsLock ∧ s.held .capsLock = false then 1 else 0 := rfl

/-- A press that does not repeat the code of Caps Lock. -/
theorem inv_press (h : Inv s) (hguard : s.Guard (.press k)) :
    Inv (s.after (.press k) ((s.shift ||| shiftcode k.index) ^^^ togglecode k.index)) where
  modifiers := by
    intro m
    have hm := h.modifiers m
    rw [bit_iff] at hm ⊢
    show ((s.shift ||| shiftcode k.index) ^^^ togglecode k.index).getLsbD m.pos = true ↔
      (KeyEvent.press k).apply s.held m.left = true ∨ (KeyEvent.press k).apply s.held m.right = true
    rw [press_modifier, hm, apply_press, apply_press, or_or_or_comm]
  capsLock := by
    rw [changes_press, presses_press, h.capsLock]
    by_cases hk : k = .capsLock
    · have hfree : s.held .capsLock = false := hk ▸ hguard hk
      rw [if_pos hk, if_pos ⟨hk, hfree⟩]
    · rw [if_neg hk, if_neg fun hpress => hk hpress.1]
  escape := press_escape.trans h.escape

/-- A release while the other key of its kind is not held. -/
theorem inv_release (h : Inv s) (hguard : s.Guard (.release k)) :
    Inv (s.after (.release k) (s.shift &&& ~~~(shiftcode k.index ||| keyE0Esc))) where
  modifiers := by
    intro m
    have hm := h.modifiers m
    obtain ⟨hleft, hright⟩ := hguard m
    rw [bit_iff] at hm ⊢
    show (s.shift &&& ~~~(shiftcode k.index ||| keyE0Esc)).getLsbD m.pos = true ↔
      (KeyEvent.release k).apply s.held m.left = true ∨
        (KeyEvent.release k).apply s.held m.right = true
    rw [release_modifier, hm, apply_release, apply_release]
    -- if the key is one of the two, the guard says that the other one is up
    constructor
    · rintro ⟨hl | hr, hk⟩
      · exact .inl ⟨hl, fun hkl => hk (.inl hkl)⟩
      · exact .inr ⟨hr, fun hkr => hk (.inr hkr)⟩
    · rintro (⟨hl, hk⟩ | ⟨hr, hk⟩)
      · refine ⟨.inl hl, ?_⟩
        rintro (hkl | hkr)
        · exact hk hkl
        · exact absurd (hright hkr) (by rw [hl]; decide)
      · refine ⟨.inr hr, ?_⟩
        rintro (hkl | hkr)
        · exact absurd (hleft hkl) (by rw [hr]; decide)
        · exact hk hkr
  capsLock := changes_release.trans h.capsLock
  escape := release_escape

/-- A repeated code of Caps Lock changes the bit without a press. -/
theorem not_showsKeys_press (h : Inv s) (hguard : ¬s.Guard (.press k)) :
    ¬ShowsKeys (s.after (.press k) ((s.shift ||| shiftcode k.index) ^^^ togglecode k.index)) := by
  intro hshows
  unfold Guard at hguard
  rw [Classical.not_imp] at hguard
  obtain ⟨rfl, hheld⟩ := hguard
  have hcount := hshows.capsLock
  rw [changes_press, presses_press, if_pos rfl, if_neg fun hpress => hheld hpress.2,
    h.capsLock] at hcount
  omega

/-- A release while the other key is held clears their bit. -/
theorem not_showsKeys_release (hguard : ¬s.Guard (.release k)) :
    ¬ShowsKeys (s.after (.release k) (s.shift &&& ~~~(shiftcode k.index ||| keyE0Esc))) := by
  intro hshows
  unfold Guard at hguard
  rw [not_forall] at hguard
  obtain ⟨m, hm⟩ := hguard
  have hbit := hshows.modifiers m
  have hkeys : (s.after (.release k) (s.shift &&& ~~~(shiftcode k.index ||| keyE0Esc))).held =
      (KeyEvent.release k).apply s.held := rfl
  rw [bit_iff, hkeys, apply_release, apply_release] at hbit
  have hcleared : ¬((k = m.left ∨ k = m.right) ∧ (s.held m.left = true ∧ k ≠ m.left ∨
      s.held m.right = true ∧ k ≠ m.right)) :=
    fun h => (release_modifier.mp (hbit.mpr h.2)).2 h.1
  -- the other key is still down, but nothing is set
  apply hm
  constructor
  · intro hk
    by_contra hr
    rw [Bool.not_eq_false] at hr
    exact hcleared ⟨.inl hk, .inr ⟨hr, hk ▸ left_ne_right m⟩⟩
  · intro hk
    by_contra hl
    rw [Bool.not_eq_false] at hl
    exact hcleared ⟨.inr hk, .inl ⟨hl, hk ▸ (left_ne_right m).symm⟩⟩

end step

section runs

variable {n : Nat} {states : Nat → State} {labels : Nat → KeyEvent × List (BitVec 8 × BitVec 8)}

/-- The calls leave in `shift` what the event makes of it. -/
theorem getChars_scancodes {shift : BitVec 32} (h : shift.getLsbD 6 = false) (e : KeyEvent)
    {calls : List (BitVec 8 × BitVec 8)} (hcalls : taken calls = e.scancodes) :
    getChars calls shift = e.next shift := by
  rw [getChars_eq, hcalls]
  cases e with
  | press k => exact foldl_press h
  | release k => exact foldl_release h

theorem inv_next {s : State} {e : KeyEvent} (h : Inv s) (hguard : s.Guard e) :
    Inv (s.after e (e.next s.shift)) := by
  cases e with
  | press k => exact inv_press h hguard
  | release k => exact inv_release h hguard

theorem not_showsKeys_next {s : State} {e : KeyEvent} (h : Inv s) (hguard : ¬s.Guard e) :
    ¬ShowsKeys (s.after e (e.next s.shift)) := by
  cases e with
  | press k => exact not_showsKeys_press h hguard
  | release k => exact not_showsKeys_release hguard

theorem inv_init : Inv ⟨fun _ => false, 0, 0, 0⟩ where
  modifiers := by
    intro m
    cases m
    · decide
    · decide
  capsLock := rfl
  escape := rfl

/-- The bits show the keys after every event of a run exactly if no event of it is a release of
    a Shift or Ctrl key while the other one is held, or a repeated code of Caps Lock. -/
theorem showsKeys_iff (h : system.Run n states labels) :
    (∀ i, i ≤ n → ShowsKeys (states i)) ↔ ∀ i, i < n → (states i).Guard (labels i).1 := by
  refine @System.Run.forall_iff_guard _ _ system n states labels Inv ShowsKeys
    (fun s l => s.Guard l.1) h ?_ ?_ (fun s hs => hs.toShowsKeys) ?_
  · rintro s rfl
    exact inv_init
  · rintro s l s' hs hguard ⟨-, hcalls, rfl⟩
    rw [getChars_scancodes hs.escape l.1 hcalls]
    exact inv_next hs hguard
  · rintro s l s' hs hguard ⟨-, hcalls, rfl⟩
    rw [getChars_scancodes hs.escape l.1 hcalls]
    exact not_showsKeys_next hs hguard

end runs

/-! ### Two keys of one kind -/

/-- Left Shift is pressed, then right Shift, and left Shift is released. -/
def twoShifts : List (KeyEvent × List (BitVec 8 × BitVec 8)) :=
  [(.press .leftShift, [(1, 0x2A)]), (.press .rightShift, [(1, 0x36)]),
    (.release .leftShift, [(1, 0xAA)])]

/-- The states while events happen one after the other. -/
def statesOf (events : List (KeyEvent × List (BitVec 8 × BitVec 8))) (i : Nat) : State :=
  (events.take i).foldl (fun s l => s.after l.1 (getChars l.2 s.shift)) ⟨fun _ => false, 0, 0, 0⟩

theorem run_twoShifts : system.Run 3 (statesOf twoShifts)
    (fun i => twoShifts.getD i (.press .capsLock, [])) where
  start := rfl
  next := by
    intro i hi
    obtain rfl | rfl | rfl : i = 0 ∨ i = 1 ∨ i = 2 := by omega
    · exact ⟨trivial, by decide, rfl⟩
    · exact ⟨trivial, by decide, rfl⟩
    · have hheld : (statesOf twoShifts 2).held .leftShift = true := by decide
      exact ⟨hheld, by decide, rfl⟩

/-- Right Shift is still held, but the bit of Shift is clear. -/
theorem not_forall_showsKeys : ¬∀ (n : Nat) (states : Nat → State)
    (labels : Nat → KeyEvent × List (BitVec 8 × BitVec 8)), system.Run n states labels →
      ∀ i, i ≤ n → ShowsKeys (states i) := by
  intro h
  have hbit := (h 3 _ _ run_twoShifts 3 (Nat.le_refl 3)).modifiers .shift
  exact absurd hbit (by decide)

/-- The two presses are shown, and the release is not. -/
theorem showsKeys_iff_twoShifts :
    (∀ i, i ≤ 2 → ShowsKeys (statesOf twoShifts i)) ∧
      ¬∀ i, i ≤ 3 → ShowsKeys (statesOf twoShifts i) := by
  constructor
  · refine (showsKeys_iff (run_twoShifts.take (by decide))).mpr fun i hi => ?_
    obtain rfl | rfl : i = 0 ∨ i = 1 := by omega
    · intro hk
      exact absurd hk (by decide)
    · intro hk
      exact absurd hk (by decide)
  · rw [showsKeys_iff run_twoShifts]
    intro hguard
    have hfree : (statesOf twoShifts 2).held .rightShift = false :=
      (hguard 2 (by decide) .shift).1 rfl
    exact absurd hfree (by decide)

end State

end Avos.Keyboard
