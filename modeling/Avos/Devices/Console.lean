import Avos.Clib.String

/-! # The Text Console

  `kernel/devices/console/src/console.c`. The screen is a text buffer of 25 rows of
  80 cells, followed by a spare row. Row 0 shows a banner; printing uses the rows
  from 1 on, and scrolls them when it runs past the last one. Scrolling copies the
  spare row to the last row of the screen, so the spare row has to be blank.

  The cells are kept in memory, two bytes each, and a scroll is the `memmove` of the
  source. `written` records every store to the buffer.
-/

open ByteMemory

namespace Avos

/-- `CONSOLE_VGA_NUM_COLUMNS`. -/
abbrev consoleColumns : Nat := 80

/-- `CONSOLE_VGA_NUM_LINES`. -/
abbrev consoleLines : Nat := 25

/-- `CONSOLE_POS_START`. -/
abbrev consolePosStart : Nat := 80

/-- `CONSOLE_POS_START_BANNER`. -/
abbrev consolePosStartBanner : Nat := 38

/-- `Console_screen`: `CONSOLE_VGA_TEXT_BUFFER + KERNEL_HIGHER_HALF_OFFSET`. -/
def consoleScreen : BitVec 32 := 0xB8000 + 0x80000000

/-- The console: the memory, the variables of the driver, the position of the hardware
    cursor, and the stores to the screen, each by its address and its number of bytes. -/
structure Console where
  mem : Memory
  pos : BitVec 16
  inpanic : Bool
  cursor : BitVec 16
  written : List (BitVec 32 × Nat)

/-- `Console_Attribute`. -/
def consoleAttribute (fore back : BitVec 8) : BitVec 16 :=
  ((fore &&& 0x0F).setWidth 16 + (back &&& 0x0F).setWidth 16 <<< 4) <<< 8

/-- White on black, with no character. -/
def consoleBlank : BitVec 16 := consoleAttribute 0xF 0

/-- `&Console_screen[i]`. -/
def cellAddr (i : Nat) : BitVec 32 := consoleScreen + BitVec.ofNat 32 (2 * i)

namespace Console

/-- `Console_screen[i]`. -/
def cell (s : Console) (i : Nat) : BitVec 16 := load16 s.mem (cellAddr i)

/-- `Console_screen[i] = v`. -/
def setCell (s : Console) (i : Nat) (v : BitVec 16) : Console :=
  { s with mem := store16 s.mem (cellAddr i) v, written := (cellAddr i, 2) :: s.written }

/-- `Console_screen[first + i] = v i`, for `i` from `0` to `n - 1`. -/
def setCells (s : Console) (first : Nat) (v : Nat → BitVec 16) : Nat → Console
  | 0 => s
  | n + 1 => (setCells s first v n).setCell (first + n) (v n)

/-- `Console_ClearLine`. -/
def clearLine (s : Console) (line : Nat) : Console :=
  s.setCells (line * consoleColumns) (fun _ => consoleBlank) consoleColumns

/-- `Console_ClearScreen`. -/
def clearScreen (s : Console) : Console :=
  (s.setCells consoleColumns (fun _ => consoleBlank)
    (consoleColumns * consoleLines - consoleColumns)).clearLine consoleLines

/-- `Console_SetCursorPosition`. -/
def setCursorPosition (s : Console) (pos : BitVec 16) : Console := { s with cursor := pos }

/-- `Console_Initialize`. -/
def consoleInitialize (s : Console) : Console :=
  let s := s.setCells 0 (fun _ => consoleAttribute 0 2) consoleColumns
  let avos : List (BitVec 16) := [0x41, 0x56, 0x4F, 0x53]
  let s := s.setCells consolePosStartBanner
    (fun i => consoleAttribute 4 2 ||| avos.getD i 0) avos.length
  let s := s.clearScreen
  s.setCursorPosition s.pos

/-- The rows from the second on move up by one, and the position with them. -/
def scroll (s : Console) : Console :=
  let size := (s.pos.toNat - consolePosStart) * 2
  { s with
    mem := memmove s.mem (cellAddr consolePosStart) (cellAddr (consolePosStart + consoleColumns))
      (BitVec.ofNat 32 size)
    written := (cellAddr consolePosStart, size) :: s.written
    pos := s.pos - BitVec.ofNat 16 consoleColumns }

/-- The character is put on the screen, and the position moves. -/
def putChar (s : Console) (c : BitVec 8) : Console :=
  let color := consoleAttribute 0xF 0
  if c = 0 then s
  else if c = 0x0A then
    { s with pos := BitVec.ofNat 16 ((s.pos.toNat / consoleColumns + 1) * consoleColumns) }
  else if c = 0x09 then { s with pos := s.pos + 3 }
  else if c = 0x08 then
    let s := { s with pos := s.pos - 1 }
    s.setCell s.pos.toNat color
  else
    let s := s.setCell s.pos.toNat (color ||| c.signExtend 16)
    { s with pos := s.pos + 1 }

/-- `Console_PrintChar`. It does not return after a panic. A backspace at the start of the
    first row returns at once. -/
def printChar (s : Console) (c : BitVec 8) : Option Console :=
  if s.inpanic then none
  else if c = 0x08 ∧ s.pos.toNat = consolePosStart then some s
  else
    let s := s.putChar c
    let s := if consoleColumns * consoleLines ≤ s.pos.toNat then s.scroll else s
    let s := s.clearLine consoleLines
    some (s.setCursorPosition s.pos)

/-- One call of `Console_PrintChar` for each character. -/
def printChars (s : Console) : List (BitVec 8) → Option Console
  | [] => some s
  | c :: cs => (s.printChar c).bind fun s => s.printChars cs

/-! ## Section 1: Cells -/

section cells

variable {s : Console} {i j n first : Nat} {v : BitVec 16} {f : Nat → BitVec 16}

theorem cell_apart (hij : i ≠ j) (hi : i < 2 ^ 31) (hj : j < 2 ^ 31) :
    Apart (cellAddr i) 2 (cellAddr j) 2 := by
  rcases Nat.lt_or_gt_of_ne hij with h | h
  · exact apart_add (by omega) (by omega)
  · exact (apart_add (by omega) (by omega)).symm

@[simp] theorem setCell_cell_self : (s.setCell i v).cell i = v := by simp [cell, setCell]

theorem setCell_cell_ne (hij : j ≠ i) (hi : i < 2 ^ 31) (hj : j < 2 ^ 31) :
    (s.setCell i v).cell j = s.cell j :=
  load16_store16_of_apart (cell_apart hij hj hi)

@[simp] theorem setCursorPosition_cell {pos : BitVec 16} :
    (s.setCursorPosition pos).cell i = s.cell i := rfl

@[simp] theorem setCell_pos : (s.setCell i v).pos = s.pos := rfl

@[simp] theorem setCell_inpanic : (s.setCell i v).inpanic = s.inpanic := rfl

@[simp] theorem setCells_pos : (s.setCells first f n).pos = s.pos := by
  induction n with
  | zero => rfl
  | succ n ih => exact ih

@[simp] theorem setCells_inpanic : (s.setCells first f n).inpanic = s.inpanic := by
  induction n with
  | zero => rfl
  | succ n ih => exact ih

theorem setCells_cell (hn : first + n ≤ 2 ^ 31) (hj : j < 2 ^ 31) :
    (s.setCells first f n).cell j =
      if first ≤ j ∧ j < first + n then f (j - first) else s.cell j := by
  induction n with
  | zero => simp [setCells, show ¬(first ≤ j ∧ j < first) by omega]
  | succ n ih =>
    rw [setCells]
    by_cases hjn : j = first + n
    · subst hjn
      simp
    · rw [setCell_cell_ne hjn (by omega) hj, ih (by omega)]
      have : (first ≤ j ∧ j < first + (n + 1)) ↔ first ≤ j ∧ j < first + n := by omega
      simp only [this]

/-- A copy of whole cells copies cell by cell. -/
theorem load16_copied {m : Memory} {p q : Nat} (hp : p + n ≤ 2 ^ 31) (hj : j < 2 ^ 31) :
    load16 (copied m (cellAddr p) (cellAddr q) (2 * n)) (cellAddr j) =
      if p ≤ j ∧ j < p + n then load16 m (cellAddr (q + (j - p))) else load16 m (cellAddr j) := by
  have hsucc : ∀ i, cellAddr i + 1 = consoleScreen + BitVec.ofNat 32 (2 * i + 1) := fun i => by
    rw [cellAddr, BitVec.ofNat_add, BitVec.add_assoc]
    rfl
  have hfirst : InBytes (cellAddr p) (2 * n) (cellAddr j) ↔ p ≤ j ∧ j < p + n := by
    rw [cellAddr, cellAddr, inBytes_add_iff (by omega) (by omega)]
    omega
  have hsecond : InBytes (cellAddr p) (2 * n) (cellAddr j + 1) ↔ p ≤ j ∧ j < p + n := by
    rw [hsucc, cellAddr, inBytes_add_iff (by omega) (by omega)]
    omega
  rw [load16]
  simp only [copied, hfirst, hsecond]
  split
  · next hin =>
    have haddr : cellAddr q + (cellAddr j - cellAddr p) = cellAddr (q + (j - p)) := by
      rw [cellAddr, cellAddr, cellAddr, add_ofNat_sub_add_ofNat (by omega), BitVec.add_assoc,
        ← BitVec.ofNat_add, cellAddr, show 2 * q + (2 * j - 2 * p) = 2 * (q + (j - p)) by omega]
    have haddr' : cellAddr q + (cellAddr j + 1 - cellAddr p) = cellAddr (q + (j - p)) + 1 := by
      rw [hsucc, hsucc, cellAddr, cellAddr, add_ofNat_sub_add_ofNat (by omega), BitVec.add_assoc,
        ← BitVec.ofNat_add, show 2 * q + (2 * j + 1 - 2 * p) = 2 * (q + (j - p)) + 1 by omega]
    rw [haddr, haddr', load16]
  · rfl

/-- A scroll copies every row to the one above it. -/
theorem scroll_cell (hj : j < 2 ^ 31) :
    s.scroll.cell j = if 80 ≤ j ∧ j < s.pos.toNat then s.cell (j + 80) else s.cell j := by
  have hlt := s.pos.isLt
  have hsize : (BitVec.ofNat 32 ((s.pos.toNat - 80) * 2)).toNat = 2 * (s.pos.toNat - 80) := by
    rw [BitVec.toNat_ofNat]
    omega
  have haddr : (cellAddr 80).toNat = 0x800B8000 + 160 := by decide
  have haddr' : (cellAddr 160).toNat = 0x800B8000 + 320 := by decide
  have hmem : s.scroll.mem =
      copied s.mem (cellAddr 80) (cellAddr 160) (2 * (s.pos.toNat - 80)) := by
    have hmove := memmove_eq s.mem (cellAddr 80) (cellAddr 160)
      (BitVec.ofNat 32 ((s.pos.toNat - 80) * 2)) (by omega) (by omega)
    rwa [hsize] at hmove
  have hrange : (80 ≤ j ∧ j < 80 + (s.pos.toNat - 80)) ↔ 80 ≤ j ∧ j < s.pos.toNat := by omega
  rw [cell, hmem, load16_copied (by omega) hj]
  simp only [hrange]
  split
  · next hin => rw [cell, show 160 + (j - 80) = j + 80 by omega]
  · rfl

/-- The last row is a copy of the spare one. -/
theorem scroll_last_row (hpos : 2000 ≤ s.pos.toNat)
    (hspare : ∀ i, 2000 ≤ i → i < 2080 → s.cell i = consoleBlank) (hj : 1920 ≤ j)
    (hj' : j < 2000) : s.scroll.cell j = consoleBlank := by
  rw [scroll_cell (by omega), if_pos ⟨by omega, by omega⟩]
  exact hspare _ (by omega) (by omega)

end cells

/-! ## Section 2: The Invariant of Printing -/

/-- The store is to cells 80 to 2079. -/
def InsideScreen (store : BitVec 32 × Nat) : Prop :=
  ∃ first n, store = (cellAddr first, n * 2) ∧ 80 ≤ first ∧ first + n ≤ 2080

/-- What every step of `Console_PrintChar` keeps, from the state `s₀` before any printing:
    the position is below `limit`, and no store has been to the banner. -/
structure Keeps (s₀ s : Console) (limit : Nat) : Prop where
  inpanic : s.inpanic = false
  low : 80 ≤ s.pos.toNat
  high : s.pos.toNat < limit
  banner : ∀ i, i < 80 → s.cell i = s₀.cell i
  written : ∃ new, s.written = new ++ s₀.written ∧ ∀ r ∈ new, InsideScreen r

/-- The state between two calls: the spare row is blank as well. -/
structure Printing (s₀ s : Console) : Prop extends Keeps s₀ s 2000 where
  spare : ∀ i, 2000 ≤ i → i < 2080 → s.cell i = consoleBlank

section invariant

variable {s₀ s s' : Console} {i n first limit : Nat} {v : BitVec 16} {c : BitVec 8}

theorem Keeps.move (h : Keeps s₀ s limit) {pos : BitVec 16} (hlow : 80 ≤ pos.toNat) {L : Nat}
    (hhigh : pos.toNat < L) : Keeps s₀ { s with pos := pos } L :=
  ⟨h.inpanic, hlow, hhigh, h.banner, h.written⟩

theorem Keeps.setCursorPosition (h : Keeps s₀ s limit) {pos : BitVec 16} :
    Keeps s₀ (s.setCursorPosition pos) limit :=
  ⟨h.inpanic, h.low, h.high, h.banner, h.written⟩

theorem Keeps.setCell (h : Keeps s₀ s limit) (hlow : 80 ≤ i) (hhigh : i < 2080) :
    Keeps s₀ (s.setCell i v) limit where
  inpanic := h.inpanic
  low := h.low
  high := h.high
  banner j hj := by
    rw [setCell_cell_ne (by omega) (by omega) (by omega)]
    exact h.banner j hj
  written := by
    obtain ⟨new, hnew, hin⟩ := h.written
    refine ⟨(cellAddr i, 2) :: new, by simp [Console.setCell, hnew], fun r hr => ?_⟩
    rcases List.mem_cons.mp hr with rfl | hr
    · exact ⟨i, 1, rfl, hlow, by omega⟩
    · exact hin r hr

theorem Keeps.setCells {f : Nat → BitVec 16} (h : Keeps s₀ s limit) (hlow : 80 ≤ first)
    (hhigh : first + n ≤ 2080) : Keeps s₀ (s.setCells first f n) limit := by
  induction n with
  | zero => exact h
  | succ n ih => exact (ih (by omega)).setCell (by omega) (by omega)

/-- Clearing the spare row. -/
theorem Keeps.clearLine (h : Keeps s₀ s limit) : Keeps s₀ (s.clearLine 25) limit :=
  h.setCells (by decide) (by decide)

theorem clearLine_cell (hi : 2000 ≤ i) (hi' : i < 2080) :
    (s.clearLine 25).cell i = consoleBlank := by
  simp only [Console.clearLine, consoleColumns, Nat.reduceMul]
  rw [setCells_cell (by omega) (by omega), if_pos ⟨by omega, by omega⟩]

/-- A character moves the position by at most three cells past the end. -/
theorem Keeps.putChar (h : Keeps s₀ s 2000) (hc : ¬(c = 0x08 ∧ s.pos.toNat = 80)) :
    Keeps s₀ (s.putChar c) 2003 := by
  have hlow := h.low
  have hhigh := h.high
  have hstay : Keeps s₀ s 2003 := h.move hlow (by omega)
  simp only [Console.putChar, consoleColumns]
  split
  · exact hstay
  split
  · -- the start of the next row
    have hrow : (BitVec.ofNat 16 ((s.pos.toNat / 80 + 1) * 80)).toNat =
        (s.pos.toNat / 80 + 1) * 80 := by
      rw [BitVec.toNat_ofNat]
      omega
    exact h.move (by omega) (by omega)
  split
  · have htab : (s.pos + 3).toNat = s.pos.toNat + 3 := by bv_omega
    exact h.move (by omega) (by omega)
  split
  · next hback =>
    have hone : (s.pos - 1).toNat = s.pos.toNat - 1 := by bv_omega
    have hne : s.pos.toNat ≠ 80 := fun heq => hc ⟨hback, heq⟩
    exact (hstay.move (by omega) (by omega)).setCell (by omega) (by omega)
  · have hone : (s.pos + 1).toNat = s.pos.toNat + 1 := by bv_omega
    refine (hstay.setCell hlow (by omega)).move ?_ ?_
    · rw [setCell_pos]; omega
    · rw [setCell_pos]; omega

theorem Keeps.scroll (h : Keeps s₀ s 2003) (hpos : 2000 ≤ s.pos.toNat) :
    Keeps s₀ s.scroll 2000 where
  inpanic := h.inpanic
  low := by
    have hhigh := h.high
    have : (s.pos - BitVec.ofNat 16 80).toNat = s.pos.toNat - 80 := by bv_omega
    show 80 ≤ (s.pos - BitVec.ofNat 16 80).toNat
    omega
  high := by
    have hhigh := h.high
    have : (s.pos - BitVec.ofNat 16 80).toNat = s.pos.toNat - 80 := by bv_omega
    show (s.pos - BitVec.ofNat 16 80).toNat < 2000
    omega
  banner j hj := by
    rw [scroll_cell (by omega), if_neg (by omega)]
    exact h.banner j hj
  written := by
    obtain ⟨new, hnew, hin⟩ := h.written
    have hhigh := h.high
    refine ⟨(cellAddr 80, (s.pos.toNat - 80) * 2) :: new, by simp [Console.scroll, hnew],
      fun r hr => ?_⟩
    rcases List.mem_cons.mp hr with rfl | hr
    · exact ⟨80, s.pos.toNat - 80, rfl, by omega, by omega⟩
    · exact hin r hr

/-- One call. -/
theorem Printing.printChar (h : Printing s₀ s) (c : BitVec 8) :
    ∃ s', s.printChar c = some s' ∧ Printing s₀ s' := by
  simp only [Console.printChar, h.inpanic, Bool.false_eq_true, if_false, consolePosStart,
    consoleColumns, consoleLines, Nat.reduceMul]
  split
  · exact ⟨s, rfl, h⟩
  · next hc =>
    refine ⟨_, rfl, ?_⟩
    have hput := h.toKeeps.putChar hc
    -- before the spare row is cleared
    have hscrolled : Keeps s₀ (if 2000 ≤ (s.putChar c).pos.toNat then (s.putChar c).scroll
        else s.putChar c) 2000 := by
      split
      · next hpos => exact hput.scroll hpos
      · next hpos => exact hput.move hput.low (by omega)
    refine ⟨hscrolled.clearLine.setCursorPosition, fun i hi hi' => ?_⟩
    rw [setCursorPosition_cell]
    exact clearLine_cell hi hi'

theorem Printing.printChars (h : Printing s₀ s) (cs : List (BitVec 8)) :
    ∃ s', s.printChars cs = some s' ∧ Printing s₀ s' := by
  induction cs generalizing s with
  | nil => exact ⟨s, rfl, h⟩
  | cons c cs ih =>
    obtain ⟨s₁, hs₁, h₁⟩ := h.printChar c
    obtain ⟨s₂, hs₂, h₂⟩ := ih h₁
    exact ⟨s₂, by rw [Console.printChars, hs₁]; exact hs₂, h₂⟩

end invariant

/-! ## Section 3: From Power On -/

/-- The console before `Console_Initialize`. -/
def atPowerOn (mem : Memory) (cursor : BitVec 16) : Console where
  mem := mem
  pos := 80
  inpanic := false
  cursor := cursor
  written := []

/-- The state left by `Console_Initialize`. -/
theorem printing_consoleInitialize (s : Console) (hpanic : s.inpanic = false)
    (hpos : s.pos.toNat = 80) : Printing s.consoleInitialize s.consoleInitialize := by
  have hpos' : s.consoleInitialize.pos = s.pos := by
    simp [consoleInitialize, setCursorPosition, clearScreen, clearLine]
  have hpanic' : s.consoleInitialize.inpanic = s.inpanic := by
    simp [consoleInitialize, setCursorPosition, clearScreen, clearLine]
  refine ⟨⟨by rw [hpanic', hpanic], by rw [hpos']; omega, by rw [hpos']; omega, fun _ _ => rfl,
    [], rfl, by simp⟩, fun i hi hi' => ?_⟩
  rw [consoleInitialize, setCursorPosition_cell, clearScreen]
  exact clearLine_cell hi hi'

/-- Whatever is printed, every call returns, the position stays between the banner and the
    end of the screen, the banner is never written to, and the spare row is blank. -/
theorem printChars_safe (mem : Memory) (cursor : BitVec 16) (cs : List (BitVec 8)) :
    ∃ s, (atPowerOn mem cursor).consoleInitialize.printChars cs = some s ∧
      80 ≤ s.pos.toNat ∧ s.pos.toNat < 2000 ∧
      (∃ new, s.written = new ++ (atPowerOn mem cursor).consoleInitialize.written ∧
        ∀ r ∈ new, InsideScreen r) ∧
      (∀ i, i < 80 → s.cell i = (atPowerOn mem cursor).consoleInitialize.cell i) ∧
      ∀ i, 2000 ≤ i → i < 2080 → s.cell i = consoleBlank := by
  have hstart := printing_consoleInitialize (atPowerOn mem cursor) rfl (by simp [atPowerOn])
  obtain ⟨s, hs, h⟩ := hstart.printChars cs
  exact ⟨s, hs, h.low, h.high, h.written, h.banner, h.spare⟩

end Console

end Avos
