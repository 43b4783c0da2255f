import Avos.Devices.Console

/-! # The Console as a Scrolling Terminal

  What printing is for: a terminal of 24 rows that scrolls (`Terminal`). The rows 1 to 24 of
  the screen follow it character by character (`Shows`), except that a character is
  sign-extended before the attribute is set: a byte from `0x80` on shows with the attribute
  `0xFF`.
-/

open ByteMemory

namespace Avos

/-! ## Section 1: The Terminal -/

/-- A terminal of 24 rows of 80 characters, with the place of the next character. A blank is
    the character 0. -/
structure Terminal where
  rows : Vector (Vector (BitVec 8) 80) 24
  row : Fin 24
  col : Fin 80

namespace Terminal

variable (t : Terminal)

/-- A terminal with nothing on it. -/
def start : Terminal := ⟨.replicate 24 (.replicate 80 0), 0, 0⟩

/-- The character at a place. -/
def char (r : Fin 24) (c : Fin 80) : BitVec 8 := t.rows[r][c]

/-- What a place shows: the character, white on black. -/
def cell (r : Fin 24) (c : Fin 80) : BitVec 16 := (0x0F : BitVec 8) ++ t.char r c

/-- The top row is dropped, and there is a blank row at the bottom. -/
def scroll : Terminal :=
  { t with rows := .ofFn fun r =>
      if h : r.val + 1 < 24 then t.rows[r.val + 1] else .replicate 80 0 }

/-- The start of the next row. -/
def newline : Terminal :=
  if h : t.row.val + 1 < 24 then { t with row := ⟨t.row.val + 1, h⟩, col := 0 }
  else { t.scroll with col := 0 }

/-- The place `n` cells further on. -/
def forward (n : Nat) : Terminal :=
  if h : t.col.val + n < 80 then { t with col := ⟨t.col.val + n, h⟩ }
  else { t.newline with col := ⟨(t.col.val + n) % 80, Nat.mod_lt _ (by decide)⟩ }

/-- A character at the place of the next one. -/
def put (c : BitVec 8) : Terminal :=
  { t with rows := t.rows.set t.row ((t.rows[t.row]).set t.col c) }

/-- The place before. The first one has none. -/
def back : Terminal :=
  if t.col.val ≠ 0 then { t with col := ⟨t.col.val - 1, by omega⟩ }
  else if t.row.val ≠ 0 then { t with row := ⟨t.row.val - 1, by omega⟩, col := 79 }
  else t

/-- A character is printed. -/
def print (c : BitVec 8) : Terminal :=
  if c = 0 then t
  else if c = 0x0A then t.newline
  else if c = 0x09 then t.forward 3
  else if c = 0x08 then if t.row = 0 ∧ t.col = 0 then t else t.back.put 0
  else (t.put c).forward 1

/-- Characters are printed one after the other. -/
def printAll (cs : List (BitVec 8)) : Terminal := cs.foldl print t

variable {t} {r : Fin 24} {c : Fin 80} {x : BitVec 8}

theorem put_char :
    (t.put x).char r c = if r = t.row ∧ c = t.col then x else t.char r c := by
  simp only [put, char, Fin.getElem_fin, Vector.getElem_set]
  by_cases hr : t.row.val = r.val
  · obtain rfl : t.row = r := Fin.ext hr
    by_cases hc : t.col.val = c.val
    · obtain rfl : t.col = c := Fin.ext hc
      simp
    · have hne : c ≠ t.col := fun h => hc (congrArg Fin.val h.symm)
      simp [hc, hne]
  · have hne : r ≠ t.row := fun h => hr (congrArg Fin.val h.symm)
    simp [hr, hne]

theorem scroll_char : t.scroll.char r c =
    if h : r.val + 1 < 24 then t.char ⟨r.val + 1, h⟩ c else 0 := by
  simp only [scroll, char, Fin.getElem_fin, Vector.getElem_ofFn]
  split
  · rfl
  · simp

theorem char_of_rows {t' : Terminal} (h : t'.rows = t.rows) : t'.char r c = t.char r c := by
  rw [char, char, h]

/-- The place of the next character, as an index into the screen. -/
def place (t : Terminal) : Nat := 80 + 80 * t.row + t.col

/-- From `t`, `t'` has its next character at the index `p`, or it has scrolled because `p` is
    behind the last row. -/
structure MovesTo (t : Terminal) (p : Nat) (t' : Terminal) : Prop where
  char : ∀ r c, t'.char r c = (if 2000 ≤ p then t.scroll else t).char r c
  place : t'.place = if 2000 ≤ p then p - 80 else p

theorem movesTo_newline : t.MovesTo (80 + 80 * (t.row + 1)) t.newline := by
  rw [newline]
  split
  · rename_i hnext
    have hlow : ¬2000 ≤ 80 + 80 * (t.row.val + 1) := by omega
    refine ⟨fun r c => by rw [if_neg hlow]; exact char_of_rows rfl, ?_⟩
    rw [if_neg hlow]
    exact Nat.add_zero _
  · have hhigh : 2000 ≤ 80 + 80 * (t.row.val + 1) := by omega
    refine ⟨fun r c => by rw [if_pos hhigh]; exact char_of_rows rfl, ?_⟩
    have hplace : ({ t.scroll with col := 0 } : Terminal).place = 80 + 80 * t.row.val :=
      Nat.add_zero _
    rw [if_pos hhigh, hplace]
    omega

theorem movesTo_forward {n : Nat} (hn : n ≤ 80) : t.MovesTo (t.place + n) (t.forward n) := by
  have hrow := t.row.isLt
  have hcol := t.col.isLt
  rw [forward]
  split
  · have hlow : ¬2000 ≤ t.place + n := by
      rw [Terminal.place]
      omega
    refine ⟨fun r c => by rw [if_neg hlow]; exact char_of_rows rfl, ?_⟩
    rw [if_neg hlow, Terminal.place, Terminal.place, Nat.add_assoc, Nat.add_assoc]
    exact (Nat.add_assoc _ _ _).symm
  · rename_i hnext
    have hsame : 2000 ≤ t.place + n ↔ 2000 ≤ 80 + 80 * (t.row.val + 1) := by
      rw [Terminal.place]
      omega
    have hline := t.movesTo_newline
    refine ⟨fun r c => ?_, ?_⟩
    · simp only [hsame]
      exact hline.char r c
    · have hplace := hline.place
      have hzero : t.newline.col.val = 0 := by
        rw [newline]
        split
        · rfl
        · rfl
      rw [Terminal.place, hzero] at hplace
      rw [Terminal.place, Terminal.place]
      dsimp only
      simp only [Terminal.place] at hsame
      split at hplace
      · rw [if_pos (hsame.mpr (by assumption))]
        omega
      · rw [if_neg (fun h => absurd (hsame.mp h) (by assumption))]
        omega

theorem place_back (h : ¬(t.row = 0 ∧ t.col = 0)) : t.back.place + 1 = t.place := by
  have hrow : t.row.val = 0 → t.row = 0 := fun h => Fin.ext h
  have hcol : t.col.val = 0 → t.col = 0 := fun h => Fin.ext h
  rw [back]
  split
  · rw [Terminal.place, Terminal.place]
    dsimp only
    omega
  split
  · rw [Terminal.place, Terminal.place]
    show 80 + 80 * (t.row.val - 1) + 79 + 1 = _
    omega
  · rename_i hc hr
    exact absurd ⟨hrow (not_not.mp hr), hcol (not_not.mp hc)⟩ h

theorem back_char : t.back.char r c = t.char r c := by
  rw [back]
  split
  · rfl
  split
  · rfl
  · rfl

/-- A text without bytes from `0x80` on leaves none. -/
theorem print_ascii {x : BitVec 8} (ht : ∀ r k, t.char r k < 0x80) (hc : x < 0x80) :
    ∀ r k, (t.print x).char r k < 0x80 := by
  have hscroll : ∀ {t : Terminal}, (∀ r k, t.char r k < 0x80) →
      ∀ r k, t.scroll.char r k < 0x80 := by
    intro t ht r k
    rw [scroll_char]
    split
    · exact ht _ k
    · decide
  have hmove : ∀ {t t' : Terminal} {p : Nat}, t.MovesTo p t' → (∀ r k, t.char r k < 0x80) →
      ∀ r k, t'.char r k < 0x80 := by
    intro t t' p h ht r k
    rw [h.char]
    split
    · exact hscroll ht r k
    · exact ht r k
  have hput : ∀ {t : Terminal} {x : BitVec 8}, x < 0x80 → (∀ r k, t.char r k < 0x80) →
      ∀ r k, (t.put x).char r k < 0x80 := by
    intro t x hx ht r k
    rw [put_char]
    split
    · exact hx
    · exact ht r k
  rw [print]
  split
  · exact ht
  split
  · exact hmove movesTo_newline ht
  split
  · exact hmove (movesTo_forward (by decide)) ht
  split
  · split
    · exact ht
    · exact hput (by decide) fun r k => by
        rw [back_char]
        exact ht r k
  · exact hmove (movesTo_forward (by decide)) (hput hc ht)

theorem printAll_ascii {cs : List (BitVec 8)} (ht : ∀ r k, t.char r k < 0x80)
    (hcs : ∀ x ∈ cs, x < 0x80) : ∀ r k, (t.printAll cs).char r k < 0x80 := by
  induction cs generalizing t with
  | nil => exact ht
  | cons x cs ih =>
    exact ih (print_ascii ht (hcs x List.mem_cons_self)) fun y hy =>
      hcs y (List.mem_cons_of_mem _ hy)

end Terminal

/-! ## Section 2: What the Screen Shows -/

namespace Console

/-- The cell that `Console_PrintChar` writes for a character: it is sign-extended. -/
def signedCell (c : BitVec 8) : BitVec 16 := consoleAttribute 0xF 0 ||| c.signExtend 16

theorem signedCell_zero : signedCell 0 = consoleBlank := by decide

/-- The attribute is kept by the characters below `0x80`. -/
theorem signedCell_eq_iff (c : BitVec 8) : signedCell c = (0x0F : BitVec 8) ++ c ↔ c < 0x80 := by
  revert c
  decide

/-- The rows 1 to 24 hold the characters of the terminal. -/
def CellsShow (s : Console) (t : Terminal) : Prop :=
  ∀ (r : Fin 24) (c : Fin 80), s.cell (80 + 80 * r + c) = signedCell (t.char r c)

/-- The screen and the position are those of the terminal. -/
structure Shows (s : Console) (t : Terminal) : Prop where
  cells : CellsShow s t
  pos : s.pos.toNat = t.place

section shows

variable {s₀ s s' : Console} {t : Terminal} {c : BitVec 8} {n : Nat}

/-- The place of a cell determines its row and its column. -/
theorem place_inj {r r' : Fin 24} {c c' : Fin 80} (h : 80 + 80 * r.val + c.val =
    80 + 80 * r'.val + c'.val) : r = r' ∧ c = c' := by
  have hc := c.isLt
  have hc' := c'.isLt
  exact ⟨Fin.ext (by omega), Fin.ext (by omega)⟩

theorem CellsShow.put (h : CellsShow s t) :
    CellsShow (s.setCell t.place (signedCell c)) (t.put c) := by
  intro r k
  rw [Terminal.put_char]
  split
  · rename_i hplace
    obtain ⟨rfl, rfl⟩ := hplace
    exact setCell_cell_self
  · rename_i hplace
    have hne : 80 + 80 * r.val + k.val ≠ t.place := fun heq => hplace (place_inj heq)
    have hlt : t.place < 2000 := by
      rw [Terminal.place]
      omega
    rw [setCell_cell_ne hne (by omega) (by omega)]
    exact h r k

/-- A scroll of the screen is a scroll of the terminal. -/
theorem CellsShow.scroll (h : CellsShow s t) (hpos : 2000 ≤ s.pos.toNat)
    (hspare : ∀ i, 2000 ≤ i → i < 2080 → s.cell i = consoleBlank) :
    CellsShow s.scroll t.scroll := by
  intro r k
  rw [Terminal.scroll_char, scroll_cell (by omega), if_pos ⟨by omega, by omega⟩]
  split
  · rename_i hr
    have hnext : 80 + 80 * r.val + k.val + 80 = 80 + 80 * (r.val + 1) + k.val := by omega
    rw [hnext]
    exact h ⟨r.val + 1, hr⟩ k
  · rename_i hr
    rw [signedCell_zero]
    exact hspare _ (by omega) (by omega)

theorem clearLine_pos {line : Nat} : (s.clearLine line).pos = s.pos := by
  simp [Console.clearLine]

/-- Clearing the spare row and moving the cursor show nothing. -/
theorem CellsShow.clearLine (h : CellsShow s t) {pos : BitVec 16} :
    CellsShow ((s.clearLine 25).setCursorPosition pos) t := by
  intro r k
  rw [setCursorPosition_cell]
  simp only [Console.clearLine, consoleColumns, Nat.reduceMul]
  rw [setCells_cell (by omega) (by omega), if_neg (by omega)]
  exact h r k

/-- The end of `Console_PrintChar`: the screen scrolls if the position has run past it. -/
theorem CellsShow.settle (h : CellsShow s t)
    (hspare : ∀ i, 2000 ≤ i → i < 2080 → s.cell i = consoleBlank) :
    let s' := if 2000 ≤ s.pos.toNat then s.scroll else s
    let s'' := (s'.clearLine 25).setCursorPosition s'.pos
    CellsShow s'' (if 2000 ≤ s.pos.toNat then t.scroll else t) ∧
      s''.pos = if 2000 ≤ s.pos.toNat then s.pos - 80 else s.pos := by
  dsimp only
  split
  · rename_i hpos
    refine ⟨(h.scroll hpos hspare).clearLine, ?_⟩
    simp [setCursorPosition, Console.clearLine, Console.scroll]
  · refine ⟨h.clearLine, ?_⟩
    simp [setCursorPosition, Console.clearLine]

/-- From a console that shows `t₁` but for the position, the end of `Console_PrintChar` comes
    to one that shows `t'`. -/
theorem CellsShow.shows {t₁ t' : Terminal} {p : Nat} (h : CellsShow s t₁)
    (hspare : ∀ i, 2000 ≤ i → i < 2080 → s.cell i = consoleBlank) (hpos : s.pos.toNat = p)
    (hp : p < 2003) (hmove : t₁.MovesTo p t') :
    let s' := if 2000 ≤ s.pos.toNat then s.scroll else s
    Shows ((s'.clearLine 25).setCursorPosition (s'.clearLine 25).pos) t' := by
  obtain ⟨hcells, hplace⟩ := h.settle hspare
  dsimp only at hcells hplace ⊢
  simp only [hpos, clearLine_pos] at hcells hplace ⊢
  refine ⟨fun r k => ?_, ?_⟩
  · rw [hcells r k, hmove.char]
  · rw [hplace, hmove.place]
    split
    · have hsub : (s.pos - 80).toNat = s.pos.toNat - 80 := by bv_omega
      rw [hsub, hpos]
    · exact hpos

/-- One character. -/
theorem Shows.printChar (h : Shows s t) (hs : Printing s₀ s) (c : BitVec 8) :
    ∃ s', s.printChar c = some s' ∧ Shows s' (t.print c) := by
  have hrow := t.row.isLt
  have hcol := t.col.isLt
  have hpos := h.pos
  have hplace : t.place = 80 + 80 * t.row.val + t.col.val := rfl
  have hspare : ∀ {i : Nat} {v : BitVec 16}, i < 2000 → ∀ j, 2000 ≤ j → j < 2080 →
      (s.setCell i v).cell j = consoleBlank := by
    intro i v hi j hj hj'
    rw [setCell_cell_ne (by omega) (by omega) (by omega)]
    exact hs.spare j hj hj'
  simp only [Console.printChar, hs.inpanic, Bool.false_eq_true, if_false, consolePosStart,
    consoleColumns, consoleLines, Nat.reduceMul]
  split
  · -- a backspace at the start
    rename_i hstart
    have hfirst : t.row = 0 ∧ t.col = 0 := ⟨Fin.ext (by omega), Fin.ext (by omega)⟩
    refine ⟨s, rfl, ?_⟩
    rw [Terminal.print, hstart.1, if_neg (by decide), if_neg (by decide), if_neg (by decide),
      if_pos rfl, if_pos hfirst]
    exact h
  rename_i hstart
  refine ⟨_, rfl, ?_⟩
  simp only [Console.putChar, Terminal.print, consoleColumns]
  split
  · exact h.cells.shows hs.spare hpos (by omega)
      ⟨fun r k => by rw [if_neg (by omega)], by rw [if_neg (by omega)]⟩
  split
  · -- a new line
    have hline : (BitVec.ofNat 16 ((s.pos.toNat / 80 + 1) * 80)).toNat =
        80 + 80 * (t.row.val + 1) := by
      rw [BitVec.toNat_ofNat]
      omega
    have hcells : CellsShow { s with pos := BitVec.ofNat 16 ((s.pos.toNat / 80 + 1) * 80) } t :=
      h.cells
    exact hcells.shows hs.spare hline (by omega) Terminal.movesTo_newline
  split
  · -- a tab
    have htab : (s.pos + 3).toNat = t.place + 3 := by bv_omega
    have hcells : CellsShow { s with pos := s.pos + 3 } t := h.cells
    exact hcells.shows hs.spare htab (by omega) (Terminal.movesTo_forward (by decide))
  split
  · -- a backspace
    rename_i hback
    have hfirst : ¬(t.row = 0 ∧ t.col = 0) := by
      rintro ⟨hr, hc⟩
      rw [hr, hc] at hplace
      exact hstart ⟨hback, hpos.trans hplace⟩
    have hbefore := Terminal.place_back hfirst
    have hone : (s.pos - 1).toNat = t.back.place := by
      have := hs.low
      bv_omega
    have hback' : CellsShow { s with pos := s.pos - 1 } t.back := fun r k => by
      rw [Terminal.back_char]
      exact h.cells r k
    have hcells : CellsShow (({ s with pos := s.pos - 1 } : Console).setCell (s.pos - 1).toNat
        consoleBlank) (t.back.put 0) := by
      rw [hone, ← signedCell_zero]
      exact hback'.put
    have hstay : (t.back.put 0).place = t.back.place := rfl
    rw [if_neg hfirst]
    refine hcells.shows (fun j hj hj' => ?_) hone (by omega)
      ⟨fun r k => by rw [if_neg (by omega)], by rw [if_neg (by omega), hstay]⟩
    rw [setCell_cell_ne (by omega) (by omega) (by omega)]
    exact hs.spare j hj hj'
  · -- any other character
    have hone : (s.pos + 1).toNat = t.place + 1 := by bv_omega
    have hmove := Terminal.movesTo_forward (t := t.put c) (n := 1) (by decide)
    have hstay : (t.put c).place = t.place := rfl
    rw [hstay] at hmove
    generalize hs₁ : s.setCell s.pos.toNat (consoleAttribute 0xF 0 ||| c.signExtend 16) = s₁
    have hcells : CellsShow s₁ (t.put c) := by
      rw [← hs₁, hpos]
      exact h.cells.put
    have hspare₁ : ∀ j, 2000 ≤ j → j < 2080 → s₁.cell j = consoleBlank := by
      rw [← hs₁]
      exact hspare (by omega)
    have hpos₁ : s₁.pos = s.pos := by rw [← hs₁, setCell_pos]
    have hcells' : CellsShow { s₁ with pos := s₁.pos + 1 } (t.put c) := hcells
    rw [← hpos₁] at hone
    exact hcells'.shows hspare₁ hone (by omega) hmove

/-- A text. -/
theorem Shows.printChars (h : Shows s t) (hs : Printing s₀ s) (cs : List (BitVec 8)) :
    ∃ s', s.printChars cs = some s' ∧ Shows s' (t.printAll cs) := by
  induction cs generalizing s t with
  | nil => exact ⟨s, rfl, h⟩
  | cons c cs ih =>
    obtain ⟨s₁, hs₁, h₁⟩ := h.printChar hs c
    obtain ⟨s₁', hs₁', hs₁p⟩ := hs.printChar c
    obtain rfl := Option.some.inj (hs₁.symm.trans hs₁')
    obtain ⟨s₂, hs₂, h₂⟩ := ih h₁ hs₁p
    exact ⟨s₂, by rw [Console.printChars, hs₁]; exact hs₂, h₂⟩

/-- The screen after `Console_Initialize` shows an empty terminal. -/
theorem shows_consoleInitialize (s : Console) (hpos : s.pos.toNat = 80) :
    Shows s.consoleInitialize Terminal.start := by
  have hpos' : s.consoleInitialize.pos = s.pos := by
    simp [consoleInitialize, setCursorPosition, clearScreen, Console.clearLine]
  refine ⟨fun r k => ?_, by rw [hpos', hpos]; rfl⟩
  have hblank : (Terminal.start).char r k = 0 := by
    simp [Terminal.char, Terminal.start]
  rw [hblank, signedCell_zero, consoleInitialize, setCursorPosition_cell, clearScreen]
  simp only [Console.clearLine, consoleColumns, consoleLines, Nat.reduceMul, Nat.reduceSub]
  rw [setCells_cell (by omega) (by omega), if_neg (by omega), setCells_cell (by omega) (by omega),
    if_pos ⟨by omega, by omega⟩]

/-! ## Section 3: When the Rows Are Those of the Terminal -/

/-- The rows 1 to 24 show what the terminal shows. -/
def SameRows (s : Console) (t : Terminal) : Prop :=
  ∀ (r : Fin 24) (c : Fin 80), s.cell (consoleColumns * (r + 1) + c) = t.cell r c

theorem Shows.sameRows_iff_ascii (h : Shows s t) : SameRows s t ↔ ∀ r c, t.char r c < 0x80 := by
  refine forall_congr' fun r => forall_congr' fun k => ?_
  have hplace : consoleColumns * (r.val + 1) + k.val = 80 + 80 * r.val + k.val := by
    rw [consoleColumns]
    omega
  rw [hplace, h.cells r k, Terminal.cell]
  exact signedCell_eq_iff _

/-- Whatever is printed, the rows are those of the terminal exactly when no byte from `0x80` on
    is left on it. -/
theorem sameRows_iff (mem : Memory) (cursor : BitVec 16) (cs : List (BitVec 8)) :
    ∃ s, (atPowerOn mem cursor).consoleInitialize.printChars cs = some s ∧
      (SameRows s (Terminal.start.printAll cs) ↔
        ∀ r c, (Terminal.start.printAll cs).char r c < 0x80) := by
  have hstart := printing_consoleInitialize (atPowerOn mem cursor) rfl rfl
  have hshows := shows_consoleInitialize (atPowerOn mem cursor) rfl
  obtain ⟨s, hs, h⟩ := hshows.printChars hstart cs
  exact ⟨s, hs, h.sameRows_iff_ascii⟩

/-- A byte above `0x7F`, as the keyboard driver prints it, shows with another attribute. -/
theorem not_forall_sameRows : ¬∀ (mem : Memory) (cursor : BitVec 16) (cs : List (BitVec 8)),
    ∃ s, (atPowerOn mem cursor).consoleInitialize.printChars cs = some s ∧
      SameRows s (Terminal.start.printAll cs) := by
  intro hall
  obtain ⟨s, hs, hsame⟩ := hall (fun _ => 0) 0 [0x80]
  have hstart := printing_consoleInitialize (atPowerOn (fun _ => 0) 0) rfl rfl
  have hshows := shows_consoleInitialize (atPowerOn (fun _ => 0) 0) rfl
  obtain ⟨s', hs', h⟩ := hshows.printChars hstart [0x80]
  obtain rfl := Option.some.inj (hs.symm.trans hs')
  have hlow := h.sameRows_iff_ascii.mp hsame 0 0
  have hchar : (Terminal.start.printAll [0x80]).char 0 0 = 0x80 := by decide
  rw [hchar] at hlow
  exact absurd hlow (by decide)

end shows

end Console

end Avos
