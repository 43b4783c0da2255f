import Avos.Library.ByteMemory
import Avos.Library.Numerals

/-! # Printing Numbers in the Boot Loader

  `Console_PrintNum` of `bootloader/multiboot/src/console.c`, which writes to the text buffer of
  the screen. A number is written place by place, by a divisor that starts at the largest power
  of the base below 2^32; the places in front of the first digit that is not 0 are left out.

  A cell of the screen has two bytes, the character and its attribute.
-/

open ByteMemory Numerals

namespace Avos.Multiboot

/-! ## Section 1: Model -/

/-- `Console_Screen`. -/
def textBuffer : BitVec 32 := 0xB8000

/-- `Console_Attribute`. -/
def consoleAttribute (fore back : BitVec 8) : BitVec 16 :=
  ((fore &&& 0x0F).setWidth 16 + (back &&& 0x0F).setWidth 16 <<< 4) <<< 8

/-- `&Console_Screen[pos]`. -/
def screenCell (pos : BitVec 32) : BitVec 32 := textBuffer + 2 * pos

/-- `Console_Screen[pos] = v`. -/
def setScreenCell (m : Memory) (pos : BitVec 32) (v : BitVec 16) : Memory :=
  store16 m (screenCell pos) v

/-- `digits`. -/
def hexDigits : List (BitVec 8) :=
  [0x30, 0x31, 0x32, 0x33, 0x34, 0x35, 0x36, 0x37, 0x38, 0x39, 0x41, 0x42, 0x43, 0x44, 0x45, 0x46]

/-- `hex ? 0x10 : 10`. -/
def printBase (hex : Bool) : BitVec 32 := if hex then 0x10 else 10

/-- `hex ? 0x10000000 : 1000000000`. -/
def printDivisor (hex : Bool) : BitVec 32 := if hex then 0x10000000 else 1000000000

theorem one_lt_printBase (hex : Bool) : 1 < (printBase hex).toNat := by cases hex <;> decide

/-- The loop of `Console_PrintNum`. -/
def printPlaces (hex : Bool) (color : BitVec 16) (num divisor : BitVec 32) (startPrinting : Bool)
    (pos : BitVec 32) (m : Memory) : Memory :=
  if _h : 0 < divisor then
    let startPrinting := startPrinting || decide (0 < num / divisor)
    let digit := hexDigits.getD (num / divisor).toNat 0
    if startPrinting then
      printPlaces hex color (num % divisor) (divisor / printBase hex) startPrinting (pos + 1)
        (setScreenCell m pos (color ||| digit.signExtend 16))
    else
      printPlaces hex color (num % divisor) (divisor / printBase hex) startPrinting pos m
  else m
termination_by divisor.toNat
decreasing_by
  all_goals
    rw [BitVec.toNat_udiv]
    exact Nat.div_lt_self _h (one_lt_printBase hex)

/-- `Console_PrintNum`. -/
def printNum (num : BitVec 32) (hex : Bool) (line column foreColor backColor : BitVec 8)
    (m : Memory) : Memory :=
  let pos : BitVec 32 := line.setWidth 32 * 80 + column.setWidth 32
  let color := consoleAttribute foreColor backColor
  let (pos, m) :=
    if hex then
      (pos + 2, setScreenCell (setScreenCell m pos (color ||| 0x30)) (pos + 1) (color ||| 0x78))
    else (pos, m)
  let (pos, m) := if num = 0 then (pos + 1, setScreenCell m pos (color ||| 0x30)) else (pos, m)
  printPlaces hex color num (printDivisor hex) false pos m

/-! ## Section 2: What Is to Be Printed -/

/-- The character of a digit. -/
def digitChar (d : Nat) : BitVec 8 :=
  BitVec.ofNat 8 (if d < 10 then 0x30 + d else 0x41 + (d - 10))

/-- The base as a number. -/
def base (hex : Bool) : Nat := if hex then 16 else 10

/-- `0x` in front of a hexadecimal number, and the numeral. -/
def numText (num : BitVec 32) (hex : Bool) : List (BitVec 8) :=
  (if hex then [0x30, 0x78] else []) ++ (numeral (base hex) num.toNat).map digitChar

/-- A cell of the screen: the low four bits of both colours, and the character. -/
def textCell (foreColor backColor c : BitVec 8) : BitVec 16 :=
  backColor.setWidth 4 ++ foreColor.setWidth 4 ++ c

/-! ## Section 3: Consecutive Cells -/

/-- The cells of a text, from `pos` on. -/
def setScreenCells (m : Memory) (pos : BitVec 32) : List (BitVec 16) → Memory
  | [] => m
  | v :: l => setScreenCells (setScreenCell m pos v) (pos + 1) l

section cells

variable {m : Memory} {pos : BitVec 32} {l l' : List (BitVec 16)} {i : Nat}

theorem screenCell_add : screenCell (pos + BitVec.ofNat 32 i) =
    screenCell pos + BitVec.ofNat 32 (2 * i) := by
  unfold screenCell
  rw [BitVec.mul_add, BitVec.add_assoc, BitVec.ofNat_mul]
  rfl

theorem setScreenCells_append : setScreenCells m pos (l ++ l') =
    setScreenCells (setScreenCells m pos l) (pos + BitVec.ofNat 32 l.length) l' := by
  induction l generalizing m pos with
  | nil =>
    show setScreenCells m pos l' = setScreenCells m (pos + 0#32) l'
    rw [BitVec.add_zero]
  | cons v l ih =>
    rw [List.cons_append, setScreenCells, ih, setScreenCells, next_add_ofNat, List.length_cons]

theorem onlyIn_setScreenCells (hl : 2 * l.length ≤ 2 ^ 32) :
    OnlyIn (screenCell pos) (2 * l.length) m (setScreenCells m pos l) := by
  induction l generalizing m pos with
  | nil => exact .refl
  | cons v l ih =>
    rw [List.length_cons] at hl ⊢
    have hrest := @ih (setScreenCell m pos v) (pos + BitVec.ofNat 32 1) (by omega)
    rw [screenCell_add] at hrest
    exact (onlyIn_store16.mono (by omega)).trans (hrest.of_add (by omega) hl)

theorem load16_setScreenCells (hl : 2 * l.length ≤ 2 ^ 32) (hi : i < l.length) :
    load16 (setScreenCells m pos l) (screenCell (pos + BitVec.ofNat 32 i)) = l[i] := by
  induction l generalizing m pos i with
  | nil => exact absurd hi (Nat.not_lt_zero i)
  | cons v l ih =>
    rw [List.length_cons] at hl hi
    cases i with
    | zero =>
      -- the cells behind are not the first one
      have hrest := @onlyIn_setScreenCells (setScreenCell m pos v) (pos + BitVec.ofNat 32 1) l
        (by omega)
      rw [screenCell_add] at hrest
      show load16 (setScreenCells (setScreenCell m pos v) (pos + 1) l) (screenCell (pos + 0#32)) = v
      rw [BitVec.add_zero]
      have hkeep : load16 (setScreenCells (setScreenCell m pos v) (pos + 1) l) (screenCell pos) =
          load16 (setScreenCell m pos v) (screenCell pos) := by
        apply load16_congr
        intro x hx
        apply hrest
        intro hbehind
        have happ := @apart_add (screenCell pos) 2 (2 * l.length) 0 2 (by omega) (by omega)
        rw [BitVec.add_zero] at happ
        exact happ x hx hbehind
      rw [hkeep]
      exact load16_store16
    | succ i =>
      rw [← next_add_ofNat]
      exact ih (by omega) (by omega)

end cells

/-! ## Section 4: The Loop Writes the Numeral -/

section loop

variable {m : Memory} {num divisor pos : BitVec 32} {color : BitVec 16} {hex start : Bool}
  {k : Nat} {fore back c : BitVec 8}

/-- The colours and the character share no bits. -/
theorem consoleAttribute_or :
    consoleAttribute fore back ||| c.setWidth 16 = textCell fore back c := by
  have hfore : (fore &&& 0x0F).toNat = fore.toNat % 2 ^ 4 := Nat.and_two_pow_sub_one_eq_mod _ 4
  have hback : (back &&& 0x0F).toNat = back.toNat % 2 ^ 4 := Nat.and_two_pow_sub_one_eq_mod _ 4
  have hcolours : (back.toNat % 2 ^ 4) <<< 4 + fore.toNat % 2 ^ 4 =
      (back.toNat % 2 ^ 4) <<< 4 ||| fore.toNat % 2 ^ 4 :=
    Nat.shiftLeft_add_eq_or_of_lt (Nat.mod_lt _ (by decide)) _
  have hattribute : (consoleAttribute fore back).toNat =
      ((back.toNat % 2 ^ 4) <<< 4 ||| fore.toNat % 2 ^ 4) <<< 8 := by
    rw [consoleAttribute, BitVec.toNat_shiftLeft, BitVec.toNat_add, BitVec.toNat_shiftLeft,
      BitVec.toNat_setWidth, BitVec.toNat_setWidth, hfore, hback, ← hcolours]
    simp only [Nat.shiftLeft_eq]
    omega
  apply BitVec.eq_of_toNat_eq
  rw [BitVec.toNat_or, hattribute, BitVec.toNat_setWidth, textCell, BitVec.toNat_append,
    BitVec.toNat_append, BitVec.toNat_setWidth, BitVec.toNat_setWidth,
    Nat.mod_eq_of_lt (Nat.lt_trans c.isLt (by decide))]

theorem toNat_printBase : (printBase hex).toNat = base hex := by cases hex <;> rfl

theorem one_lt_base (hex : Bool) : 1 < base hex := by cases hex <;> decide

theorem base_le (hex : Bool) : base hex ≤ 16 := by cases hex <;> decide

/-- The string of the source holds the digits. -/
theorem hexDigits_eq {d : Nat} (hd : d < 16) :
    (hexDigits.getD d 0).signExtend 16 = (digitChar d).setWidth 16 := by
  have hall : ∀ d : Fin 16, (hexDigits.getD d.val 0).signExtend 16 =
      (digitChar d.val).setWidth 16 := by
    decide
  exact hall ⟨d, hd⟩

/-- The cells that are written for the places `k - 1` to `0`. -/
def placeCells (hex : Bool) (color : BitVec 16) (start : Bool) (k v : Nat) : List (BitVec 16) :=
  (placeDigits (base hex) start k v).map fun d => color ||| (digitChar d).setWidth 16

theorem placeCells_succ {v : Nat} : placeCells hex color start (k + 1) v =
    (if start || decide (0 < v / base hex ^ k)
      then [color ||| (digitChar (v / base hex ^ k)).setWidth 16] else []) ++
    placeCells hex color (start || decide (0 < v / base hex ^ k)) k (v % base hex ^ k) := by
  rw [placeCells, placeDigits, placeCells]
  simp only [List.map_append]
  congr 1
  split
  · rfl
  · rfl

/-- One place: a cell is written once there has been a digit that is not 0. -/
theorem printPlaces_step (hdiv : divisor.toNat = base hex ^ k)
    (hnum : num.toNat < base hex ^ (k + 1)) :
    printPlaces hex color num divisor start pos m =
      let v := num.toNat / base hex ^ k
      let cells := if start || decide (0 < v) then [color ||| (digitChar v).setWidth 16] else []
      printPlaces hex color (num % divisor) (divisor / printBase hex) (start || decide (0 < v))
        (pos + BitVec.ofNat 32 cells.length) (setScreenCells m pos cells) := by
  have hpos : 0 < base hex ^ k := Nat.pow_pos (Nat.zero_lt_of_lt (one_lt_base hex))
  have hdigit : (num / divisor).toNat = num.toNat / base hex ^ k := by
    rw [BitVec.toNat_udiv, hdiv]
  have hlt : num.toNat / base hex ^ k < 16 := by
    have hlt := Nat.div_lt_of_lt_mul (show num.toNat < base hex ^ k * base hex by
      rwa [← Nat.pow_succ])
    have hle := base_le hex
    omega
  have hstart : decide (0 < num / divisor) = decide (0 < num.toNat / base hex ^ k) := by
    rw [← hdigit]
    rfl
  have hgo : 0 < divisor := by
    show 0 < divisor.toNat
    omega
  rw [printPlaces, dif_pos hgo]
  simp only [hstart, hdigit, hexDigits_eq hlt]
  split
  · next hwrite => rfl
  · next hskip =>
    show _ = printPlaces hex color _ _ _ (pos + 0#32) m
    rw [BitVec.add_zero]

/-- The invariant of the loop: the divisor is the power of the place, and what is left of the
    number is below the power of the place before. -/
theorem printPlaces_eq (hdiv : divisor.toNat = base hex ^ k)
    (hnum : num.toNat < base hex ^ (k + 1)) :
    printPlaces hex color num divisor start pos m =
      setScreenCells m pos (placeCells hex color start (k + 1) num.toNat) := by
  have hbase := one_lt_base hex
  have hnext : (divisor / printBase hex).toNat = base hex ^ k / base hex := by
    rw [BitVec.toNat_udiv, hdiv, toNat_printBase]
  induction k generalizing num divisor start pos m with
  | zero =>
    -- the place of the units is the last one
    have hend : divisor / printBase hex = 0 := by
      apply BitVec.eq_of_toNat_eq
      rw [hnext, pow_zero, Nat.div_eq_of_lt hbase]
      rfl
    rw [printPlaces_step hdiv hnum, hend]
    dsimp only
    rw [printPlaces, dif_neg (by decide), placeCells_succ]
    show _ = setScreenCells m pos (_ ++ [])
    rw [List.append_nil]
  | succ k ih =>
    have hpos : 0 < base hex ^ (k + 1) := Nat.pow_pos (by omega)
    have hrest : (num % divisor).toNat = num.toNat % base hex ^ (k + 1) := by
      rw [BitVec.toNat_umod, hdiv]
    have hdiv' : (divisor / printBase hex).toNat = base hex ^ k := by
      rw [hnext, Nat.pow_succ, Nat.mul_div_cancel _ (by omega)]
    rw [printPlaces_step hdiv hnum]
    dsimp only
    rw [ih hdiv' (by rw [hrest]; exact Nat.mod_lt _ hpos)
      (by rw [BitVec.toNat_udiv, hdiv', toNat_printBase]), hrest, ← setScreenCells_append,
      ← placeCells_succ]

/-- The first divisor is the power of the first place, and there are places for 32 bits. -/
theorem exists_printPlaces (hex : Bool) :
    ∃ k, (printDivisor hex).toNat = base hex ^ k ∧ 2 ^ 32 ≤ base hex ^ (k + 1) := by
  cases hex with
  | false => exact ⟨9, by decide, by decide⟩
  | true => exact ⟨7, by decide, by decide⟩

/-- The loop writes the numeral of a number that is not 0, and nothing for 0. -/
theorem printPlaces_first : printPlaces hex color num (printDivisor hex) false pos m =
    setScreenCells m pos (if num = 0 then [] else
      (numeral (base hex) num.toNat).map fun d => color ||| (digitChar d).setWidth 16) := by
  obtain ⟨k, hdiv, hplaces⟩ := exists_printPlaces hex
  have hnum : num.toNat < base hex ^ (k + 1) := Nat.lt_of_lt_of_le num.isLt hplaces
  rw [printPlaces_eq hdiv hnum, placeCells]
  split
  · next hzero =>
    rw [hzero]
    show setScreenCells m pos ((placeDigits (base hex) false (k + 1) 0).map _) = _
    rw [placeDigits_false (one_lt_base hex) (Nat.lt_of_le_of_lt (Nat.zero_le _) hnum),
      Nat.digits_zero]
    rfl
  · next hne =>
    have hne' : num.toNat ≠ 0 := fun h => hne (BitVec.eq_of_toNat_eq h)
    rw [placeDigits_eq_numeral (one_lt_base hex) hnum hne']

end loop

/-! ## Section 5: What Is Printed -/

section printed

variable {m : Memory} {num : BitVec 32} {hex : Bool} {line column fore back : BitVec 8}

/-- The digits of 0 are written in front of the loop, those of the other numbers by it. -/
theorem printDigits_eq {color : BitVec 16} {pos : BitVec 32} :
    (if num = 0
      then printPlaces hex color num (printDivisor hex) false (pos + 1)
        (setScreenCell m pos (color ||| 0x30))
      else printPlaces hex color num (printDivisor hex) false pos m) =
    setScreenCells m pos
      ((numeral (base hex) num.toNat).map fun d => color ||| (digitChar d).setWidth 16) := by
  split
  · next hzero =>
    rw [printPlaces_first, if_pos hzero, hzero]
    rfl
  · next hne => rw [printPlaces_first, if_neg hne]

/-- The cells of the text are set, from the place on the screen on. -/
theorem printNum_eq : printNum num hex line column fore back m =
    setScreenCells m (line.setWidth 32 * 80 + column.setWidth 32)
      ((numText num hex).map (textCell fore back)) := by
  have hcell : textCell fore back = fun c => consoleAttribute fore back ||| c.setWidth 16 := by
    funext c
    exact consoleAttribute_or.symm
  rw [hcell]
  unfold printNum numText
  rw [List.map_append, List.map_map, setScreenCells_append]
  cases hex with
  | false =>
    show _ = setScreenCells m (_ + 0#32) _
    rw [BitVec.add_zero]
    refine Eq.trans ?_ printDigits_eq
    by_cases hzero : num = 0
    · simp only [if_pos hzero]
      rfl
    · simp only [if_neg hzero]
      rfl
  | true =>
    refine Eq.trans ?_ printDigits_eq
    by_cases hzero : num = 0
    · simp only [if_pos hzero]
      rfl
    · simp only [if_neg hzero]
      rfl

/-- A number of 32 bits has at most ten digits. -/
theorem length_numText : (numText num hex).length ≤ 12 := by
  have hdigits : (numeral (base hex) num.toNat).length ≤ 10 := by
    unfold numeral
    split
    · decide
    · have hpow : num.toNat < base hex ^ 10 :=
        Nat.lt_of_lt_of_le num.isLt (by cases hex <;> decide)
      rw [List.length_reverse]
      exact (Nat.digits_length_le_iff (one_lt_base hex) _).mpr hpow
  rw [numText, List.length_append, List.length_map]
  cases hex with
  | false => exact Nat.le_trans (Nat.le_of_eq (Nat.zero_add _)) (Nat.le_trans hdigits (by decide))
  | true => exact Nat.add_le_add_left hdigits 2

/-- The text is written to consecutive cells, with the attribute, and nothing else is. -/
theorem printNum_prints (m : Memory) (num : BitVec 32) (hex : Bool)
    (line column foreColor backColor : BitVec 8) :
    (∀ i (hi : i < (numText num hex).length),
      load16 (printNum num hex line column foreColor backColor m)
          (screenCell (BitVec.ofNat 32 (line.toNat * 80 + column.toNat + i))) =
        textCell foreColor backColor (numText num hex)[i]) ∧
    OnlyIn (screenCell (BitVec.ofNat 32 (line.toNat * 80 + column.toNat)))
      (2 * (numText num hex).length) m (printNum num hex line column foreColor backColor m) := by
  have hpos : line.setWidth 32 * 80 + column.setWidth 32 =
      BitVec.ofNat 32 (line.toNat * 80 + column.toNat) := by
    rw [BitVec.ofNat_add, BitVec.ofNat_mul, BitVec.ofNat_toNat, BitVec.ofNat_toNat]
    rfl
  have hlength := @length_numText num hex
  have hcells : 2 * ((numText num hex).map (textCell foreColor backColor)).length ≤ 2 ^ 32 := by
    rw [List.length_map]
    omega
  rw [printNum_eq, hpos]
  constructor
  · intro i hi
    rw [BitVec.ofNat_add (_ + _) i, load16_setScreenCells hcells (by rwa [List.length_map]),
      List.getElem_map]
  · have hframe := @onlyIn_setScreenCells m
      (BitVec.ofNat 32 (line.toNat * 80 + column.toNat)) _ hcells
    rwa [List.length_map] at hframe

end printed

end Avos.Multiboot
