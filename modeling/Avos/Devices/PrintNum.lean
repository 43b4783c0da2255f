import Avos.Devices.Console
import Avos.Library.Numerals

/-! # Printing Numbers

  `Console_PrintNum` of `kernel/devices/console/src/console.c`: the characters it prints, in
  order, and their effect on the console.

  A single digit has a shortcut of its own, and the other numbers are written place by place, by
  a divisor that starts at the largest power of the base below 2^32. What is to be printed is an
  optional `-`, an optional prefix of the base and the numeral of the magnitude
  (`PrintsNumber`). That is what the code prints, but for two slips: the sign test
  `num > 0x80000000` misses the least number itself, and the second shortcut, which is meant for
  decimal numbers, also catches 8 and 9 in base 8.
-/

open Numerals

namespace Avos

/-- `CONSOLE_NUMTYPE_DECIMAL`. -/
def consoleNumtypeDecimal : BitVec 32 := 0

/-- `CONSOLE_NUMTYPE_OCTAL`. -/
def consoleNumtypeOctal : BitVec 32 := 1

/-- `CONSOLE_NUMTYPE_HEXLOW`. -/
def consoleNumtypeHexlow : BitVec 32 := 2

/-- `CONSOLE_NUMTYPE_HEXCAP`. -/
def consoleNumtypeHexcap : BitVec 32 := 3

/-! ## Section 1: Console_PrintNum -/

/-- `digits_low`. -/
def digitsLow : List (BitVec 8) :=
  [0x30, 0x31, 0x32, 0x33, 0x34, 0x35, 0x36, 0x37, 0x38, 0x39, 0x61, 0x62, 0x63, 0x64, 0x65, 0x66]

/-- `digits_cap`. -/
def digitsCap : List (BitVec 8) :=
  [0x30, 0x31, 0x32, 0x33, 0x34, 0x35, 0x36, 0x37, 0x38, 0x39, 0x41, 0x42, 0x43, 0x44, 0x45, 0x46]

/-- `divisor`, before the loop. -/
def numDivisor (numType : BitVec 32) : BitVec 32 :=
  if numType = consoleNumtypeOctal then 0x40000000
  else if numType = consoleNumtypeDecimal then 1000000000
  else 0x10000000

/-- `base`. -/
def numBase (numType : BitVec 32) : BitVec 32 :=
  if numType = consoleNumtypeOctal then 8
  else if numType = consoleNumtypeDecimal then 10
  else 0x10

theorem one_lt_numBase (numType : BitVec 32) : 1 < (numBase numType).toNat := by
  unfold numBase
  split
  · decide
  split
  · decide
  · decide

/-- The digit that the loop prints. Behind the last one is the end of the string. -/
def numDigit (numType i : BitVec 32) : BitVec 8 :=
  if numType = consoleNumtypeHexcap then digitsCap.getD i.toNat 0 else digitsLow.getD i.toNat 0

/-- The loop over the places, from `divisor` on. -/
def numLoop (numType val divisor : BitVec 32) (startPrinting : Bool) : List (BitVec 8) :=
  if _h : 0 < divisor then
    let startPrinting := startPrinting || decide (0 < val / divisor)
    (if startPrinting then [numDigit numType (val / divisor)] else []) ++
      numLoop numType (val % divisor) (divisor / numBase numType) startPrinting
  else []
termination_by divisor.toNat
decreasing_by
  rw [BitVec.toNat_udiv]
  exact Nat.div_lt_self _h (one_lt_numBase numType)

/-- `val`. -/
def numVal (num : BitVec 32) (withsign : Bool) : BitVec 32 :=
  if withsign then (if 0x80000000 < num then 0 - num else num) else num

/-- `Console_PrintNum`: the characters it passes to `Console_PrintChar`. -/
def numChars (num numType : BitVec 32) (withsign : Bool) : List (BitVec 8) :=
  if numType ≠ consoleNumtypeOctal ∧ numType ≠ consoleNumtypeDecimal ∧
      numType ≠ consoleNumtypeHexlow ∧ numType ≠ consoleNumtypeHexcap then []
  else
    let val := numVal num withsign
    let sign : List (BitVec 8) := if withsign = true ∧ 0x80000000 < num then [0x2D] else []
    if numType = consoleNumtypeOctal ∧ val < 8 then sign ++ [digitsLow.getD val.toNat 0]
    else if val < 10 then sign ++ [digitsLow.getD val.toNat 0]
    else
      let pre : List (BitVec 8) :=
        if numType = consoleNumtypeOctal then [0x30]
        else if numType = consoleNumtypeHexlow ∨ numType = consoleNumtypeHexcap then [0x30, 0x78]
        else []
      sign ++ pre ++ numLoop numType val (numDivisor numType) false

/-- `Console_PrintNum`, on the console. -/
def Console.printNum (s : Console) (num numType : BitVec 32) (withsign : Bool) : Option Console :=
  s.printChars (numChars num numType withsign)

/-- Printing a number keeps the console as printing any characters does. -/
theorem Console.Printing.printNum {s₀ s : Console} (h : Console.Printing s₀ s)
    (num numType : BitVec 32) (withsign : Bool) :
    ∃ s', s.printNum num numType withsign = some s' ∧ Console.Printing s₀ s' :=
  h.printChars _

/-! ## Section 2: What Is to Be Printed -/

/-- The four types of numbers. -/
inductive NumType where
  | decimal
  | octal
  | hexLow
  | hexCap
  deriving DecidableEq, Repr

namespace NumType

/-- The value of `num_type`. -/
def code : NumType → BitVec 32
  | decimal => consoleNumtypeDecimal
  | octal => consoleNumtypeOctal
  | hexLow => consoleNumtypeHexlow
  | hexCap => consoleNumtypeHexcap

/-- The base that numbers of the type are written in. -/
def base : NumType → Nat
  | decimal => 10
  | octal => 8
  | hexLow => 16
  | hexCap => 16

/-- What marks the base: `0` for octal, `0x` for hexadecimal. -/
def marker : NumType → List (BitVec 8)
  | decimal => []
  | octal => [0x30]
  | hexLow => [0x30, 0x78]
  | hexCap => [0x30, 0x78]

/-- The character of a digit. -/
def digit (t : NumType) (d : Nat) : BitVec 8 :=
  BitVec.ofNat 8 (if d < 10 then 0x30 + d else if t = hexCap then 0x41 + (d - 10)
    else 0x61 + (d - 10))

theorem one_lt_base (t : NumType) : 1 < t.base := by cases t <;> decide

theorem base_le (t : NumType) : t.base ≤ 16 := by cases t <;> decide

/-- No digit is a minus sign. -/
theorem digit_ne_minus (t : NumType) {d : Nat} (hd : d < 16) : t.digit d ≠ 0x2D := by
  unfold digit
  split
  · bv_omega
  split
  · bv_omega
  · bv_omega

end NumType

/-- The sign: a `-` in front of a number that is negative in two's complement. -/
def signChars (num : BitVec 32) (withsign : Bool) : List (BitVec 8) :=
  if withsign = true ∧ num.toInt < 0 then [0x2D] else []

/-- The absolute value, or the number itself when it is unsigned. -/
def magnitude (num : BitVec 32) (withsign : Bool) : Nat :=
  if withsign then num.toInt.natAbs else num.toNat

/-- The digits of the magnitude. -/
def digitChars (num : BitVec 32) (t : NumType) (withsign : Bool) : List (BitVec 8) :=
  (numeral t.base (magnitude num withsign)).map t.digit

/-- The characters are the sign, the marker of the base or nothing, and the digits. -/
def PrintsNumber (num : BitVec 32) (t : NumType) (withsign : Bool) : Prop :=
  ∃ marker, (marker = [] ∨ marker = t.marker) ∧
    numChars num t.code withsign = signChars num withsign ++ marker ++ digitChars num t withsign

/-! ## Section 3: The Loop Writes the Numeral -/

section numeral

variable {num val divisor i : BitVec 32} {t : NumType} {withsign start : Bool} {k : Nat}

/-- The strings of the source hold the digits. -/
theorem numDigit_code (hi : i.toNat < 16) : numDigit t.code i = t.digit i.toNat := by
  have hall : ∀ d : Fin 16, (if t.code = consoleNumtypeHexcap
      then digitsCap.getD d.val 0 else digitsLow.getD d.val 0) = t.digit d.val := by
    cases t <;> decide
  exact hall ⟨i.toNat, hi⟩

theorem digitsLow_eq (hi : i.toNat < 10) : digitsLow.getD i.toNat 0 = t.digit i.toNat := by
  have hall : ∀ d : Fin 10, digitsLow.getD d.val 0 = t.digit d.val := by cases t <;> decide
  exact hall ⟨i.toNat, hi⟩

theorem toNat_numBase : (numBase t.code).toNat = t.base := by cases t <;> rfl

/-- The first divisor is the power of the first place, and there are places for 32 bits. -/
theorem exists_places (t : NumType) :
    ∃ k, (numDivisor t.code).toNat = t.base ^ k ∧ 2 ^ 32 ≤ t.base ^ (k + 1) := by
  cases t with
  | decimal => exact ⟨9, by decide, by decide⟩
  | octal => exact ⟨10, by decide, by decide⟩
  | hexLow => exact ⟨7, by decide, by decide⟩
  | hexCap => exact ⟨7, by decide, by decide⟩

/-- One place: the digit is the quotient by the power of the place. -/
theorem numLoop_step (hdiv : divisor.toNat = t.base ^ k) (hval : val.toNat < t.base ^ (k + 1)) :
    numLoop t.code val divisor start =
      (if (start || decide (0 < val.toNat / t.base ^ k)) = true
        then [t.digit (val.toNat / t.base ^ k)] else []) ++
      numLoop t.code (val % divisor) (divisor / numBase t.code)
        (start || decide (0 < val.toNat / t.base ^ k)) := by
  have hpos : 0 < t.base ^ k := Nat.pow_pos (by have := t.one_lt_base; omega)
  have hdigit : (val / divisor).toNat = val.toNat / t.base ^ k := by rw [BitVec.toNat_udiv, hdiv]
  have hlt : val.toNat / t.base ^ k < t.base :=
    Nat.div_lt_of_lt_mul (by rwa [Nat.pow_succ] at hval)
  have hstart : decide (0 < val / divisor) = decide (0 < val.toNat / t.base ^ k) := by
    rw [← hdigit]
    rfl
  have hhead : numDigit t.code (val / divisor) = t.digit (val.toNat / t.base ^ k) := by
    rw [← hdigit]
    apply numDigit_code
    have := t.base_le
    omega
  have hgo : 0 < divisor := by
    show 0 < divisor.toNat
    omega
  rw [numLoop, dif_pos hgo]
  simp only [hstart, hhead]

/-- The invariant of the loop: the divisor is the power of the place, and what is left of the
    value is below the power of the place before. -/
theorem numLoop_eq (hdiv : divisor.toNat = t.base ^ k) (hval : val.toNat < t.base ^ (k + 1)) :
    numLoop t.code val divisor start =
      (placeDigits t.base start (k + 1) val.toNat).map t.digit := by
  have hbase := t.one_lt_base
  have hnext : (divisor / numBase t.code).toNat = t.base ^ k / t.base := by
    rw [BitVec.toNat_udiv, hdiv, toNat_numBase]
  induction k generalizing val divisor start with
  | zero =>
    -- the place of the units is the last one
    have hend : divisor / numBase t.code = 0 := by
      apply BitVec.eq_of_toNat_eq
      rw [hnext, pow_zero, Nat.div_eq_of_lt hbase]
      rfl
    rw [numLoop_step hdiv hval, hend, numLoop, dif_neg (by decide), placeDigits]
    simp only [placeDigits, List.append_nil]
    split
    · rfl
    · rfl
  | succ k ih =>
    have hpos : 0 < t.base ^ (k + 1) := Nat.pow_pos (by omega)
    have hrest : (val % divisor).toNat = val.toNat % t.base ^ (k + 1) := by
      rw [BitVec.toNat_umod, hdiv]
    have hdiv' : (divisor / numBase t.code).toNat = t.base ^ k := by
      rw [hnext, Nat.pow_succ, Nat.mul_div_cancel _ (by omega)]
    rw [numLoop_step hdiv hval, placeDigits]
    simp only [List.map_append]
    rw [ih hdiv' (by rw [hrest]; exact Nat.mod_lt _ hpos)
      (by rw [BitVec.toNat_udiv, hdiv', toNat_numBase]), hrest]
    congr 1
    split
    · rfl
    · rfl

/-- The value is the magnitude, also where the sign test fails. -/
theorem toNat_numVal : (numVal num withsign).toNat = magnitude num withsign := by
  unfold numVal magnitude
  split
  · split
    · next hneg =>
      have hneg' : 0x80000000 < num.toNat := hneg
      rw [BitVec.toInt_eq_toNat_cond]
      bv_omega
    · next hneg =>
      have hneg' : ¬0x80000000 < num.toNat := hneg
      rw [BitVec.toInt_eq_toNat_cond]
      split
      · omega
      · omega
  · rfl

/-- What is printed: a single digit has no marker. -/
theorem numChars_code (num : BitVec 32) (t : NumType) (withsign : Bool) :
    numChars num t.code withsign =
      (if withsign = true ∧ 0x80000000 < num then [0x2D] else []) ++
        if magnitude num withsign < 10 then [t.digit (magnitude num withsign)]
        else t.marker ++ digitChars num t withsign := by
  have hval : (numVal num withsign).toNat = magnitude num withsign := toNat_numVal
  have hguard : ¬(t.code ≠ consoleNumtypeOctal ∧ t.code ≠ consoleNumtypeDecimal ∧
      t.code ≠ consoleNumtypeHexlow ∧ t.code ≠ consoleNumtypeHexcap) := by
    cases t <;> decide
  have hmarker : (if t.code = consoleNumtypeOctal then [0x30]
      else if t.code = consoleNumtypeHexlow ∨ t.code = consoleNumtypeHexcap then [0x30, 0x78]
      else []) = t.marker := by
    cases t <;> rfl
  have hoctal : numVal num withsign < 8 ↔ magnitude num withsign < 8 := by
    rw [← hval]
    rfl
  have hten : numVal num withsign < 10 ↔ magnitude num withsign < 10 := by
    rw [← hval]
    rfl
  simp only [numChars, if_neg hguard, hmarker, hoctal, hten]
  by_cases hsmall : magnitude num withsign < 10
  · have hdigit : digitsLow.getD (numVal num withsign).toNat 0 =
        t.digit (magnitude num withsign) := by
      rw [← hval]
      exact digitsLow_eq (by omega)
    simp only [hsmall, if_true, hdigit]
    split
    · rfl
    · rfl
  · obtain ⟨k, hdiv, hplaces⟩ := exists_places t
    have hlt : (numVal num withsign).toNat < t.base ^ (k + 1) :=
      Nat.lt_of_lt_of_le (numVal num withsign).isLt hplaces
    have hloop : numLoop t.code (numVal num withsign) (numDivisor t.code) false =
        digitChars num t withsign := by
      rw [numLoop_eq hdiv hlt, placeDigits_eq_numeral t.one_lt_base hlt (by omega), hval]
      rfl
    rw [if_neg (fun h => hsmall (by omega)), if_neg hsmall, if_neg hsmall, hloop,
      List.append_assoc]

end numeral

/-! ## Section 4: The Numbers Printed Right -/

section right

variable {num : BitVec 32} {t : NumType} {withsign : Bool}

/-- The sign test of the source, and the number it misses. -/
theorem toInt_neg_iff : num.toInt < 0 ↔ 0x80000000 < num ∨ num = 0x80000000 := by
  have hlt : 0x80000000 < num ↔ 0x80000000 < num.toNat := Iff.rfl
  have heq : num = 0x80000000 ↔ num.toNat = 0x80000000 := BitVec.toNat_inj.symm
  rw [hlt, heq, BitVec.toInt_eq_toNat_cond]
  split
  · omega
  · omega

theorem minus_notMem_digitChars : 0x2D ∉ digitChars num t withsign := by
  intro hmem
  obtain ⟨d, hd, heq⟩ := List.mem_map.mp hmem
  have hlt := lt_of_mem_numeral t.one_lt_base hd
  have hbase := t.base_le
  exact t.digit_ne_minus (by omega) heq

theorem minus_notMem_marker : 0x2D ∉ t.marker := by cases t <;> decide

/-- The least number is printed without its sign. -/
theorem minus_notMem_numChars : 0x2D ∉ numChars 0x80000000 t.code withsign := by
  rw [numChars_code, if_neg (by simp), List.nil_append]
  split
  · next hsmall =>
    have hne := t.digit_ne_minus (show magnitude 0x80000000 withsign < 16 by omega)
    simpa using hne.symm
  · rw [List.mem_append, not_or]
    exact ⟨minus_notMem_marker, minus_notMem_digitChars⟩

/-- An octal digit is below 8. -/
theorem digitChars_octal {c : BitVec 8} (hc : c ∈ digitChars num .octal withsign) :
    c.toNat < 0x38 := by
  obtain ⟨d, hd, rfl⟩ := List.mem_map.mp hc
  have hlt : d < 8 := lt_of_mem_numeral (by decide) hd
  rw [NumType.digit, if_pos (by omega), BitVec.toNat_ofNat]
  omega

/-- Every character of an octal number is below the digit 8. -/
theorem printed_octal {c : BitVec 8} {marker : List (BitVec 8)}
    (hmarker : marker = [] ∨ marker = NumType.marker .octal)
    (hc : c ∈ signChars num withsign ++ marker ++ digitChars num .octal withsign) :
    c.toNat < 0x38 := by
  rcases List.mem_append.mp hc with hc | hc
  · rcases List.mem_append.mp hc with hc | hc
    · unfold signChars at hc
      split at hc
      · rw [List.mem_singleton.mp hc]
        decide
      · exact absurd hc List.not_mem_nil
    · rcases hmarker with rfl | rfl
      · exact absurd hc List.not_mem_nil
      · rw [List.mem_singleton.mp hc]
        decide
  · exact digitChars_octal hc

/-- A number is printed as it is to be, except the least signed number, and 8 and 9 in base 8. -/
theorem printsNumber_iff (num : BitVec 32) (t : NumType) (withsign : Bool) :
    PrintsNumber num t withsign ↔
      ¬(withsign = true ∧ num = 0x80000000) ∧
      ¬(t = .octal ∧ (magnitude num withsign = 8 ∨ magnitude num withsign = 9)) := by
  constructor
  · rintro ⟨marker, hmarker, hprint⟩
    constructor
    · rintro ⟨rfl, rfl⟩
      have hsign : signChars 0x80000000 true = [0x2D] := by decide
      apply @minus_notMem_numChars t true
      rw [hprint, hsign]
      simp
    · rintro ⟨rfl, hsmall⟩
      have hten : magnitude num withsign < 10 := by omega
      have hlast : NumType.digit .octal (magnitude num withsign) ∈
          signChars num withsign ++ marker ++ digitChars num .octal withsign := by
        rw [← hprint, numChars_code]
        simp [hten]
      have hbelow := printed_octal hmarker hlast
      rcases hsmall with h | h
      · rw [h] at hbelow
        exact absurd hbelow (by decide)
      · rw [h] at hbelow
        exact absurd hbelow (by decide)
  · rintro ⟨hleast, hoctal⟩
    have hsign : (if withsign = true ∧ 0x80000000 < num then [0x2D] else []) =
        signChars num withsign := by
      have hiff : (withsign = true ∧ 0x80000000 < num) ↔ (withsign = true ∧ num.toInt < 0) := by
        rw [toInt_neg_iff]
        exact ⟨fun h => ⟨h.1, .inl h.2⟩, fun h => ⟨h.1, h.2.resolve_right fun he =>
          hleast ⟨h.1, he⟩⟩⟩
      simp only [signChars, hiff]
    unfold PrintsNumber
    rw [numChars_code, hsign]
    split
    · next hsmall =>
      have hlt : magnitude num withsign < t.base := by
        cases t with
        | octal =>
          have hbase : NumType.base .octal = 8 := rfl
          have hne : ¬(magnitude num withsign = 8 ∨ magnitude num withsign = 9) :=
            fun h => hoctal ⟨rfl, h⟩
          omega
        | decimal => exact hsmall
        | hexLow => exact Nat.lt_of_lt_of_le hsmall (by decide)
        | hexCap => exact Nat.lt_of_lt_of_le hsmall (by decide)
      refine ⟨[], .inl rfl, ?_⟩
      rw [digitChars, numeral_of_lt hlt, List.append_nil]
      rfl
    · exact ⟨t.marker, .inr rfl, (List.append_assoc _ _ _).symm⟩

/-- In base 8, the number 8 is printed as `8`. -/
theorem not_printsNumber_octal_eight : ¬PrintsNumber 8 .octal false := by
  rintro ⟨marker, hmarker, hprint⟩
  have hmem : (0x38 : BitVec 8) ∈ numChars 8 NumType.octal.code false := by decide
  rw [hprint] at hmem
  exact absurd (printed_octal hmarker hmem) (by decide)

end right

end Avos
