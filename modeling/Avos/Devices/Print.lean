import Avos.Devices.PrintNum
import Avos.Devices.Terminal

/-! # Formatted Printing

  `Console_VPrint` and `Console_PrintString` of `kernel/devices/console/src/console.c`. The format,
  the strings and the arguments are read from the memory that holds the screen as well, while it
  is printed to.

  A format is a list of directives (`parse`), and a list of directives is printed as characters
  (`render`). The terminal shows these characters, and the argument pointer has moved by one word
  for each directive that takes an argument (`vPrint_renders`).
-/

open ByteMemory

namespace Avos.Console

/-! ## Section 1: The Code -/

/-- `Console_PrintString`: the loop from the byte at `string` on. -/
def printStringLoop : Nat → Console → BitVec 32 → Option Console
  | 0, _, _ => none
  | n + 1, s, string =>
      if s.mem string = 0 then some s
      else (s.printChar (s.mem string)).bind fun s => printStringLoop n s (string + 1)

/-- `Console_PrintString`. -/
def printString (s : Console) (string : BitVec 32) : Option Console :=
  printStringLoop (2 ^ 32) s string

/-- What is done for the character behind a `%`. The arguments are words, and `args` points to
    the next one. -/
def printConversion (s : Console) (c : BitVec 8) (args : BitVec 32) :
    Option (Console × BitVec 32) :=
  let arg := load32 s.mem args
  let next := args + 4
  if c = 0x63 then (s.printChar (arg.setWidth 8)).map fun s => (s, next)
  else if c = 0x64 then (s.printNum arg consoleNumtypeDecimal true).map fun s => (s, next)
  else if c = 0x69 then (s.printNum arg consoleNumtypeDecimal true).map fun s => (s, next)
  else if c = 0x75 then (s.printNum arg consoleNumtypeDecimal false).map fun s => (s, next)
  else if c = 0x6F then (s.printNum arg consoleNumtypeOctal false).map fun s => (s, next)
  else if c = 0x78 then (s.printNum arg consoleNumtypeHexlow false).map fun s => (s, next)
  else if c = 0x58 then (s.printNum arg consoleNumtypeHexcap false).map fun s => (s, next)
  else if c = 0x70 then (s.printNum arg consoleNumtypeHexlow false).map fun s => (s, next)
  else if c = 0x73 then (s.printString arg).map fun s => (s, next)
  else if c = 0x25 then (s.printChar c).map fun s => (s, args)
  else ((s.printChar 0x25).bind fun s => s.printChar c).map fun s => (s, args)

/-- The loop of `Console_VPrint`, from the byte at `format` on. -/
def vPrintLoop : Nat → Console → BitVec 32 → BitVec 32 → Option (Console × BitVec 32)
  | 0, _, _, _ => none
  | n + 1, s, format, args =>
      let c := s.mem format
      if c = 0 then some (s, args)
      else if c ≠ 0x25 then
        (s.printChar c).bind fun s => vPrintLoop n s (format + 1) args
      else
        let c := s.mem (format + 1)
        if c = 0 then some (s, args)
        else (s.printConversion c args).bind fun r => vPrintLoop n r.1 (format + 1 + 1) r.2

/-- `Console_VPrint`. -/
def vPrint (s : Console) (format args : BitVec 32) : Option (Console × BitVec 32) :=
  vPrintLoop (2 ^ 32) s format args

/-- What `Console_Panic` does before it prints. -/
def panicStart (s : Console) : Console :=
  let s := { s.clearScreen with pos := BitVec.ofNat 16 consolePosStart }
  s.setCursorPosition s.pos

/-- `Console_Panic`, up to the loop at its end. -/
def panic (s : Console) (format args : BitVec 32) : Option Console :=
  (s.panicStart.vPrint format args).map fun r => { r.1 with inpanic := true }

/-! ## Section 2: What Is to Be Printed -/

/-- A directive: a character for itself, or an argument as a character, a number or a string. -/
inductive Directive where
  | literal (c : BitVec 8)
  | char
  | number (t : NumType) (withsign : Bool)
  | string

/-- The directive for the character behind a `%`. Other characters than these stand for
    themselves, with the `%`. -/
def conversion (c : BitVec 8) : List Directive :=
  if c = 0x63 then [.char]
  else if c = 0x64 ∨ c = 0x69 then [.number .decimal true]
  else if c = 0x75 then [.number .decimal false]
  else if c = 0x6F then [.number .octal false]
  else if c = 0x78 ∨ c = 0x70 then [.number .hexLow false]
  else if c = 0x58 then [.number .hexCap false]
  else if c = 0x73 then [.string]
  else if c = 0x25 then [.literal 0x25]
  else [.literal 0x25, .literal c]

/-- The directives of a format. A `%` at its end is dropped. -/
def parse : List (BitVec 8) → List Directive
  | [] => []
  | [c] => if c = 0x25 then [] else [.literal c]
  | c :: d :: cs => if c = 0x25 then conversion d ++ parse cs else .literal c :: parse (d :: cs)

/-- A number: a minus sign where the code sees a negative number, and the digits, with the marker
    of the base when there are several. -/
def numText (num : BitVec 32) (t : NumType) (withsign : Bool) : List (BitVec 8) :=
  (if withsign = true ∧ 0x80000000 < num then [0x2D] else []) ++
    if magnitude num withsign < 10 then [t.digit (magnitude num withsign)]
    else t.marker ++ digitChars num t withsign

/-- The number of arguments that a directive takes. -/
def Directive.takes : Directive → Nat
  | .literal _ => 0
  | _ => 1

/-- The characters of a directive, with its argument. `text` has the strings by their
    addresses. -/
def Directive.chars (text : BitVec 32 → List (BitVec 8)) (arg : BitVec 32) :
    Directive → List (BitVec 8)
  | .literal c => [c]
  | .char => [arg.setWidth 8]
  | .number t withsign => numText arg t withsign
  | .string => text arg

/-- The characters of a list of directives, with the arguments in order. -/
def render (text : BitVec 32 → List (BitVec 8)) : List Directive → (Nat → BitVec 32) →
    List (BitVec 8)
  | [], _ => []
  | d :: ds, arg => d.chars text (arg 0) ++ render text ds fun k => arg (k + d.takes)

/-- The number of arguments that a list of directives takes. -/
def argCount (ds : List Directive) : Nat := (ds.map Directive.takes).sum

/-- The word at the argument pointer, and those behind it. -/
def argWord (m : Memory) (args : BitVec 32) (k : Nat) : BitVec 32 :=
  load32 m (args + BitVec.ofNat 32 (4 * k))

/-- Directives are printed, with the arguments in `m`, and their arguments are passed. -/
def printDirectives (s : Console) (m : Memory) (args : BitVec 32)
    (text : BitVec 32 → List (BitVec 8)) (ds : List Directive) : Option (Console × BitVec 32) :=
  (s.printChars (render text ds (argWord m args))).map fun s =>
    (s, args + BitVec.ofNat 32 (4 * argCount ds))

/-- A byte that is not on the screen. -/
def OffScreen (x : BitVec 32) : Prop := ¬InBytes consoleScreen 0x1040 x

instance (x : BitVec 32) : Decidable (OffScreen x) := inferInstanceAs (Decidable (¬_))

/-- A text that ends with a zero byte. -/
structure TextAt (m : Memory) (a : BitVec 32) (t : List (BitVec 8)) : Prop where
  bytes : ∀ i (hi : i < t.length), m (a + BitVec.ofNat 32 i) = t.get ⟨i, hi⟩
  nonzero : 0 ∉ t
  ends : m (a + BitVec.ofNat 32 t.length) = 0
  off : ∀ i ≤ t.length, OffScreen (a + BitVec.ofNat 32 i)

/-- The arguments are not on the screen, and those that are printed as strings point to texts. -/
structure ArgsAt (m : Memory) (args : BitVec 32) (text : BitVec 32 → List (BitVec 8))
    (ds : List Directive) : Prop where
  off : ∀ k < argCount ds, ∀ x, InBytes (args + BitVec.ofNat 32 (4 * k)) 4 x → OffScreen x
  texts : ∀ ds₁ ds₂, ds = ds₁ ++ .string :: ds₂ →
    TextAt m (argWord m args (argCount ds₁)) (text (argWord m args (argCount ds₁)))

/-- What is passed to `Console_VPrint`, and what is there: the bytes of the format, and the
    strings by their addresses. -/
structure Message where
  format : BitVec 32
  args : BitVec 32
  bytes : List (BitVec 8)
  strings : BitVec 32 → List (BitVec 8)

/-- A message is in the memory, with nothing of it on the screen. -/
structure Message.In (msg : Message) (m : Memory) : Prop where
  text : TextAt m msg.format msg.bytes
  arguments : ArgsAt m msg.args msg.strings (parse msg.bytes)

/-- The characters of a message. -/
def Message.chars (msg : Message) (m : Memory) : List (BitVec 8) :=
  render msg.strings (parse msg.bytes) (argWord m msg.args)

/-- One call of `Console_VPrint` for each message. -/
def printMessages (s : Console) : List Message → Option Console
  | [] => some s
  | msg :: msgs => (s.vPrint msg.format msg.args).bind fun r => r.1.printMessages msgs

/-! ## Section 3: Printing Writes to the Screen Only -/

section screen

variable {s₀ s s' : Console} {i n first : Nat} {c : BitVec 8} {cs : List (BitVec 8)}

theorem onlyIn_setCell {v : BitVec 16} (hi : i < 2080) :
    OnlyIn consoleScreen 0x1040 s.mem (s.setCell i v).mem :=
  onlyIn_store16.of_add (by omega) (by decide)

theorem onlyIn_setCells {f : Nat → BitVec 16} (hn : first + n ≤ 2080) :
    OnlyIn consoleScreen 0x1040 s.mem (s.setCells first f n).mem := by
  induction n with
  | zero => exact .refl
  | succ n ih => exact (ih (by omega)).trans (onlyIn_setCell (by omega))

theorem onlyIn_clearLine : OnlyIn consoleScreen 0x1040 s.mem (s.clearLine consoleLines).mem :=
  onlyIn_setCells (by decide)

theorem onlyIn_putChar (hpos : s.pos.toNat < 2000) (hlow : 80 ≤ s.pos.toNat) :
    OnlyIn consoleScreen 0x1040 s.mem (s.putChar c).mem := by
  rw [putChar]
  dsimp only
  split
  · exact .refl
  split
  · exact .refl
  split
  · exact .refl
  split
  · refine onlyIn_setCell (s := { s with pos := s.pos - 1 }) ?_
    bv_omega
  · exact onlyIn_setCell (by omega)

theorem onlyIn_scroll (hpos : s.pos.toNat < 2080) :
    OnlyIn consoleScreen 0x1040 s.mem s.scroll.mem := by
  have hsize : (BitVec.ofNat 32 ((s.pos.toNat - consolePosStart) * 2)).toNat =
      (s.pos.toNat - 80) * 2 := by
    rw [BitVec.toNat_ofNat, consolePosStart]
    omega
  have hmove : OnlyIn (cellAddr consolePosStart)
      (BitVec.ofNat 32 ((s.pos.toNat - consolePosStart) * 2)).toNat s.mem s.scroll.mem := by
    rw [Console.scroll]
    dsimp only
    exact onlyIn_memmove
  rw [hsize] at hmove
  exact OnlyIn.of_add hmove (by rw [consolePosStart]; omega) (by decide)

/-- A character is printed. -/
theorem Printing.onlyIn_printChar (h : Printing s₀ s) (hs : s.printChar c = some s') :
    OnlyIn consoleScreen 0x1040 s.mem s'.mem := by
  rw [Console.printChar] at hs
  split at hs
  · cases hs
  split at hs
  · rw [← Option.some.inj hs]
    exact .refl
  · next hc =>
    obtain rfl := Option.some.inj hs
    have hput := h.toKeeps.putChar hc
    have hhigh := hput.high
    have hscrolled : OnlyIn consoleScreen 0x1040 (s.putChar c).mem
        (if consoleColumns * consoleLines ≤ (s.putChar c).pos.toNat then (s.putChar c).scroll
          else s.putChar c).mem := by
      split
      · exact onlyIn_scroll (by omega)
      · exact .refl
    exact (onlyIn_putChar h.high h.low).trans (hscrolled.trans onlyIn_clearLine)

theorem Printing.onlyIn_printChars (h : Printing s₀ s) (hs : s.printChars cs = some s') :
    OnlyIn consoleScreen 0x1040 s.mem s'.mem := by
  induction cs generalizing s with
  | nil =>
    rw [← Option.some.inj hs]
    exact .refl
  | cons c cs ih =>
    obtain ⟨s₁, hs₁, h₁⟩ := h.printChar c
    rw [Console.printChars, hs₁] at hs
    exact (h.onlyIn_printChar hs₁).trans (ih h₁ hs)

end screen

/-! ## Section 4: What Is Read -/

section texts

variable {m m' : Memory} {a args x c : BitVec 32} {b : BitVec 8} {t : List (BitVec 8)}
  {text : BitVec 32 → List (BitVec 8)} {ds ds' : List Directive}

/-- What is not on the screen is not changed by printing. -/
theorem load32_offScreen (h : OnlyIn consoleScreen 0x1040 m m')
    (hoff : ∀ x, InBytes a 4 x → OffScreen x) : load32 m' a = load32 m a :=
  load32_congr fun x hx => h x (hoff x hx)

theorem add_ofNat_succ {i : Nat} :
    a + BitVec.ofNat 32 (i + 1) = a + 1 + BitVec.ofNat 32 i := by
  rw [BitVec.add_assoc, Nat.add_comm, BitVec.ofNat_add]
  rfl

/-- The first byte of a text, and the rest. -/
theorem TextAt.cons (h : TextAt m a (b :: t)) : m a = b ∧ b ≠ 0 ∧ OffScreen a ∧
    TextAt m (a + 1) t := by
  have hzero : a + BitVec.ofNat 32 0 = a := BitVec.add_zero a
  have hfirst := h.bytes 0 (Nat.zero_lt_succ _)
  have hoff := h.off 0 (Nat.zero_le _)
  rw [hzero] at hfirst hoff
  refine ⟨hfirst, fun hb => h.nonzero (hb ▸ List.mem_cons_self), hoff, ⟨fun i hi => ?_,
    fun hmem => h.nonzero (List.mem_cons_of_mem _ hmem), ?_, fun i hi => ?_⟩⟩
  · rw [← add_ofNat_succ]
    exact h.bytes (i + 1) (Nat.succ_lt_succ hi)
  · rw [← add_ofNat_succ]
    exact h.ends
  · rw [← add_ofNat_succ]
    exact h.off (i + 1) (Nat.succ_le_succ hi)

/-- The end of a text. -/
theorem TextAt.nil (h : TextAt m a []) : m a = 0 ∧ OffScreen a := by
  have hzero : a + BitVec.ofNat 32 0 = a := BitVec.add_zero a
  have hend := h.ends
  have hoff := h.off 0 (Nat.le_refl _)
  rw [List.length_nil, hzero] at hend
  rw [hzero] at hoff
  exact ⟨hend, hoff⟩

/-- A text that ends is shorter than the memory. -/
theorem TextAt.length_lt (h : TextAt m a t) : t.length < 2 ^ 32 := by
  by_contra hle
  have hwrap : BitVec.ofNat 32 t.length = BitVec.ofNat 32 (t.length - 2 ^ 32) := by
    refine BitVec.eq_of_toNat_eq ?_
    rw [BitVec.toNat_ofNat, BitVec.toNat_ofNat]
    omega
  have hbyte := h.bytes (t.length - 2 ^ 32) (by omega)
  rw [← hwrap, h.ends] at hbyte
  exact h.nonzero (hbyte ▸ List.get_mem t _)

theorem argWord_zero : argWord m args 0 = load32 m args :=
  congrArg (load32 m) (BitVec.add_zero args)

theorem argWord_add {k n : Nat} :
    argWord m (args + BitVec.ofNat 32 (4 * n)) k = argWord m args (k + n) := by
  rw [argWord, argWord, BitVec.add_assoc, ← BitVec.ofNat_add, ← Nat.mul_add, Nat.add_comm]

theorem argCount_append : argCount (ds ++ ds') = argCount ds + argCount ds' := by
  rw [argCount, List.map_append, List.sum_append]
  rfl

theorem argCount_cons {d : Directive} : argCount (d :: ds) = d.takes + argCount ds := rfl

theorem ArgsAt.left (h : ArgsAt m args text (ds ++ ds')) : ArgsAt m args text ds where
  off k hk := h.off k (by rw [argCount_append]; omega)
  texts ds₁ ds₂ heq := h.texts ds₁ (ds₂ ++ ds') (by rw [heq, List.append_assoc]; rfl)

/-- The arguments of the later directives. -/
theorem ArgsAt.right (h : ArgsAt m args text (ds ++ ds')) :
    ArgsAt m (args + BitVec.ofNat 32 (4 * argCount ds)) text ds' where
  off k hk := by
    rw [BitVec.add_assoc, ← BitVec.ofNat_add, ← Nat.mul_add]
    exact h.off _ (by rw [argCount_append]; omega)
  texts ds₁ ds₂ heq := by
    rw [argWord_add, Nat.add_comm, ← argCount_append]
    exact h.texts (ds ++ ds₁) ds₂ (by rw [heq, List.append_assoc])

theorem render_append {arg : Nat → BitVec 32} : render text (ds ++ ds') arg =
    render text ds arg ++ render text ds' fun k => arg (k + argCount ds) := by
  induction ds generalizing arg with
  | nil => rfl
  | cons d ds ih =>
    have hshift : (fun k => arg (k + argCount ds + d.takes)) =
        fun k => arg (k + argCount (d :: ds)) := by
      funext k
      rw [argCount_cons, Nat.add_assoc, Nat.add_comm (argCount ds)]
    rw [List.cons_append, render, render, ih, hshift, List.append_assoc]

end texts

/-! ## Section 5: What Is Printed -/

section printing

variable {m : Memory} {s₀ s s' : Console} {a format args : BitVec 32} {c : BitVec 8}
  {t cs cs' : List (BitVec 8)} {text : BitVec 32 → List (BitVec 8)} {n : Nat}

theorem printChars_append :
    s.printChars (cs ++ cs') = (s.printChars cs).bind fun s => s.printChars cs' := by
  induction cs generalizing s with
  | nil => rfl
  | cons c cs ih =>
    rw [List.cons_append, Console.printChars, Console.printChars, Option.bind_assoc]
    exact congrArg _ (funext fun s => ih)

theorem printChars_one : s.printChars [c] = s.printChar c := by
  rw [Console.printChars]
  exact Option.bind_fun_some _

/-- `Console_PrintString` prints the text. -/
theorem printStringLoop_eq (h : Printing s₀ s) (hm : OnlyIn consoleScreen 0x1040 m s.mem)
    (ht : TextAt m a t) (hn : t.length < n) : printStringLoop n s a = s.printChars t := by
  induction t generalizing s a n with
  | nil =>
    obtain ⟨n, rfl⟩ : ∃ k, n = k + 1 := ⟨n - 1, by omega⟩
    obtain ⟨hend, hoff⟩ := ht.nil
    rw [printStringLoop, hm a hoff, hend, if_pos rfl]
    rfl
  | cons c t ih =>
    obtain ⟨n, rfl⟩ : ∃ k, n = k + 1 := ⟨n - 1, by omega⟩
    obtain ⟨hbyte, hne, hoff, hrest⟩ := ht.cons
    obtain ⟨s₁, hs₁, h₁⟩ := h.printChar c
    have hm₁ := hm.trans (h.onlyIn_printChar hs₁)
    rw [printStringLoop, hm a hoff, hbyte, if_neg hne, Console.printChars, hs₁]
    exact ih h₁ hm₁ hrest (Nat.lt_of_succ_lt_succ hn)

theorem printString_eq (h : Printing s₀ s) (hm : OnlyIn consoleScreen 0x1040 m s.mem)
    (ht : TextAt m a t) : s.printString a = s.printChars t :=
  printStringLoop_eq h hm ht ht.length_lt

theorem printNum_eq {num : BitVec 32} {ty : NumType} {withsign : Bool} :
    s.printNum num ty.code withsign = s.printChars (numText num ty withsign) := by
  rw [Console.printNum, numChars_code, numText]

/-- A directive that takes an argument. -/
theorem printConversion_one {d : Directive} {p : BitVec 32 → Option Console}
    (hm : OnlyIn consoleScreen 0x1040 m s.mem) (ha : ArgsAt m args text (conversion c))
    (hconv : conversion c = [d]) (htakes : d.takes = 1)
    (hcode : s.printConversion c args = (p (load32 s.mem args)).map fun s => (s, args + 4))
    (hp : p (load32 m args) = s.printChars (d.chars text (load32 m args))) :
    s.printConversion c args =
      s.printDirectives m args text (conversion c) := by
  have hcount : argCount [d] = 1 := by rw [argCount_cons, htakes]; rfl
  have hzero : args + BitVec.ofNat 32 (4 * 0) = args := BitVec.add_zero args
  have harg : load32 s.mem args = load32 m args := by
    refine load32_offScreen hm fun x hx => ha.off 0 ?_ x (by rwa [hzero])
    rw [hconv, hcount]
    exact Nat.one_pos
  have hchars : render text [d] (argWord m args) = d.chars text (load32 m args) := by
    rw [render, render, List.append_nil, argWord_zero]
  rw [hcode, harg, hp, hconv, printDirectives, hcount, hchars]
  rfl

/-- What is done for the character behind a `%` is what its directives say. -/
theorem printConversion_eq (h : Printing s₀ s) (hm : OnlyIn consoleScreen 0x1040 m s.mem)
    (ha : ArgsAt m args text (conversion c)) : s.printConversion c args =
      s.printDirectives m args text (conversion c) := by
  have hnum : ∀ (ty : NumType) (withsign : Bool), s.printNum (load32 m args) ty.code withsign =
      s.printChars (Directive.chars text (load32 m args) (.number ty withsign)) :=
    fun _ _ => printNum_eq
  by_cases h₁ : c = 0x63
  · subst h₁
    exact printConversion_one (p := fun w => s.printChar (w.setWidth 8)) hm ha rfl rfl rfl
      printChars_one.symm
  by_cases h₂ : c = 0x64
  · subst h₂
    exact printConversion_one (p := fun w => s.printNum w consoleNumtypeDecimal true) hm ha rfl rfl
      rfl (hnum .decimal true)
  by_cases h₃ : c = 0x69
  · subst h₃
    exact printConversion_one (p := fun w => s.printNum w consoleNumtypeDecimal true) hm ha rfl rfl
      rfl (hnum .decimal true)
  by_cases h₄ : c = 0x75
  · subst h₄
    exact printConversion_one (p := fun w => s.printNum w consoleNumtypeDecimal false) hm ha rfl rfl
      rfl (hnum .decimal false)
  by_cases h₅ : c = 0x6F
  · subst h₅
    exact printConversion_one (p := fun w => s.printNum w consoleNumtypeOctal false) hm ha rfl rfl
      rfl (hnum .octal false)
  by_cases h₆ : c = 0x78
  · subst h₆
    exact printConversion_one (p := fun w => s.printNum w consoleNumtypeHexlow false) hm ha rfl rfl
      rfl (hnum .hexLow false)
  by_cases h₇ : c = 0x58
  · subst h₇
    exact printConversion_one (p := fun w => s.printNum w consoleNumtypeHexcap false) hm ha rfl rfl
      rfl (hnum .hexCap false)
  by_cases h₈ : c = 0x70
  · subst h₈
    exact printConversion_one (p := fun w => s.printNum w consoleNumtypeHexlow false) hm ha rfl rfl
      rfl (hnum .hexLow false)
  by_cases h₉ : c = 0x73
  · subst h₉
    have htext : TextAt m (argWord m args 0) (text (argWord m args 0)) := ha.texts [] [] rfl
    rw [argWord_zero] at htext
    exact printConversion_one (p := fun w => s.printString w) hm ha rfl rfl rfl
      (printString_eq h hm htext)
  by_cases h₀ : c = 0x25
  · subst h₀
    have hzero : args + BitVec.ofNat 32 (4 * argCount (conversion 0x25)) = args :=
      BitVec.add_zero args
    rw [printDirectives, hzero]
    exact congrArg (Option.map fun s => (s, args)) printChars_one.symm
  · have hconv : conversion c = [.literal 0x25, .literal c] := by
      simp only [conversion, h₁, h₂, h₃, h₄, h₅, h₆, h₇, h₈, h₉, h₀, or_self, if_false]
    have hzero : args + BitVec.ofNat 32 (4 * argCount [.literal 0x25, .literal c]) = args :=
      BitVec.add_zero args
    rw [hconv, printDirectives, hzero]
    simp only [printConversion, h₁, h₂, h₃, h₄, h₅, h₆, h₇, h₈, h₉, h₀, if_false]
    refine congrArg (Option.map fun s => (s, args)) ?_
    show _ = s.printChars [0x25, c]
    rw [Console.printChars]
    exact congrArg _ (funext fun s => printChars_one.symm)

/-- Directives are printed one after the other. -/
theorem printDirectives_append {ds ds' : List Directive} :
    s.printDirectives m args text (ds ++ ds') = (s.printDirectives m args text ds).bind fun r =>
      r.1.printDirectives m r.2 text ds' := by
  have hwords : argWord m (args + BitVec.ofNat 32 (4 * argCount ds)) =
      fun k => argWord m args (k + argCount ds) := funext fun _ => argWord_add
  rw [printDirectives, render_append, printChars_append, printDirectives]
  cases s.printChars (render text ds (argWord m args)) with
  | none => rfl
  | some s₁ =>
    show Option.map _ _ = printDirectives s₁ m (args + BitVec.ofNat 32 (4 * argCount ds)) text ds'
    rw [printDirectives, hwords, argCount_append, BitVec.add_assoc, ← BitVec.ofNat_add,
      ← Nat.mul_add]
    rfl

theorem printDirectives_nil : s.printDirectives m args text [] = some (s, args) := by
  have hzero : args + BitVec.ofNat 32 (4 * argCount []) = args := BitVec.add_zero args
  rw [printDirectives, hzero]
  rfl

theorem printDirectives_literal {ds : List Directive} :
    s.printDirectives m args text (.literal c :: ds) =
      (s.printChar c).bind fun s => s.printDirectives m args text ds := by
  have hone : s.printDirectives m args text [.literal c] =
      (s.printChar c).map fun s => (s, args) := by
    have hzero : args + BitVec.ofNat 32 (4 * argCount [.literal c]) = args := BitVec.add_zero args
    rw [printDirectives, hzero]
    exact congrArg (Option.map fun s => (s, args)) printChars_one
  rw [← List.singleton_append, printDirectives_append, hone, Option.bind_map]
  rfl

/-- A character for itself. -/
theorem vPrintLoop_literal {ds : List Directive} (h : Printing s₀ s)
    (hm : OnlyIn consoleScreen 0x1040 m s.mem) (hf : TextAt m format (c :: cs)) (hc : c ≠ 0x25)
    (hrest : ∀ s', Printing s₀ s' → OnlyIn consoleScreen 0x1040 m s'.mem →
      vPrintLoop n s' (format + 1) args = s'.printDirectives m args text ds) :
    vPrintLoop (n + 1) s format args = s.printDirectives m args text (.literal c :: ds) := by
  obtain ⟨hbyte, hne, hoff, -⟩ := hf.cons
  obtain ⟨s₁, hs₁, h₁⟩ := h.printChar c
  rw [vPrintLoop, hm format hoff, hbyte, if_neg hne, if_pos hc, printDirectives_literal, hs₁]
  exact hrest s₁ h₁ (hm.trans (h.onlyIn_printChar hs₁))

/-- The end of the format. -/
theorem vPrintLoop_nil (hm : OnlyIn consoleScreen 0x1040 m s.mem) (hf : TextAt m format []) :
    vPrintLoop (n + 1) s format args = s.printDirectives m args text [] := by
  obtain ⟨hend, hoff⟩ := hf.nil
  rw [vPrintLoop, hm format hoff, hend, if_pos rfl, printDirectives_nil]

/-- A `%` and the character behind it. -/
theorem vPrintLoop_conversion {d : BitVec 8} {ds : List Directive} (h : Printing s₀ s)
    (hm : OnlyIn consoleScreen 0x1040 m s.mem) (hf : TextAt m format (0x25 :: d :: cs))
    (ha : ArgsAt m args text (conversion d))
    (hrest : ∀ s' args', Printing s₀ s' → OnlyIn consoleScreen 0x1040 m s'.mem →
      args' = args + BitVec.ofNat 32 (4 * argCount (conversion d)) →
      vPrintLoop n s' (format + 1 + 1) args' = s'.printDirectives m args' text ds) :
    vPrintLoop (n + 1) s format args = s.printDirectives m args text (conversion d ++ ds) := by
  obtain ⟨hbyte, hne, hoff, hrest₁⟩ := hf.cons
  obtain ⟨hbyte₁, hne₁, hoff₁, -⟩ := hrest₁.cons
  obtain ⟨s₁, hs₁, h₁⟩ := h.printChars (render text (conversion d) (argWord m args))
  have hm₁ := hm.trans (h.onlyIn_printChars hs₁)
  have hprinted : s.printDirectives m args text (conversion d) =
      some (s₁, args + BitVec.ofNat 32 (4 * argCount (conversion d))) := by
    rw [printDirectives, hs₁]
    rfl
  rw [vPrintLoop, hm format hoff, hbyte, if_neg hne, if_neg (not_not_intro rfl)]
  dsimp only
  rw [hm (format + 1) hoff₁, hbyte₁, if_neg hne₁, printConversion_eq h hm ha,
    printDirectives_append, hprinted]
  exact hrest s₁ _ h₁ hm₁ rfl

/-- The loop prints what the directives of the format say. -/
theorem vPrintLoop_eq (h : Printing s₀ s) (hm : OnlyIn consoleScreen 0x1040 m s.mem)
    (hf : TextAt m format cs) (ha : ArgsAt m args text (parse cs)) (hn : cs.length < n) :
    vPrintLoop n s format args = s.printDirectives m args text (parse cs) := by
  induction cs using parse.induct generalizing s format args n with
  | case1 =>
    obtain ⟨n, rfl⟩ : ∃ k, n = k + 1 := ⟨n - 1, by omega⟩
    exact vPrintLoop_nil hm hf
  | case2 =>
    -- a `%` at the end of the format
    obtain ⟨n, rfl⟩ : ∃ k, n = k + 1 := ⟨n - 1, by omega⟩
    obtain ⟨hbyte, hne, hoff, hrest⟩ := hf.cons
    obtain ⟨hend, hoff₁⟩ := hrest.nil
    rw [vPrintLoop, hm format hoff, hbyte, if_neg hne, if_neg (not_not_intro rfl)]
    dsimp only
    rw [hm (format + 1) hoff₁, hend, if_pos rfl]
    exact printDirectives_nil.symm
  | case3 c hc =>
    obtain ⟨n, rfl⟩ : ∃ k, n = k + 1 := ⟨n - 1, by omega⟩
    obtain ⟨k, rfl⟩ : ∃ k, n = k + 1 := ⟨n - 1, by rw [List.length_singleton] at hn; omega⟩
    rw [parse, if_neg hc]
    refine vPrintLoop_literal h hm hf hc fun s' _ hm' => ?_
    exact vPrintLoop_nil hm' hf.cons.2.2.2
  | case4 d cs ih =>
    obtain ⟨n, rfl⟩ : ∃ k, n = k + 1 := ⟨n - 1, by omega⟩
    have hparse : parse (0x25 :: d :: cs) = conversion d ++ parse cs := by rw [parse, if_pos rfl]
    rw [hparse] at ha ⊢
    refine vPrintLoop_conversion h hm hf ha.left fun s' args' h' hm' hargs => ?_
    refine ih h' hm' hf.cons.2.2.2.cons.2.2.2 (hargs ▸ ha.right) ?_
    rw [List.length_cons, List.length_cons] at hn
    omega
  | case5 c d cs hc ih =>
    obtain ⟨n, rfl⟩ : ∃ k, n = k + 1 := ⟨n - 1, by omega⟩
    have hparse : parse (c :: d :: cs) = .literal c :: parse (d :: cs) := by
      rw [parse, if_neg hc]
    have hzero : args + BitVec.ofNat 32 (4 * argCount [.literal c]) = args := BitVec.add_zero args
    rw [hparse] at ha ⊢
    have harest := ArgsAt.right (show ArgsAt m args text ([.literal c] ++ parse (d :: cs)) from ha)
    rw [hzero] at harest
    refine vPrintLoop_literal h hm hf hc fun s' h' hm' => ?_
    exact ih h' hm' hf.cons.2.2.2 harest (Nat.lt_of_succ_lt_succ hn)

/-- A message is printed as its characters: the terminal shows them, and one word of the
    arguments is passed for each directive that takes one. -/
theorem vPrint_renders {t : Terminal} {msg : Message} (h : Printing s₀ s) (ht : Shows s t)
    (hm : OnlyIn consoleScreen 0x1040 m s.mem) (hmsg : msg.In m) : ∃ s',
      s.vPrint msg.format msg.args =
        some (s', msg.args + BitVec.ofNat 32 (4 * argCount (parse msg.bytes))) ∧
      Printing s₀ s' ∧ OnlyIn consoleScreen 0x1040 m s'.mem ∧
      Shows s' (t.printAll (msg.chars m)) := by
  obtain ⟨s', hs', h'⟩ := h.printChars (msg.chars m)
  obtain ⟨s₁, hs₁, hshows⟩ := ht.printChars h (msg.chars m)
  obtain rfl := Option.some.inj (hs₁.symm.trans hs')
  refine ⟨s₁, ?_, h', hm.trans (h.onlyIn_printChars hs'), hshows⟩
  rw [vPrint, vPrintLoop_eq h hm hmsg.text hmsg.arguments hmsg.text.length_lt, printDirectives]
  exact congrArg (Option.map _) hs'

/-- Messages are printed one after the other. -/
theorem printMessages_renders {t : Terminal} {msgs : List Message} (h : Printing s₀ s)
    (ht : Shows s t) (hm : OnlyIn consoleScreen 0x1040 m s.mem)
    (hmsgs : ∀ msg ∈ msgs, msg.In m) : ∃ s', s.printMessages msgs = some s' ∧
      Printing s₀ s' ∧ OnlyIn consoleScreen 0x1040 m s'.mem ∧
      Shows s' (t.printAll (msgs.flatMap fun msg => msg.chars m)) := by
  induction msgs generalizing s t with
  | nil => exact ⟨s, rfl, h, hm, ht⟩
  | cons msg msgs ih =>
    obtain ⟨s₁, hs₁, h₁, hm₁, ht₁⟩ := vPrint_renders h ht hm (hmsgs msg List.mem_cons_self)
    obtain ⟨s₂, hs₂, h₂, hm₂, ht₂⟩ :=
      ih h₁ ht₁ hm₁ fun x hx => hmsgs x (List.mem_cons_of_mem _ hx)
    refine ⟨s₂, ?_, h₂, hm₂, ?_⟩
    · rw [printMessages, hs₁]
      exact hs₂
    · rw [List.flatMap_cons, Terminal.printAll, List.foldl_append]
      exact ht₂

end printing

/-! ## Section 6: From Power On to a Panic -/

section panic

variable {s₀ s : Console}

theorem onlyIn_clearScreen : OnlyIn consoleScreen 0x1040 s.mem s.clearScreen.mem :=
  (onlyIn_setCells (by decide)).trans onlyIn_clearLine

theorem onlyIn_consoleInitialize :
    OnlyIn consoleScreen 0x1040 s.mem s.consoleInitialize.mem := by
  rw [consoleInitialize]
  dsimp only [setCursorPosition]
  refine OnlyIn.trans ?_ onlyIn_clearScreen
  refine OnlyIn.trans (onlyIn_setCells ?_) (onlyIn_setCells ?_)
  · decide
  · decide

theorem panicStart_mem : s.panicStart.mem = s.clearScreen.mem := by
  rw [panicStart, setCursorPosition]

theorem panicStart_cell {i : Nat} : s.panicStart.cell i = s.clearScreen.cell i := by
  rw [cell, cell, panicStart_mem]

theorem panicStart_pos : s.panicStart.pos.toNat = 80 := by
  rw [panicStart, setCursorPosition, consolePosStart]
  rfl

theorem Keeps.clearScreen (h : Keeps s₀ s 2000) : Keeps s₀ s.clearScreen 2000 :=
  Keeps.clearLine (Keeps.setCells h (by decide) (by decide))

theorem Printing.panicStart (h : Printing s₀ s) : Printing s₀ s.panicStart where
  toKeeps := by
    rw [Console.panicStart]
    refine Keeps.setCursorPosition (h.clearScreen.move ?_ ?_)
    · decide
    · decide
  spare i hi hi' := by
    rw [panicStart_cell, Console.clearScreen]
    exact clearLine_cell hi hi'

theorem shows_panicStart : Shows s.panicStart Terminal.start := by
  refine ⟨fun r k => ?_, panicStart_pos⟩
  have hblank : Terminal.start.char r k = 0 := by
    simp [Terminal.char, Terminal.start]
  rw [hblank, signedCell_zero, panicStart_cell, Console.clearScreen]
  simp only [Console.clearLine, consoleColumns, consoleLines, Nat.reduceMul, Nat.reduceSub]
  rw [setCells_cell (by omega) (by omega), if_neg (by omega), setCells_cell (by omega) (by omega),
    if_pos ⟨by omega, by omega⟩]

/-- After power on, the messages are shown as a terminal shows their characters. When the kernel
    panics, its last message is on a terminal with nothing else, below the same banner, and no
    character is printed after it. -/
theorem messages_shown (mem : Memory) (cursor : BitVec 16) (msgs : List Message)
    (msg : Message) (hmsgs : ∀ x ∈ msgs, x.In mem) (hmsg : msg.In mem) : ∃ s p,
      (atPowerOn mem cursor).consoleInitialize.printMessages msgs = some s ∧
      Shows s (Terminal.start.printAll (msgs.flatMap fun x => x.chars mem)) ∧
      s.panic msg.format msg.args = some p ∧
      Shows p (Terminal.start.printAll (msg.chars mem)) ∧
      (∀ i, i < 80 → p.cell i = (atPowerOn mem cursor).consoleInitialize.cell i) ∧
      OnlyIn consoleScreen 0x1040 mem p.mem ∧ ∀ c, p.printChar c = none := by
  have hstart := printing_consoleInitialize (atPowerOn mem cursor) rfl rfl
  have hshows := shows_consoleInitialize (atPowerOn mem cursor) rfl
  obtain ⟨s, hs, h, hm, ht⟩ :=
    printMessages_renders hstart hshows onlyIn_consoleInitialize hmsgs
  have hclear : OnlyIn consoleScreen 0x1040 mem s.panicStart.mem := by
    rw [panicStart_mem]
    exact hm.trans onlyIn_clearScreen
  obtain ⟨p, hp, hkeeps, hmp, htp⟩ :=
    vPrint_renders h.panicStart shows_panicStart hclear hmsg
  refine ⟨s, { p with inpanic := true }, hs, ht, ?_, ⟨htp.cells, htp.pos⟩, hkeeps.banner, hmp,
    fun c => rfl⟩
  rw [panic, hp]
  rfl

/-- `"%s%d"` with the string `"a"` and the number -12. -/
def sampleMemory : Memory := fun x =>
  (([(0x1000, 0x25), (0x1001, 0x73), (0x1002, 0x25), (0x1003, 0x64), (0x2001, 0x30),
    (0x2004, 0xF4), (0x2005, 0xFF), (0x2006, 0xFF), (0x2007, 0xFF), (0x3000, 0x61)] :
      List (BitVec 32 × BitVec 8)).lookup x).getD 0

def sampleMessage : Message where
  format := 0x1000
  args := 0x2000
  bytes := [0x25, 0x73, 0x25, 0x64]
  strings _ := [0x61]

theorem sampleMessage_in : sampleMessage.In sampleMemory where
  text := ⟨by decide, by decide, by decide, by decide⟩
  arguments := by
    refine ⟨fun k hk x hx => ?_, fun ds₁ ds₂ heq => ?_⟩
    · have hcount : argCount (parse sampleMessage.bytes) = 2 := by decide
      rw [hcount] at hk
      simp only [InBytes, OffScreen, sampleMessage, consoleScreen] at hx ⊢
      obtain rfl | rfl : k = 0 ∨ k = 1 := by omega
      · bv_omega
      · bv_omega
    · have hparse : parse sampleMessage.bytes = [.string, .number .decimal true] := rfl
      rw [hparse] at heq
      obtain rfl : ds₁ = [] := by
        rcases ds₁ with _ | ⟨d, _ | ⟨d', ds₁⟩⟩
        · rfl
        · simp at heq
        · simp at heq
      exact ⟨by decide, by decide, by decide, by decide⟩

/-- The text of a message, a second time after a panic. -/
theorem messages_shown_sample : ∃ s p,
    (atPowerOn sampleMemory 0).consoleInitialize.printMessages [sampleMessage] = some s ∧
    Shows s (Terminal.start.printAll [0x61, 0x2D, 0x31, 0x32]) ∧
    s.panic sampleMessage.format sampleMessage.args = some p ∧
    Shows p (Terminal.start.printAll [0x61, 0x2D, 0x31, 0x32]) := by
  have hchars : sampleMessage.chars sampleMemory = [0x61, 0x2D, 0x31, 0x32] := by decide
  obtain ⟨s, p, hs, ht, hp, htp, -⟩ := messages_shown sampleMemory 0 [sampleMessage] sampleMessage
    (fun x hx => List.eq_of_mem_singleton hx ▸ sampleMessage_in) sampleMessage_in
  rw [List.flatMap_singleton, hchars] at ht
  rw [hchars] at htp
  exact ⟨s, p, hs, ht, hp, htp⟩

end panic

end Avos.Console
