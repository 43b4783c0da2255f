import Avos.Bootloader.Services

/-! # The Search for a Video Mode

  `VBE_GetMode` and `VBE_GetTextMode` of `bootloader/multiboot/src/video.c`. They scan the list of
  modes up to seven times, and ask the BIOS about every mode.

  What they look for is an order of preference: a list of classes of modes, the best one first
  (`modeClasses`). The mode that is wanted is the first one in the list that is in the best class
  that has any (`bestMode`). In classes that are not for text only, it is to be used with a linear
  framebuffer, which is bit 14 of the result.
-/

open ByteMemory

namespace Avos.Multiboot

/-! ## Section 1: The Order of Preference -/

/-- A class of modes. -/
structure ModeClass where
  holds : BitVec 16 → ModeInfo → Bool
  textOnly : Bool

namespace ModeClass

/-- The BIOS knows the mode, and it is in the class. -/
def Has (c : ModeClass) (info : BitVec 16 → Option ModeInfo) (mode : BitVec 16) : Bool :=
  (info mode).any (c.holds mode)

/-- The linear framebuffer is asked for, unless the class is for text only. -/
def mark (c : ModeClass) (mode : BitVec 16) : BitVec 16 :=
  if c.textOnly then mode else mode ||| 0x4000

end ModeClass

/-- A text mode with 25 lines of 80 characters. -/
def IsStandardText (info : ModeInfo) : Prop := info.IsText ∧ info.width = 80 ∧ info.height = 25

instance (info : ModeInfo) : Decidable (IsStandardText info) :=
  inferInstanceAs (Decidable (_ ∧ _))

/-- What the comment of `VBE_GetMode` says is tried, in this order. -/
def modeClasses (width height depth : BitVec 32) : List ModeClass :=
  if width = 0 ∧ height = 0 ∧ depth = 0 then
    [⟨fun mode info => mode = 3 ∧ IsStandardText info, true⟩,
      ⟨fun _ info => IsStandardText info, true⟩,
      ⟨fun _ info => info.IsText, true⟩,
      ⟨fun _ _ => true, false⟩]
  else if depth = 0 then
    [⟨fun _ info => info.IsText ∧ info.HasSize width height, true⟩,
      ⟨fun _ info => info.HasSize width height, false⟩]
  else
    [⟨fun _ info => info.HasSize width height ∧ info.bpp.setWidth 32 = depth, false⟩]

/-- The first mode of the best class that has one, marked as the class says. -/
def bestMode (info : BitVec 16 → Option ModeInfo) (l : List (BitVec 16))
    (classes : List ModeClass) : Option (BitVec 16) :=
  classes.findSome? fun c => (l.find? (c.Has info)).map c.mark

/-! ## Section 2: The BIOS and the List -/

/-- What the BIOS reports on a mode. `none` when it refuses. -/
def reported {β : Type*} (B : Bios β) (buffer : BitVec 32) (b : β) (mode : BitVec 16) :
    Option ModeInfo :=
  let answer := B.interrupt b 0x10 (modeInfoRegisters mode buffer)
  if answer.2.1.ax = 0x4F then some (modeBuffer answer.1) else none

/-- The BIOS reports the same on a mode whenever it is asked. -/
structure ReportsModes {β : Type*} (B : Bios β) (ok : β → Prop) (buffer : BitVec 32)
    (info : BitVec 16 → Option ModeInfo) : Prop where
  keeps : ∀ b mode, ok b → ok (B.interrupt b 0x10 (modeInfoRegisters mode buffer)).2.2
  reports : ∀ b mode, ok b → reported B buffer b mode = info mode

/-- The list of modes is in memory, with its end behind it. -/
structure HasModes (m : Memory) (modes : BitVec 32) (l : List (BitVec 16)) : Prop where
  entry : ∀ i, i < l.length → load16 m (modes + BitVec.ofNat 32 (2 * i)) = l.getD i 0
  last : load16 m (modes + BitVec.ofNat 32 (2 * l.length)) = 0xFFFF
  lt : ∀ mode ∈ l, mode.toNat < 0x4000

section search

variable {β : Type*} {B : Bios β} {ok : β → Prop} {buffer modes : BitVec 32}
  {info : BitVec 16 → Option ModeInfo} {l : List (BitVec 16)} {s : Loader β} {fuel : Nat}

/-! ## Section 3: The Loops -/

/-- The scan is over: no mode is found, and only the BIOS has changed. -/
theorem searchModes_end {candidate : BitVec 16 → Bool} {wanted : ModeInfo → Bool} {n : Nat}
    (hl : HasModes s.mem modes l) :
    searchModes B modes buffer candidate wanted (n + 1) l.length s = some (none, s) := by
  rw [searchModes]
  dsimp only
  rw [if_pos hl.last]

theorem any_reported_iff (wanted : ModeInfo → Bool) (b : β) (mode : BitVec 16) :
    (B.interrupt b 0x10 (modeInfoRegisters mode buffer)).2.1.ax = 0x4F ∧
      wanted (modeBuffer (B.interrupt b 0x10 (modeInfoRegisters mode buffer)).1) = true ↔
    (reported B buffer b mode).any wanted = true := by
  unfold reported
  dsimp only
  split
  · next hknown => rw [Option.any_some, and_iff_right hknown]
  · next hrefused =>
    rw [Option.any_none]
    exact iff_of_false (fun h => hrefused h.1) Bool.false_ne_true

/-- A loop finds the first mode, from the mode `i` on, that it looks at and wants. -/
theorem searchModes_eq (hB : ReportsModes B ok buffer info) {loop : ModeLoop} {i n : Nat}
    (hl : HasModes s.mem modes l) (hok : ok s.bios) (hi : i ≤ l.length) (hn : l.length < i + n) :
    ∃ s', searchModes B modes buffer loop.candidate loop.wanted n i s =
        some ((l.drop i).find? fun mode => loop.candidate mode && (info mode).any loop.wanted, s') ∧
      s'.mem = s.mem ∧ ok s'.bios := by
  induction n generalizing i s with
  | zero => omega
  | succ n ih =>
    rcases Nat.eq_or_lt_of_le hi with rfl | hlt
    · refine ⟨s, ?_, rfl, hok⟩
      rw [searchModes_end hl, List.drop_length]
      rfl
    · have hmode := hl.entry i hlt
      rw [List.getD_eq_getElem _ _ hlt] at hmode
      have hmem : l[i] ∈ l := List.getElem_mem hlt
      have hne : l[i] ≠ 0xFFFF := by
        intro heq
        have hbound := hl.lt _ hmem
        rw [heq] at hbound
        exact absurd hbound (by decide)
      rw [searchModes, List.drop_eq_getElem_cons hlt, List.find?_cons]
      dsimp only
      rw [hmode, if_neg hne]
      by_cases hcandidate : loop.candidate l[i]
      · rw [if_neg (not_not.mpr hcandidate)]
        have hiff := @any_reported_iff _ B buffer loop.wanted s.bios l[i]
        rw [hB.reports s.bios l[i] hok] at hiff
        have hkeeps := hB.keeps s.bios l[i] hok
        generalize hanswer : B.interrupt s.bios 0x10 (modeInfoRegisters l[i] buffer) = answer at *
        by_cases hwanted : (info l[i]).any loop.wanted
        · refine ⟨{ s with bios := answer.2.2 }, ?_, rfl, hkeeps⟩
          rw [if_pos (hiff.mpr hwanted), hcandidate, hwanted]
          rfl
        · rw [if_neg (fun h => hwanted (hiff.mp h))]
          obtain ⟨s', hrun, hsame⟩ := @ih { s with bios := answer.2.2 } (i + 1) hl hkeeps hlt
            (by omega)
          refine ⟨s', ?_, hsame⟩
          rw [hrun]
          simp [hwanted]
      · rw [if_pos hcandidate]
        obtain ⟨s', hrun, hsame⟩ := ih hl hok hlt (by omega)
        refine ⟨s', ?_, hsame⟩
        rw [hrun]
        simp [hcandidate]

/-- The loop looks for the modes of the class, and marks what it finds in the same way. -/
structure Realises (loop : ModeLoop) (c : ModeClass) : Prop where
  wanted : ∀ mode information,
    (loop.candidate mode && loop.wanted information) = c.holds mode information
  bits : ∀ mode, mode ||| loop.bits = c.mark mode

theorem Realises.any_eq {loop : ModeLoop} {c : ModeClass} (h : Realises loop c)
    (mode : BitVec 16) :
    (loop.candidate mode && (info mode).any loop.wanted) = c.Has info mode := by
  unfold ModeClass.Has
  cases info mode with
  | none => exact Bool.and_false _
  | some information => exact h.wanted mode information

/-- Loops one after the other go through the classes in the same order. -/
theorem searchLoops_eq (hB : ReportsModes B ok buffer info) (hl : HasModes s.mem modes l)
    (hok : ok s.bios) (hfuel : l.length < fuel) {loops : List ModeLoop} {classes : List ModeClass}
    (hloops : List.Forall₂ Realises loops classes) :
    ∃ s', searchLoops B fuel modes buffer loops s =
        some ((bestMode info l classes).getD 0xFFFF, s') ∧ s'.mem = s.mem ∧ ok s'.bios := by
  induction hloops generalizing s with
  | nil => exact ⟨s, rfl, rfl, hok⟩
  | @cons loop c loops classes hfirst hrest ih =>
    obtain ⟨s₁, hrun, hmem, hok₁⟩ := @searchModes_eq _ B ok buffer modes info l s hB loop 0 fuel
      hl hok (Nat.zero_le _) (by omega)
    rw [List.drop_zero, funext hfirst.any_eq] at hrun
    rw [searchLoops, hrun]
    cases hfind : l.find? (c.Has info) with
    | none =>
      obtain ⟨s', hrest', hmem', hok'⟩ := @ih s₁ (hmem ▸ hl) hok₁
      refine ⟨s', ?_, hmem'.trans hmem, hok'⟩
      dsimp only
      rw [hrest', bestMode, bestMode, List.findSome?_cons, hfind]
      rfl
    | some mode =>
      refine ⟨s₁, ?_, hmem, hok₁⟩
      dsimp only
      rw [bestMode, List.findSome?_cons, hfind, hfirst.bits]
      rfl

/-! ## Section 4: The Result -/

theorem mark_ne_last {c : ModeClass} {mode : BitVec 16} (hlt : mode.toNat < 0x4000) :
    c.mark mode ≠ 0xFFFF := by
  have hbit : mode[15] = false :=
    Nat.testBit_lt_two_pow (Nat.lt_trans hlt (show 0x4000 < 2 ^ 15 by decide))
  intro heq
  have hlast := congrArg (fun v => BitVec.getLsbD v 15) heq
  unfold ModeClass.mark at hlast
  split at hlast
  · simp [hbit] at hlast
  · simp [hbit] at hlast

/-- The bit of the linear framebuffer is set by the mark only. -/
theorem getLsbD_mark {c : ModeClass} {mode : BitVec 16} (hlt : mode.toNat < 0x4000) :
    (c.mark mode).getLsbD 14 = !c.textOnly := by
  have hbit : mode[14] = false := Nat.testBit_lt_two_pow hlt
  unfold ModeClass.mark
  cases htext : c.textOnly with
  | false => simp [hbit]
  | true => simp [hbit]

/-- There is no best mode if and only if no class has any. -/
theorem bestMode_eq_none_iff {classes : List ModeClass} :
    bestMode info l classes = none ↔ ∀ c ∈ classes, ∀ mode ∈ l, c.Has info mode = false := by
  simp [bestMode]

theorem exists_mark {classes : List ModeClass} {mode : BitVec 16}
    (h : bestMode info l classes = some mode) :
    ∃ c ∈ classes, ∃ found ∈ l, mode = c.mark found := by
  obtain ⟨c, hc, hfound⟩ := List.exists_of_findSome?_eq_some h
  obtain ⟨found, hfind, hmark⟩ := Option.map_eq_some_iff.mp hfound
  exact ⟨c, hc, found, List.mem_of_find?_eq_some hfind, hmark.symm⟩

/-- The value for no mode is not that of a mode. -/
theorem getD_bestMode_eq_iff (hl : HasModes s.mem modes l) {classes : List ModeClass} :
    (bestMode info l classes).getD 0xFFFF = 0xFFFF ↔ bestMode info l classes = none := by
  constructor
  · intro h
    cases hbest : bestMode info l classes with
    | none => rfl
    | some mode =>
      obtain ⟨c, -, found, hfound, hmark⟩ := exists_mark hbest
      rw [hbest, Option.getD_some, hmark] at h
      exact absurd h (mark_ne_last (hl.lt found hfound))
  · intro h
    rw [h]
    rfl

/-- The next class is asked when the ones before it have no mode. -/
theorem bestMode_cons {c : ModeClass} {classes : List ModeClass} :
    bestMode info l (c :: classes) = (bestMode info l [c]).or (bestMode info l classes) := by
  rw [bestMode, bestMode, List.findSome?_cons, List.findSome?_cons]
  cases (l.find? (c.Has info)).map c.mark with
  | none => rfl
  | some mode => rfl

/-- A loop over all modes. -/
theorem realises_all {wanted : ModeInfo → Bool} {bits : BitVec 16} {textOnly : Bool}
    (hbits : bits = if textOnly then 0 else 0x4000) :
    Realises ⟨fun _ => true, wanted, bits⟩ ⟨fun _ information => wanted information, textOnly⟩ := by
  refine ⟨fun mode information => Bool.true_and _, fun mode => ?_⟩
  rw [hbits, ModeClass.mark]
  cases textOnly with
  | false => rfl
  | true => exact BitVec.or_zero

/-- `VBE_GetTextMode` for a size. -/
theorem vbeGetTextMode_eq (hB : ReportsModes B ok buffer info) (hl : HasModes s.mem modes l)
    (hok : ok s.bios) (hfuel : l.length < fuel) {width height : BitVec 32}
    (hsize : ¬(width = 0 ∧ height = 0)) :
    ∃ s', vbeGetTextMode B fuel modes buffer width height s =
        some ((bestMode info l
          [⟨fun _ info => info.IsText ∧ info.HasSize width height, true⟩]).getD 0xFFFF, s') ∧
      s'.mem = s.mem ∧ ok s'.bios := by
  rw [vbeGetTextMode, if_neg hsize]
  apply searchLoops_eq hB hl hok hfuel
  exact .cons (realises_all rfl) .nil

/-- `VBE_GetMode` returns the mode that is preferred. -/
theorem vbeGetMode_eq (hB : ReportsModes B ok buffer info) (hl : HasModes s.mem modes l)
    (hok : ok s.bios) (hfuel : l.length < fuel) (width height depth : BitVec 32) :
    ∃ s', vbeGetMode B fuel modes buffer width height depth s =
        some ((bestMode info l (modeClasses width height depth)).getD 0xFFFF, s') ∧
      s'.mem = s.mem ∧ ok s'.bios := by
  unfold vbeGetMode modeClasses
  by_cases hany : width = 0 ∧ height = 0 ∧ depth = 0
  · rw [if_pos hany, if_pos hany]
    apply searchLoops_eq hB hl hok hfuel
    have hthree : Realises ⟨fun mode => mode = 3, fun info => IsStandardText info, 0⟩
        ⟨fun mode info => mode = 3 ∧ IsStandardText info, true⟩ :=
      ⟨fun mode information => (Bool.decide_and _ _).symm, fun mode => BitVec.or_zero⟩
    exact .cons hthree (.cons (realises_all rfl) (.cons (realises_all rfl)
      (.cons (realises_all rfl) .nil)))
  · rw [if_neg hany, if_neg hany]
    by_cases hdepth : depth = 0
    · have hsize : ¬(width = 0 ∧ height = 0) := fun h => hany ⟨h.1, h.2, hdepth⟩
      rw [if_pos ⟨by rwa [not_and_or] at hsize, hdepth⟩, if_pos hdepth, bestMode_cons]
      obtain ⟨s₁, htext, hmem, hok₁⟩ := vbeGetTextMode_eq hB hl hok hfuel hsize
      rw [htext]
      dsimp only
      cases hbest : bestMode info l
          [⟨fun _ info => info.IsText ∧ info.HasSize width height, true⟩] with
      | none =>
        obtain ⟨s', hrun, hmem', hok'⟩ := searchLoops_eq hB (hmem ▸ hl) hok₁ hfuel
          (.cons (@realises_all (fun info => info.HasSize width height) 0x4000 false rfl) .nil)
        refine ⟨s', ?_, hmem'.trans hmem, hok'⟩
        rw [Option.getD_none, if_neg (not_not.mpr rfl), hrun]
        rfl
      | some mode =>
        -- the value for no mode is not that of a text mode
        have hne : mode ≠ 0xFFFF := by
          intro heq
          have hnone := (getD_bestMode_eq_iff hl).mp (by rw [hbest, heq]; rfl)
          rw [hbest] at hnone
          exact Option.some_ne_none mode hnone
        refine ⟨s₁, ?_, hmem, hok₁⟩
        rw [Option.getD_some, if_pos hne]
        rfl
    · rw [if_neg (fun h => hdepth h.2), if_neg hdepth]
      apply searchLoops_eq hB hl hok hfuel
      exact .cons (realises_all rfl) .nil

/-- `VBE_GetMode` returns the first mode of the best class that has any, with the bit of the
    linear framebuffer unless the class is for text only; and 0xFFFF if and only if there is no
    such class. -/
theorem vbeGetMode_finds (hB : ReportsModes B ok buffer info) (hl : HasModes s.mem modes l)
    (hok : ok s.bios) (hfuel : l.length < fuel) (width height depth : BitVec 32) :
    ∃ result s', vbeGetMode B fuel modes buffer width height depth s = some (result, s') ∧
      (∀ before c behind mode, modeClasses width height depth = before ++ c :: behind →
        (∀ b ∈ before, ∀ mode ∈ l, b.Has info mode = false) →
        l.find? (c.Has info) = some mode →
          result = (if c.textOnly then mode else mode ||| 0x4000) ∧
            result.getLsbD 14 = !c.textOnly) ∧
      (result = 0xFFFF ↔
        ∀ c ∈ modeClasses width height depth, ∀ mode ∈ l, c.Has info mode = false) := by
  obtain ⟨s', hrun, -, -⟩ := vbeGetMode_eq hB hl hok hfuel width height depth
  refine ⟨_, s', hrun, ?_, ?_⟩
  · intro before c behind mode hclasses hbefore hfirst
    have hbest : bestMode info l (modeClasses width height depth) = some (c.mark mode) := by
      have hnone : bestMode info l before = none := bestMode_eq_none_iff.mpr hbefore
      unfold bestMode at hnone ⊢
      rw [hclasses, List.findSome?_append, hnone, List.findSome?_cons, hfirst]
      rfl
    rw [hbest, Option.getD_some]
    exact ⟨rfl, getLsbD_mark (hl.lt mode (List.mem_of_find?_eq_some hfirst))⟩
  · rw [getD_bestMode_eq_iff hl, bestMode_eq_none_iff]

end search

/-! ### A BIOS with a table of modes -/

/-- The bytes of the information on a mode, up to the last that is read. -/
def ModeInfo.bytes (info : ModeInfo) : List (BitVec 8) :=
  [info.attributes.extractLsb' 0 8, info.attributes.extractLsb' 8 8] ++ List.replicate 16 0 ++
    [info.width.extractLsb' 0 8, info.width.extractLsb' 8 8, info.height.extractLsb' 0 8,
      info.height.extractLsb' 8 8, 0, 0, 0, info.bpp]

theorem modeBuffer_bytes (info : ModeInfo) : modeBuffer info.bytes = info := by
  show ModeInfo.mk _ _ _ info.bpp = info
  rw [ModeInfo.mk.injEq]
  exact ⟨bytes_append _, bytes_append _, bytes_append _, rfl⟩

/-- The BIOS reports the modes of the table, the mode it is in, and the video information. -/
def videoBios (table : List (BitVec 16 × ModeInfo)) (current : BitVec 16)
    (information : List (BitVec 8)) : Bios Unit where
  interrupt _ id r :=
    if id ≠ 0x10 then ([], r, ())
    else if r.ax = 0x4F00 then (information, r.withAx 0x4F, ())
    else if r.ax = 0x4F01 then
      match table.lookup r.cx with
      | some info => (info.bytes, r.withAx 0x4F, ())
      | none => ([], r.withAx 0x14F, ())
    else if r.ax = 0x4F03 then ([], { r.withAx 0x4F with ebx := current.setWidth 32 }, ())
    else ([], r.withAx 0x14F, ())
  keeps_esi _ _ _ := rfl

section videoBios

variable {table : List (BitVec 16 × ModeInfo)} {current : BitVec 16}
  {information : List (BitVec 8)} {buffer : BitVec 32}

theorem reportsModes_videoBios :
    ReportsModes (videoBios table current information) (fun _ => True) buffer
      fun mode => table.lookup mode := by
  refine ⟨fun _ _ _ => trivial, fun b mode _ => ?_⟩
  have hax : (modeInfoRegisters mode buffer).ax = 0x4F01 := ax_withAx (r := clearRegistry)
  have hcx : (modeInfoRegisters mode buffer).cx = mode := by
    show (mode.setWidth 32).setWidth 16 = mode
    rw [BitVec.setWidth_setWidth_of_le _ (by decide), BitVec.setWidth_eq]
  have hanswer : (videoBios table current information).interrupt b 0x10
      (modeInfoRegisters mode buffer) =
        match table.lookup mode with
        | some info => (info.bytes, (modeInfoRegisters mode buffer).withAx 0x4F, ())
        | none => ([], (modeInfoRegisters mode buffer).withAx 0x14F, ()) := by
    unfold videoBios
    dsimp only
    rw [if_neg (not_not.mpr rfl), hax, if_neg (by decide), if_pos rfl, hcx]
  unfold reported
  rw [hanswer]
  cases table.lookup mode with
  | none =>
    dsimp only
    rw [ax_withAx, if_neg (by decide)]
  | some info =>
    dsimp only
    rw [ax_withAx, if_pos rfl, modeBuffer_bytes]

end videoBios

/-- A graphics mode and the standard text mode, in this order. -/
def twoModes : List (BitVec 16 × ModeInfo) :=
  [(0x112, ⟨0x9B, 640, 480, 32⟩), (3, ⟨0x0F, 80, 25, 4⟩)]

/-- A list of modes in memory, with one that the BIOS refuses at the front. -/
def threeModes : Memory :=
  storeBytes (fun _ => 0) 0x9000 [0x11, 0x01, 0x12, 0x01, 3, 0, 0xFF, 0xFF]

theorem hasModes_threeModes : HasModes threeModes 0x9000 [0x111, 0x112, 3] where
  entry := by decide +kernel
  last := by decide +kernel
  lt := by simp

/-- Any mode is wanted. -/
theorem vbeGetMode_finds_threeModes :
    ∃ result s', vbeGetMode (videoBios twoModes 3 []) 4 0x9000 0x8000 0 0 0
        ⟨threeModes, ()⟩ = some (result, s') ∧
      (∀ before c behind mode, modeClasses 0 0 0 = before ++ c :: behind →
        (∀ b ∈ before, ∀ mode ∈ [0x111, 0x112, 3],
          b.Has (fun mode => twoModes.lookup mode) mode = false) →
        [0x111, 0x112, 3].find? (c.Has fun mode => twoModes.lookup mode) = some mode →
          result = (if c.textOnly then mode else mode ||| 0x4000) ∧
            result.getLsbD 14 = !c.textOnly) ∧
      (result = 0xFFFF ↔ ∀ c ∈ modeClasses 0 0 0, ∀ mode ∈ [0x111, 0x112, 3],
        c.Has (fun mode => twoModes.lookup mode) mode = false) :=
  vbeGetMode_finds reportsModes_videoBios hasModes_threeModes trivial (by decide) 0 0 0

end Avos.Multiboot
