import Avos.Bootloader.Header
import Avos.Bootloader.ModeSearch

/-! # The Choice of a Video Mode

  `Multiboot_SaveGraphicsInfo` of `bootloader/multiboot/src/multiboot.c` reads from the tags of
  the header what the kernel asks for, and chooses a mode: the standard text mode, or else the
  mode that `VBE_GetMode` finds, or else the current one (`wantedMode`).

  The variable `preferred_mode` is assigned only where the text mode is looked for. Elsewhere it
  is tested as it is left on the stack, and a value that is not 0xFFFF is taken for a mode
  (`preferredMode_eq`).
-/

open ByteMemory Walks

namespace Avos.Multiboot

/-! ## Section 1: What Is Wanted -/

/-- The tags ask for a tag of the record that needs a video mode. -/
def GraphicsRequest.Asked (g : GraphicsRequest) : Prop :=
  g.graphicsMandatory ∨ g.vbeRequested ∨ g.framebufferRequested

/-- What the tags at these addresses ask for. -/
def requestAt (m : Memory) (addrs : List (BitVec 32)) : GraphicsRequest :=
  addrs.foldl (fun g tag => graphicsTag m tag g)
    ⟨false, false, false, false, false, false, 0, 0, 0⟩

/-- The class of the standard text mode. -/
def standardText : ModeClass := ⟨fun _ info => IsStandardText info, true⟩

/-- The mode that is to be selected: the standard text mode where it is supported and no depth is
    requested, otherwise the mode that is preferred, otherwise the current mode. -/
def wantedMode (info : BitVec 16 → Option ModeInfo) (l : List (BitVec 16)) (current : BitVec 16)
    (g : GraphicsRequest) : BitVec 16 :=
  ((if g.egaTextSupported ∧ g.depth = 0 then bestMode info l [standardText] else none).or
    (bestMode info l (modeClasses g.width g.height g.depth))).getD current

/-- The BIOS reports the current mode, or refuses to. -/
def ReportsCurrent {β : Type*} (B : Bios β) (ok : β → Prop) (current : BitVec 16) : Prop :=
  ∀ s : Loader β, ok s.bios → (vbeGetCurrentMode B s).1 = current

/-! ## Section 2: The Choice -/

section choice

variable {β : Type*} {B : Bios β} {ok : β → Prop} {buffer modes : BitVec 32}
  {info : BitVec 16 → Option ModeInfo} {l : List (BitVec 16)} {current : BitVec 16}
  {s : Loader β} {fuel : Nat} {g : GraphicsRequest} {uninitialized : BitVec 16}

/-- The text mode that is looked for is the standard one. -/
theorem bestMode_text : bestMode info l
    [⟨fun _ info => info.IsText ∧ info.HasSize 80 25, true⟩] = bestMode info l [standardText] := by
  have hwidth : ∀ v n : BitVec 16, v.setWidth 32 = n.setWidth 32 ↔ v = n := by
    intro v n
    rw [← BitVec.toNat_inj, BitVec.toNat_setWidth_of_le (by decide),
      BitVec.toNat_setWidth_of_le (by decide), BitVec.toNat_inj]
  have hholds : (fun (_ : BitVec 16) (info : ModeInfo) =>
      decide (info.IsText ∧ info.HasSize 80 25)) = fun _ info => decide (IsStandardText info) := by
    funext _ info
    rw [decide_eq_decide, IsStandardText, ModeInfo.HasSize]
    have hcolumns : info.width.setWidth 32 = 80 ↔ info.width = 80 := hwidth _ 80
    have hlines : info.height.setWidth 32 = 25 ↔ info.height = 25 := hwidth _ 25
    rw [hcolumns, hlines, or_iff_right (by decide), or_iff_right (by decide)]
  rw [hholds]
  rfl

/-- The second and the third choice, behind a first one that has left `mode`. -/
theorem fallback_eq (hB : ReportsModes B ok buffer info) (hcurrent : ReportsCurrent B ok current)
    (hl : HasModes s.mem modes l) (hok : ok s.bios) (hfuel : l.length < fuel) (mode : BitVec 16) :
    ∃ s', (match
        (if mode = 0xFFFF then vbeGetMode B fuel modes buffer g.width g.height g.depth s
          else some (mode, s)) with
      | none => none
      | some (mode, s) => some (if mode = 0xFFFF then vbeGetCurrentMode B s else (mode, s))) =
        some (if mode = 0xFFFF
          then (bestMode info l (modeClasses g.width g.height g.depth)).getD current
          else mode, s') := by
  by_cases hnone : mode = 0xFFFF
  · rw [if_pos hnone, if_pos hnone]
    obtain ⟨s₁, hrun, -, hok₁⟩ := vbeGetMode_eq hB hl hok hfuel g.width g.height g.depth
    have hiff := @getD_bestMode_eq_iff _ _ info l s hl (modeClasses g.width g.height g.depth)
    rw [hrun]
    dsimp only
    cases hbest : bestMode info l (modeClasses g.width g.height g.depth) with
    | none =>
      refine ⟨(vbeGetCurrentMode B s₁).2, ?_⟩
      rw [Option.getD_none, Option.getD_none, if_pos rfl, ← hcurrent s₁ hok₁]
    | some found =>
      rw [hbest] at hiff
      have hfound : found ≠ 0xFFFF := fun heq => Option.some_ne_none found (hiff.mp heq)
      refine ⟨s₁, ?_⟩
      rw [Option.getD_some, Option.getD_some, if_neg hfound]
  · rw [if_neg hnone, if_neg hnone]
    dsimp only
    rw [if_neg hnone]
    exact ⟨s, rfl⟩

/-- The mode that is chosen. The value that is left on the stack is taken for a mode, unless the
    text mode is looked for, or it happens to be the value for no mode. -/
theorem preferredMode_eq (hB : ReportsModes B ok buffer info)
    (hcurrent : ReportsCurrent B ok current) (hl : HasModes s.mem modes l) (hok : ok s.bios)
    (hfuel : l.length < fuel) :
    ∃ s', preferredMode B fuel g modes buffer uninitialized s =
      some (if ¬(g.egaTextSupported ∧ g.depth = 0) ∧ uninitialized ≠ 0xFFFF then uninitialized
        else wantedMode info l current g, s') := by
  unfold preferredMode wantedMode
  dsimp only
  by_cases htext : g.egaTextSupported ∧ g.depth = 0
  · rw [if_pos htext, if_pos htext, if_neg (fun h => h.1 htext)]
    obtain ⟨s₁, hrun, hmem, hok₁⟩ := @vbeGetTextMode_eq _ B ok buffer modes info l s fuel hB hl hok
      hfuel 80 25 (by decide)
    rw [hrun, bestMode_text]
    dsimp only
    obtain ⟨s', hrest⟩ := fallback_eq hB hcurrent (hmem ▸ hl) hok₁ hfuel
      ((bestMode info l [standardText]).getD 0xFFFF)
    refine ⟨s', hrest.trans ?_⟩
    have hiff := @getD_bestMode_eq_iff _ _ info l s hl [standardText]
    cases hbest : bestMode info l [standardText] with
    | none =>
      rw [Option.getD_none, if_pos rfl]
      rfl
    | some found =>
      rw [hbest] at hiff
      have hfound : found ≠ 0xFFFF := fun heq => Option.some_ne_none found (hiff.mp heq)
      rw [Option.getD_some, if_neg hfound]
      rfl
  · rw [if_neg htext, if_neg htext]
    dsimp only
    obtain ⟨s', hrest⟩ := fallback_eq hB hcurrent hl hok hfuel uninitialized
    refine ⟨s', hrest.trans ?_⟩
    rw [Option.none_or]
    by_cases hnone : uninitialized = 0xFFFF
    · rw [if_pos hnone, if_neg (fun h => h.2 hnone)]
    · rw [if_neg hnone, if_pos ⟨htext, hnone⟩]

end choice

/-! ## Section 3: The Mode That Is Selected -/

section selects

variable {β : Type*} (B : Bios β) (mbi header buffer : BitVec 32) (uninitialized : BitVec 16)
  (s : Loader β)

/-- With a bound on its loops, `Multiboot_SaveGraphicsInfo` comes to the choice, in the state `s₁`
    and with the VBE tag at `tag`, and `mode` is what it chooses; `s₂` is the state behind it. -/
structure ChoosesAt (fuel : Nat) (mode : BitVec 16) (g : GraphicsRequest) (tag : BitVec 32)
    (s₁ s₂ : Loader β) : Prop where
  hasHeader : header ≠ 0
  scan : scanGraphics s.mem fuel header = some (.ok g)
  asked : g.Asked
  found : findMbiTagAddress fuel s.mem mbi 7 = some tag
  free : ¬(tag = memoryNullPtr ∨ load32 s.mem tag ≠ 0)
  room : tag.toNat + 792 < 2 ^ 32
  vbe : writeVbe B tag s = (true, s₁)
  chosen : preferredMode B fuel g (videoModes s₁.mem (16 + tag)) buffer uninitialized s₁ =
    some (mode, s₂)

/-- `Multiboot_SaveGraphicsInfo` selects the mode, whenever the bound on its loops is large
    enough. -/
def Selects (mode : BitVec 16) : Prop :=
  ∃ n, ∀ fuel, n ≤ fuel →
    ∃ g tag s₁ s₂, ChoosesAt B mbi header buffer uninitialized s fuel mode g tag s₁ s₂

/-- There is room for the VBE tag at `tag`, and the BIOS has stored the video information there in
    the state `s₁`. -/
structure VbeStored (tag : BitVec 32) (s₁ : Loader β) : Prop where
  found : ∃ fuel, findMbiTagAddress fuel s.mem mbi 7 = some tag
  free : ¬(tag = memoryNullPtr ∨ load32 s.mem tag ≠ 0)
  room : tag.toNat + 792 < 2 ^ 32
  vbe : writeVbe B tag s = (true, s₁)

/-- What `Multiboot_SaveGraphicsInfo` does with the mode that it has chosen. -/
def saveChosen (fuel : Nat) (g : GraphicsRequest) (tag : BitVec 32) (mode : BitVec 16)
    (s : Loader β) : Option (Bool × Loader β) :=
  let (known, s) := vbeGetModeInfo B mode (tag + 528) s
  if mode = 0xFFFF ∨ ¬known then
    dropTag mbi tag (¬g.graphicsMandatory ∧ ¬g.vbeMandatory ∧ ¬g.framebufferMandatory) s
  else
    let s := { s with mem := (terminateTag (store16 s.mem (tag + 8) mode) mbi tag).2 }
    if ¬g.graphicsMandatory ∧ ¬g.framebufferRequested then some (true, s)
    else saveFramebuffer B fuel mbi (tag + 528) mode s

end selects

section selection

variable {β : Type*} {B : Bios β} {ok : β → Prop} {mbi header buffer tag : BitVec 32}
  {info : BitVec 16 → Option ModeInfo} {l : List (BitVec 16)}
  {current uninitialized mode : BitVec 16} {s s₁ s₂ : Loader β} {fuel : Nat}
  {g : GraphicsRequest} {walk : List (BitVec 32)}

/-- The mode that is chosen is the one that the function goes on with. -/
theorem saveGraphicsInfo_of_choosesAt {kernel : KernelInfo}
    (h : ChoosesAt B mbi kernel.multibootHeader buffer uninitialized s fuel mode g tag s₁ s₂) :
    saveGraphicsInfo B fuel mbi kernel buffer uninitialized s =
      saveChosen B mbi fuel g tag mode s₂ := by
  have hasked : ¬(¬g.graphicsMandatory ∧ ¬g.vbeRequested ∧ ¬g.framebufferRequested) := by
    intro hno
    rcases h.asked with hg | hg | hg
    · exact hno.1 hg
    · exact hno.2.1 hg
    · exact hno.2.2 hg
  rw [saveGraphicsInfo, if_neg h.hasHeader, h.scan]
  dsimp only
  rw [if_neg hasked, saveGraphics]
  dsimp only
  rw [saveTag, h.found]
  dsimp only
  rw [if_neg h.free, withRoom, if_pos h.room, h.vbe]
  dsimp only
  rw [chooseMode, h.chosen]
  dsimp only
  rw [saveChosen]
  dsimp only
  by_cases hrefused : mode = 0xFFFF ∨ ¬(vbeGetModeInfo B mode (tag + 528) s₂).1 = true
  · rw [if_pos hrefused, if_pos hrefused]
  · rw [if_neg hrefused, if_neg hrefused]

/-- The loop over the tags reads them where it goes. -/
theorem scanGraphics_iff : scanGraphics s.mem fuel header = some (.ok g) ↔
    ∃ walk, Walk (InHeader s.mem header) (nextHeaderTag s.mem) (header + 16) walk ∧
      walk.length < fuel ∧ g = requestAt s.mem walk := by
  rw [scanGraphics, whileLoop_pure]
  simp only [Except.ok.injEq]
  rfl

/-- Where the run comes to the choice, and that its bound is large enough for the search. -/
theorem ChoosesAt.mode_eq (h : ChoosesAt B mbi header buffer uninitialized s fuel mode g tag s₁ s₂)
    (hB : ReportsModes B ok buffer info) (hcurrent : ReportsCurrent B ok current)
    (hl : HasModes s₁.mem (videoModes s₁.mem (16 + tag)) l) (hok : ok s₁.bios)
    (hfuel : l.length < fuel) :
    mode = if ¬(g.egaTextSupported ∧ g.depth = 0) ∧ uninitialized ≠ 0xFFFF then uninitialized
      else wantedMode info l current g := by
  obtain ⟨s', hrun⟩ := @preferredMode_eq _ B ok buffer _ info l current s₁ fuel g uninitialized
    hB hcurrent hl hok hfuel
  have heq := h.chosen.symm.trans hrun
  exact (Prod.mk.inj (Option.some.inj heq)).1

/-- Two runs that come to the choice do so in the same state. -/
theorem VbeStored.unique {s₁' : Loader β} {tag' : BitVec 32} (hvbe : VbeStored B mbi s tag s₁)
    (h : ChoosesAt B mbi header buffer uninitialized s fuel mode g tag' s₁' s₂) :
    tag' = tag ∧ s₁' = s₁ := by
  obtain ⟨n, hfound⟩ := hvbe.found
  have hbelow := findMbiTagAddress_mono hfound (Nat.le_max_left n fuel)
  have hbelow' := findMbiTagAddress_mono h.found (Nat.le_max_right n fuel)
  obtain rfl := Option.some.inj (hbelow'.symm.trans hbelow)
  exact ⟨rfl, (Prod.mk.inj (h.vbe.symm.trans hvbe.vbe)).2⟩

/-- If the selection does not depend on what is left on the stack, then the text mode is looked
    for, and the tags where the loop goes want what is selected. -/
theorem exists_walk_of_selects (hB : ReportsModes B ok buffer info)
    (hcurrent : ReportsCurrent B ok current) (hvbe : VbeStored B mbi s tag s₁)
    (hl : HasModes s₁.mem (videoModes s₁.mem (16 + tag)) l) (hok : ok s₁.bios)
    (h : ∀ uninitialized, Selects B mbi header buffer uninitialized s mode) :
    ∃ walk, Walk (InHeader s.mem header) (nextHeaderTag s.mem) (header + 16) walk ∧
      (requestAt s.mem walk).Asked ∧ (requestAt s.mem walk).egaTextSupported ∧
      (requestAt s.mem walk).depth = 0 ∧
      wantedMode info l current (requestAt s.mem walk) = mode := by
  obtain ⟨n₀, hzero⟩ := h 0
  obtain ⟨n₁, hone⟩ := h 1
  -- a bound that is large enough for two values on the stack, and for the search
  obtain ⟨g, tag₀, r₀, r₀', hzero⟩ := hzero (max (max n₀ n₁) (l.length + 1)) (by omega)
  obtain ⟨g', tag₁, r₁, r₁', hone⟩ := hone (max (max n₀ n₁) (l.length + 1)) (by omega)
  obtain ⟨rfl, rfl⟩ := hvbe.unique hzero
  obtain ⟨rfl, rfl⟩ := hvbe.unique hone
  obtain rfl : g = g' := Except.ok.inj (Option.some.inj (hzero.scan.symm.trans hone.scan))
  obtain ⟨walk, hwalk, -, rfl⟩ := scanGraphics_iff.mp hzero.scan
  have hmode := hzero.mode_eq hB hcurrent hl hok (by omega)
  have hmode' := hone.mode_eq hB hcurrent hl hok (by omega)
  have htext : (requestAt s.mem walk).egaTextSupported ∧ (requestAt s.mem walk).depth = 0 := by
    by_contra hno
    rw [if_pos ⟨hno, by decide⟩] at hmode hmode'
    exact absurd (hmode.symm.trans hmode') (by decide)
  rw [if_neg (fun hno => hno.1 htext)] at hmode
  exact ⟨walk, hwalk, hzero.asked, htext.1, htext.2, hmode.symm⟩

/-- Where the text mode is looked for, what is left on the stack does not matter. -/
theorem selects_of_walk (hB : ReportsModes B ok buffer info)
    (hcurrent : ReportsCurrent B ok current) (hheader : header ≠ 0)
    (hvbe : VbeStored B mbi s tag s₁)
    (hl : HasModes s₁.mem (videoModes s₁.mem (16 + tag)) l) (hok : ok s₁.bios)
    (hwalk : Walk (InHeader s.mem header) (nextHeaderTag s.mem) (header + 16) walk)
    (hasked : (requestAt s.mem walk).Asked)
    (htext : (requestAt s.mem walk).egaTextSupported ∧ (requestAt s.mem walk).depth = 0) :
    Selects B mbi header buffer uninitialized s
      (wantedMode info l current (requestAt s.mem walk)) := by
  obtain ⟨n, hfound⟩ := hvbe.found
  refine ⟨max (max n (walk.length + 1)) (l.length + 1), fun fuel hfuel => ?_⟩
  obtain ⟨s₂, hchosen⟩ := @preferredMode_eq _ B ok buffer _ info l current s₁ fuel
    (requestAt s.mem walk) uninitialized hB hcurrent hl hok (by omega)
  rw [if_neg (fun hno => hno.1 htext)] at hchosen
  exact ⟨_, tag, s₁, s₂, hheader, scanGraphics_iff.mpr ⟨walk, hwalk, by omega, rfl⟩, hasked,
    findMbiTagAddress_mono hfound (by omega), hvbe.free, hvbe.room, hvbe.vbe, hchosen⟩

/-- Tags that lie one behind the other, so that the loop meets them all: the selection is the mode
    that they want if and only if they support text and request no depth. -/
theorem selects_iff_of_walk (hB : ReportsModes B ok buffer info)
    (hcurrent : ReportsCurrent B ok current) (hheader : header ≠ 0)
    (hvbe : VbeStored B mbi s tag s₁)
    (hl : HasModes s₁.mem (videoModes s₁.mem (16 + tag)) l) (hok : ok s₁.bios)
    (hwalk : Walk (InHeader s.mem header) (nextHeaderTag s.mem) (header + 16) walk)
    (hasked : (requestAt s.mem walk).Asked) :
    (∀ uninitialized, Selects B mbi header buffer uninitialized s
      (wantedMode info l current (requestAt s.mem walk))) ↔
    (requestAt s.mem walk).egaTextSupported ∧ (requestAt s.mem walk).depth = 0 := by
  constructor
  · intro h
    obtain ⟨walk', hwalk', -, htext, hdepth, -⟩ := exists_walk_of_selects hB hcurrent hvbe hl hok h
    rw [hwalk.unique hwalk']
    exact ⟨htext, hdepth⟩
  · intro htext uninitialized
    exact selects_of_walk hB hcurrent hheader hvbe hl hok hwalk hasked htext

/-- The selection is the mode that the tags want, whatever is left on the stack, if and only if
    the loop over the tags ends, and the tags that it meets ask for a mode, support text, request
    no depth, and want the same mode. `addrs` is where the tags of the header are. -/
theorem selects_wantedMode_iff (hB : ReportsModes B ok buffer info)
    (hcurrent : ReportsCurrent B ok current) (hheader : header ≠ 0)
    (hvbe : VbeStored B mbi s tag s₁)
    (hl : HasModes s₁.mem (videoModes s₁.mem (16 + tag)) l) (hok : ok s₁.bios)
    (addrs : List (BitVec 32)) :
    (∀ uninitialized, Selects B mbi header buffer uninitialized s
      (wantedMode info l current (requestAt s.mem addrs))) ↔
    ∃ walk, Walk (InHeader s.mem header) (nextHeaderTag s.mem) (header + 16) walk ∧
      (requestAt s.mem walk).Asked ∧ (requestAt s.mem walk).egaTextSupported ∧
      (requestAt s.mem walk).depth = 0 ∧
      wantedMode info l current (requestAt s.mem walk) =
        wantedMode info l current (requestAt s.mem addrs) := by
  constructor
  · exact exists_walk_of_selects hB hcurrent hvbe hl hok
  · intro hex uninitialized
    obtain ⟨walk, hwalk, hasked, htext, hdepth, hmode⟩ := hex
    rw [← hmode]
    exact selects_of_walk hB hcurrent hheader hvbe hl hok hwalk hasked ⟨htext, hdepth⟩

end selection

/-! ### A header that requests a depth -/

theorem reportsCurrent_videoBios {table : List (BitVec 16 × ModeInfo)} {current : BitVec 16}
    {information : List (BitVec 8)} :
    ReportsCurrent (videoBios table current information) (fun _ => True) current := by
  intro s _
  have hax : (service 0x4F03).ax = 0x4F03 := ax_withAx
  have hanswer : (videoBios table current information).interrupt s.bios 0x10 (service 0x4F03) =
      ([], { (service 0x4F03).withAx 0x4F with ebx := current.setWidth 32 }, ()) := by
    unfold videoBios
    dsimp only
    rw [if_neg (not_not.mpr rfl), hax, if_neg (by decide), if_neg (by decide), if_pos rfl]
  have hbx : (current.setWidth 32).setWidth 16 = current := by
    rw [BitVec.setWidth_setWidth_of_le _ (by decide), BitVec.setWidth_eq]
  unfold vbeGetCurrentMode biosInterrupt
  rw [hanswer]
  show (if ((service 0x4F03).withAx 0x4F).ax ≠ 0x4F then 0xFFFF
    else (current.setWidth 32).setWidth 16) = current
  rw [ax_withAx, if_neg (not_not.mpr rfl), hbx]

/-- A request for the tags of the VBE and of the framebuffer, and one for a mode with 640 by 480
    pixels and 32 bits, one right behind the other. -/
def depthHeader : List (BitVec 8) :=
  [0xD6, 0x50, 0x52, 0xE8, 0, 0, 0, 0, 60, 0, 0, 0, 0xEE, 0xAE, 0xAD, 0x17,
    1, 0, 0, 0, 16, 0, 0, 0, 7, 0, 0, 0, 8, 0, 0, 0,
    5, 0, 0, 0, 20, 0, 0, 0, 0x80, 2, 0, 0, 0xE0, 1, 0, 0, 32, 0, 0, 0,
    0, 0, 0, 0, 8, 0, 0, 0]

/-- The header, a list of modes, and a record without tags. -/
def depthLoader : Loader Unit :=
  ⟨(createEmptyMbi (bytesAt 0x100000 depthHeader (bytesAt 0x9000 [0x12, 0x01, 3, 0, 0xFF, 0xFF]
    fun _ => 0)) 0x1000).2, ()⟩

/-- A BIOS with two modes, in the text mode. Its list of modes is at `0900:0000`. -/
def depthBios : Bios Unit :=
  videoBios twoModes 3 [0x56, 0x45, 0x53, 0x41, 0, 2, 0, 0, 0, 0, 0, 0, 0, 0, 0, 0, 0, 9]

/-- Behind the BIOS's answer. -/
def depthStored : Loader Unit := (writeVbe depthBios 0x1008 depthLoader).2

theorem vbeStored_depthLoader : VbeStored depthBios 0x1000 depthLoader 0x1008 depthStored where
  found := ⟨2, by decide +kernel⟩
  free := by decide +kernel
  room := by decide
  vbe := by
    have hfirst : (writeVbe depthBios 0x1008 depthLoader).1 = true := by decide +kernel
    exact Prod.ext hfirst rfl

theorem hasModes_depthStored :
    HasModes depthStored.mem (videoModes depthStored.mem (16 + 0x1008)) [0x112, 3] where
  entry := by decide +kernel
  last := by decide +kernel
  lt := by simp

/-- The tags of the header. -/
def depthTags : List (BitVec 32) := [0x100010, 0x100020, 0x100034]

theorem walk_depthTags : Walk (InHeader depthLoader.mem 0x100000) (nextHeaderTag depthLoader.mem)
    (0x100000 + 16) depthTags := by
  refine walk_cons.mpr ⟨by decide, by decide +kernel, ?_⟩
  refine walk_cons.mpr ⟨by decide +kernel, by decide +kernel, ?_⟩
  refine walk_cons.mpr ⟨by decide +kernel, by decide +kernel, ?_⟩
  exact walk_nil.mpr (by decide +kernel)

/-- What is selected for these tags, if the request is right. -/
theorem selects_wantedMode_iff_depthTags :
    (∀ uninitialized, Selects depthBios 0x1000 0x100000 0x8000 uninitialized depthLoader
      (wantedMode (fun mode => twoModes.lookup mode) [0x112, 3] 3
        (requestAt depthLoader.mem depthTags))) ↔
    ∃ walk, Walk (InHeader depthLoader.mem 0x100000) (nextHeaderTag depthLoader.mem)
        (0x100000 + 16) walk ∧
      (requestAt depthLoader.mem walk).Asked ∧
      (requestAt depthLoader.mem walk).egaTextSupported ∧
      (requestAt depthLoader.mem walk).depth = 0 ∧
      wantedMode (fun mode => twoModes.lookup mode) [0x112, 3] 3
          (requestAt depthLoader.mem walk) =
        wantedMode (fun mode => twoModes.lookup mode) [0x112, 3] 3
          (requestAt depthLoader.mem depthTags) :=
  selects_wantedMode_iff reportsModes_videoBios reportsCurrent_videoBios (by decide)
    vbeStored_depthLoader hasModes_depthStored trivial depthTags

/-- The header requests 32 bits, and what is left on the stack is selected. -/
theorem not_selects_depthTags :
    (requestAt depthLoader.mem depthTags).Asked ∧
      ¬∀ uninitialized, Selects depthBios 0x1000 0x100000 0x8000 uninitialized depthLoader
        (wantedMode (fun mode => twoModes.lookup mode) [0x112, 3] 3
          (requestAt depthLoader.mem depthTags)) := by
  have hvbe : (requestAt depthLoader.mem depthTags).vbeRequested = true := by decide +kernel
  have htext : (requestAt depthLoader.mem depthTags).egaTextSupported = false := by decide +kernel
  have hasked : (requestAt depthLoader.mem depthTags).Asked := .inr (.inl hvbe)
  refine ⟨hasked, fun h => ?_⟩
  have hiff := (selects_iff_of_walk reportsModes_videoBios reportsCurrent_videoBios (by decide)
    vbeStored_depthLoader hasModes_depthStored trivial walk_depthTags hasked).mp h
  exact Bool.false_ne_true (htext.symm.trans hiff.1)

end Avos.Multiboot
