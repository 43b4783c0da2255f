import Avos.Bootloader.Outcomes
import Avos.Library.Transition

/-! # Every Order of Savers

  The savers, called in any order and any number of times, from an empty record on
  (`recordSystem`). A tag that is in the record stays there with its bytes, and the record
  stays one that both the boot loader and the kernel can read.
-/

open ByteMemory Walks Transition

namespace Avos.Multiboot

variable {β : Type*} (B : Bios β)

/-! ## Section 1: Calls of Savers -/

/-- A call of a saver, with its arguments. -/
inductive SaveCall where
  | bootLoaderInfo
  | bootCommand
  | basicMemoryInfo
  | bootDeviceInfo (info : KernelInfo)
  | apmInfo
  | smbiosInfo
  | acpiInfo (old : Bool)
  | loadBaseAddress (info : KernelInfo)
  | memoryMaps
  | graphicsInfo (info : KernelInfo) (buffer : BitVec 32) (uninitialized : BitVec 16)

/-- The call is made; `fuel` bounds its loops. -/
def SaveCall.run (fuel : Nat) (mbi : BitVec 32) (s : Loader β) :
    SaveCall → Option (Bool × Loader β)
  | .bootLoaderInfo => saveBootLoaderInfo fuel mbi s
  | .bootCommand => saveBootCommand B fuel mbi s
  | .basicMemoryInfo => saveBasicMemoryInfo B fuel mbi s
  | .bootDeviceInfo info => saveBootDeviceInfo fuel mbi info s
  | .apmInfo => saveApmInfo B fuel mbi s
  | .smbiosInfo => saveSmbiosInfo fuel mbi s
  | .acpiInfo old => saveAcpiInfo fuel mbi old s
  | .loadBaseAddress info => saveLoadBaseAddress fuel mbi info s
  | .memoryMaps => saveMemoryMaps B fuel mbi s
  | .graphicsInfo info buffer uninitialized =>
      saveGraphicsInfo B fuel mbi info buffer uninitialized s

/-- The service that the saver asks has nothing for it, with the tag at `tag`. These are the
    savers that then set the size of the tag to 0. -/
def SaveCall.ServiceAbsent (fuel : Nat) (tag : BitVec 32) (s : Loader β) : SaveCall → Prop
  | .apmInfo => ¬HasApm B s.bios
  | .smbiosInfo => findSmbios (store32 s.mem tag 13) = none
  | .acpiInfo old =>
      ¬HasAcpi fuel old (writeTag s.mem tag (if old then 14 else 15) (if old then 32 else 48))
  | .graphicsInfo info buffer uninitialized =>
      ∀ g, scanGraphics s.mem fuel info.multibootHeader = some (.ok g) →
        ¬ModeChosen B fuel g tag buffer uninitialized s
  | _ => False

variable {B} {fuel : Nat} {mbi : BitVec 32} {s s' : Loader β} {l : List MbiTag} {b : Bool}

theorem SaveCall.run_spec {c : SaveCall} (h : IsRecord s.mem mbi l)
    (hr : c.run B fuel mbi s = some (b, s')) :
    ∃ new, Saves mbi l s.mem s'.mem new ∧
      (c.ServiceAbsent B fuel (termAddr mbi l) s → new = []) := by
  have hone : ∀ {type}, SavesOne True type mbi l s s' b →
      ∃ new, Saves mbi l s.mem s'.mem new ∧ (False → new = []) := by
    intro type hs
    obtain ⟨new, hnew, -⟩ := hs.saves h
    exact ⟨new, hnew, False.elim⟩
  cases c with
  | bootLoaderInfo => exact hone (saveBootLoaderInfo_spec h hr).1
  | bootCommand => exact hone (saveBootCommand_spec h hr).1
  | basicMemoryInfo => exact hone (saveBasicMemoryInfo_spec h hr).1
  | bootDeviceInfo info =>
    obtain ⟨new, hnew, -⟩ := (saveBootDeviceInfo_spec h hr).1.saves h
    exact ⟨new, hnew, False.elim⟩
  | apmInfo => exact (saveApmInfo_spec h hr).1.saves h
  | smbiosInfo =>
    obtain ⟨new, hnew, habsent⟩ := (saveSmbiosInfo_spec h hr).1.saves h
    exact ⟨new, hnew, fun hnone => habsent (not_not.mpr hnone)⟩
  | acpiInfo old => exact (saveAcpiInfo_spec h hr).1.saves h
  | loadBaseAddress info => exact hone (saveLoadBaseAddress_spec h hr).1
  | memoryMaps =>
    obtain ⟨new, hnew, -⟩ := saveMemoryMaps_spec h hr
    exact ⟨new, hnew, False.elim⟩
  | graphicsInfo info buffer uninitialized => exact saveGraphicsInfo_spec h hr

/-! ## Section 2: The System -/

/-- A step: a saver is called and returns, or memory changes outside of the record. -/
inductive RecordLabel where
  | save (c : SaveCall) (fuel : Nat) (result : Bool)
  | other

/-- The boot loader from `Multiboot_CreateEmptyMBI` on. -/
def recordSystem (B : Bios β) (mbi : BitVec 32) : System (Loader β) RecordLabel where
  init s := ∃ m, createEmptyMbi m mbi = (true, s.mem)
  step s label s' :=
    match label with
    | .save c fuel result => c.run B fuel mbi s = some (result, s')
    | .other => ∀ x, InBytes mbi (load32 s.mem mbi).toNat x → s'.mem x = s.mem x

/-- A record with the tags `l`, as the boot loader and the kernel rely on it. -/
structure SoundRecord (m : Memory) (mbi : BitVec 32) (l : List MbiTag) : Prop where
  valid : checkForValidMbi m mbi = true
  /-- The tags follow each other from offset 8 on, up to the terminator. -/
  tags : TagsAt m (mbi + 8) l
  last : mbi + 8 + BitVec.ofNat 32 (tagBytes l) = load32 m mbi + mbi - 8
  terminator : load32 m (load32 m mbi + mbi - 8) = 0 ∧ load32 m (load32 m mbi + mbi - 8 + 4) = 8
  nodup : (l.map MbiTag.type).Nodup
  finds : ∀ type, ∃ n, ∀ fuel, n ≤ fuel → findMbiTagAddress fuel m mbi type =
    some ((findTag type (mbi + 8) l).getD (load32 m mbi + mbi - 8))
  /-- The boot loader and the kernel come to the same tags. -/
  walk : Walk (InMbi m mbi) (nextMbiTag m) (mbi + 8) (tagAddrs (mbi + 8) l)
  kernelWalk : Walk (fun tag => load32 m tag ≠ 0) (nextKernelTag m) (mbi + 8)
    (tagAddrs (mbi + 8) l)

/-- What a step from the record with the tags `l` to that with the tags `l'` leaves. -/
structure KeepsTags (B : Bios β) (mbi : BitVec 32) (s : Loader β) (label : RecordLabel)
    (s' : Loader β) (l l' : List MbiTag) : Prop where
  prefix_eq : l <+: l'
  bytes : ∀ x, InBytes (mbi + 8) (tagBytes l) x → s'.mem x = s.mem x
  absent : ∀ c fuel result, label = .save c fuel result →
    c.ServiceAbsent B fuel (load32 s.mem mbi + mbi - 8) s →
    l' = l ∧ load32 s'.mem mbi = load32 s.mem mbi

theorem IsRecord.soundRecord {m : Memory} (h : IsRecord m mbi l)
    (hnodup : (l.map MbiTag.type).Nodup) : SoundRecord m mbi l where
  valid := h.checkForValidMbi
  tags := h.tags
  last := h.term_eq.symm
  terminator := by
    rw [h.term_eq]
    exact ⟨h.termType, h.termSize⟩
  nodup := hnodup
  finds type := by
    rw [h.term_eq]
    exact ⟨_, fun fuel hfuel => h.findMbiTagAddress_eq hfuel⟩
  walk := h.walk
  kernelWalk := h.kernelWalk

/-- A step of the system keeps a record a record. -/
theorem recordSystem_step {label : RecordLabel} (h : IsRecord s.mem mbi l)
    (hnodup : (l.map MbiTag.type).Nodup) (hstep : (recordSystem B mbi).step s label s') :
    ∃ l', (IsRecord s'.mem mbi l' ∧ (l'.map MbiTag.type).Nodup) ∧
      KeepsTags B mbi s label s' l l' := by
  cases label with
  | save c fuel result =>
    obtain ⟨new, hsaves, habsent⟩ := SaveCall.run_spec h hstep
    refine ⟨l ++ new, ⟨hsaves.record, hsaves.nodup hnodup⟩, List.prefix_append l new, ?_, ?_⟩
    · intro x hx
      have h4 : mbi + 8 = mbi + 4 + BitVec.ofNat 32 4 := by
        rw [BitVec.add_assoc]
        rfl
      have hfits := h.fits
      rw [h4] at hx
      exact hsaves.same x (hx.of_add (by omega) (by omega))
    · rintro _ _ _ ⟨rfl, rfl, rfl⟩ hnone
      rw [h.term_eq] at hnone
      obtain rfl := habsent hnone
      have hrecord := hsaves.record
      rw [List.append_nil] at hrecord ⊢
      exact ⟨rfl, hrecord.total.trans h.total.symm⟩
  | other =>
    have htotal := h.total_toNat
    have hsame : ∀ x, InBytes mbi (16 + tagBytes l) x → s'.mem x = s.mem x := fun x hx =>
      hstep x (htotal.symm ▸ hx)
    refine ⟨l, ⟨h.congr hsame, hnodup⟩, List.prefix_rfl, fun x hx => ?_, ?_⟩
    · have hfits := h.fits
      exact hsame x (hx.of_add (i := 8) (by omega) (by omega))
    · intro _ _ _ heq
      exact nomatch heq

/-! ## Section 3: Runs -/

theorem recordSystem_init (hfits : mbi.toNat + 16 < 2 ^ 32) (hinit : (recordSystem B mbi).init s) :
    IsRecord s.mem mbi [] := by
  obtain ⟨m, hm⟩ := hinit
  have halign : mbi.toNat % 8 = 0 := by
    by_contra hbad
    rw [createEmptyMbi, if_pos (fun hzero => hbad (umod8_eq_zero_iff.mp hzero))] at hm
    exact nomatch congrArg Prod.fst hm
  have hrecord := (isRecord_createEmptyMbi (m := m) halign hfits).2
  rwa [hm] at hrecord

/-- Whatever savers are called, in whatever order and with whatever answers of the BIOS: the
    record is sound after every call, and a call only adds tags to it. -/
theorem savers_keepRecord (B : Bios β) (mbi : BitVec 32) (hfits : mbi.toNat + 16 < 2 ^ 32)
    {n : Nat} {states : Nat → Loader β} {labels : Nat → RecordLabel}
    (hrun : (recordSystem B mbi).Run n states labels) :
    ∃ tags : Nat → List MbiTag, tags 0 = [] ∧
      (∀ i ≤ n, SoundRecord (states i).mem mbi (tags i)) ∧
      ∀ i < n, KeepsTags B mbi (states i) (labels i) (states (i + 1)) (tags i) (tags (i + 1)) := by
  have hinit : ∀ s, (recordSystem B mbi).init s →
      IsRecord s.mem mbi [] ∧ (([] : List MbiTag).map MbiTag.type).Nodup :=
    fun s hs => ⟨recordSystem_init hfits hs, List.nodup_nil⟩
  obtain ⟨tags, htags₀, hsound, hkeeps⟩ := hrun.exists_record
    (I := fun s l => IsRecord s.mem mbi l ∧ (l.map MbiTag.type).Nodup) hinit
    (fun s label s' l hl hstep => recordSystem_step hl.1 hl.2 hstep)
  exact ⟨tags, htags₀, fun i hi => (hsound i hi).1.soundRecord (hsound i hi).2, hkeeps⟩

/-! A record with one tag, made without a BIOS. -/

/-- A BIOS without services: it sets the carry flag. -/
def silentBios : Bios Unit where
  interrupt b _ r := ([], { r with flags := 1 }, b)
  keeps_esi _ _ _ := rfl

/-- A record without tags at `0x1000`. -/
def emptyLoader : Loader Unit := ⟨(createEmptyMbi (fun _ => 0) 0x1000).2, ()⟩

/-- The record after a call of `Multiboot_SaveBootLoaderInfo`. -/
def namedLoader : Loader Unit :=
  ((SaveCall.bootLoaderInfo.run silentBios 2 0x1000 emptyLoader).getD (false, emptyLoader)).2

theorem run_emptyLoader :
    SaveCall.bootLoaderInfo.run silentBios 2 0x1000 emptyLoader = some (true, namedLoader) := by
  have hres : (SaveCall.bootLoaderInfo.run silentBios 2 0x1000 emptyLoader).map Prod.fst =
      some true := by decide +kernel
  obtain ⟨⟨result, s⟩, hrun, hresult⟩ := Option.map_eq_some_iff.mp hres
  rw [namedLoader, hrun, Option.getD_some]
  exact congrArg (fun b => some (b, s)) hresult

theorem savers_keepRecord_named :
    ∃ tags : Nat → List MbiTag, tags 0 = [] ∧
      (∀ i ≤ 1, SoundRecord (if i = 0 then emptyLoader else namedLoader).mem 0x1000 (tags i)) ∧
      ∀ i < 1, KeepsTags silentBios 0x1000 (if i = 0 then emptyLoader else namedLoader)
        (.save .bootLoaderInfo 2 true) (if i + 1 = 0 then emptyLoader else namedLoader) (tags i)
        (tags (i + 1)) := by
  refine @savers_keepRecord Unit silentBios 0x1000 (by decide) 1
    (fun i => if i = 0 then emptyLoader else namedLoader)
    (fun _ => .save .bootLoaderInfo 2 true) ⟨⟨fun _ => 0, rfl⟩, fun i hi => ?_⟩
  obtain rfl : i = 0 := by omega
  exact run_emptyLoader

end Avos.Multiboot
