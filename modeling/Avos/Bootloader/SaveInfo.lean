import Avos.Bootloader.Header
import Avos.Bootloader.RecordRuns
import Avos.Library.Loops

/-! # The Requested Information

  `Multiboot_SaveInfo` of `bootloader/multiboot/src/multiboot.c`. The loop over the tags of the
  header calls a saver for every request that has one. It is left for a mandatory request of
  what is not supported. Behind it, `Multiboot_SaveGraphicsInfo` has the last word.

  The results of the savers are not looked at, and types without a saver are passed over. So
  the record has tags of the types that happened to be met, and of no other
  (`saveInfo_saves`).
-/

open ByteMemory Walks Loops

namespace Avos.Multiboot

/-! ## Section 1: Saving the Information -/

/-- The types that are tested for, with the calls that they lead to. -/
def requestSavers (info : KernelInfo) : List (BitVec 32 × SaveCall) :=
  [(1, .bootCommand), (2, .bootLoaderInfo), (4, .basicMemoryInfo), (5, .bootDeviceInfo info),
    (10, .apmInfo), (13, .smbiosInfo), (14, .acpiInfo true), (15, .acpiInfo false),
    (21, .loadBaseAddress info)]

/-- The types that end the loop in a mandatory tag: those of EFI, and of the network. -/
def unsupportedRequests : List (BitVec 32) := [11, 12, 17, 18, 19, 20, 16]

instance (type : BitVec 32) : Decidable (type ∈ unsupportedRequests) :=
  decidable_of_iff (unsupportedRequests.contains type = true) List.contains_iff_mem

/-- The mandatory tags that end the loop: those of EFI. -/
def unsupportedTags : List (BitVec 16) := [7, 8, 9]

section save

variable {β : Type*} (B : Bios β) (fuel : Nat) (mbi : BitVec 32) (info : KernelInfo)

/-- A saver is called, and its result is not looked at. -/
def runSaver (c : SaveCall) (s : Loader β) : Run (Loader β) (Loader β) :=
  match c.run B fuel mbi s with
  | none => ExceptT.mk none
  | some (_, s) => pure s

/-- `if (header_requests->requests[i] == type) save(…);`. -/
def testRequest (addr : BitVec 32) (s : Loader β) (p : BitVec 32 × SaveCall) :
    Run (Loader β) (Loader β) :=
  if load32 s.mem addr = p.1 then runSaver B fuel mbi p.2 s else pure s

/-- The request at `addr`. -/
def serveRequest (quit : Bool) (addr : BitVec 32) (s : Loader β) : Run (Loader β) (Loader β) :=
  (requestSavers info).foldlM (testRequest B fuel mbi addr) s >>= fun s =>
    if load32 s.mem addr ∈ unsupportedRequests ∧ quit then throw s else pure s

/-- A tag of the header. -/
def serveTag (tag : BitVec 32) (s : Loader β) : Run (Loader β) (Loader β) :=
  let quit := isMandatory s.mem tag
  if headerTagType s.mem tag ∈ unsupportedTags ∧ quit then throw s
  else if headerTagType s.mem tag = 1 then
    let nrequests := numRequests s.mem tag
    forLoop (fun i _ => i < nrequests)
      (fun i => serveRequest B fuel mbi info quit (requestAddr tag i)) (nrequests + 1) 0 s
  else pure s

/-- The loop over the tags of the header, with the next tag. -/
def serveTags (header : BitVec 32) (s : Loader β) : Run (Loader β) (BitVec 32 × Loader β) :=
  forLoop (fun _ p => InHeader p.2.mem header p.1)
    (fun _ p => serveTag B fuel mbi info p.1 p.2 >>= fun s => pure (nextHeaderTag s.mem p.1, s))
    fuel 0 (header + 16, s)

/-- `Multiboot_SaveInfo`. -/
def saveInfo (buffer : BitVec 32) (uninitialized : BitVec 16) (s : Loader β) :
    Option (Bool × Loader β) :=
  match (serveTags B fuel mbi info info.multibootHeader s).run with
  | none => none
  | some (.error s) => some (false, s)
  | some (.ok p) => saveGraphicsInfo B fuel mbi info buffer uninitialized p.2

end save

/-! ## Section 2: What Is Asked For -/

/-- The types that a tag requests. -/
def askedTypes (m : Memory) (tag : BitVec 32) : List (BitVec 32) :=
  if headerTagType m tag = 1 then requests m tag else []

/-- The record has a tag of the type. -/
def HasTagOf (m : Memory) (mbi type : BitVec 32) : Prop :=
  ∃ fuel tag, findMbiTagAddress fuel m mbi type = some tag ∧ load32 m tag = type

/-- The tag ends the loop. -/
def Stops (m : Memory) (tag : BitVec 32) : Prop :=
  isMandatory m tag = true ∧ (headerTagType m tag ∈ unsupportedTags ∨
    ∃ type ∈ askedTypes m tag, type ∈ unsupportedRequests)

/-- The type that a saver saves. -/
def SaveCall.type : SaveCall → BitVec 32
  | .bootCommand => 1
  | .bootLoaderInfo => 2
  | .basicMemoryInfo => 4
  | .bootDeviceInfo _ => 5
  | .memoryMaps => 6
  | .graphicsInfo _ _ _ => 7
  | .apmInfo => 10
  | .smbiosInfo => 13
  | .acpiInfo old => if old then 14 else 15
  | .loadBaseAddress _ => 21

/-- The service that the saver asks has something for it. -/
def SaveCall.Delivers {β : Type*} (B : Bios β) (fuel : Nat) (mbi : BitVec 32) (s : Loader β) :
    SaveCall → Prop
  | .bootDeviceInfo info => load16 s.mem (findSignature s.mem info.bootPartition 5) = 0xAA55
  | c => ¬c.ServiceAbsent B fuel (load32 s.mem mbi + mbi - 8) s

/-- The savers for these requests are called one after the other, with the states before the
    calls. -/
def callSavers {β : Type*} (B : Bios β) (fuel : Nat) (mbi : BitVec 32) (info : KernelInfo) :
    List (BitVec 32) → Loader β → Option (List (SaveCall × Loader β) × Loader β)
  | [], s => some ([], s)
  | type :: types, s =>
      match (requestSavers info).lookup type with
      | none => callSavers B fuel mbi info types s
      | some c =>
          match c.run B fuel mbi s with
          | none => none
          | some (_, s₁) =>
              (callSavers B fuel mbi info types s₁).map fun p => ((c, s) :: p.1, p.2)

/-- The tags ask for graphics, and a mode is found for them. -/
def ModeFound {β : Type*} (B : Bios β) (fuel : Nat) (mbi : BitVec 32) (info : KernelInfo)
    (buffer : BitVec 32) (uninitialized : BitVec 16) (s : Loader β) (g : GraphicsRequest) : Prop :=
  scanGraphics s.mem fuel info.multibootHeader = some (.ok g) ∧
    (g.graphicsMandatory ∨ g.vbeRequested ∨ g.framebufferRequested) ∧
      ModeChosen B fuel g (load32 s.mem mbi + mbi - 8) buffer uninitialized s

/-- How a request can be met: there has been a tag of the type before, or its saver was called
    and there was something for it to save, or a mode has been found; `s` is the state behind
    the calls. -/
inductive Met {β : Type*} (B : Bios β) (fuel : Nat) (mbi : BitVec 32) (info : KernelInfo)
    (buffer : BitVec 32) (uninitialized : BitVec 16) (tags : List MbiTag)
    (calls : List (SaveCall × Loader β)) (s : Loader β) : BitVec 32 → Prop
  | terminator : Met B fuel mbi info buffer uninitialized tags calls s 0
  | stored (t : MbiTag) : t ∈ tags → Met B fuel mbi info buffer uninitialized tags calls s t.type
  | saved (c : SaveCall) (s₁ : Loader β) : (c, s₁) ∈ calls → c.Delivers B fuel mbi s₁ →
      Met B fuel mbi info buffer uninitialized tags calls s c.type
  | vbe (g : GraphicsRequest) : ModeFound B fuel mbi info buffer uninitialized s g →
      Met B fuel mbi info buffer uninitialized tags calls s 7
  | framebuffer (g : GraphicsRequest) : ModeFound B fuel mbi info buffer uninitialized s g →
      g.graphicsMandatory ∨ g.framebufferRequested →
      Met B fuel mbi info buffer uninitialized tags calls s 8

/-- Whatever the savers save, they do not write to these bytes. -/
def Kept (mbi : BitVec 32) (tags : List MbiTag) (a : BitVec 32) (n : Nat) : Prop :=
  ∀ x, InBytes a n x → ¬InBytes mbi (8 + tagBytes tags + 10 * 0x10200) x

/-- The savers do not write to the header: neither to its fields nor to the tags that the loop
    comes to. -/
structure HeaderKept (m : Memory) (header mbi : BitVec 32) (walk : List (BitVec 32))
    (tags : List MbiTag) : Prop where
  fields : Kept mbi tags header 16
  tags : ∀ tag ∈ walk, Kept mbi tags tag (8 + 4 * numRequests m tag)

/-! ## Section 3: Calls of Savers -/

section calls

variable {β : Type*} {B : Bios β} {fuel : Nat} {mbi type : BitVec 32} {info : KernelInfo}
  {m m₀ : Memory} {l tags new : List MbiTag} {c : SaveCall} {s s₁ s' : Loader β} {b : Bool}
  {types types' : List (BitVec 32)} {calls : List (SaveCall × Loader β)}

/-- What the savers of `Multiboot_SaveInfo` do. -/
theorem SaveCall.savesOne (hc : (type, c) ∈ requestSavers info) (h : IsRecord s.mem mbi l)
    (hr : c.run B fuel mbi s = some (b, s')) :
    SavesOne (c.Delivers B fuel mbi s) type mbi l s s' b ∧
      WritesBehind mbi l 0x10200 s.mem s'.mem := by
  have hterm := h.term_eq
  simp only [requestSavers, List.mem_cons, Prod.mk.injEq, List.not_mem_nil, or_false] at hc
  have htrue : ∀ {n type'}, SavesOne True type' mbi l s s' b ∧ WritesBehind mbi l n s.mem s'.mem →
      n ≤ 0x10200 → SavesOne (¬False) type' mbi l s s' b ∧
        WritesBehind mbi l 0x10200 s.mem s'.mem := by
    rintro n type' ⟨hone, hwrites⟩ hn
    rw [not_false_eq_true]
    exact ⟨hone, hwrites.mono hn⟩
  rcases hc with ⟨rfl, rfl⟩ | ⟨rfl, rfl⟩ | ⟨rfl, rfl⟩ | ⟨rfl, rfl⟩ | ⟨rfl, rfl⟩ | ⟨rfl, rfl⟩ |
    ⟨rfl, rfl⟩ | ⟨rfl, rfl⟩ | ⟨rfl, rfl⟩
  · exact htrue (saveBootCommand_spec h hr) (by decide)
  · exact htrue (saveBootLoaderInfo_spec h hr) (by decide)
  · exact htrue (saveBasicMemoryInfo_spec h hr) (by decide)
  · obtain ⟨hone, hwrites⟩ := saveBootDeviceInfo_spec h hr
    exact ⟨hone, hwrites.mono (by decide)⟩
  · obtain ⟨hone, hwrites⟩ := saveApmInfo_spec h hr
    rw [Delivers, ServiceAbsent, not_not]
    · exact ⟨hone, hwrites.mono (by decide)⟩
    · exact fun _ => SaveCall.noConfusion
  · rw [Delivers, ServiceAbsent, hterm]
    · exact saveSmbiosInfo_spec h hr
    · exact fun _ => SaveCall.noConfusion
  · obtain ⟨hone, hwrites⟩ := saveAcpiInfo_spec h hr
    rw [Delivers, ServiceAbsent, not_not, hterm]
    · exact ⟨hone, hwrites.mono (by decide)⟩
    · exact fun _ => SaveCall.noConfusion
  · obtain ⟨hone, hwrites⟩ := saveAcpiInfo_spec h hr
    rw [Delivers, ServiceAbsent, not_not, hterm]
    · exact ⟨hone, hwrites.mono (by decide)⟩
    · exact fun _ => SaveCall.noConfusion
  · exact htrue (saveLoadBaseAddress_spec h hr) (by decide)

/-- The types with a saver. -/
def savedTypes : List (BitVec 32) := [1, 2, 4, 5, 10, 13, 14, 15, 21]

theorem mem_savedTypes (hc : (type, c) ∈ requestSavers info) : type ∈ savedTypes := by
  have hmap : (requestSavers info).map Prod.fst = savedTypes := rfl
  rw [← hmap]
  exact List.mem_map.mpr ⟨_, hc, rfl⟩

/-- Calls of savers have added the tags `new` to the record, one of a type at most, and have
    written nothing but the record and what is next to it. -/
structure Saving (m₀ : Memory) (mbi : BitVec 32) (tags new : List MbiTag) (m : Memory) : Prop where
  record : IsRecord m mbi (tags ++ new)
  only : OnlyIn mbi (8 + tagBytes tags + 10 * 0x10200) m₀ m
  nodup : (new.map MbiTag.type).Nodup
  types : ∀ t ∈ new, t.type ∈ savedTypes
  bytes : tagBytes new ≤ new.length * 0x10200

theorem Saving.refl (h : IsRecord m mbi tags) : Saving m mbi tags [] m where
  record := by rwa [List.append_nil]
  only := .refl
  nodup := List.nodup_nil
  types _ ht := absurd ht List.not_mem_nil
  bytes := Nat.le_refl 0

/-- There are no more tags than there are savers. -/
theorem Saving.length_le (h : Saving m₀ mbi tags new m) : new.length ≤ 9 := by
  have hsub : (new.map MbiTag.type) ⊆ savedTypes := by
    intro type htype
    obtain ⟨t, ht, rfl⟩ := List.mem_map.mp htype
    exact h.types t ht
  have hle := (h.nodup.subperm hsub).length_le
  rw [List.length_map] at hle
  exact hle

/-- A saver is called. -/
theorem Saving.run (h : Saving m₀ mbi tags new s.mem) (hc : (type, c) ∈ requestSavers info)
    (hr : c.run B fuel mbi s = some (b, s')) :
    ∃ new', Saving m₀ mbi tags new' s'.mem ∧ ∀ type', (∃ t ∈ tags ++ new', t.type = type') ↔
      (∃ t ∈ tags ++ new, t.type = type') ∨ (type' = type ∧ c.Delivers B fuel mbi s) := by
  obtain ⟨hone, hwrites⟩ := SaveCall.savesOne hc h.record hr
  have hlength := h.length_le
  have hbytes := h.bytes
  have hreach : tagBytes (tags ++ new) + 0x10200 ≤ tagBytes tags + 10 * 0x10200 := by
    rw [tagBytes_append]
    omega
  have honly : OnlyIn mbi (8 + tagBytes tags + 10 * 0x10200) m₀ s'.mem :=
    h.only.trans (hwrites.only.mono (by omega))
  rcases hone with ⟨-, rfl, t, ht, htype⟩ | ⟨hnew, ⟨hd, -, t, htype, hsaves⟩ | ⟨hd, -, hsaves⟩⟩
  · refine ⟨new, h, fun type' => ⟨.inl, ?_⟩⟩
    rintro (hthere | ⟨rfl, -⟩)
    · exact hthere
    · exact ⟨t, ht, htype⟩
  · have hrecord : IsRecord s'.mem mbi (tags ++ (new ++ [t])) := by
      rw [← List.append_assoc]
      exact hsaves.record
    have hsize : t.size ≤ 0x10200 := by
      have hinside := hwrites.inside
      rw [hrecord.total_toNat, ← List.append_assoc, tagBytes_append, tagBytes_cons,
        tagBytes_nil] at hinside
      omega
    refine ⟨new ++ [t], ⟨hrecord, honly, ?_, ?_, ?_⟩, ?_⟩
    · rw [List.map_append, List.nodup_append]
      refine ⟨h.nodup, List.nodup_singleton _, ?_⟩
      rintro a ha a' ha' rfl
      obtain ⟨t', ht', rfl⟩ := List.mem_map.mp ha
      obtain ⟨t'', ht'', heq⟩ := List.mem_map.mp ha'
      rw [List.mem_singleton.mp ht'', htype] at heq
      exact hnew t' (List.mem_append_right _ ht') heq.symm
    · intro t' ht'
      rcases List.mem_append.mp ht' with ht' | ht'
      · exact h.types t' ht'
      · rw [List.mem_singleton.mp ht', htype]
        exact mem_savedTypes hc
    · rw [tagBytes_append, tagBytes_cons, tagBytes_nil, List.length_append, List.length_singleton]
      omega
    · intro type'
      rw [← List.append_assoc]
      constructor
      · rintro ⟨t', ht', rfl⟩
        rcases List.mem_append.mp ht' with ht' | ht'
        · exact .inl ⟨t', ht', rfl⟩
        · rw [List.mem_singleton.mp ht']
          exact .inr ⟨htype, hd⟩
      · rintro (⟨t', ht', rfl⟩ | ⟨rfl, -⟩)
        · exact ⟨t', List.mem_append_left _ ht', rfl⟩
        · exact ⟨t, List.mem_append_right _ (List.mem_singleton_self t), htype⟩
  · have hrecord : IsRecord s'.mem mbi (tags ++ new) := by
      rw [← List.append_nil (tags ++ new)]
      exact hsaves.record
    refine ⟨new, ⟨hrecord, honly, h.nodup, h.types, h.bytes⟩, fun type' => ⟨.inl, ?_⟩⟩
    rintro (hthere | ⟨-, hd'⟩)
    · exact hthere
    · exact absurd hd' hd

theorem lookup_mem (hc : (requestSavers info).lookup type = some c) :
    (type, c) ∈ requestSavers info := by
  obtain ⟨l₁, l₂, heq, -⟩ := List.lookup_eq_some_iff.mp hc
  rw [heq]
  exact List.mem_append_right _ List.mem_cons_self

theorem type_of_mem (hc : (type, c) ∈ requestSavers info) : type = c.type := by
  have hall : ∀ p ∈ requestSavers info, p.1 = p.2.type := by
    simp [requestSavers, SaveCall.type]
  exact hall _ hc

/-- The record behind the calls has got a tag of every type that was delivered, and of no
    other. -/
theorem Saving.callSavers (h : Saving m₀ mbi tags new s.mem)
    (hcalls : Multiboot.callSavers B fuel mbi info types s = some (calls, s₁)) :
    ∃ new', Saving m₀ mbi tags new' s₁.mem ∧ ∀ type, (∃ t ∈ tags ++ new', t.type = type) ↔
      (∃ t ∈ tags ++ new, t.type = type) ∨
        ∃ c s₂, (c, s₂) ∈ calls ∧ c.type = type ∧ c.Delivers B fuel mbi s₂ := by
  induction types generalizing s new calls with
  | nil =>
    obtain ⟨rfl, rfl⟩ := Prod.mk.inj (Option.some.inj hcalls)
    refine ⟨new, h, fun type => ⟨.inl, ?_⟩⟩
    rintro (hthere | ⟨c, s₂, hmem, -⟩)
    · exact hthere
    · exact absurd hmem List.not_mem_nil
  | cons type types ih =>
    rw [Multiboot.callSavers] at hcalls
    split at hcalls
    · exact ih h hcalls
    · next c hc =>
      have hmem := lookup_mem hc
      split at hcalls
      · exact nomatch hcalls
      · next b s₂ hr =>
        obtain ⟨⟨calls', s₃⟩, hrest, heq⟩ := Option.map_eq_some_iff.mp hcalls
        obtain ⟨rfl, rfl⟩ := Prod.mk.inj heq
        obtain ⟨new₁, hnew₁, htypes₁⟩ := h.run hmem hr
        obtain ⟨new₂, hnew₂, htypes₂⟩ := ih hnew₁ hrest
        refine ⟨new₂, hnew₂, fun type' => ?_⟩
        rw [htypes₂, htypes₁]
        constructor
        · rintro ((hthere | ⟨rfl, hd⟩) | ⟨c', s₄, hcall, htype, hd⟩)
          · exact .inl hthere
          · exact .inr ⟨c, s, List.mem_cons_self, (type_of_mem hmem).symm, hd⟩
          · exact .inr ⟨c', s₄, List.mem_cons_of_mem _ hcall, htype, hd⟩
        · rintro (hthere | ⟨c', s₄, hcall, htype, hd⟩)
          · exact .inl (.inl hthere)
          · rcases List.mem_cons.mp hcall with hfirst | hcall
            · obtain ⟨rfl, rfl⟩ := Prod.mk.inj hfirst
              exact .inl (.inr ⟨htype.symm.trans (type_of_mem hmem).symm, hd⟩)
            · exact .inr ⟨c', s₄, hcall, htype, hd⟩

end calls

/-! ## Section 4: The Loop as a Row of Calls -/

section serves

variable {β : Type*} {B : Bios β} {fuel : Nat} {mbi type header : BitVec 32} {info : KernelInfo}
  {m : Memory} {tags : List MbiTag} {s s₁ s' : Loader β} {good : Prop} {a tag : BitVec 32}
  {types types' walk : List (BitVec 32)} {c : SaveCall}
  {calls calls' : List (SaveCall × Loader β)} {n : Nat}

theorem callSavers_of_none (h : (requestSavers info).lookup type = none) :
    callSavers B fuel mbi info (type :: types) s = callSavers B fuel mbi info types s := by
  rw [callSavers, h]

theorem callSavers_cons (h : (requestSavers info).lookup type = some c) :
    callSavers B fuel mbi info (type :: types) s = some (calls, s') ↔
      ∃ b s₁ calls', c.run B fuel mbi s = some (b, s₁) ∧
        callSavers B fuel mbi info types s₁ = some (calls', s') ∧ calls = (c, s) :: calls' := by
  rw [callSavers, h]
  dsimp only
  split
  · next hrun =>
    constructor
    · exact fun hnone => nomatch hnone
    · rintro ⟨b, s₁, calls', hsome, -⟩
      rw [hrun] at hsome
      exact nomatch hsome
  · next b s₁ hrun =>
    simp only [hrun, Option.map_eq_some_iff, Prod.mk.injEq, Prod.exists, Option.some.injEq]
    constructor
    · rintro ⟨calls', s₂, hrest, rfl, rfl⟩
      exact ⟨b, s₁, calls', ⟨rfl, rfl⟩, hrest, rfl⟩
    · rintro ⟨_, _, calls', ⟨rfl, rfl⟩, hrest, rfl⟩
      exact ⟨calls', s', hrest, rfl, rfl⟩

theorem callSavers_append :
    callSavers B fuel mbi info (types ++ types') s = some (calls, s') ↔
      ∃ calls₁ s₁ calls₂, callSavers B fuel mbi info types s = some (calls₁, s₁) ∧
        callSavers B fuel mbi info types' s₁ = some (calls₂, s') ∧ calls = calls₁ ++ calls₂ := by
  induction types generalizing s calls with
  | nil =>
    constructor
    · exact fun h => ⟨[], s, calls, rfl, h, rfl⟩
    · rintro ⟨calls₁, s₁, calls₂, h₁, h₂, rfl⟩
      obtain ⟨rfl, rfl⟩ := Prod.mk.inj (Option.some.inj h₁)
      exact h₂
  | cons type types ih =>
    rw [List.cons_append]
    cases htype : (requestSavers info).lookup type with
    | none =>
      simp only [callSavers_of_none htype]
      exact ih
    | some c =>
      simp only [callSavers_cons htype]
      constructor
      · rintro ⟨b, s₂, calls', hrun, hrest, rfl⟩
        obtain ⟨calls₁, s₁, calls₂, h₁, h₂, rfl⟩ := ih.mp hrest
        exact ⟨(c, s) :: calls₁, s₁, calls₂, ⟨b, s₂, calls₁, hrun, h₁, rfl⟩, h₂, rfl⟩
      · rintro ⟨_, s₁, calls₂, ⟨b, s₂, calls₁, hrun, h₁, rfl⟩, h₂, rfl⟩
        exact ⟨b, s₂, calls₁ ++ calls₂, hrun, ih.mpr ⟨calls₁, s₁, calls₂, h₁, h₂, rfl⟩, rfl⟩

/-- Savers have been called from a state with the memory `m` on. -/
def Served (m : Memory) (mbi : BitVec 32) (tags : List MbiTag) (s : Loader β) : Prop :=
  ∃ new, Saving m mbi tags new s.mem

/-- While savers are called, the run comes to its end if and only if `good` holds and the savers
    for `types` come to theirs, and with the state behind them. -/
def ServesTypes (B : Bios β) (fuel : Nat) (mbi : BitVec 32) (info : KernelInfo) (m : Memory)
    (tags : List MbiTag) (good : Prop) (types : List (BitVec 32))
    (f : Loader β → Run (Loader β) (Loader β)) : Prop :=
  ∀ s s', Served m mbi tags s → ((f s).run = some (.ok s') ↔
    good ∧ ∃ calls, callSavers B fuel mbi info types s = some (calls, s'))

theorem ServesTypes.served {f : Loader β → Run (Loader β) (Loader β)}
    (h : ServesTypes B fuel mbi info m tags good types f) (hs : Served m mbi tags s)
    (hrun : (f s).run = some (.ok s')) : Served m mbi tags s' := by
  obtain ⟨-, calls, hcalls⟩ := (h s s' hs).mp hrun
  obtain ⟨new, hnew⟩ := hs
  obtain ⟨new', hnew', -⟩ := hnew.callSavers hcalls
  exact ⟨new', hnew'⟩

theorem serves_pure (h : good) : ServesTypes B fuel mbi info m tags good [] pure := by
  intro s s' _
  constructor
  · intro hrun
    obtain rfl : s = s' := Except.ok.inj (Option.some.inj hrun)
    exact ⟨h, [], rfl⟩
  · rintro ⟨-, calls, hcalls⟩
    obtain ⟨-, rfl⟩ := Prod.mk.inj (Option.some.inj hcalls)
    rfl

/-- A fold over parts that each serve their types. -/
theorem ServesTypes.foldlM {α : Type*} {l : List α} {f : Loader β → α → Run (Loader β) (Loader β)}
    {good : α → Prop} {types : α → List (BitVec 32)}
    (h : ∀ a ∈ l, ServesTypes B fuel mbi info m tags (good a) (types a) (fun s => f s a)) :
    ServesTypes B fuel mbi info m tags (∀ a ∈ l, good a) (l.flatMap types)
      (fun s => l.foldlM f s) := by
  induction l with
  | nil => exact serves_pure fun a ha => absurd ha List.not_mem_nil
  | cons a l ih =>
    have hfirst := h a List.mem_cons_self
    have hrest := ih fun b hb => h b (List.mem_cons_of_mem _ hb)
    intro s s' hs
    simp only [List.foldlM_cons, run_bind_eq_ok, List.flatMap_cons, callSavers_append,
      List.forall_mem_cons]
    constructor
    · rintro ⟨s₁, hrun, hfold⟩
      obtain ⟨hgood, calls₁, h₁⟩ := (hfirst s s₁ hs).mp hrun
      obtain ⟨hall, calls₂, h₂⟩ := (hrest s₁ s' (hfirst.served hs hrun)).mp hfold
      exact ⟨⟨hgood, hall⟩, calls₁ ++ calls₂, calls₁, s₁, calls₂, h₁, h₂, rfl⟩
    · rintro ⟨⟨hgood, hall⟩, _, calls₁, s₁, calls₂, h₁, h₂, rfl⟩
      have hrun := (hfirst s s₁ hs).mpr ⟨hgood, calls₁, h₁⟩
      exact ⟨s₁, hrun, (hrest s₁ s' (hfirst.served hs hrun)).mpr ⟨hall, calls₂, h₂⟩⟩

theorem Kept.of_add {i : Nat} {k : Nat} (h : Kept mbi tags a k) (hi : i + n ≤ k)
    (hk : k ≤ 2 ^ 32) : Kept mbi tags (a + BitVec.ofNat 32 i) n :=
  fun x hx => h x (hx.of_add hi hk)

theorem Served.load32_eq (h : Served m mbi tags s) (ha : Kept mbi tags a 4) :
    load32 s.mem a = load32 m a := by
  obtain ⟨new, hnew⟩ := h
  exact load32_congr fun x hx => hnew.only x (ha x hx)

theorem Served.load16_eq (h : Served m mbi tags s) (ha : Kept mbi tags a 2) :
    load16 s.mem a = load16 m a := by
  obtain ⟨new, hnew⟩ := h
  exact load16_congr fun x hx => hnew.only x (ha x hx)

/-- Not all bytes are kept. -/
theorem Kept.lt (h : Kept mbi tags a n) : n < 2 ^ 32 := by
  by_contra hge
  refine h mbi ?_ (inBytes_self (by omega))
  have hlt := (mbi - a).isLt
  rw [inBytes_iff]
  omega

theorem runSaver_ok :
    (runSaver B fuel mbi c s).run = some (.ok s') ↔ ∃ b, c.run B fuel mbi s = some (b, s') := by
  unfold runSaver
  split
  · next hrun =>
    rw [hrun]
    exact ⟨fun h => (nomatch h), fun ⟨b, h⟩ => (nomatch h)⟩
  · next b s₁ hrun =>
    rw [hrun]
    constructor
    · intro h
      obtain rfl : s₁ = s' := Except.ok.inj (Option.some.inj h)
      exact ⟨b, rfl⟩
    · rintro ⟨_, h⟩
      obtain ⟨rfl, rfl⟩ := Prod.mk.inj (Option.some.inj h)
      rfl

/-- At most one of the tests for the types succeeds. -/
theorem serves_tests (ha : Kept mbi tags a 4) :
    ServesTypes B fuel mbi info m tags True [load32 m a]
      (fun s => (requestSavers info).foldlM (testRequest B fuel mbi a) s) := by
  intro s s' hs
  have hnodup : ((requestSavers info).map Prod.fst).Nodup := by
    show savedTypes.Nodup
    decide
  have hfold : (requestSavers info).foldlM (testRequest B fuel mbi a) s =
      ((requestSavers info).lookup (load32 m a)).elim (pure s)
        fun c => runSaver B fuel mbi c s := by
    apply foldlM_lookup (I := Served m mbi tags) hnodup (fun s hs => hs.load32_eq ha) ?_ hs
    rintro ⟨type, c⟩ hc s s' ⟨new, hnew⟩ hrun
    obtain ⟨b, hb⟩ := runSaver_ok.mp hrun
    obtain ⟨new', hnew', -⟩ := hnew.run hc hb
    exact ⟨new', hnew'⟩
  dsimp only
  rw [hfold]
  cases htype : (requestSavers info).lookup (load32 m a) with
  | none =>
    rw [callSavers_of_none htype]
    exact serves_pure trivial s s' hs
  | some c =>
    simp only [callSavers_cons htype, Option.elim_some, runSaver_ok]
    constructor
    · rintro ⟨b, hrun⟩
      exact ⟨trivial, [(c, s)], b, s', [], hrun, rfl, rfl⟩
    · rintro ⟨-, calls, b, s₁, calls', hrun, hcalls, -⟩
      obtain ⟨-, rfl⟩ := Prod.mk.inj (Option.some.inj hcalls)
      exact ⟨b, hrun⟩

theorem serves_request {quit : Bool} (ha : Kept mbi tags a 4) :
    ServesTypes B fuel mbi info m tags (¬(load32 m a ∈ unsupportedRequests ∧ quit)) [load32 m a]
      (serveRequest B fuel mbi info quit a) := by
  intro s s' hs
  have htests : ServesTypes B fuel mbi info m tags True [load32 m a]
    (fun s => (requestSavers info).foldlM (testRequest B fuel mbi a) s) := serves_tests ha
  have hquit : ∀ s₁, Served m mbi tags s₁ →
      ((if load32 s₁.mem a ∈ unsupportedRequests ∧ quit then throw s₁ else pure s₁ :
        Run (Loader β) (Loader β)).run = some (.ok s') ↔
        ¬(load32 m a ∈ unsupportedRequests ∧ quit) ∧ s₁ = s') := by
    intro s₁ hs₁
    rw [hs₁.load32_eq ha]
    split
    · next hleave => exact ⟨fun h => (nomatch h), fun h => absurd hleave h.1⟩
    · next hstay =>
      constructor
      · exact fun h => ⟨hstay, Except.ok.inj (Option.some.inj h)⟩
      · rintro ⟨-, rfl⟩
        rfl
  rw [serveRequest, run_bind_eq_ok]
  constructor
  · rintro ⟨s₁, hrun, hend⟩
    obtain ⟨hgood, rfl⟩ := (hquit s₁ (htests.served hs hrun)).mp hend
    exact ⟨hgood, ((htests s s₁ hs).mp hrun).2⟩
  · rintro ⟨hgood, hcalls⟩
    have hrun := (htests s s' hs).mpr ⟨trivial, hcalls⟩
    exact ⟨s', hrun, (hquit s' (htests.served hs hrun)).mpr ⟨hgood, rfl⟩⟩

/-- Where the requests of a tag are. -/
def requestAddrs (m : Memory) (tag : BitVec 32) : List (BitVec 32) :=
  (List.range (numRequests m tag)).map (requestAddr tag)

theorem flatMap_requestAddrs :
    (requestAddrs m tag).flatMap (fun a => [load32 m a]) = requests m tag := by
  rw [← List.map_eq_flatMap, requestAddrs, requests, List.map_map]
  rfl

theorem Kept.request (h : Kept mbi tags tag (8 + 4 * numRequests m tag))
    (ha : a ∈ requestAddrs m tag) : Kept mbi tags a 4 := by
  obtain ⟨i, hi, rfl⟩ := List.mem_map.mp ha
  have hi' := List.mem_range.mp hi
  have hlt := h.lt
  have haddr : requestAddr tag i = tag + BitVec.ofNat 32 (8 + 4 * i) := by
    rw [requestAddr, BitVec.ofNat_add, ← BitVec.add_assoc]
    rfl
  rw [haddr]
  exact h.of_add (by omega) (by omega)

theorem serves_tag (hkept : Kept mbi tags tag (8 + 4 * numRequests m tag)) :
    ServesTypes B fuel mbi info m tags (¬Stops m tag) (askedTypes m tag)
      (serveTag B fuel mbi info tag) := by
  intro s s' hs
  have hlt := hkept.lt
  have hfield : ∀ i n, i + n ≤ 8 → Kept mbi tags (tag + BitVec.ofNat 32 i) n :=
    fun i n hi => hkept.of_add (by omega) (by omega)
  have htype : headerTagType s.mem tag = headerTagType m tag :=
    hs.load16_eq ((BitVec.add_zero tag) ▸ hfield 0 2 (by decide))
  have hmandatory : isMandatory s.mem tag = isMandatory m tag := by
    have hflags : load16 s.mem (tag + 2) = load16 m (tag + 2) :=
      hs.load16_eq (hfield 2 2 (by decide))
    rw [isMandatory, isMandatory, hflags]
  have hnum : numRequests s.mem tag = numRequests m tag := by
    have hsize : headerTagSize s.mem tag = headerTagSize m tag :=
      hs.load32_eq (hfield 4 4 (by decide))
    rw [numRequests, numRequests, hsize]
  rw [serveTag, htype, hmandatory, hnum]
  dsimp only
  by_cases hefi : headerTagType m tag ∈ unsupportedTags ∧ isMandatory m tag = true
  · rw [if_pos hefi]
    have hstops : Stops m tag := ⟨hefi.2, .inl hefi.1⟩
    exact ⟨fun h => (nomatch h), fun h => absurd hstops h.1⟩
  rw [if_neg hefi]
  by_cases hone : headerTagType m tag = 1
  · rw [if_pos hone]
    have hasked : askedTypes m tag = requests m tag := if_pos hone
    have hloop : forLoop (fun i _ => i < numRequests m tag)
        (fun i => serveRequest B fuel mbi info (isMandatory m tag) (requestAddr tag i))
        (numRequests m tag + 1) 0 s = (requestAddrs m tag).foldlM
          (fun s a => serveRequest B fuel mbi info (isMandatory m tag) a s) s := by
      have hlength : (requestAddrs m tag).length = numRequests m tag := by simp [requestAddrs]
      apply forLoop_eq_foldlM (I := Served m mbi tags)
      · intro k s _ _
        rw [hlength]
      · intro k hk s _
        simp [requestAddrs]
      · intro a ha s s' hs hrun
        exact (serves_request (hkept.request ha)).served hs hrun
      · omega
      · exact hs
    rw [hloop, hasked, ← flatMap_requestAddrs]
    have hserves : ServesTypes B fuel mbi info m tags
        (∀ a ∈ requestAddrs m tag, ¬(load32 m a ∈ unsupportedRequests ∧ isMandatory m tag = true))
        ((requestAddrs m tag).flatMap fun a => [load32 m a])
        (fun s => (requestAddrs m tag).foldlM
          (fun s a => serveRequest B fuel mbi info (isMandatory m tag) a s) s) :=
      .foldlM fun a ha => serves_request (hkept.request ha)
    rw [hserves s s' hs]
    apply and_congr_left'
    constructor
    · rintro hall ⟨hquit, hunsupported | ⟨type, htype', hmem⟩⟩
      · exact hefi ⟨hunsupported, hquit⟩
      · rw [hasked, ← flatMap_requestAddrs, ← List.map_eq_flatMap] at htype'
        obtain ⟨a, ha, rfl⟩ := List.mem_map.mp htype'
        exact hall a ha ⟨hmem, hquit⟩
    · rintro hgood a ha ⟨hmem, hquit⟩
      refine hgood ⟨hquit, .inr ⟨_, ?_, hmem⟩⟩
      rw [hasked, ← flatMap_requestAddrs, ← List.map_eq_flatMap]
      exact List.mem_map.mpr ⟨a, ha, rfl⟩
  · rw [if_neg hone]
    have hasked : askedTypes m tag = [] := if_neg hone
    have hgood : ¬Stops m tag := by
      rintro ⟨hquit, hunsupported | ⟨type, htype', -⟩⟩
      · exact hefi ⟨hunsupported, hquit⟩
      · rw [hasked] at htype'
        exact absurd htype' List.not_mem_nil
    rw [hasked]
    exact serves_pure hgood s s' hs

/-- The loop over the tags comes to its end if and only if no tag ends it before and the savers
    come to theirs. -/
theorem serveTags_ok (hkept : HeaderKept m header mbi walk tags)
    (hwalk : Walk (InHeader m header) (nextHeaderTag m) (header + 16) walk)
    (hs : Served m mbi tags s) :
    (∃ b, (serveTags B fuel mbi info header s).run = some (.ok (b, s'))) ↔
      walk.length < fuel ∧ (∀ tag ∈ walk, ¬Stops m tag) ∧
        ∃ calls, callSavers B fuel mbi info (walk.flatMap (askedTypes m)) s =
          some (calls, s') := by
  have hlength : Kept mbi tags (header + 8) 4 :=
    hkept.fields.of_add (i := 8) (by decide) (by decide)
  have hsize : ∀ tag ∈ walk, Kept mbi tags (tag + 4) 4 := by
    intro tag htag
    have hlt := (hkept.tags tag htag).lt
    exact (hkept.tags tag htag).of_add (i := 4) (by omega) (by omega)
  have hserves : ∀ tag ∈ walk, ServesTypes B fuel mbi info m tags (¬Stops m tag) (askedTypes m tag)
      (fun s => serveTag B fuel mbi info tag s) :=
    fun tag htag => serves_tag (hkept.tags tag htag)
  rw [← ServesTypes.foldlM hserves s s' hs]
  apply forLoop_walk_ok (I := Served m mbi tags) hwalk
  · intro k p hp
    rw [InHeader, InHeader, headerLength, hp.load32_eq hlength]
    rfl
  · intro k p htag hp
    apply bind_congr_ok
    intro s₁ hrun
    have hs₁ := (hserves p.1 htag).served hp hrun
    rw [nextHeaderTag, headerTagSize, hs₁.load32_eq (hsize p.1 htag)]
    rfl
  · exact fun tag htag s s' hs hrun => (hserves tag htag).served hs hrun
  · exact hs

end serves

/-! ## Section 5: The Requests That Are Met -/

section met

variable {β : Type*} {B : Bios β} {fuel : Nat} {mbi type : BitVec 32} {info : KernelInfo}
  {buffer : BitVec 32} {uninitialized : BitVec 16} {m : Memory} {l tags : List MbiTag}
  {s s₁ s' : Loader β} {g g' : GraphicsRequest} {calls : List (SaveCall × Loader β)}
  {walk : List (BitVec 32)}

/-- The terminator counts as a tag of its type. -/
theorem hasTagOf_iff (h : IsRecord m mbi l) :
    HasTagOf m mbi type ↔ type = 0 ∨ ∃ t ∈ l, t.type = type := by
  constructor
  · rintro ⟨fuel, tag, hfind, htag⟩
    obtain rfl := h.find_eq hfind
    cases hfound : findTag type (mbi + 8) l with
    | none =>
      rw [hfound, Option.getD_none, h.termType] at htag
      exact .inl htag.symm
    | some a => exact .inr (findTag_mem hfound)
  · intro hthere
    have hfind : findMbiTagAddress ((tagAddrs (mbi + 8) l).length + 1) m mbi type =
        some ((findTag type (mbi + 8) l).getD (termAddr mbi l)) :=
      h.findMbiTagAddress_eq (Nat.lt_succ_self _)
    refine ⟨_, _, hfind, ?_⟩
    cases hfound : findTag type (mbi + 8) l with
    | none =>
      rcases hthere with rfl | ⟨t, ht, htype⟩
      · exact h.termType
      · exact absurd htype (findTag_none hfound t ht)
    | some a => exact findTag_type h.tags hfound

theorem ModeFound.unique (h : ModeFound B fuel mbi info buffer uninitialized s g)
    (hscan : scanGraphics s.mem fuel info.multibootHeader = some (.ok g')) : g = g' := by
  rw [h.1] at hscan
  exact Except.ok.inj (Option.some.inj hscan)

/-- The type is one of graphics, and a mode has been found for it. -/
def GraphicsMet (B : Bios β) (fuel : Nat) (mbi : BitVec 32) (info : KernelInfo)
    (buffer : BitVec 32) (uninitialized : BitVec 16) (s : Loader β) (type : BitVec 32) : Prop :=
  ∃ g, ModeFound B fuel mbi info buffer uninitialized s g ∧
    (type = 7 ∨ (type = 8 ∧ (g.graphicsMandatory ∨ g.framebufferRequested)))

/-- Where it returns true, `Multiboot_SaveGraphicsInfo` has added the tags for the mode. -/
theorem saveGraphicsInfo_true (h : IsRecord s.mem mbi l)
    (hr : saveGraphicsInfo B fuel mbi info buffer uninitialized s = some (true, s')) :
    ∃ new, IsRecord s'.mem mbi (l ++ new) ∧ ∀ type, (∃ t ∈ new, t.type = type) ↔
      GraphicsMet B fuel mbi info buffer uninitialized s type := by
  have hnone : ∀ type, ¬∃ t ∈ ([] : List MbiTag), t.type = type := by
    rintro type ⟨t, ht, -⟩
    exact absurd ht List.not_mem_nil
  have hterm := h.term_eq
  rcases saveGraphicsInfo_cases hr with ⟨-, hb, -⟩ | ⟨-, g, hscan, hg⟩
  · exact nomatch hb
  split at hg
  · next hnothing =>
    obtain ⟨-, rfl⟩ := hg
    refine ⟨[], by rwa [List.append_nil], fun type => iff_of_false (hnone type) ?_⟩
    rintro ⟨g', hmode, -⟩
    obtain rfl := hmode.unique hscan
    obtain ⟨hgraphics, hvbe, hframebuffer⟩ := hnothing
    rcases hmode.2.1 with hasked | hasked | hasked
    · exact hgraphics hasked
    · exact hvbe hasked
    · exact hframebuffer hasked
  · next hsome =>
    have hasked : g.graphicsMandatory ∨ g.vbeRequested ∨ g.framebufferRequested := by
      by_contra hno
      rw [not_or, not_or] at hno
      exact hsome hno
    obtain ⟨new, hsaves, hways, hbuffer⟩ := saveGraphics_spec h hg
    refine ⟨new, hsaves.record, fun type => ?_⟩
    have hfound : ModeChosen B fuel g (termAddr mbi l) buffer uninitialized s →
        ModeFound B fuel mbi info buffer uninitialized s g := by
      rw [← hterm]
      exact fun hmode => ⟨hscan, hasked, hmode⟩
    generalize hb : true = b at hways
    cases hways with
    | found _ => exact nomatch hb
    | absent habsent =>
      refine iff_of_false (hnone type) ?_
      rintro ⟨g', hmode, -⟩
      obtain rfl := hmode.unique hscan
      apply habsent
      rw [← hterm]
      exact hmode.2.2
    | vbe t b hmode ht hdone =>
      constructor
      · rintro ⟨t', ht', rfl⟩
        rw [List.mem_singleton.mp ht']
        exact ⟨g, hfound hmode, .inl ht⟩
      · rintro ⟨g', hmode', rfl | ⟨-, hasked'⟩⟩
        · exact ⟨t, List.mem_singleton_self t, ht⟩
        · obtain rfl := hmode'.unique hscan
          obtain ⟨hgraphics, hframebuffer⟩ := hdone hb.symm
          rcases hasked' with hasked' | hasked'
          · exact absurd hasked' hgraphics
          · exact absurd hasked' hframebuffer
    | framebuffer t t' b hmode ht ht' =>
      have hmem : t' ∈ [t, t'] := List.mem_cons_of_mem _ (List.mem_singleton_self t')
      constructor
      · rintro ⟨t'', ht'', rfl⟩
        refine ⟨g, hfound hmode, ?_⟩
        rcases List.mem_cons.mp ht'' with rfl | ht''
        · exact .inl ht
        · rw [List.mem_singleton.mp ht'']
          exact .inr ⟨ht', hbuffer ⟨t', hmem, ht'⟩⟩
      · rintro ⟨g', -, rfl | ⟨rfl, -⟩⟩
        · exact ⟨t, List.mem_cons_self, ht⟩
        · exact ⟨t', hmem, ht'⟩

theorem met_iff : Met B fuel mbi info buffer uninitialized tags calls s type ↔
    type = 0 ∨ (∃ t ∈ tags, t.type = type) ∨
      (∃ c s₁, (c, s₁) ∈ calls ∧ c.type = type ∧ c.Delivers B fuel mbi s₁) ∨
        GraphicsMet B fuel mbi info buffer uninitialized s type := by
  constructor
  · intro h
    cases h with
    | terminator => exact .inl rfl
    | stored t ht => exact .inr (.inl ⟨t, ht, rfl⟩)
    | saved c s₁ hcall hd => exact .inr (.inr (.inl ⟨c, s₁, hcall, rfl, hd⟩))
    | vbe g hmode => exact .inr (.inr (.inr ⟨g, hmode, .inl rfl⟩))
    | framebuffer g hmode hasked => exact .inr (.inr (.inr ⟨g, hmode, .inr ⟨rfl, hasked⟩⟩))
  · rintro (rfl | ⟨t, ht, rfl⟩ | ⟨c, s₁, hcall, rfl, hd⟩ | ⟨g, hmode, rfl | ⟨rfl, hasked⟩⟩)
    · exact .terminator
    · exact .stored t ht
    · exact .saved c s₁ hcall hd
    · exact .vbe g hmode
    · exact .framebuffer g hmode hasked

theorem saveInfo_true :
    saveInfo B fuel mbi info buffer uninitialized s = some (true, s') ↔ ∃ s₁,
      (∃ b, (serveTags B fuel mbi info info.multibootHeader s).run = some (.ok (b, s₁))) ∧
        saveGraphicsInfo B fuel mbi info buffer uninitialized s₁ = some (true, s') := by
  unfold saveInfo
  split
  · next hrun =>
    rw [hrun]
    exact ⟨fun h => (nomatch h), fun ⟨_, ⟨_, h⟩, _⟩ => (nomatch h)⟩
  · next s₂ hrun =>
    rw [hrun]
    exact ⟨fun h => (nomatch h), fun ⟨_, ⟨_, h⟩, _⟩ => (nomatch h)⟩
  · next p hrun =>
    constructor
    · exact fun h => ⟨p.2, ⟨p.1, hrun⟩, h⟩
    · rintro ⟨s₁, ⟨b, hb⟩, h⟩
      rw [hrun] at hb
      rw [Except.ok.inj (Option.some.inj hb)]
      exact h

/-- The record has a tag of the types that have been met, and of no other. -/
theorem hasTagOf_iff_met (h : IsRecord s.mem mbi tags)
    (hcalls : callSavers B fuel mbi info walk s = some (calls, s₁))
    (hgraphics : saveGraphicsInfo B fuel mbi info buffer uninitialized s₁ = some (true, s')) :
    HasTagOf s'.mem mbi type ↔ Met B fuel mbi info buffer uninitialized tags calls s₁ type := by
  obtain ⟨new, hnew, htypes⟩ := (Saving.refl h).callSavers hcalls
  obtain ⟨new', hnew', htypes'⟩ := saveGraphicsInfo_true hnew.record hgraphics
  have happend : (∃ t ∈ tags ++ new ++ new', t.type = type) ↔
      (∃ t ∈ tags ++ new, t.type = type) ∨ ∃ t ∈ new', t.type = type := by
    simp only [List.mem_append (s := tags ++ new), or_and_right, exists_or]
  rw [hasTagOf_iff hnew', happend, htypes, htypes', List.append_nil, met_iff, or_assoc]

/-- Where the function returns true, the savers for the requested types have been called one after
    the other, no tag has ended the loop, and the record has tags of just the types that have been
    met. -/
theorem saveInfo_saves (h : IsRecord s.mem mbi tags)
    (hwalk : Walk (InHeader s.mem info.multibootHeader) (nextHeaderTag s.mem)
      (info.multibootHeader + 16) walk)
    (hkept : HeaderKept s.mem info.multibootHeader mbi walk tags)
    (hsave : saveInfo B fuel mbi info buffer uninitialized s = some (true, s')) :
    (∀ tag ∈ walk, ¬Stops s.mem tag) ∧
      ∃ calls s₁, callSavers B fuel mbi info (walk.flatMap (askedTypes s.mem)) s =
        some (calls, s₁) ∧
          ∀ type, HasTagOf s'.mem mbi type ↔
            Met B fuel mbi info buffer uninitialized tags calls s₁ type := by
  obtain ⟨s₁, hloop, hgraphics⟩ := saveInfo_true.mp hsave
  obtain ⟨-, hgood, calls, hcalls⟩ := (serveTags_ok hkept hwalk ⟨[], .refl h⟩).mp hloop
  exact ⟨hgood, calls, s₁, hcalls, fun type => hasTagOf_iff_met h hcalls hgraphics⟩

end met

/-! ### A mandatory request of one type -/

/-- A mandatory tag that requests the type, and no other that has a saver. -/
def askingTag (type : BitVec 32) : HeaderTag := ⟨1, 0, wordBytes type ++ wordBytes 0⟩

/-- A kernel with the tag in its header, and a record without tags. -/
def askingLoader (type : BitVec 32) : Loader Unit :=
  ⟨bytesAt 0x100000 (headerBytes [askingTag type]) emptyLoader.mem, ()⟩

def askingInfo : KernelInfo where
  bootDriveId := 0x80
  bootPartition := 0
  blocklistPtr := 0
  start := 0x100000
  size := 0x100
  bssSize := 0
  multibootHeader := 0x100000
  entry := 0x100000
  fileAddr := 0x200000
  fileSize := 0x100

theorem isRecord_askingLoader {type : BitVec 32} :
    IsRecord (askingLoader type).mem 0x1000 [] := by
  have hrecord : IsRecord emptyLoader.mem 0x1000 [] :=
    (isRecord_createEmptyMbi (by decide) (by decide)).2
  refine hrecord.congr fun x hx => ?_
  have hlength : (headerBytes [askingTag type]).length = 40 := by
    simp [headerBytes, askingTag, HeaderTag.bytes, HeaderTag.padded, HeaderTag.size,
      HeaderTag.terminator, wordBytes, Searches.ceilTo]
  show ((headerBytes [askingTag type])[(x - 0x100000).toNat]?).getD _ = _
  rw [List.getElem?_eq_none, Option.getD_none]
  rw [hlength]
  rw [InBytes, tagBytes_nil] at hx
  bv_omega

/-- The record is far from the header. -/
theorem headerKept_asking {m : Memory} (h : headerTagSize m 0x100010 = 16)
    (h' : headerTagSize m 0x100020 = 8) :
    HeaderKept m 0x100000 0x1000 [0x100010, 0x100020] [] := by
  have hfar : ∀ x, InBytes 0x100000 48 x →
      ¬InBytes 0x1000 (8 + tagBytes [] + 10 * 0x10200) x := by
    intro x hin hkept
    rw [InBytes] at hin
    rw [InBytes, tagBytes_nil] at hkept
    simp only [Nat.reduceMul, Nat.reduceAdd] at hkept
    bv_omega
  have hnum : numRequests m 0x100010 = 2 := by
    rw [numRequests, h]
    decide
  have hnum' : numRequests m 0x100020 = 0 := by
    rw [numRequests, h']
    decide
  refine ⟨fun x hx => hfar x (hx.mono (by decide)), fun tag htag x hx => hfar x ?_⟩
  simp only [List.mem_cons, List.not_mem_nil, or_false] at htag
  rcases htag with rfl | rfl
  · rw [hnum, InBytes] at hx
    rw [InBytes]
    bv_omega
  · rw [hnum', InBytes] at hx
    rw [InBytes]
    bv_omega

/-- On a machine without APM the function returns true, and the record has no tag for it. -/
theorem saveInfo_saves_asking : ∃ s', saveInfo silentBios 9 0x1000 askingInfo 0 0
      (askingLoader 10) = some (true, s') ∧ ¬HasTagOf s'.mem 0x1000 10 ∧
    ∃ calls s₁, callSavers silentBios 9 0x1000 askingInfo [10, 0] (askingLoader 10) =
        some (calls, s₁) ∧
      ∀ type, HasTagOf s'.mem 0x1000 type ↔
        Met silentBios 9 0x1000 askingInfo 0 0 [] calls s₁ type := by
  have hat : HeaderAt (askingLoader 10).mem 0x100000 [askingTag 10] := by decide +kernel
  have haddrs : headerTagAddrs (0x100000 + 16) ([askingTag 10] ++ [.terminator]) =
      [0x100010, 0x100020] := by decide +kernel
  have hwalk : Walk (InHeader (askingLoader 10).mem 0x100000)
      (nextHeaderTag (askingLoader 10).mem) (0x100000 + 16) [0x100010, 0x100020] := by
    rw [← haddrs]
    exact (walk_tags_iff hat hat.tagsFrom).mpr (by decide)
  have hkept : HeaderKept (askingLoader 10).mem 0x100000 0x1000 [0x100010, 0x100020] [] :=
    headerKept_asking (by decide +kernel) (by decide +kernel)
  have hasked : [0x100010, 0x100020].flatMap (askedTypes (askingLoader 10).mem) = [10, 0] := by
    decide +kernel
  have hres : (saveInfo silentBios 9 0x1000 askingInfo 0 0 (askingLoader 10)).map
      (fun p => (p.1, findMbiTagAddress 9 p.2.mem 0x1000 10, load32 p.2.mem 0x1008)) =
        some (true, some 0x1008, 0) := by decide +kernel
  obtain ⟨⟨result, s'⟩, hsave, hout⟩ := Option.map_eq_some_iff.mp hres
  simp only [Prod.mk.injEq] at hout
  obtain ⟨rfl, hfind, htype⟩ := hout
  obtain ⟨-, calls, s₁, hcalls, hmet⟩ := saveInfo_saves isRecord_askingLoader hwalk hkept hsave
  rw [hasked] at hcalls
  refine ⟨s', hsave, ?_, calls, s₁, hcalls, hmet⟩
  rintro ⟨fuel, tag, hfind', htag⟩
  have hsame := findMbiTagAddress_mono hfind (Nat.le_max_left 9 fuel)
  rw [findMbiTagAddress_mono hfind' (Nat.le_max_right 9 fuel)] at hsame
  rw [Option.some.inj hsame, htype] at htag
  exact absurd htag (by decide)

end Avos.Multiboot
