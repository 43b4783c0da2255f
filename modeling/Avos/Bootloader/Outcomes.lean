import Avos.Bootloader.Saved

/-! # What the Savers Leave Behind

  Every saver that returns has found its tag, or has added it to the record, or has left the
  record as it was (`SavesOne`). Those of several tags do so one after the other.
-/

open ByteMemory Walks

namespace Avos.Multiboot

/-! ## Section 1: What Every Saver Begins With -/

section savers

variable {β : Type*} {B : Bios β} {fuel : Nat} {mbi type : BitVec 32} {s s' : Loader β}
  {l : List MbiTag} {b : Bool}

theorem findTag_mem {a c : BitVec 32} (h : findTag type a l = some c) :
    ∃ t ∈ l, t.type = type := by
  induction l generalizing a with
  | nil => exact nomatch h
  | cons t l ih =>
    rw [findTag] at h
    split at h
    · rename_i ht
      exact ⟨t, List.mem_cons_self, ht⟩
    · obtain ⟨t', ht', htype⟩ := ih h
      exact ⟨t', List.mem_cons_of_mem _ ht', htype⟩

theorem findTag_none {a : BitVec 32} (h : findTag type a l = none) : ∀ t ∈ l, t.type ≠ type := by
  induction l generalizing a with
  | nil => exact fun t ht => absurd ht List.not_mem_nil
  | cons t l ih =>
    rw [findTag] at h
    split at h
    · cases h
    · rename_i ht
      intro t' ht'
      rcases List.mem_cons.mp ht' with rfl | ht'
      · exact ht
      · exact ih h t' ht'

/-- The bound does not matter for `Multiboot_FindMBITagAddress`. -/
theorem IsRecord.find_eq {m : Memory} (h : IsRecord m mbi l) {a : BitVec 32}
    (hr : findMbiTagAddress fuel m mbi type = some a) :
    a = (findTag type (mbi + 8) l).getD (termAddr mbi l) := by
  have hall : findMbiTagAddress (max fuel ((tagAddrs (mbi + 8) l).length + 1)) m mbi type =
      some ((findTag type (mbi + 8) l).getD (termAddr mbi l)) :=
    h.findMbiTagAddress_eq (by omega)
  have hmono := findMbiTagAddress_mono hr (Nat.le_max_left _ ((tagAddrs (mbi + 8) l).length + 1))
  rw [hmono] at hall
  exact Option.some.inj hall

/-- The terminator is a place for a tag. -/
theorem IsRecord.not_taken {m : Memory} (h : IsRecord m mbi l) :
    ¬(termAddr mbi l = memoryNullPtr ∨ load32 m (termAddr mbi l) ≠ 0) := by
  have hfits := toNat_termAddr h.fits
  have hlt := h.fits
  rintro (hnull | hne)
  · rw [hnull] at hfits
    have : memoryNullPtr.toNat = 2 ^ 32 - 1 := rfl
    omega
  · exact hne h.termType

/-- A saver finds a tag of its type and does nothing, or there is none and it writes its tag
    over the terminator. -/
theorem saveTag_cases {write : BitVec 32 → Option (Bool × Loader β)}
    (h : IsRecord s.mem mbi l) (hr : saveTag fuel mbi type s write = some (b, s')) :
    (b = false ∧ s' = s ∧ ∃ t ∈ l, t.type = type) ∨
      ((∀ t ∈ l, t.type ≠ type) ∧ write (termAddr mbi l) = some (b, s')) := by
  rw [saveTag] at hr
  cases hfind : findMbiTagAddress fuel s.mem mbi type with
  | none =>
    rw [hfind] at hr
    exact nomatch hr
  | some tag =>
    rw [hfind] at hr
    obtain rfl := h.find_eq hfind
    cases htag : findTag type (mbi + 8) l with
    | none =>
      rw [htag] at hr
      exact .inr ⟨findTag_none htag, by simpa only [Option.getD_none, if_neg h.not_taken] using hr⟩
    | some c =>
      obtain ⟨t, ht, htype⟩ := findTag_mem htag
      have hne : load32 s.mem c ≠ 0 := by
        rw [findTag_type h.tags htag, ← htype]
        exact t.type_ne
      rw [htag] at hr
      simp only [Option.getD_some, if_pos (Or.inr hne : c = memoryNullPtr ∨ load32 s.mem c ≠ 0),
        Option.some.injEq, Prod.mk.injEq] at hr
      exact .inl ⟨hr.1.symm, hr.2.symm, t, ht, htype⟩

/-- A saver writes its tag over the terminator when there is none of its type. -/
theorem saveTag_eq {write : BitVec 32 → Option (Bool × Loader β)} (h : IsRecord s.mem mbi l)
    (hfuel : (tagAddrs (mbi + 8) l).length < fuel) (hnew : ∀ t ∈ l, t.type ≠ type) :
    saveTag fuel mbi type s write = write (termAddr mbi l) := by
  have hfind : findMbiTagAddress fuel s.mem mbi type =
      some ((findTag type (mbi + 8) l).getD (termAddr mbi l)) := h.findMbiTagAddress_eq hfuel
  rw [saveTag, hfind]
  cases htag : findTag type (mbi + 8) l with
  | none => exact if_neg h.not_taken
  | some c =>
    obtain ⟨t, ht, htype⟩ := findTag_mem htag
    exact absurd htype (hnew t ht)

/-- What a saver of one type does: it finds a tag of its type and does nothing, or `delivers`
    says whether it adds the tag and succeeds, or leaves the record as it was and fails. -/
def SavesOne (delivers : Prop) (type mbi : BitVec 32) (l : List MbiTag) (s s' : Loader β)
    (b : Bool) : Prop :=
  (b = false ∧ s' = s ∧ ∃ t ∈ l, t.type = type) ∨
    ((∀ t ∈ l, t.type ≠ type) ∧
      ((delivers ∧ b = true ∧ ∃ t : MbiTag, t.type = type ∧ Saves mbi l s.mem s'.mem [t]) ∨
        (¬delivers ∧ b = false ∧ Saves mbi l s.mem s'.mem [])))

/-- A saver of one type adds its tag or nothing. -/
theorem SavesOne.saves {delivers : Prop} (h : IsRecord s.mem mbi l)
    (hs : SavesOne delivers type mbi l s s' b) :
    ∃ new, Saves mbi l s.mem s'.mem new ∧ (¬delivers → new = []) := by
  rcases hs with ⟨-, rfl, -⟩ | ⟨-, ⟨hd, -, t, -, hs⟩ | ⟨-, -, hs⟩⟩
  · exact ⟨[], .refl h, fun _ => rfl⟩
  · exact ⟨[t], hs, fun hd' => absurd hd hd'⟩
  · exact ⟨[], hs, fun _ => rfl⟩

/-- Only the record with the tags `l` and the `n` bytes from its terminator on have changed, and
    the record is still inside of them. -/
structure WritesBehind (mbi : BitVec 32) (l : List MbiTag) (n : Nat) (m m' : Memory) : Prop where
  only : OnlyIn mbi (8 + tagBytes l + n) m m'
  inside : (load32 m' mbi).toNat ≤ 8 + tagBytes l + n

section behind

variable {m m' m₁ : Memory} {n k : Nat}

theorem WritesBehind.refl (h : IsRecord m mbi l) (hn : 8 ≤ n) : WritesBehind mbi l n m m := by
  refine ⟨.refl, ?_⟩
  rw [h.total_toNat]
  omega

theorem WritesBehind.mono (h : WritesBehind mbi l n m m') (hn : n ≤ k) :
    WritesBehind mbi l k m m' :=
  ⟨h.only.mono (by omega), h.inside.trans (by omega)⟩

/-- The terminator is behind the tag. -/
theorem Filled.onlyIn_terminateTag (h : IsRecord m mbi l)
    (hf : Filled (termAddr mbi l) type (BitVec.ofNat 32 k) n m m₁)
    (hroom : (termAddr mbi l).toNat + n < 2 ^ 32) (hn : k + 8 ≤ n) :
    OnlyIn mbi (8 + tagBytes l + n) m (terminateTag m₁ mbi (termAddr mbi l)).2 := by
  rw [toNat_termAddr h.fits] at hroom
  intro x hx
  have hterm : ¬InBytes (load32 m₁ (termAddr mbi l + 4) + termAddr mbi l) 8 x := by
    intro hin
    rw [hf.size_eq, BitVec.add_comm, termAddr_add] at hin
    exact hx (hin.of_add (by omega) (by omega))
  rw [terminateTag_frame hterm fun hin => hx (hin.mono (by omega))]
  apply hf.only x
  intro hin
  rw [termAddr_eq] at hin
  exact hx (hin.of_add (Nat.le_refl _) (by omega))

end behind

/-! ## Section 2: Savers of One Tag -/

section one

variable {m₁ : Memory} {bios : β} {n : Nat} {result : Bool} {info : KernelInfo}

theorem savesOne_finish {delivers : Prop} (hd : delivers) (h : IsRecord s.mem mbi l) (t : MbiTag)
    (hf : Filled (termAddr mbi l) t.type (BitVec.ofNat 32 t.size) n s.mem m₁)
    (hroom : (termAddr mbi l).toNat + n < 2 ^ 32) (hn : t.size + 8 ≤ n)
    (hnew : ∀ t' ∈ l, t'.type ≠ t.type) (hresult : result = true)
    (hw : finishTag mbi (termAddr mbi l) result ⟨m₁, bios⟩ = some (b, s')) :
    SavesOne delivers t.type mbi l s s' b ∧ WritesBehind mbi l n s.mem s'.mem := by
  obtain ⟨rfl, rfl⟩ := Prod.mk.inj (Option.some.inj hw)
  have hsaves := (hf.saves h t hroom hn hnew).2
  refine ⟨.inr ⟨hnew, .inl ⟨hd, hresult, t, rfl, hsaves⟩⟩,
    hf.onlyIn_terminateTag h hroom hn, ?_⟩
  rw [hsaves.record.total_toNat, tagBytes_append, tagBytes_cons, tagBytes_nil]
  omega

theorem savesOne_drop {size : BitVec 32} {delivers : Prop} (hd : ¬delivers)
    (h : IsRecord s.mem mbi l)
    (hf : Filled (termAddr mbi l) type size n s.mem m₁) (htype : type ≠ 0)
    (hroom : (termAddr mbi l).toNat + n < 2 ^ 32) (hn : 8 ≤ n)
    (hnew : ∀ t' ∈ l, t'.type ≠ type)
    (hw : dropTag mbi (termAddr mbi l) false ⟨m₁, bios⟩ = some (b, s')) :
    SavesOne delivers type mbi l s s' b ∧ WritesBehind mbi l n s.mem s'.mem := by
  obtain ⟨rfl, rfl⟩ := Prod.mk.inj (Option.some.inj hw)
  have hsaves := hf.drops h htype hroom hn
  have hzero : Filled (termAddr mbi l) type (BitVec.ofNat 32 0) n s.mem
      (store32 m₁ (termAddr mbi l + 4) 0) := hf.setSize 0 hn (by omega)
  refine ⟨.inr ⟨hnew, .inr ⟨hd, rfl, hsaves⟩⟩,
    hzero.onlyIn_terminateTag h hroom (by omega), ?_⟩
  rw [hsaves.record.total_toNat, tagBytes_append, tagBytes_nil]
  omega

theorem savesOne_found {delivers : Prop} (h : IsRecord s.mem mbi l) (hn : 8 ≤ n)
    (hfound : b = false ∧ s' = s ∧ ∃ t ∈ l, t.type = type) :
    SavesOne delivers type mbi l s s' b ∧ WritesBehind mbi l n s.mem s'.mem := by
  refine ⟨.inl hfound, ?_⟩
  rw [hfound.2.1]
  exact .refl h hn

theorem saveBootLoaderInfo_spec (h : IsRecord s.mem mbi l)
    (hr : saveBootLoaderInfo fuel mbi s = some (b, s')) :
    SavesOne True 2 mbi l s s' b ∧ WritesBehind mbi l 24 s.mem s'.mem := by
  rcases saveTag_cases h hr with hfound | ⟨hnew, hw⟩
  · exact savesOne_found h (by decide) hfound
  obtain ⟨hroom, hw⟩ := withRoom_eq_some.mp hw
  have hf : Filled (termAddr mbi l) 2 16 24 s.mem
      (storeBytes (writeTag s.mem (termAddr mbi l) 2 16) (termAddr mbi l + 8)
        [0x41, 0x56, 0x42, 0x4C, 0]) :=
    (filled_writeTag (by decide) (by decide)).write 8 (onlyIn_storeBytes (by decide)) (by decide)
      (by decide)
  let t : MbiTag := ⟨2, 16, by decide, by decide, by decide⟩
  exact savesOne_finish trivial h t hf hroom (by decide) hnew
    (hf.saves h t hroom (by decide) hnew).1 hw

theorem saveBasicMemoryInfo_spec (h : IsRecord s.mem mbi l)
    (hr : saveBasicMemoryInfo B fuel mbi s = some (b, s')) :
    SavesOne True 4 mbi l s s' b ∧ WritesBehind mbi l 24 s.mem s'.mem := by
  rcases saveTag_cases h hr with hfound | ⟨hnew, hw⟩
  · exact savesOne_found h (by decide) hfound
  obtain ⟨hroom, hw⟩ := withRoom_eq_some.mp hw
  have hf : Filled (termAddr mbi l) 4 16 24 s.mem
      (store32 (store32 (writeTag s.mem (termAddr mbi l) 4 16) (termAddr mbi l + 8) 0)
        (termAddr mbi l + 12) 0) :=
    ((filled_writeTag (by decide) (by decide)).write 8 onlyIn_store32 (by decide)
      (by decide)).write 12 onlyIn_store32 (by decide) (by decide)
  dsimp only at hw
  rw [BitVec.add_comm 8 (termAddr mbi l)] at hw
  have hstore := hf.write 8 (onlyIn_storeBasicInfo (B := B) (s := ⟨_, s.bios⟩)) (by decide)
    (by decide)
  exact savesOne_finish trivial h ⟨4, 16, by decide, by decide, by decide⟩ hstore hroom
    (by decide) hnew
    rfl hw

theorem saveBootDeviceInfo_spec (h : IsRecord s.mem mbi l)
    (hr : saveBootDeviceInfo fuel mbi info s = some (b, s')) :
    SavesOne (load16 s.mem (findSignature s.mem info.bootPartition 5) = 0xAA55) 5 mbi l s s' b ∧
      WritesBehind mbi l 32 s.mem s'.mem := by
  rcases saveTag_cases h hr with hfound | ⟨hnew, hw⟩
  · exact savesOne_found h (by decide) hfound
  obtain ⟨hroom, hw⟩ := withRoom_eq_some.mp hw
  dsimp only at hw
  split at hw
  · rename_i hmissing
    obtain ⟨rfl, rfl⟩ := Prod.mk.inj (Option.some.inj hw)
    exact ⟨.inr ⟨hnew, .inr ⟨hmissing, rfl, .refl h⟩⟩, .refl h (by decide)⟩
  · rename_i hfound
    have hf : ∀ v₁ v₂ v₃, Filled (termAddr mbi l) 5 24 32 s.mem
        (store32 (store32 (store32 (writeTag s.mem (termAddr mbi l) 5 24) (termAddr mbi l + 8) v₁)
          (termAddr mbi l + 12) v₂) (termAddr mbi l + 16) v₃) := fun _ _ _ =>
      (((filled_writeTag (by decide) (by decide)).write 8 onlyIn_store32 (by decide)
        (by decide)).write 12 onlyIn_store32 (by decide) (by decide)).write 16 onlyIn_store32
        (by decide) (by decide)
    exact savesOne_finish (not_not.mp hfound) h ⟨5, 24, by decide, by decide, by decide⟩
      (hf _ _ _) hroom (by decide) hnew rfl hw

theorem saveLoadBaseAddress_spec (h : IsRecord s.mem mbi l)
    (hr : saveLoadBaseAddress fuel mbi info s = some (b, s')) :
    SavesOne True 21 mbi l s s' b ∧ WritesBehind mbi l 24 s.mem s'.mem := by
  rcases saveTag_cases h hr with hfound | ⟨hnew, hw⟩
  · exact savesOne_found h (by decide) hfound
  obtain ⟨hroom, hw⟩ := withRoom_eq_some.mp hw
  have hf : ∀ v, Filled (termAddr mbi l) 21 16 24 s.mem
      (store32 (store32 (writeTag s.mem (termAddr mbi l) 21 16) (termAddr mbi l + 8) v)
        (termAddr mbi l + 12) 0) := fun _ =>
    ((filled_writeTag (by decide) (by decide)).write 8 onlyIn_store32 (by decide)
      (by decide)).write 12 onlyIn_store32 (by decide) (by decide)
  exact savesOne_finish trivial h ⟨21, 16, by decide, by decide, by decide⟩ (hf _) hroom
    (by decide) hnew
    rfl hw

theorem saveApmInfo_spec (h : IsRecord s.mem mbi l)
    (hr : saveApmInfo B fuel mbi s = some (b, s')) :
    SavesOne (HasApm B s.bios) 10 mbi l s s' b ∧ WritesBehind mbi l 40 s.mem s'.mem := by
  rcases saveTag_cases h hr with hfound | ⟨hnew, hw⟩
  · exact savesOne_found h (by decide) hfound
  obtain ⟨hroom, hw⟩ := withRoom_eq_some.mp hw
  have hf : Filled (termAddr mbi l) 10 32 40 s.mem (storeApmInfo B (termAddr mbi l + 8)
      { s with mem := writeTag s.mem (termAddr mbi l) 10 32 }).2.mem :=
    (filled_writeTag (by decide) (by decide)).write 8 onlyIn_storeApmInfo (by decide) (by decide)
  split at hw
  rename_i last s₁ hstore
  rw [hstore] at hf
  have hlast : last ≠ termAddr mbi l + 8 ↔ HasApm B s.bios := by
    rw [← @storeApmInfo_last β B { s with mem := writeTag s.mem (termAddr mbi l) 10 32 }
      (termAddr mbi l + 8), hstore]
  split at hw
  · rename_i heq
    exact savesOne_drop (fun hd => hlast.mpr hd heq) h hf (by decide) hroom (by decide) hnew hw
  · rename_i hne
    have hf' : Filled (termAddr mbi l) 10 32 40 s.mem
        (store16 (store16 s₁.mem (termAddr mbi l + 28) 0) (termAddr mbi l + 30) 0) :=
      (hf.write 28 onlyIn_store16 (by decide) (by decide)).write 30 onlyIn_store16 (by decide)
        (by decide)
    exact savesOne_finish (hlast.mp hne) h ⟨10, 32, by decide, by decide, by decide⟩ hf' hroom
      (by decide) hnew
      rfl hw

theorem saveAcpiInfo_spec {old : Bool} (h : IsRecord s.mem mbi l)
    (hr : saveAcpiInfo fuel mbi old s = some (b, s')) :
    SavesOne (HasAcpi fuel old (writeTag s.mem (termAddr mbi l) (if old then 14 else 15)
      (if old then 32 else 48))) (if old then 14 else 15) mbi l s s' b ∧
      WritesBehind mbi l 56 s.mem s'.mem := by
  rcases saveTag_cases h hr with hfound | ⟨hnew, hw⟩
  · exact savesOne_found h (by decide) hfound
  rw [withRoom_eq_some, BitVec.add_comm 8 (termAddr mbi l)] at hw
  obtain ⟨hroom, hw⟩ := hw
  dsimp only at hw
  split at hw
  · exact nomatch hw
  rename_i last m hstore
  have honly : OnlyIn (termAddr mbi l + BitVec.ofNat 32 8) (if old then 20 else 36) _ m :=
    (storeAcpiInfo_spec hstore).1
  have hf : Filled (termAddr mbi l) (if old then 14 else 15) (if old then 32 else 48) 56 s.mem m :=
    (filled_writeTag (by decide) (by decide)).write 8 honly (by cases old <;> decide) (by decide)
  have hlast := (storeAcpiInfo_spec hstore).2
  split at hw
  · rename_i heq
    exact savesOne_drop (fun hd => hlast.mpr hd heq) h hf
      (by cases old <;> decide) hroom (by decide) hnew hw
  rename_i hne
  have hd := hlast.mp hne
  cases old
  · exact savesOne_finish hd h ⟨15, 48, by decide, by decide, by decide⟩ hf
      hroom (by decide) hnew rfl hw
  · exact savesOne_finish hd h ⟨14, 32, by decide, by decide, by decide⟩ hf
      hroom (by decide) hnew rfl hw

theorem IsRecord.termAddr_mod {m : Memory} (h : IsRecord m mbi l) :
    (termAddr mbi l).toNat % 8 = 0 := by
  have halign := h.aligned
  have hbytes := tagBytes_mod (l := l)
  rw [toNat_termAddr h.fits]
  omega

/-- The tag of the SMBIOS has been stored at `tag`, with the size `8 + k`. -/
theorem filled_smbios {m : Memory} {tag : BitVec 32} (htag : tag.toNat % 8 = 0)
    (hroom : tag.toNat + 0x10200 < 2 ^ 32) :
    ∃ k, k ≤ 0x101E8 ∧ k % 8 = 0 ∧ (k = 0 ↔ findSmbios (store32 m tag 13) = none) ∧
      (storeSmbiosInfo (tag + 8) (store32 m tag 13)).1 - tag = BitVec.ofNat 32 (8 + k) ∧
      Filled tag 13 (BitVec.ofNat 32 (8 + k)) 0x10200 m
        (store32 (storeSmbiosInfo (tag + 8) (store32 m tag 13)).2 (tag + 4)
          (BitVec.ofNat 32 (8 + k))) := by
  have hbelow : (tag + 8).toNat = tag.toNat + 8 := toNat_add_ofNat (i := 8) (by omega)
  obtain ⟨honly, k, hlast, hk, hmod, -, hzero⟩ :=
    @storeSmbiosInfo_spec (store32 m tag 13) (tag + 8) (by omega) (by omega)
  refine ⟨k, hk, hmod, hzero, ?_, ?_⟩
  · rw [hlast, Nat.add_comm, BitVec.ofNat_add, BitVec.add_assoc, BitVec.add_comm tag,
      BitVec.add_sub_cancel, BitVec.add_comm]
    rfl
  · exact ((filled_type (by decide)).write 8 honly (by decide) (by decide)).setSize _ (by decide)
      (by decide)

theorem saveSmbiosInfo_spec (h : IsRecord s.mem mbi l)
    (hr : saveSmbiosInfo fuel mbi s = some (b, s')) :
    SavesOne (findSmbios (store32 s.mem (termAddr mbi l) 13) ≠ none) 13 mbi l s s' b ∧
      WritesBehind mbi l 0x10200 s.mem s'.mem := by
  rcases saveTag_cases h hr with hfound | ⟨hnew, hw⟩
  · exact savesOne_found h (by decide) hfound
  rw [withRoom_eq_some] at hw
  obtain ⟨hroom, hw⟩ := hw
  rw [BitVec.add_comm 8 (termAddr mbi l)] at hw
  obtain ⟨k, hk, hmod, hzero, hsize, hf⟩ := filled_smbios (m := s.mem) h.termAddr_mod hroom
  dsimp only at hw
  rw [hsize] at hw
  split at hw
  · rename_i hsmall
    have hk0 : k = 0 := by
      rw [BitVec.le_def, BitVec.toNat_ofNat] at hsmall
      have h8 : (8 : BitVec 32).toNat = 8 := rfl
      omega
    exact savesOne_drop (not_not.mpr (hzero.mp hk0)) h hf (by decide) hroom
      (by omega) hnew hw
  · rename_i hbig
    have hk0 : k ≠ 0 := fun h0 => hbig (by rw [h0]; decide)
    exact savesOne_finish (fun hnone => hk0 (hzero.mpr hnone)) h
      ⟨13, 8 + k, by decide, by omega, by omega⟩ hf
      hroom (by dsimp only; omega) hnew rfl hw

theorem saveBootCommand_spec (h : IsRecord s.mem mbi l)
    (hr : saveBootCommand B fuel mbi s = some (b, s')) :
    SavesOne True 1 mbi l s s' b ∧ WritesBehind mbi l 1056 s.mem s'.mem := by
  rcases saveTag_cases h hr with hfound | ⟨hnew, hw⟩
  · exact savesOne_found h (by decide) hfound
  rw [withRoom_eq_some] at hw
  obtain ⟨hroom, hw⟩ := hw
  split at hw
  · exact nomatch hw
  rename_i s₁ hread
  split at hw
  · exact nomatch hw
  rename_i n hlength
  obtain ⟨honly, k, hk, hend⟩ := readCommand_spec hread
  have hn : n ≤ 1023 := (stringLength_le hend _ _ (Nat.zero_le k) hlength).trans hk
  have hf : Filled (termAddr mbi l) 1 8 1056 s.mem s₁.mem :=
    (filled_writeTag (by decide) (by decide)).write 8 honly (by decide) (by decide)
  dsimp only at hw
  generalize hpad : (8 - (8 + n + 1) % 8) % 8 = padding at hw
  have hzeros : OnlyIn (termAddr mbi l + BitVec.ofNat 32 (8 + (n + 1))) padding s₁.mem
      (memset s₁.mem (termAddr mbi l + 8 + BitVec.ofNat 32 (n + 1)) 0 padding) := by
    rw [BitVec.ofNat_add, ← BitVec.add_assoc]
    exact onlyIn_memset (by omega)
  have hf' := (hf.write _ hzeros (by omega) (by decide)).setSize
    (BitVec.ofNat 32 (8 + n + 1 + padding)) (by decide) (by decide)
  let t : MbiTag := ⟨1, 8 + n + 1 + padding, by decide, by omega, by omega⟩
  have hsize : t.size + 8 ≤ 1056 := by
    dsimp only [t]
    omega
  exact savesOne_finish trivial h t hf' hroom hsize hnew
    (hf'.saves h t hroom hsize hnew).1 hw

/-- The fields of a memory map. -/
theorem filled_writeMap {tag size entrySize : BitVec 32}
    (honly : OnlyIn tag n s.mem m₁) (hn : 16 ≤ n) (hn' : n < 2 ^ 32) :
    Filled tag type size n s.mem (writeMap m₁ tag type size entrySize) := by
  have hsize : OnlyIn (tag + BitVec.ofNat 32 4) 4 m₁ (store32 m₁ (tag + 4) size) := onlyIn_store32
  have htype := hsize.of_add (n := n) (by omega) (Nat.le_of_lt hn')
  have hf : Filled tag type size n s.mem (store32 (store32 m₁ (tag + 4) size) tag type) := by
    refine ⟨(honly.trans htype).trans (onlyIn_store32.mono (by omega)), load32_store32, ?_⟩
    have hm : OnlyIn (tag + BitVec.ofNat 32 0) 4 (store32 m₁ (tag + 4) size)
        (store32 (store32 m₁ (tag + 4) size) tag type) := by
      rw [BitVec.add_zero]
      exact onlyIn_store32
    exact (hm.load32_add (j := 4) (.inr (by omega)) (by omega) (by omega)).trans load32_store32
  exact (hf.write 8 onlyIn_store32 (by omega) hn').write 12 onlyIn_store32 (by omega) hn'

theorem ofNat_sub_tag {tag : BitVec 32} (k : Nat) :
    16 + tag + BitVec.ofNat 32 k - tag = BitVec.ofNat 32 (16 + k) := by
  rw [BitVec.ofNat_add, BitVec.add_assoc, BitVec.add_comm tag, ← BitVec.add_assoc,
    BitVec.add_sub_cancel]
  rfl

theorem saveBlocks_spec {pageAlign : Bool} {table : BitVec 32} {k : Nat}
    (h : IsRecord s.mem mbi l) (htype : type ≠ 0)
    (hr : saveBlocks fuel mbi type pageAlign table k s = some (b, s')) :
    SavesOne True type mbi l s s' b := by
  rcases saveTag_cases h hr with hfound | ⟨hnew, hw⟩
  · exact .inl hfound
  rw [withRoom_eq_some] at hw
  obtain ⟨hroom, hw⟩ := hw
  split at hw
  · exact nomatch hw
  rename_i last m hstore
  obtain ⟨k, c, rfl, hk, hroom', honly⟩ := storeInfo_spec hstore
  have hbelow : (16 + termAddr mbi l).toNat = (termAddr mbi l).toNat + 16 := by
    rw [BitVec.add_comm]
    exact toNat_add_ofNat (i := 16) (by omega)
  rw [hbelow] at hroom'
  rw [ofNat_sub_tag] at hw
  have hmap : OnlyIn (termAddr mbi l) (16 * c + 32) s.mem m := by
    rw [BitVec.add_comm] at honly
    exact honly.of_add (i := 16) (by omega) (by omega)
  exact (savesOne_finish trivial h ⟨type, 16 + 16 * k, htype, by omega, by omega⟩
    (filled_writeMap hmap (by omega) (by omega)) (by omega) (by dsimp only; omega) hnew rfl hw).1

end one

/-! ## Section 3: Savers of Several Tags -/

section several

theorem saveMemoryMaps_spec (h : IsRecord s.mem mbi l)
    (hr : saveMemoryMaps B fuel mbi s = some (b, s')) :
    ∃ new, Saves mbi l s.mem s'.mem new ∧ (b = true → new.map MbiTag.type = [6, 98, 99]) := by
  rcases saveTag_cases h hr with ⟨rfl, rfl, -⟩ | ⟨hnew, hw⟩
  · exact ⟨[], .refl h, (fun hb => nomatch hb)⟩
  rw [withRoom_eq_some] at hw
  obtain ⟨hroom, hw⟩ := hw
  split at hw
  · exact nomatch hw
  rename_i last s₁ hstore
  obtain ⟨k, rfl, hroom', honly⟩ := storeE820Info_spec hstore
  have hbelow : (16 + termAddr mbi l).toNat = (termAddr mbi l).toNat + 16 := by
    rw [BitVec.add_comm]
    exact toNat_add_ofNat (i := 16) (by omega)
  rw [hbelow] at hroom'
  dsimp only at hw
  rw [ofNat_sub_tag] at hw
  have hmap : OnlyIn (termAddr mbi l) (24 * k + 40) s.mem s₁.mem := by
    rw [BitVec.add_comm] at honly
    exact honly.of_add (i := 16) (by omega) (by omega)
  -- the map itself is saved
  let t : MbiTag := ⟨6, 16 + 24 * k, by decide, by omega, by omega⟩
  have hf : Filled (termAddr mbi l) 6 (BitVec.ofNat 32 (16 + 24 * k)) (24 * k + 40) s.mem
      (writeMap s₁.mem (termAddr mbi l) 6 (BitVec.ofNat 32 (16 + 24 * k)) 24) :=
    filled_writeMap hmap (by omega) (by omega)
  have hsaves := (hf.saves h t (by omega) (by dsimp only [t]; omega) hnew).2
  split at hw
  · obtain ⟨rfl, rfl⟩ := Prod.mk.inj (Option.some.inj hw)
    exact ⟨[t], hsaves, (fun hb => nomatch hb)⟩
  -- the blocks of RAM follow
  have hrecord := hsaves.record
  split at hw
  · exact nomatch hw
  · rename_i s₂ hblocks
    obtain ⟨rfl, rfl⟩ := Prod.mk.inj (Option.some.inj hw)
    obtain ⟨new, hnew', -⟩ := (saveBlocks_spec hrecord (by decide) hblocks).saves hrecord
    exact ⟨t :: new, hsaves.trans hnew', (fun hb => nomatch hb)⟩
  · rename_i s₂ hblocks
    rcases saveBlocks_spec hrecord (by decide) hblocks with
      ⟨hb, -⟩ | ⟨-, ⟨-, -, t₁, ht₁, hsaves₁⟩ | ⟨hd, -⟩⟩
    · exact nomatch hb
    · have hsaves₁' := hsaves.trans hsaves₁
      rcases saveBlocks_spec hsaves₁.record (by decide) hw with
        ⟨rfl, rfl, -⟩ | ⟨-, ⟨-, rfl, t₂, ht₂, hsaves₂⟩ | ⟨hd, -⟩⟩
      · exact ⟨[t, t₁], hsaves₁', (fun hb => nomatch hb)⟩
      · refine ⟨[t, t₁, t₂], ?_, fun _ => ?_⟩
        · rw [List.append_assoc] at hsaves₂
          exact hsaves₁'.trans hsaves₂
        · simp only [List.map_cons, List.map_nil, ht₁, ht₂, t]
      · exact absurd trivial hd
    · exact absurd trivial hd

/-- The tag for the framebuffer. -/
theorem filled_writeFramebuffer {m : Memory} {tag mode : BitVec 32} :
    Filled tag 8 40 48 m (writeFramebuffer m tag mode) := by
  have h32 : ∀ {m₁ size v} (i : Nat), 8 ≤ i ∧ i + 4 ≤ 48 → Filled tag 8 size 48 m m₁ →
      Filled tag 8 size 48 m (store32 m₁ (tag + BitVec.ofNat 32 i) v) :=
    fun i hi h => h.write i onlyIn_store32 hi (by decide)
  have h8 : ∀ {m₁ size v} (i : Nat), 8 ≤ i ∧ i + 1 ≤ 48 → Filled tag 8 size 48 m m₁ →
      Filled tag 8 size 48 m (store8 m₁ (tag + BitVec.ofNat 32 i) v) :=
    fun i hi h => h.write i onlyIn_store8 hi (by decide)
  unfold writeFramebuffer
  extract_lets m₁ m₂ m₃ m₄ m₅ m₆ m₇ m₈ m₉ m₁₀ m₁₁ m₁₂ m₁₃ m₁₄ m₁₅
  have hm₁ : Filled tag 8 (load32 m (tag + 4)) 48 m m₁ := filled_type (by decide)
  have hm₂ : Filled tag 8 (load32 m (tag + 4)) 48 m m₂ :=
    hm₁.write 8 onlyIn_store64 (by decide) (by decide)
  have hm₅ : Filled tag 8 (load32 m (tag + 4)) 48 m m₅ :=
    h32 24 (by decide) (h32 20 (by decide) (h32 16 (by decide) hm₂))
  have hm₇ : Filled tag 8 (load32 m (tag + 4)) 48 m m₇ := h8 29 (by decide) (h8 28 (by decide) hm₅)
  have hm₈ : Filled tag 8 (load32 m (tag + 4)) 48 m m₈ := by
    dsimp only [m₈]
    split
    · exact h8 28 (by decide) hm₇
    · exact hm₇
  have hm₉ : Filled tag 8 (load32 m (tag + 4)) 48 m m₉ :=
    hm₈.write 30 onlyIn_store16 (by decide) (by decide)
  have hm₁₅ : Filled tag 8 (load32 m (tag + 4)) 48 m m₁₅ :=
    h8 37 (by decide) (h8 36 (by decide) (h8 35 (by decide) (h8 34 (by decide)
      (h8 33 (by decide) (h8 32 (by decide) hm₉)))))
  exact hm₁₅.setSize 40 (by decide) (by decide)

theorem saveFramebuffer_spec {mode : BitVec 32} {preferred : BitVec 16} (h : IsRecord s.mem mbi l)
    (hr : saveFramebuffer B fuel mbi mode preferred s = some (b, s')) :
    (b = false ∧ s' = s) ∨ ∃ t : MbiTag, t.type = 8 ∧ Saves mbi l s.mem s'.mem [t] := by
  rcases saveTag_cases h hr with ⟨hb, hs, -⟩ | ⟨hnew, hw⟩
  · exact .inl ⟨hb, hs⟩
  rw [withRoom_eq_some] at hw
  obtain ⟨hroom, hw⟩ := hw
  let t : MbiTag := ⟨8, 40, by decide, by decide, by decide⟩
  have hsaves := (@filled_writeFramebuffer s.mem (termAddr mbi l) mode).saves h t hroom (by decide)
    hnew
  refine .inr ⟨t, rfl, ?_⟩
  have hmem : s'.mem = (terminateTag (writeFramebuffer s.mem (termAddr mbi l) mode) mbi
      (termAddr mbi l)).2 := by
    have hs' : _ = s' := congrArg Prod.snd (Option.some.inj hw)
    rw [← hs']
    exact vbeSetMode_mem
  rw [hmem]
  exact hsaves.2

theorem preferredMode_mem {g : GraphicsRequest} {modes buffer : BitVec 32}
    {uninitialized mode : BitVec 16}
    (hr : preferredMode B fuel g modes buffer uninitialized s = some (mode, s')) :
    s'.mem = s.mem := by
  rw [preferredMode] at hr
  -- each of the three searches leaves memory alone
  generalize htext : (if g.egaTextSupported ∧ g.depth = 0 then
    vbeGetTextMode B fuel modes buffer 80 25 s else some (uninitialized, s)) = text at hr
  have hmem₁ : ∀ {mode s₁}, text = some (mode, s₁) → s₁.mem = s.mem := by
    intro mode s₁ hs
    rw [← htext] at hs
    split at hs
    · exact vbeGetTextMode_mem hs
    · obtain ⟨_, rfl⟩ := Prod.mk.inj (Option.some.inj hs)
      rfl
  cases htext' : text with
  | none =>
    rw [htext'] at hr
    exact nomatch hr
  | some r =>
    obtain ⟨mode₁, s₁⟩ := r
    rw [htext'] at hr
    rw [← hmem₁ htext']
    dsimp only at hr
    split at hr
    · exact nomatch hr
    · rename_i mode₂ s₂ hany
      have hmem₂ : s₂.mem = s₁.mem := by
        split at hany
        · exact vbeGetMode_mem hany
        · obtain ⟨_, rfl⟩ := Prod.mk.inj (Option.some.inj hany)
          rfl
      rw [← hmem₂]
      have hs' : _ = s' := congrArg Prod.snd (Option.some.inj hr)
      split at hs'
      · exact hs' ▸ vbeGetCurrentMode_mem
      · exact hs' ▸ rfl

/-- The VBE tag up to the information on the mode. -/
theorem filled_writeVbe {tag : BitVec 32} :
    Filled tag 7 784 792 s.mem (writeVbe B tag s).2.mem := by
  have hzero : ∀ {m₁ : Memory} (i k : Nat), 8 ≤ i ∧ i + k ≤ 792 →
      Filled tag 7 784 792 s.mem m₁ →
      Filled tag 7 784 792 s.mem (memset m₁ (tag + BitVec.ofNat 32 i) 0 k) :=
    fun i k hi h => h.write i (onlyIn_memset (by omega)) hi (by decide)
  have h16 : ∀ {m₁ : Memory} {v} (i : Nat), 8 ≤ i ∧ i + 2 ≤ 792 →
      Filled tag 7 784 792 s.mem m₁ →
      Filled tag 7 784 792 s.mem (store16 m₁ (tag + BitVec.ofNat 32 i) v) :=
    fun i hi h => h.write i onlyIn_store16 hi (by decide)
  have hstart : Filled tag 7 784 792 s.mem
      (memset (memset (writeTag s.mem tag 7 784) (tag + 16) 0 0x200) (tag + 528) 0 0x100) :=
    hzero 528 0x100 (by decide) (hzero 16 0x200 (by decide)
      (filled_writeTag (by decide) (by decide)))
  have hinfo := hstart.write 16 (onlyIn_vbeStoreInfo (B := B) (s := ⟨_, s.bios⟩)) (by decide)
    (by decide)
  rw [writeVbe, BitVec.add_comm 16 tag]
  dsimp only
  generalize hcall : vbeStoreInfo B _ _ = r
  have hr : Filled tag 7 784 792 s.mem r.2.mem := hcall ▸ hinfo
  split
  · exact hr
  · have hmode := h16 (v := 0) 14 (by decide) (h16 (v := 0) 12 (by decide) (h16 (v := 0) 10
      (by decide) (h16 (v := 0xFFFF) 8 (by decide) hr)))
    exact hmode.write 10 (onlyIn_vbeStorePModeInfo (B := B) (s := ⟨_, r.2.bios⟩)) (by decide)
      (by decide)

theorem filled_chooseMode {tag buffer : BitVec 32} {g : GraphicsRequest}
    {uninitialized : BitVec 16} {mode : Option (BitVec 16)} {m : Memory}
    (hf : Filled tag 7 784 792 m s.mem)
    (hr : chooseMode B fuel g tag buffer uninitialized s = some (mode, s')) :
    Filled tag 7 784 792 m s'.mem := by
  rw [chooseMode] at hr
  split at hr
  · exact nomatch hr
  rename_i mode₁ s₁ hpreferred
  rw [← preferredMode_mem hpreferred] at hf
  have hinfo : Filled tag 7 784 792 m (vbeGetModeInfo B mode₁ (tag + 528) s₁).2.mem :=
    hf.write 528 onlyIn_vbeGetModeInfo (by decide) (by decide)
  dsimp only at hr
  split at hr
  · obtain ⟨_, rfl⟩ := Prod.mk.inj (Option.some.inj hr)
    exact hinfo
  · obtain ⟨_, rfl⟩ := Prod.mk.inj (Option.some.inj hr)
    exact hinfo.write 8 onlyIn_store16 (by decide) (by decide)

/-- The BIOS has the VBE services, and a mode is found. -/
def ModeChosen (B : Bios β) (fuel : Nat) (g : GraphicsRequest) (tag buffer : BitVec 32)
    (uninitialized : BitVec 16) (s : Loader β) : Prop :=
  (writeVbe B tag s).1 = true ∧
    ∃ mode s', chooseMode B fuel g tag buffer uninitialized (writeVbe B tag s).2 =
      some (some mode, s')

/-- The three ways through the part of `Multiboot_SaveGraphicsInfo` behind the loop. -/
inductive GraphicsSaved (B : Bios β) (fuel : Nat) (mbi buffer : BitVec 32)
    (uninitialized : BitVec 16) (l : List MbiTag) (g : GraphicsRequest) (s : Loader β) :
    Bool → List MbiTag → Prop
  | found : (∃ t ∈ l, t.type = 7) → GraphicsSaved B fuel mbi buffer uninitialized l g s false []
  | absent : ¬ModeChosen B fuel g (termAddr mbi l) buffer uninitialized s →
      GraphicsSaved B fuel mbi buffer uninitialized l g s
        (¬g.graphicsMandatory ∧ ¬g.vbeMandatory ∧ ¬g.framebufferMandatory) []
  | vbe (t : MbiTag) (b : Bool) :
      ModeChosen B fuel g (termAddr mbi l) buffer uninitialized s → t.type = 7 →
      (b = true → ¬g.graphicsMandatory ∧ ¬g.framebufferRequested) →
      GraphicsSaved B fuel mbi buffer uninitialized l g s b [t]
  | framebuffer (t t' : MbiTag) (b : Bool) :
      ModeChosen B fuel g (termAddr mbi l) buffer uninitialized s → t.type = 7 → t'.type = 8 →
      GraphicsSaved B fuel mbi buffer uninitialized l g s b [t, t']

theorem saveGraphics_spec {g : GraphicsRequest} {buffer : BitVec 32} {uninitialized : BitVec 16}
    (h : IsRecord s.mem mbi l)
    (hr : saveGraphics B fuel mbi g buffer uninitialized s = some (b, s')) :
    ∃ new, Saves mbi l s.mem s'.mem new ∧
      GraphicsSaved B fuel mbi buffer uninitialized l g s b new ∧
        ((∃ t ∈ new, t.type = 8) → g.graphicsMandatory ∨ g.framebufferRequested) := by
  have hnone : (∃ t ∈ ([] : List MbiTag), t.type = 8) →
      g.graphicsMandatory ∨ g.framebufferRequested :=
    fun ⟨t, ht, _⟩ => absurd ht List.not_mem_nil
  rcases saveTag_cases h hr with ⟨rfl, rfl, hfound⟩ | ⟨hnew, hw⟩
  · exact ⟨[], .refl h, .found hfound, hnone⟩
  rw [withRoom_eq_some] at hw
  obtain ⟨hroom, hw⟩ := hw
  let t : MbiTag := ⟨7, 784, by decide, by decide, by decide⟩
  have hf : Filled (termAddr mbi l) 7 784 792 s.mem (writeVbe B (termAddr mbi l) s).2.mem :=
    filled_writeVbe
  -- the tag is undone
  have hdrop : ∀ {s₁ : Loader β}, Filled (termAddr mbi l) 7 784 792 s.mem s₁.mem →
      ¬ModeChosen B fuel g (termAddr mbi l) buffer uninitialized s →
      dropTag mbi (termAddr mbi l)
        (¬g.graphicsMandatory ∧ ¬g.vbeMandatory ∧ ¬g.framebufferMandatory) s₁ = some (b, s') →
      ∃ new, Saves mbi l s.mem s'.mem new ∧
        GraphicsSaved B fuel mbi buffer uninitialized l g s b new ∧
          ((∃ t ∈ new, t.type = 8) → g.graphicsMandatory ∨ g.framebufferRequested) := by
    intro s₁ hs₁ hmode hd
    obtain ⟨rfl, rfl⟩ := Prod.mk.inj (Option.some.inj hd)
    exact ⟨[], hs₁.drops h (by decide) hroom (by decide), .absent hmode, hnone⟩
  split at hw
  · rename_i s₁ hvbe
    rw [hvbe] at hf
    refine hdrop hf (fun hmode => ?_) hw
    rw [ModeChosen, hvbe] at hmode
    exact nomatch hmode.1
  rename_i s₁ hvbe
  rw [hvbe] at hf
  split at hw
  · exact nomatch hw
  · rename_i s₂ hmode
    refine hdrop (filled_chooseMode hf hmode) ?_ hw
    rintro ⟨-, mode, s₃, hmode'⟩
    rw [hvbe, hmode] at hmode'
    exact nomatch hmode'
  · rename_i mode s₂ hmode
    have hchosen : ModeChosen B fuel g (termAddr mbi l) buffer uninitialized s := by
      refine ⟨by rw [hvbe], mode, s₂, ?_⟩
      rw [hvbe]
      exact hmode
    have hsaves := ((filled_chooseMode hf hmode).saves h t hroom (by decide) hnew).2
    dsimp only at hw
    split at hw
    · rename_i hdone
      obtain ⟨rfl, rfl⟩ := Prod.mk.inj (Option.some.inj hw)
      refine ⟨[t], hsaves, .vbe t true hchosen rfl fun _ => hdone, ?_⟩
      rintro ⟨t', ht', htype⟩
      rw [List.mem_singleton.mp ht'] at htype
      exact absurd htype (by decide)
    · rename_i hasked
      have hasked' : g.graphicsMandatory = true ∨ g.framebufferRequested = true := by
        by_contra hno
        exact hasked (not_or.mp hno)
      rcases saveFramebuffer_spec hsaves.record hw with ⟨rfl, rfl⟩ | ⟨t', ht', hsaves'⟩
      · exact ⟨[t], hsaves, .vbe t false hchosen rfl (fun hb => nomatch hb), fun _ => hasked'⟩
      · exact ⟨[t, t'], hsaves.trans hsaves', .framebuffer t t' b hchosen rfl ht',
          fun _ => hasked'⟩

theorem saveGraphicsInfo_cases {info : KernelInfo} {buffer : BitVec 32}
    {uninitialized : BitVec 16}
    (hr : saveGraphicsInfo B fuel mbi info buffer uninitialized s = some (b, s')) :
    (info.multibootHeader = 0 ∧ b = false ∧ s' = s) ∨
      (info.multibootHeader ≠ 0 ∧ ∃ g, scanGraphics s.mem fuel info.multibootHeader = some (.ok g) ∧
        if ¬g.graphicsMandatory ∧ ¬g.vbeRequested ∧ ¬g.framebufferRequested then
          b = true ∧ s' = s
        else saveGraphics B fuel mbi g buffer uninitialized s = some (b, s')) := by
  rw [saveGraphicsInfo] at hr
  split at hr
  · rename_i hzero
    obtain ⟨rfl, rfl⟩ := Prod.mk.inj (Option.some.inj hr)
    exact .inl ⟨hzero, rfl, rfl⟩
  rename_i hheader
  split at hr
  · exact nomatch hr
  · rename_i e _
    exact nomatch e
  · rename_i g hscan
    refine .inr ⟨hheader, g, hscan, ?_⟩
    split at hr
    · rename_i hnothing
      obtain ⟨rfl, rfl⟩ := Prod.mk.inj (Option.some.inj hr)
      rw [if_pos hnothing]
      exact ⟨rfl, rfl⟩
    · rename_i hsome
      rw [if_neg hsome]
      exact hr

theorem saveGraphicsInfo_spec {info : KernelInfo} {buffer : BitVec 32}
    {uninitialized : BitVec 16} (h : IsRecord s.mem mbi l)
    (hr : saveGraphicsInfo B fuel mbi info buffer uninitialized s = some (b, s')) :
    ∃ new, Saves mbi l s.mem s'.mem new ∧
      ((∀ g, scanGraphics s.mem fuel info.multibootHeader = some (.ok g) →
        ¬ModeChosen B fuel g (termAddr mbi l) buffer uninitialized s) → new = []) := by
  rcases saveGraphicsInfo_cases hr with ⟨-, -, rfl⟩ | ⟨-, g, hscan, hg⟩
  · exact ⟨[], .refl h, fun _ => rfl⟩
  split at hg
  · obtain ⟨-, rfl⟩ := hg
    exact ⟨[], .refl h, fun _ => rfl⟩
  · obtain ⟨new, hsaves, hways, -⟩ := saveGraphics_spec h hg
    refine ⟨new, hsaves, fun habsent => ?_⟩
    cases hways with
    | found _ => rfl
    | absent _ => rfl
    | vbe t b hmode _ _ => exact absurd hmode (habsent g hscan)
    | framebuffer t t' b hmode _ _ => exact absurd hmode (habsent g hscan)

end several

end savers

end Avos.Multiboot
