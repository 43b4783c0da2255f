import Avos.Bootloader.SectionTag

/-! # Requests for the Section Headers

  Behind the loading of the file `Multiboot_LoadKernelFile` goes over the requests of the header.
  A request for the section headers in a mandatory tag makes it save them, and then `return false`
  is done where they have been saved, not where they could not be; a request in an optional tag
  does nothing. So a header without such requests is all that it is right for
  (`answersRequests_iff`), but for optional requests that cannot be met.
-/

open ByteMemory Walks Loops

namespace Avos.Multiboot

/-! ## Section 1: Requests -/

/-- The information types that a tag requests, of the tag itself. -/
def HeaderTag.requested (t : HeaderTag) : List (BitVec 32) :=
  if t.type = 1 then (List.range (t.body.length / 4)).map fun i => word32 t.body (4 * i) else []

/-- A tag with the flag for optional tags. -/
def HeaderTag.IsOptional (t : HeaderTag) : Prop := t.flags &&& 1 ≠ 0

/-- The header requests the section headers. -/
def RequestsSections (tags : List HeaderTag) : Prop := ∃ t ∈ tags, 9 ∈ t.requested

/-- The header requests the section headers in a mandatory tag. -/
def DemandsSections (tags : List HeaderTag) : Prop :=
  ∃ t ∈ tags, 9 ∈ t.requested ∧ ¬t.IsOptional

/-- What the loop takes for a mandatory request of the section headers. -/
def DemandAt (m : Memory) (tag : BitVec 32) : Prop :=
  headerTagType m tag = 1 ∧ isMandatory m tag = true ∧ 9 ∈ requests m tag

/-- The loop over the tags ends, and finds no mandatory request that is met. -/
def PassesTags (m : Memory) (header : BitVec 32) (fuel : Nat) (stored : Bool) : Prop :=
  ∃ addrs, Walk (InHeader m header) (nextHeaderTag m) (header + 16) addrs ∧ addrs.length < fuel ∧
    ∀ a ∈ addrs, ¬(stored = true ∧ DemandAt m a)

/-- The record has the tag with the section headers. -/
def HasSectionsTag (m : Memory) (mbi : BitVec 32) : Prop :=
  ∃ fuel tag, findMbiTagAddress fuel m mbi 9 = some tag ∧ load32 m tag = 9

/-- The function returns true unless a mandatory request for the section headers cannot be met,
    and the requests that can be met are met. `stored` says whether
    `Multiboot_SaveELFSectionHeaders` can store the section headers. -/
structure AnswersRequests {β : Type*} (mbi : BitVec 32) (tags : List HeaderTag) (stored : Bool)
    (result : Bool) (s' : Loader β) : Prop where
  result_iff : result = true ↔ ¬(DemandsSections tags ∧ stored = false)
  contains : RequestsSections tags → stored = true → HasSectionsTag s'.mem mbi

section loops

variable {β : Type*} {fuel : Nat} {mbi tag header : BitVec 32} {info : KernelInfo}
  {s s₂ : Loader β} {stored : Bool} {addrs : List (BitVec 32)}

theorem mem_requests {m : Memory} {type : BitVec 32} : type ∈ requests m tag ↔
    ∃ i < numRequests m tag, load32 m (requestAddr tag i) = type := by
  simp [requests]

/-- The loop over the requests of a tag is left at the first one that is met. -/
theorem saveRequested_meets (tag : BitVec 32)
    (hsave : saveElfSectionHeaders fuel mbi info s = some (stored, s₂)) :
    Meets (fun s' => s' = s ∧ ¬(stored = true ∧ isMandatory s.mem tag = true ∧
        9 ∈ requests s.mem tag))
      (fun e => e = s₂ ∧ stored = true ∧ isMandatory s.mem tag = true ∧ 9 ∈ requests s.mem tag)
      (saveRequested fuel mbi info tag s) := by
  let I : Nat → Loader β → Prop := fun i s' => s' = s ∧ ¬(stored = true ∧
    isMandatory s.mem tag = true ∧ ∃ j < i, load32 s.mem (requestAddr tag j) = 9)
  simp only [mem_requests]
  show Meets (I (numRequests s.mem tag)) _ _
  apply forLoop_meets (I := I)
  · exact fun _ _ _ _ => Iff.rfl
  · rintro i s' hi ⟨rfl, hbefore⟩
    have hnext : ∀ j, j < i + 1 → load32 s'.mem (requestAddr tag j) = 9 →
        (∃ j < i, load32 s'.mem (requestAddr tag j) = 9) ∨
          load32 s'.mem (requestAddr tag i) = 9 := by
      intro j hj hnine
      rcases Nat.lt_succ_iff_lt_or_eq.mp hj with hlt | rfl
      · exact .inl ⟨j, hlt, hnine⟩
      · exact .inr hnine
    split
    · next hdemand =>
      obtain ⟨hnine, hmandatory⟩ := hdemand
      rw [hsave]
      cases stored with
      | true => exact meets_throw.mpr ⟨rfl, rfl, hmandatory, i, hi, hnine⟩
      | false =>
        obtain rfl := saveElfSectionHeaders_false hsave
        exact meets_pure.mpr ⟨rfl, fun hstored => nomatch hstored.1⟩
    · next hno =>
      apply meets_pure.mpr
      refine ⟨rfl, ?_⟩
      rintro ⟨hstored, hmandatory, j, hj, hnine⟩
      rcases hnext j hj hnine with hearlier | hnine
      · exact hbefore ⟨hstored, hmandatory, hearlier⟩
      · exact hno ⟨hnine, hmandatory⟩
  · exact Nat.zero_le _
  · exact Nat.lt_succ_self _
  · refine ⟨rfl, ?_⟩
    rintro ⟨-, -, j, hj, -⟩
    exact Nat.not_lt_zero j hj

/-- A round of the loop over the tags. -/
theorem sectionRound_meets (tag : BitVec 32)
    (hsave : saveElfSectionHeaders fuel mbi info s = some (stored, s₂)) :
    Meets (fun p => p = (nextHeaderTag s.mem tag, s) ∧ ¬(stored = true ∧ DemandAt s.mem tag))
      (fun e => e = s₂ ∧ stored = true ∧ DemandAt s.mem tag)
      (if headerTagType s.mem tag = 1 then
        saveRequested fuel mbi info tag s >>= fun s => pure (nextHeaderTag s.mem tag, s)
      else pure (nextHeaderTag s.mem tag, s)) := by
  split
  · next htype =>
    have hrequested := saveRequested_meets tag hsave
    apply Meets.bind (Q := fun s' => s' = s ∧ ¬(stored = true ∧ isMandatory s.mem tag = true ∧
        9 ∈ requests s.mem tag))
    · apply hrequested.mono
      · exact fun _ h => h
      · rintro e ⟨rfl, hstored, hmandatory, hnine⟩
        exact ⟨rfl, hstored, htype, hmandatory, hnine⟩
    · rintro s' ⟨rfl, hno⟩
      apply meets_pure.mpr
      refine ⟨rfl, ?_⟩
      rintro ⟨hstored, -, hmandatory, hnine⟩
      exact hno ⟨hstored, hmandatory, hnine⟩
  · next htype =>
    apply meets_pure.mpr
    exact ⟨rfl, fun hdemand => htype hdemand.2.1⟩

/-- Where the walk over the tags ends, the loop comes to its end, or it is left at a request that
    is met. -/
theorem saveSections_meets (hsave : saveElfSectionHeaders fuel mbi info s = some (stored, s₂))
    (hwalk : Walk (InHeader s.mem header) (nextHeaderTag s.mem) (header + 16) addrs)
    (hfuel : addrs.length < fuel) :
    Meets (fun p => p.2 = s ∧ ∀ a ∈ addrs, ¬(stored = true ∧ DemandAt s.mem a))
      (fun e => e = s₂ ∧ stored = true ∧ ∃ a ∈ addrs, DemandAt s.mem a)
      (saveSections fuel mbi info header s) := by
  let I : Nat → BitVec 32 × Loader β → Prop := fun k p => p.2 = s ∧
    Walk (InHeader s.mem header) (nextHeaderTag s.mem) p.1 (addrs.drop k) ∧
      ∀ a ∈ addrs.take k, ¬(stored = true ∧ DemandAt s.mem a)
  have hloop : Meets (I addrs.length)
      (fun e => e = s₂ ∧ stored = true ∧ ∃ a ∈ addrs, DemandAt s.mem a)
      (saveSections fuel mbi info header s) := by
    apply forLoop_meets (I := I)
    · rintro k p hk ⟨rfl, hp, -⟩
      constructor
      · intro hin
        by_contra hge
        rw [List.drop_eq_nil_of_le (Nat.le_of_not_lt hge)] at hp
        exact walk_nil.mp hp hin
      · intro hlt
        rw [List.drop_eq_getElem_cons hlt] at hp
        exact (walk_cons.mp hp).2.1
    · rintro k ⟨a, s'⟩ hk ⟨hs', hp, hbefore⟩
      obtain rfl : s' = s := hs'
      rw [List.drop_eq_getElem_cons hk] at hp
      obtain ⟨ha, -, hp⟩ := walk_cons.mp hp
      have ha' : addrs[k] = a := ha
      apply (sectionRound_meets a hsave).mono
      · rintro p ⟨rfl, hno⟩
        refine ⟨rfl, hp, ?_⟩
        intro b hb
        rw [List.take_add_one, List.getElem?_eq_getElem hk, ha'] at hb
        rcases List.mem_append.mp hb with hb | hb
        · exact hbefore b hb
        · obtain rfl := List.mem_singleton.mp hb
          exact hno
      · rintro e ⟨rfl, hstored, hdemand⟩
        refine ⟨rfl, hstored, a, ?_, hdemand⟩
        rw [← ha']
        exact List.getElem_mem hk
    · exact Nat.zero_le _
    · omega
    · exact ⟨rfl, hwalk, fun a ha => absurd ha List.not_mem_nil⟩
  apply hloop.mono
  · rintro p ⟨hp, -, hall⟩
    rw [List.take_length] at hall
    exact ⟨hp, hall⟩
  · exact fun _ h => h

/-- The loop comes to its end only where it passes all tags, and it is left only where the section
    headers are stored. -/
theorem saveSections_cases {out : Except (Loader β) (BitVec 32 × Loader β)}
    (hsave : saveElfSectionHeaders fuel mbi info s = some (stored, s₂))
    (h : (saveSections fuel mbi info header s).run = some out) :
    (∃ p, out = .ok p ∧ p.2 = s ∧ PassesTags s.mem header fuel stored) ∨
      (out = .error s₂ ∧ stored = true) := by
  unfold saveSections at h
  -- the bound of the loop alone, apart from that of the searches
  suffices hloop : ∀ (rounds k : Nat) (a : BitVec 32),
      (forLoop (fun _ p => InHeader p.2.mem header p.1)
        (fun _ p =>
          if headerTagType p.2.mem p.1 = 1 then
            saveRequested fuel mbi info p.1 p.2 >>= fun s => pure (nextHeaderTag s.mem p.1, s)
          else pure (nextHeaderTag p.2.mem p.1, p.2))
        rounds k (a, s)).run = some out →
      (∃ p, out = .ok p ∧ p.2 = s ∧ ∃ addrs, Walk (InHeader s.mem header) (nextHeaderTag s.mem) a
        addrs ∧ addrs.length < rounds ∧ ∀ b ∈ addrs, ¬(stored = true ∧ DemandAt s.mem b)) ∨
      (out = .error s₂ ∧ stored = true) from hloop fuel 0 _ h
  intro rounds
  induction rounds with
  | zero => exact fun k a hrun => nomatch hrun
  | succ rounds ih =>
    intro k a hrun
    rw [forLoop] at hrun
    split at hrun
    · next hin =>
      rw [ExceptT.run_bind] at hrun
      rcases (sectionRound_meets a hsave).cases with
        ⟨q, hround, rfl, hno⟩ | ⟨e, hround, rfl, hstored, -⟩
      · rw [hround] at hrun
        rcases ih (k + 1) _ hrun with ⟨p, hout, hp, addrs, hwalk, hlength, hall⟩ | hleft
        · refine .inl ⟨p, hout, hp, a :: addrs, walk_cons.mpr ⟨rfl, hin, hwalk⟩,
            Nat.succ_lt_succ hlength, ?_⟩
          exact List.forall_mem_cons.mpr ⟨hno, hall⟩
        · exact .inr hleft
      · rw [hround] at hrun
        exact .inr ⟨(Option.some.inj hrun).symm, hstored⟩
    · next hout =>
      refine .inl ⟨(a, s), (Option.some.inj hrun).symm, rfl, [], walk_nil.mpr hout,
        Nat.succ_pos _, ?_⟩
      exact fun b hb => absurd hb List.not_mem_nil

end loops

/-! ## Section 2: The Requests That Are Answered -/

/-- The function returns, with the requests answered. -/
def LoadAnswers {β : Type*} (B : DiskBios β) (buffer blocklist : BitVec 32) (fuel : Nat)
    (mbi : BitVec 32) (info : KernelInfo) (tags : List HeaderTag) (stored : Bool)
    (s : Loader β) : Prop :=
  ∃ result info' s', loadKernelFile B buffer blocklist fuel mbi info s =
    some (result, info', s') ∧ AnswersRequests mbi tags stored result s'

section tags

variable {m : Memory} {a header : BitVec 32} {t : HeaderTag} {tags : List HeaderTag}

theorem mem_requested {type : BitVec 32} : type ∈ t.requested ↔
    t.type = 1 ∧ ∃ i < t.body.length / 4, word32 t.body (4 * i) = type := by
  unfold HeaderTag.requested
  split
  · next h => simp [h]
  · next h => exact iff_of_false List.not_mem_nil fun hasks => h hasks.1

/-- A request that the loop finds at a tag is one of the tag. -/
theorem demandAt_iff (h : HeaderTagAt m a t) (ht : t.size < 2 ^ 32) :
    DemandAt m a ↔ 9 ∈ t.requested ∧ ¬t.IsOptional := by
  have hsize : t.size = 8 + t.body.length := rfl
  have hnum : numRequests m a = t.body.length / 4 := by
    have hsub : (BitVec.ofNat 32 t.size - 8).toNat = t.body.length := by
      rw [hsize]
      bv_omega
    rw [numRequests, h.size, hsub]
  have hword : ∀ i < t.body.length / 4,
      load32 m (requestAddr a i) = word32 t.body (4 * i) :=
    fun i hi => h.body.load32 (by omega)
  have hmandatory : isMandatory m a = true ↔ ¬t.IsOptional := by
    rw [isMandatory, h.flags, HeaderTag.IsOptional, not_not, decide_eq_true_iff]
  rw [DemandAt, h.type, hmandatory, mem_requests, hnum, mem_requested]
  constructor
  · rintro ⟨htype, hflags, i, hi, hnine⟩
    exact ⟨⟨htype, i, hi, (hword i hi).symm.trans hnine⟩, hflags⟩
  · rintro ⟨⟨htype, i, hi, hnine⟩, hflags⟩
    exact ⟨htype, hflags, i, hi, (hword i hi).trans hnine⟩

theorem exists_demandAt_iff (h : HeaderTagsAt m a tags) (hsize : headerTagBytes tags < 2 ^ 32) :
    (∃ b ∈ headerTagAddrs a tags, DemandAt m b) ↔ DemandsSections tags := by
  induction tags generalizing a with
  | nil => simp [headerTagAddrs, DemandsSections]
  | cons t tags ih =>
    have hle := t.le_padded
    rw [headerTagBytes] at hsize
    have ht := demandAt_iff h.1 (by omega)
    have hrest := ih h.2 (by omega)
    unfold DemandsSections at hrest ⊢
    simp only [headerTagAddrs, List.mem_cons, exists_eq_or_imp, ht, hrest]

/-- Where no tag needs padding, the loop finds the requests of the header. -/
theorem passesTags_iff {fuel : Nat} {stored : Bool} (h : HeaderAt m header tags)
    (hsizes : ∀ t ∈ tags, 8 ∣ t.size) (hfuel : tags.length + 1 < fuel) :
    PassesTags m header fuel stored ↔ ¬(stored = true ∧ DemandsSections tags) := by
  have hwalk : Walk (InHeader m header) (nextHeaderTag m) (header + 16)
      (headerTagAddrs (header + 16) (tags ++ [.terminator])) :=
    (walk_tags_iff h h.tagsFrom).mpr hsizes
  have hlength : (headerTagAddrs (header + 16) (tags ++ [.terminator])).length =
      tags.length + 1 := by
    have hall : ∀ (ts : List HeaderTag) (a : BitVec 32),
        (headerTagAddrs a ts).length = ts.length := by
      intro ts
      induction ts with
      | nil => exact fun _ => rfl
      | cons t ts ih => exact fun a => congrArg (· + 1) (ih _)
    rw [hall, List.length_append, List.length_singleton]
  have hbytes : headerTagBytes (tags ++ [.terminator]) < 2 ^ 32 := by
    have hroom := h.room
    have hlen := h.length
    omega
  have hdemand := exists_demandAt_iff h.tagsAt hbytes
  have hlast : DemandsSections (tags ++ [.terminator]) ↔ DemandsSections tags := by
    have hnone : ¬(9 ∈ HeaderTag.terminator.requested ∧ ¬HeaderTag.terminator.IsOptional) :=
      fun hno => absurd hno.1 List.not_mem_nil
    unfold DemandsSections
    constructor
    · rintro ⟨t, ht, hasks⟩
      rcases List.mem_append.mp ht with ht | ht
      · exact ⟨t, ht, hasks⟩
      · obtain rfl := List.mem_singleton.mp ht
        exact absurd hasks hnone
    · rintro ⟨t, ht, hasks⟩
      exact ⟨t, List.mem_append_left _ ht, hasks⟩
  rw [← hlast, ← hdemand]
  constructor
  · rintro ⟨addrs, hwalk', -, hno⟩ ⟨hstored, a, ha, hasks⟩
    rw [hwalk.unique hwalk'] at ha
    exact hno a ha ⟨hstored, hasks⟩
  · intro hno
    refine ⟨_, hwalk, by omega, ?_⟩
    rintro a ha ⟨hstored, hasks⟩
    exact hno ⟨hstored, a, ha, hasks⟩

end tags

section answers

variable {β : Type*} {B : DiskBios β} {buffer blocklist mmap mmapSize mbi header : BitVec 32}
  {info : KernelInfo} {s s₂ : Loader β} {st : FileLoad β} {fuel : Nat} {stored : Bool}
  {tags : List HeaderTag}

/-- A saver that can store the section headers has not found their tag. -/
theorem not_hasSectionsTag {s : Loader β}
    (hsave : saveElfSectionHeaders fuel mbi info s = some (true, s₂)) :
    ¬HasSectionsTag s.mem mbi := by
  rintro ⟨n, tag, hfind, hnine⟩
  rw [saveElfSectionHeaders, saveTag] at hsave
  cases hfound : findMbiTagAddress fuel s.mem mbi 9 with
  | none =>
    rw [hfound] at hsave
    cases hsave
  | some tag' =>
    have hsame : tag' = tag := by
      have h := findMbiTagAddress_mono hfound (Nat.le_max_left fuel n)
      rw [findMbiTagAddress_mono hfind (Nat.le_max_right fuel n)] at h
      exact (Option.some.inj h).symm
    rw [hfound, hsame] at hsave
    have hstop : tag = memoryNullPtr ∨ load32 s.mem tag ≠ 0 := by
      rw [hnine]
      exact .inr (by decide)
    dsimp only at hsave
    rw [if_pos hstop] at hsave
    cases congrArg Prod.fst (Option.some.inj hsave)

section loaded

variable (hmap : ramInfo fuel s.mem mbi = some (some (mmap, mmapSize)))
  (hrun : (readBlockLists B buffer blocklist mmap mmapSize fuel info.blocklistPtr
    ⟨info, false, s⟩).run = some (.ok st)) (hloaded : st.fileLoaded = true)
  (hheader : getHeader st.mem st.info.fileAddr st.info.fileSize = header) (hne : header ≠ 0)
  (harchitecture : load32 st.mem (header + 4) = 0)
  (hsave : saveElfSectionHeaders fuel mbi st.info st.loader = some (stored, s₂))

include hmap hrun hloaded hheader hne harchitecture hsave

/-- A mandatory request that can be met makes the function return false. -/
theorem loadKernelFile_demand {addrs : List (BitVec 32)}
    (hwalk : Walk (InHeader st.mem header) (nextHeaderTag st.mem) (header + 16) addrs)
    (hfuel : addrs.length < fuel) (hstored : stored = true)
    (hdemand : ∃ a ∈ addrs, DemandAt st.mem a) :
    loadKernelFile B buffer blocklist fuel mbi info s = some (false, st.info, s₂) := by
  rw [loadKernelFile_eq hmap hrun hloaded hheader hne harchitecture]
  rcases (saveSections_meets hsave hwalk hfuel).cases with ⟨p, -, -, hno⟩ | ⟨e, hleft, rfl, -⟩
  · obtain ⟨a, ha, hasks⟩ := hdemand
    exact absurd ⟨hstored, hasks⟩ (hno a ha)
  · rw [hleft]

/-- The requests are answered exactly if the loop passes all tags, and the header makes no request
    that can be met, or no mandatory one that cannot be met. -/
theorem loadAnswers_iff_passesTags (tags : List HeaderTag) :
    LoadAnswers B buffer blocklist fuel mbi info tags stored s ↔
      PassesTags st.mem header fuel stored ∧
        (if stored then ¬RequestsSections tags else ¬DemandsSections tags) := by
  have heq := loadKernelFile_eq hmap hrun hloaded hheader hne harchitecture
  constructor
  · rintro ⟨result, info', s', hload, hanswers⟩
    rw [heq] at hload
    cases hout : (saveSections fuel mbi st.info header st.loader).run with
    | none =>
      rw [hout] at hload
      exact nomatch hload
    | some out =>
      rw [hout] at hload
      rcases saveSections_cases hsave hout with ⟨p, rfl, hp, hpasses⟩ | ⟨rfl, hstored⟩
      · obtain ⟨hresult, hrest⟩ := Prod.mk.inj (Option.some.inj hload)
        obtain ⟨-, hs'⟩ := Prod.mk.inj hrest
        refine ⟨hpasses, ?_⟩
        split
        · next hstored =>
          intro hrequests
          have htag := hanswers.contains hrequests hstored
          rw [← hs', hp] at htag
          rw [hstored] at hsave
          exact not_hasSectionsTag hsave htag
        · next hstored =>
          intro hdemands
          exact hanswers.result_iff.mp hresult.symm ⟨hdemands, eq_false_of_ne_true hstored⟩
      · -- the loop has been left, although the section headers are stored
        have hfalse := (Prod.mk.inj (Option.some.inj hload)).1
        have htrue : result = true := by
          apply hanswers.result_iff.mpr
          rintro ⟨-, hnot⟩
          rw [hstored] at hnot
          exact nomatch hnot
        rw [htrue] at hfalse
        exact nomatch hfalse
  · rintro ⟨⟨addrs, hwalk, hfuel, hno⟩, hcond⟩
    rcases (saveSections_meets hsave hwalk hfuel).cases with
      ⟨p, hend, hp, -⟩ | ⟨e, -, -, hstored, a, ha, hasks⟩
    · refine ⟨true, st.info, p.2, ?_, ?_, ?_⟩
      · rw [heq, hend]
      · refine iff_of_true rfl ?_
        rintro ⟨hdemands, hstored⟩
        rw [hstored] at hcond
        exact hcond hdemands
      · intro hrequests hstored
        rw [hstored] at hcond
        exact absurd hrequests hcond
    · exact absurd ⟨hstored, hasks⟩ (hno a ha)

/-- The requests of a header with these tags are answered exactly if the loop over its tags ends
    and passes them, and there is no request that can be met, or no mandatory one that cannot be.
    Where no tag needs padding, the loop does so if there is no request, or if there are only
    optional ones that cannot be met. -/
theorem loadAnswers_iff (hat : HeaderAt st.mem header tags) :
    (LoadAnswers B buffer blocklist fuel mbi info tags stored s ↔
      PassesTags st.mem header fuel stored ∧
        (if stored then ¬RequestsSections tags else ¬DemandsSections tags)) ∧
    ((∀ t ∈ tags, 8 ∣ t.size) → tags.length + 1 < fuel →
      (LoadAnswers B buffer blocklist fuel mbi info tags stored s ↔
        ¬RequestsSections tags ∨ (stored = false ∧ ¬DemandsSections tags))) := by
  have hiff := loadAnswers_iff_passesTags hmap hrun hloaded hheader hne harchitecture hsave
    tags
  refine ⟨hiff, ?_⟩
  intro hsizes hfuel
  have hdemands : DemandsSections tags → RequestsSections tags :=
    fun ⟨t, ht, hasks, _⟩ => ⟨t, ht, hasks⟩
  rw [hiff, passesTags_iff hat hsizes hfuel]
  cases stored with
  | true =>
    constructor
    · exact fun h => .inl h.2
    · rintro (hno | ⟨hfalse, -⟩)
      · exact ⟨fun hasks => hno (hdemands hasks.2), hno⟩
      · exact nomatch hfalse
  | false =>
    constructor
    · exact fun h => .inr ⟨rfl, h.2⟩
    · rintro (hno | ⟨-, hno⟩)
      · exact ⟨fun hasks => (nomatch hasks.1), fun hasks => hno (hdemands hasks)⟩
      · exact ⟨fun hasks => (nomatch hasks.1), hno⟩

end loaded

end answers

/-! ### A header with a mandatory request -/

/-- A mandatory request for the section headers and the basic memory information. -/
def requestTag : HeaderTag := ⟨1, 0, wordBytes 9 ++ wordBytes 4⟩

/-- A sector with a header with these tags. -/
def headerSector (tags : List HeaderTag) : List (BitVec 8) :=
  headerBytes tags ++ List.replicate (512 - (headerBytes tags).length) 0

theorem headerSector_spec : ∀ tags ∈ [[], [requestTag]],
    (headerBytes tags).length ≤ 512 ∧ (headerBytes tags).getD 0 0 = 0xD6 ∧
      HeaderAt (bytesAt 0x100000 (headerBytes tags) fun _ => 0) 0x100000 tags ∧
      (headerLength (bytesAt 0x100000 (headerBytes tags) fun _ => 0) 0x100000).toNat =
        (headerBytes tags).length ∧
      load32 (bytesAt 0x100000 (headerBytes tags) fun _ => 0) (0x100000 + 4) = 0 := by
  decide +kernel

theorem isRecord_diskMemory : IsRecord diskMemory 0x8000 [ramTag] := by
  have hwords : load32 diskMemory 0x8000 = 48 ∧ load32 diskMemory (0x8000 + 4) = 0 ∧
      load32 diskMemory (0x8000 + 8) = 98 ∧ load32 diskMemory (0x8000 + 8 + 4) = 32 ∧
      load32 diskMemory (termAddr 0x8000 [ramTag]) = 0 ∧
      load32 diskMemory (termAddr 0x8000 [ramTag] + 4) = 8 := by
    decide +kernel
  obtain ⟨htotal, hreserved, htype, hsize, htermType, htermSize⟩ := hwords
  exact ⟨by decide, by decide, htotal, hreserved, ⟨htype, hsize, trivial⟩, htermType, htermSize⟩

section request

variable {tags : List HeaderTag}

theorem length_headerSector_tags (htags : tags ∈ [[], [requestTag]]) :
    (headerSector tags).length = 512 := by
  have hle := (headerSector_spec tags htags).1
  rw [headerSector, List.length_append, List.length_replicate]
  omega

/-- The file is loaded, and the record has room for the section headers, of which there are
    none. -/
theorem exists_load (htags : tags ∈ [[], [requestTag]]) : ∃ st s₂,
    (readBlockLists (contentsBios (headerSector tags) headerBlock) 0x10000 0x20000 0x8018 1 41
      diskInfo.blocklistPtr ⟨diskInfo, false, ⟨diskMemory, ()⟩⟩).run = some (.ok st) ∧
    st.fileLoaded = true ∧
    getHeader st.mem st.info.fileAddr st.info.fileSize = 0x100000 ∧
    load32 st.mem (0x100000 + 4) = 0 ∧ HeaderAt st.mem 0x100000 tags ∧
    saveElfSectionHeaders 41 0x8000 st.info st.loader = some (true, s₂) := by
  have hfile : headerBlock ∈ diskFiles := by decide
  have hlength := length_headerSector_tags htags
  obtain ⟨hle, hfirst, hat, hheaderLength, harchitecture⟩ := headerSector_spec tags htags
  obtain ⟨st, hrun, hscanned⟩ := exists_run_contents hlength hfile
  have htotal : (fileBytes (contentsSector (headerSector tags) headerBlock)
      headerBlock).length = 512 := length_fileBytes_contents hlength hfile
  have hinfo : st.info = { diskInfo with fileAddr := 0x100000, fileSize := 512 } := by
    have hsize : BitVec.ofNat 32 (blockContents (contentsSector (headerSector tags) headerBlock)
        headerBlock).flatten.length = 512 := congrArg (BitVec.ofNat 32) htotal
    rw [hscanned.info, if_pos rfl, hsize]
  -- the header is where the file is
  have hbytes : HasBytes st.mem 0x100000 (headerBytes tags) := by
    intro i hi
    have hblocks : blockContents (contentsSector (headerSector tags) headerBlock) headerBlock =
        [headerSector tags] := by
      show [headerSector tags ++ []] = _
      rw [List.append_nil]
    have hbyte : lastByte (diskMemory (0x100000 + BitVec.ofNat 32 i)) i [headerSector tags] =
        (headerSector tags).getD i 0 := if_pos (by omega)
    rw [hscanned.byte lowLayout_disk (by omega), hblocks, hbyte]
    exact List.getD_append _ _ _ _ hi
  have hsame : ∀ x, InBytes 0x100000 (headerBytes tags).length x →
      st.mem x = bytesAt 0x100000 (headerBytes tags) (fun _ => 0) x := by
    intro x hx
    obtain ⟨i, hi, rfl⟩ := hx.exists_offset
    rw [hbytes i hi, hasBytes_bytesAt (by omega) i hi]
  have hat' : HeaderAt st.mem 0x100000 tags := by
    apply hat.congr
    rw [hheaderLength]
    exact hsame
  have hmin : 16 ≤ (headerBytes tags).length := by
    rw [← hheaderLength]
    exact hat.fields.1
  have harchitecture' : load32 st.mem (0x100000 + 4) = 0 := by
    have hword : load32 st.mem (0x100000 + BitVec.ofNat 32 4) = _ :=
      load32_congr_of_add hsame (i := 4) (by omega) (by omega)
    exact hword.trans harchitecture
  -- the record is as it was
  have hrecord : IsRecord st.mem 0x8000 [ramTag] := by
    apply isRecord_diskMemory.congr
    intro x hx
    have hx' : (x - 0x8000).toNat < 48 := hx
    rw [hscanned.mem x ?_ ?_, if_neg]
    · rintro ⟨-, hin⟩
      have hin' : (x - 0x100000).toNat < 512 := by
        rw [InBytes] at hin
        rw [← htotal]
        exact hin
      bv_omega
    · intro hbuffer
      rw [InBytes] at hbuffer
      bv_omega
    · intro hlist
      rw [InBytes] at hlist
      bv_omega
  have hfileAddr : st.info.fileAddr = 0x100000 := by
    rw [hinfo]
  have htable : tableBytes st.loader.mem st.info.fileAddr = 0 := by
    apply if_neg
    rintro ⟨hident, -⟩
    have hhead := congrArg (fun l => l.getD 0 0) hident
    have hmagic : st.mem (0x100000 + BitVec.ofNat 32 0) = 0x7F := by
      rw [hfileAddr] at hhead
      exact hhead
    rw [hbytes 0 (by omega), hfirst] at hmagic
    exact absurd hmagic (by decide)
  have hsave : ∃ s₂, saveElfSectionHeaders 41 0x8000 st.info st.loader = some (true, s₂) := by
    have hterm : termAddr 0x8000 [ramTag] = 0x8028 := by decide
    have hnew : findTag 9 (0x8000 + 8) [ramTag] = none := by decide
    have hfuel : (tagAddrs (0x8000 + 8) [ramTag]).length < 41 := by decide
    have hroom : (termAddr 0x8000 [ramTag]).toNat +
        (24 + tableBytes st.loader.mem st.info.fileAddr) < 2 ^ 32 := by
      rw [htable, hterm]
      decide
    have hapart : Apart st.info.fileAddr 52 (termAddr 0x8000 [ramTag])
        (16 + tableBytes st.loader.mem st.info.fileAddr) := by
      rw [htable, hterm, hfileAddr]
      intro x hin htag
      rw [InBytes] at hin htag
      bv_omega
    obtain ⟨s₂, hstored, -⟩ := saveElfSectionHeaders_extends hrecord hnew hfuel
      (by rw [htable]) hroom hapart
    exact ⟨s₂, hstored⟩
  obtain ⟨s₂, hsave⟩ := hsave
  refine ⟨st, s₂, hrun, hscanned.fileLoaded, ?_, harchitecture', hat', hsave⟩
  rw [hinfo]
  exact getHeader_first (by decide) hat'.magic hat'.fields

end request

/-- A header without tags. -/
theorem loadAnswers_iff_headerSector :
    LoadAnswers (contentsBios (headerSector []) headerBlock) 0x10000 0x20000 41 0x8000 diskInfo []
      true ⟨diskMemory, ()⟩ := by
  obtain ⟨st, s₂, hrun, hloaded, hheader, harchitecture, hat, hsave⟩ :=
    exists_load (List.mem_cons_self (a := []) (l := [[requestTag]]))
  apply ((loadAnswers_iff ram_disk hrun hloaded hheader (by decide) harchitecture hsave hat).2
    (fun t ht => absurd ht List.not_mem_nil) (by decide)).mpr
  left
  rintro ⟨t, ht, -⟩
  exact List.not_mem_nil ht

/-- The section headers are stored, and the function returns false. -/
theorem not_loadAnswers_requestTag : ∃ st s₂,
    (readBlockLists (contentsBios (headerSector [requestTag]) headerBlock) 0x10000 0x20000 0x8018
      1 41 diskInfo.blocklistPtr ⟨diskInfo, false, ⟨diskMemory, ()⟩⟩).run = some (.ok st) ∧
    HeaderAt st.mem 0x100000 [requestTag] ∧
    saveElfSectionHeaders 41 0x8000 st.info st.loader = some (true, s₂) ∧
    loadKernelFile (contentsBios (headerSector [requestTag]) headerBlock) 0x10000 0x20000 41
      0x8000 diskInfo ⟨diskMemory, ()⟩ = some (false, st.info, s₂) ∧
    ¬LoadAnswers (contentsBios (headerSector [requestTag]) headerBlock) 0x10000 0x20000 41 0x8000
      diskInfo [requestTag] true ⟨diskMemory, ()⟩ := by
  obtain ⟨st, s₂, hrun, hloaded, hheader, harchitecture, hat, hsave⟩ :=
    exists_load (List.mem_cons_of_mem [] (List.mem_singleton_self [requestTag]))
  have hsizes : ∀ t ∈ [requestTag], 8 ∣ t.size := by decide
  have hwalk : Walk (InHeader st.mem 0x100000) (nextHeaderTag st.mem) (0x100000 + 16)
      (headerTagAddrs (0x100000 + 16) ([requestTag] ++ [.terminator])) :=
    (walk_tags_iff hat hat.tagsFrom).mpr hsizes
  have hdemand : DemandAt st.mem (0x100000 + 16) := by
    apply (demandAt_iff hat.tagsAt.1 (by decide)).mpr
    rw [HeaderTag.IsOptional]
    decide
  have hload := loadKernelFile_demand ram_disk hrun hloaded hheader (by decide) harchitecture hsave
    hwalk (by decide) rfl ⟨_, List.mem_cons_self, hdemand⟩
  refine ⟨st, s₂, hrun, hat, hsave, hload, ?_⟩
  rintro ⟨result, info', s', hload', hanswers⟩
  rw [hload] at hload'
  have hfalse := (Prod.mk.inj (Option.some.inj hload')).1
  have htrue : result = true := hanswers.result_iff.mpr fun hno => nomatch hno.2
  rw [htrue] at hfalse
  exact nomatch hfalse

end Avos.Multiboot
