import Avos.Paging.Ranges

/-! # The Flags of a Page

  `Paging_SetFlags` and `Paging_UnsetFlags` change bits of the entry of a page. The frame of
  the page is in the same word, above the flags, and so is the bit that tells whether the page
  is present. Flags that leave these alone leave the page to be unmapped as it was mapped, and
  no others do (`unmappable_iff`).
-/

open ByteMemory Transition

namespace Avos

/-! ## Section 1: The Code -/

section code

variable {σ : Type*}

/-- `Paging_SetFlags` and `Paging_UnsetFlags`, by what they do to the entry. -/
def pagingChangeFlags (change : BitVec 32 → BitVec 32) (dir va : BitVec 32) (s : PagingState σ) :
    Bool × PagingState σ :=
  if ¬pagingIsPageMapped dir va s then (false, s)
  else
    let i := pageDirIdx va
    let entry := entryAddr (entryFrame (load32 s.mem (entryAddr dir i))) (pageTabIdx va)
    (true, writeEntry s entry (change (load32 s.mem entry)) (some i))

/-- `Paging_SetFlags`. -/
def pagingSetFlags (dir va : BitVec 32) (flags : BitVec 16) :
    PagingState σ → Bool × PagingState σ :=
  pagingChangeFlags (· ||| flags.setWidth 32) dir va

/-- `Paging_UnsetFlags`. -/
def pagingUnsetFlags (dir va : BitVec 32) (flags : BitVec 16) :
    PagingState σ → Bool × PagingState σ :=
  pagingChangeFlags (· &&& ~~~flags.setWidth 32) dir va

end code

/-! ## Section 2: The Property -/

/-- The calls. -/
inductive FlagCall where
  | mapPage (va pa : BitVec 32) (create : Bool)
  | unmapPage (va : BitVec 32)
  | setFlags (va : BitVec 32) (flags : BitVec 16)
  | unsetFlags (va : BitVec 32) (flags : BitVec 16)

/-- The address of the call. -/
def FlagCall.va : FlagCall → BitVec 32
  | .mapPage va _ _ | .unmapPage va | .setFlags va _ | .unsetFlags va _ => va

/-- A process, and the frames that its pages were mapped to and have not been unmapped from. -/
structure FlagState (σ : Type*) where
  paging : PagingState σ
  installed : Nat → Option (BitVec 32)

/-- The frames after a call that has returned `true`. -/
def FlagCall.record (installed : Nat → Option (BitVec 32)) : FlagCall → Nat → Option (BitVec 32)
  | .mapPage va pa _ => Function.update installed (pageNumber va) (some (pageAddress pa))
  | .unmapPage va => Function.update installed (pageNumber va) none
  | .setFlags _ _ | .unsetFlags _ _ => installed

section property

variable {σ : Type*} (A : FrameAllocator σ) (dir : BitVec 32)

/-- The call on the memory. -/
def FlagCall.run (s : PagingState σ) : FlagCall → Bool × PagingState σ
  | .mapPage va pa create => pagingMapPage A dir va pa create s
  | .unmapPage va => pagingUnmapPage A dir va s
  | .setFlags va flags => pagingSetFlags dir va flags s
  | .unsetFlags va flags => pagingUnsetFlags dir va flags s

/-- The calls, on user addresses. The allocator hands out frames that are not in use for page
    tables, and leaves the page tables alone. -/
def flagSystem : System (FlagState σ) FlagCall where
  init t := Tidy dir t.paging.mem ∧ t.installed = (userSpace dir t.paging.mem).pages
  step t c t' :=
    c.va < kernelStart ∧ AcquireSpares A dir t.paging ∧
      (∀ va, c = .unmapPage va → AllocatorSpares A dir t.paging (.unmapPage va)) ∧
      ∃ b, c.run A dir t.paging = (b, t'.paging) ∧
        t'.installed = if b then c.record t.installed else t.installed

/-- A page that was mapped and has not been unmapped maps to the frame that it was mapped to.
    It can be unmapped, and this frame is given back. -/
def Unmappable (t : FlagState σ) : Prop :=
  ∀ va < kernelStart, ∀ f, t.installed (pageNumber va) = some f →
    pageAddress (userEntry dir t.paging.mem (pageNumber va)) = f ∧
      ∃ s', pagingUnmapPage A dir va t.paging = (true, s') ∧
        s'.released = kernAddr32 f :: t.paging.released

/-- The condition on a change of flags, for a page that is mapped: no bit of the address of its
    frame is changed, and the page stays present. -/
def FlagCall.Keeps (t : FlagState σ) : FlagCall → Prop
  | .mapPage _ _ _ | .unmapPage _ => True
  | .setFlags va flags => ∀ f, t.installed (pageNumber va) = some f →
      f ||| pageAddress (flags.setWidth 32) = f
  | .unsetFlags va flags => ∀ f, t.installed (pageNumber va) = some f →
      f &&& ~~~flags.setWidth 32 = f ∧ ¬IsPresent (flags.setWidth 32)

/-- What holds while all the changes of flags meet the condition. -/
structure Recorded (t : FlagState σ) : Prop where
  apart : TablesApart dir t.paging.mem
  absent : ∀ k < 2 ^ 19, t.installed k = none → userEntry dir t.paging.mem k = 0
  present : ∀ k < 2 ^ 19, ∀ f, t.installed k = some f →
    IsPresent (userEntry dir t.paging.mem k) ∧ pageAddress (userEntry dir t.paging.mem k) = f

end property

/-! ## Section 3: The Bits of an Entry -/

section bits

variable {a b e x : BitVec 32}

theorem pageAddress_or : pageAddress (a ||| b) = pageAddress a ||| pageAddress b := by
  apply BitVec.eq_of_getLsbD_eq
  intro i hi
  simp [pageAddress, Bool.and_or_distrib_right]

theorem pageAddress_and_not : pageAddress (a &&& ~~~b) = pageAddress a &&& ~~~b := by
  rw [pageAddress, pageAddress, BitVec.and_assoc, BitVec.and_assoc, BitVec.and_comm (~~~b)]

theorem pageAddress_pageFlags : pageAddress (a ||| pageFlags) = pageAddress a := by
  have hzero : pageAddress pageFlags = 0 := by decide
  rw [pageAddress_or, hzero]
  exact BitVec.or_zero

theorem isPresent_iff : IsPresent e ↔ e.getLsbD 0 = true := by
  rw [IsPresent]
  constructor
  · intro h
    by_contra hbit
    refine h (BitVec.eq_of_getLsbD_eq fun i hi => ?_)
    rcases Nat.eq_zero_or_pos i with rfl | hpos
    · simpa using hbit
    · simp [BitVec.getLsbD_one, Nat.ne_of_gt hpos]
  · intro hbit h
    have hzero : (e &&& 1).getLsbD 0 = (0 : BitVec 32).getLsbD 0 := by rw [h]
    rw [BitVec.getLsbD_and, hbit] at hzero
    exact absurd hzero (by decide)

theorem isPresent_or (h : IsPresent e) : IsPresent (e ||| x) := by
  rw [isPresent_iff] at h ⊢
  rw [BitVec.getLsbD_or, h, Bool.true_or]

theorem isPresent_and_not_iff (h : IsPresent e) : IsPresent (e &&& ~~~x) ↔ ¬IsPresent x := by
  rw [isPresent_iff] at h ⊢
  rw [isPresent_iff, BitVec.getLsbD_and, h, Bool.true_and, BitVec.getLsbD_not]
  simp

end bits

/-! ## Section 4: The Calls -/

section calls

variable {σ : Type*} {A : FrameAllocator σ} {dir va pa : BitVec 32} {create b : Bool}
  {s s' : PagingState σ} {t t' : FlagState σ} {k : Nat} {change : BitVec 32 → BitVec 32}

/-- A change of flags changes the entry of a mapped page, and no other. -/
theorem pagingChangeFlags_spec (h : TablesApart dir s.mem) (hva : va < kernelStart) :
    (userEntry dir s.mem (pageNumber va) = 0 ∧
      pagingChangeFlags change dir va s = (false, s)) ∨
    userEntry dir s.mem (pageNumber va) ≠ 0 ∧
      ∃ s', pagingChangeFlags change dir va s = (true, s') ∧ TablesApart dir s'.mem ∧
        ∀ n < 2 ^ 19, userEntry dir s'.mem n =
          if n = pageNumber va then change (userEntry dir s.mem (pageNumber va))
          else userEntry dir s.mem n := by
  have hk := pageNumber_lt (pageDirIdx_lt_of_lt hva)
  by_cases hzero : userEntry dir s.mem (pageNumber va) = 0
  · refine .inl ⟨hzero, if_pos ?_⟩
    rw [pagingIsPageMapped_eq, hzero]
    decide
  · have hmapped : ¬¬pagingIsPageMapped dir va s = true := by
      rw [pagingIsPageMapped_eq, decide_eq_true hzero]
      decide
    have hp : IsPresent (pde dir s.mem (pageNumber va / 1024)) := by
      by_contra habsent
      exact hzero (userEntry_of_absent habsent)
    have hrun : pagingChangeFlags change dir va s = (true, writeEntry s
        (entryOf dir s.mem (pageNumber va)) (change (userEntry dir s.mem (pageNumber va)))
        (some (pageDirIdx va))) := by
      rw [userEntry_of_present hp, ← load32_entryOf, ← entryOf_pageNumber]
      exact if_neg hmapped
    exact .inr ⟨hzero, _, hrun, h.of_pde fun i hi => pde_store h hk hp hi,
      fun n hn => userEntry_store h hk hp hn⟩

theorem recorded_init (h : Tidy dir s.mem) :
    Recorded dir ⟨s, (userSpace dir s.mem).pages⟩ where
  apart := h.apart
  absent _ hk hnone := (pages_eq_none_iff hk).mp hnone
  present k hk f hsome := by
    dsimp only at hsome
    rw [pages_of_lt hk, Option.ite_none_right_eq_some] at hsome
    exact ⟨h.present k hk hsome.1, Option.some.inj hsome.2⟩

/-- One entry changes, and what is recorded for its page. -/
theorem Recorded.update {e : BitVec 32} {o : Option (BitVec 32)} (h : Recorded dir t)
    (ha : TablesApart dir t'.paging.mem)
    (hentries : ∀ n < 2 ^ 19, userEntry dir t'.paging.mem n =
      if n = k then e else userEntry dir t.paging.mem n)
    (hinstalled : t'.installed = Function.update t.installed k o)
    (hnone : o = none → e = 0)
    (hsome : ∀ f, o = some f → IsPresent e ∧ pageAddress e = f) : Recorded dir t' where
  apart := ha
  absent n hn hno := by
    rw [hentries n hn]
    rw [hinstalled] at hno
    split
    · next heq =>
      rw [heq, Function.update_self] at hno
      exact hnone hno
    · next hne =>
      rw [Function.update_of_ne hne] at hno
      exact h.absent n hn hno
  present n hn f hf := by
    rw [hentries n hn]
    rw [hinstalled] at hf
    split
    · next heq =>
      rw [heq, Function.update_self] at hf
      exact hsome f hf
    · next hne =>
      rw [Function.update_of_ne hne] at hf
      exact h.present n hn f hf

/-- A call that changes no entry and records nothing. -/
theorem Recorded.same (h : Recorded dir t) (hkept : TablesKept dir t.paging.mem t'.paging.mem)
    (hinstalled : t'.installed = t.installed) : Recorded dir t' where
  apart := hkept.apart h.apart
  absent n hn hno := by
    rw [hkept.userEntry_eq hn]
    exact h.absent n hn (hinstalled ▸ hno)
  present n hn f hf := by
    rw [hkept.userEntry_eq hn]
    exact h.present n hn f (hinstalled ▸ hf)

/-- A page that is recorded can be unmapped. -/
theorem Recorded.unmappable (h : Recorded dir t) : Unmappable A dir t := by
  intro va hva f hf
  have hk := pageNumber_lt (pageDirIdx_lt_of_lt hva)
  obtain ⟨hp, hframe⟩ := h.present _ hk f hf
  have hpde : IsPresent (pde dir t.paging.mem (pageNumber va / 1024)) := by
    by_contra habsent
    rw [userEntry_of_absent habsent] at hp
    exact absurd hp (by decide)
  have hframe' : kernAddr32 f = entryFrame (userEntry dir t.paging.mem (pageNumber va)) := by
    rw [entryFrame, hframe]
  rw [hframe', pagingUnmapPage_eq, if_neg (not_not.mpr hpde), ← userEntry_of_present hpde,
    if_neg (not_not.mpr hp)]
  exact ⟨hframe, _, rfl, rfl⟩

theorem isPresent_of_unmapPage (hrun : pagingUnmapPage A dir va s = (true, s')) :
    IsPresent (userEntry dir s.mem (pageNumber va)) := by
  rw [pagingUnmapPage_eq] at hrun
  by_cases hpde : IsPresent (pde dir s.mem (pageNumber va / 1024))
  · rw [if_neg (not_not.mpr hpde), ← userEntry_of_present hpde] at hrun
    by_contra habsent
    rw [if_pos habsent] at hrun
    exact nomatch congrArg Prod.fst hrun
  · rw [if_pos hpde] at hrun
    exact nomatch congrArg Prod.fst hrun

/-- A change that keeps the frame and the present bit. -/
theorem Recorded.of_change (h : Recorded dir t) (hva : va < kernelStart)
    (hrun : pagingChangeFlags change dir va t.paging = (b, t'.paging))
    (hinstalled : t'.installed = t.installed)
    (hkeep : ∀ f, t.installed (pageNumber va) = some f → ∀ e, IsPresent e → pageAddress e = f →
      IsPresent (change e) ∧ pageAddress (change e) = f) : Recorded dir t' := by
  have hk := pageNumber_lt (pageDirIdx_lt_of_lt hva)
  rcases @pagingChangeFlags_spec _ dir va _ change h.apart hva with
    ⟨-, hrun'⟩ | ⟨hne, s', hrun', hapart, hentries⟩
  · obtain ⟨-, hsame⟩ := Prod.mk.inj (hrun'.symm.trans hrun)
    exact h.same (hsame ▸ .refl) hinstalled
  · obtain ⟨-, rfl⟩ := Prod.mk.inj (hrun'.symm.trans hrun)
    rw [← Function.update_eq_self (pageNumber va) t.installed] at hinstalled
    refine h.update hapart hentries hinstalled (fun hnone => ?_) fun f hf => ?_
    · exact absurd (h.absent _ hk hnone) hne
    · obtain ⟨hp, hframe⟩ := h.present _ hk f hf
      exact hkeep f hf _ hp hframe

/-- A change that does not keep them. -/
theorem Recorded.not_unmappable {f : BitVec 32} (h : Recorded dir t) (hva : va < kernelStart)
    (hrun : pagingChangeFlags change dir va t.paging = (b, t'.paging))
    (hinstalled : t'.installed = t.installed) (hf : t.installed (pageNumber va) = some f)
    (hchange : ∀ e, IsPresent e → pageAddress e = f →
      ¬(IsPresent (change e) ∧ pageAddress (change e) = f)) : ¬Unmappable A dir t' := by
  have hk := pageNumber_lt (pageDirIdx_lt_of_lt hva)
  obtain ⟨hp, hframe⟩ := h.present _ hk f hf
  rcases @pagingChangeFlags_spec _ dir va _ change h.apart hva with
    ⟨hzero, -⟩ | ⟨-, s', hrun', -, hentries⟩
  · exact absurd hzero (ne_zero_of_isPresent hp)
  · obtain ⟨-, rfl⟩ := Prod.mk.inj (hrun'.symm.trans hrun)
    have hself := hentries _ hk
    rw [if_pos rfl] at hself
    intro hall
    obtain ⟨hframe', s'', hunmap, -⟩ := hall va hva f (by rw [hinstalled]; exact hf)
    have hp' := isPresent_of_unmapPage hunmap
    rw [hself] at hframe' hp'
    exact hchange _ hp hframe ⟨hp', hframe'⟩

/-- A page is mapped. -/
theorem Recorded.of_mapPage (h : Recorded dir t) (hspares : AcquireSpares A dir t.paging)
    (hva : va < kernelStart) (hrun : pagingMapPage A dir va pa create t.paging = (b, t'.paging))
    (hinstalled : t'.installed = if b then
      Function.update t.installed (pageNumber va) (some (pageAddress pa)) else t.installed) :
    Recorded dir t' := by
  obtain ⟨b', s', hrun', hspec⟩ := @pagingMapPage_spec σ A dir va pa create t.paging h.apart
    hspares hva
  obtain ⟨rfl, rfl⟩ := Prod.mk.inj (hrun'.symm.trans hrun)
  cases b' with
  | false =>
    rw [if_neg (by decide)] at hspec hinstalled
    exact h.same hspec.kept hinstalled
  | true =>
    rw [if_pos rfl] at hspec hinstalled
    refine h.update hspec.apart hspec.entries hinstalled (fun hnone => nomatch hnone)
      fun f hf => ⟨isPresent_pageFlags, ?_⟩
    rw [pageAddress_pageFlags]
    exact Option.some.inj hf

/-- A page is unmapped. -/
theorem Recorded.of_unmapPage (h : Recorded dir t)
    (hspares : AllocatorSpares A dir t.paging (.unmapPage va)) (hva : va < kernelStart)
    (hrun : pagingUnmapPage A dir va t.paging = (b, t'.paging))
    (hinstalled : t'.installed = if b then Function.update t.installed (pageNumber va) none
      else t.installed) : Recorded dir t' := by
  rcases pagingUnmapPage_spec h.apart (hspares.release va rfl) hva with
    ⟨s', hrun', hspec⟩ | ⟨hrun', -⟩
  · obtain ⟨rfl, rfl⟩ := Prod.mk.inj (hrun'.symm.trans hrun)
    exact h.update hspec.apart hspec.entries hinstalled (fun _ => rfl) fun f hf => nomatch hf
  · obtain ⟨rfl, hsame⟩ := Prod.mk.inj (hrun'.symm.trans hrun)
    exact h.same (hsame ▸ .refl) hinstalled

end calls

/-! ## Section 5: Sequences of Calls -/

section runs

variable {σ : Type*} {A : FrameAllocator σ} {dir : BitVec 32} {t t' : FlagState σ} {c : FlagCall}

/-- A call that meets the condition. -/
theorem Recorded.step (h : Recorded dir t) (hkeeps : c.Keeps t)
    (hs : (flagSystem A dir).step t c t') : Recorded dir t' := by
  obtain ⟨hva, hacquire, hrelease, b, hrun, hinstalled⟩ := hs
  cases c with
  | mapPage va pa create => exact h.of_mapPage hacquire hva hrun hinstalled
  | unmapPage va => exact h.of_unmapPage (hrelease va rfl) hva hrun hinstalled
  | setFlags va flags =>
    have hsame : t'.installed = t.installed := hinstalled.trans (ite_self _)
    have hrun : pagingChangeFlags (· ||| flags.setWidth 32) dir va t.paging = (b, t'.paging) := hrun
    refine h.of_change hva hrun hsame fun f hf e hp hframe => ⟨isPresent_or hp, ?_⟩
    rw [pageAddress_or, hframe, hkeeps f hf]
  | unsetFlags va flags =>
    have hsame : t'.installed = t.installed := hinstalled.trans (ite_self _)
    have hrun : pagingChangeFlags (· &&& ~~~flags.setWidth 32) dir va t.paging =
        (b, t'.paging) := hrun
    refine h.of_change hva hrun hsame fun f hf e hp hframe => ?_
    obtain ⟨hbits, hpresent⟩ := hkeeps f hf
    refine ⟨(isPresent_and_not_iff hp).mpr hpresent, ?_⟩
    rw [pageAddress_and_not, hframe, hbits]

/-- A call that does not meet it. -/
theorem Recorded.not_step (h : Recorded dir t) (hkeeps : ¬c.Keeps t)
    (hs : (flagSystem A dir).step t c t') : ¬Unmappable A dir t' := by
  obtain ⟨hva, -, -, b, hrun, hinstalled⟩ := hs
  cases c with
  | mapPage va pa create => exact absurd trivial hkeeps
  | unmapPage va => exact absurd trivial hkeeps
  | setFlags va flags =>
    have hsame : t'.installed = t.installed := hinstalled.trans (ite_self _)
    have hrun : pagingChangeFlags (· ||| flags.setWidth 32) dir va t.paging = (b, t'.paging) := hrun
    rw [FlagCall.Keeps, not_forall] at hkeeps
    obtain ⟨f, hkeeps⟩ := hkeeps
    obtain ⟨hf, hbits⟩ := Classical.not_imp.mp hkeeps
    refine h.not_unmappable hva hrun hsame hf fun e hp hframe hgood => hbits ?_
    have haddress := hgood.2
    rwa [pageAddress_or, hframe] at haddress
  | unsetFlags va flags =>
    have hsame : t'.installed = t.installed := hinstalled.trans (ite_self _)
    have hrun : pagingChangeFlags (· &&& ~~~flags.setWidth 32) dir va t.paging =
        (b, t'.paging) := hrun
    rw [FlagCall.Keeps, not_forall] at hkeeps
    obtain ⟨f, hkeeps⟩ := hkeeps
    obtain ⟨hf, hbits⟩ := Classical.not_imp.mp hkeeps
    refine h.not_unmappable hva hrun hsame hf fun e hp hframe hgood => hbits ?_
    obtain ⟨hpresent, haddress⟩ := hgood
    rw [pageAddress_and_not, hframe] at haddress
    exact ⟨haddress, (isPresent_and_not_iff hp).mp hpresent⟩

/-- Along any sequence of calls the pages that are mapped can be unmapped as they were mapped,
    exactly when all the changes of flags meet the condition. -/
theorem unmappable_iff (A : FrameAllocator σ) (dir : BitVec 32) {n : Nat}
    {states : Nat → FlagState σ} {calls : Nat → FlagCall}
    (h : (flagSystem A dir).Run n states calls) :
    (∀ i, i ≤ n → Unmappable A dir (states i)) ↔ ∀ i, i < n → (calls i).Keeps (states i) := by
  have hinit : ∀ t, (flagSystem A dir).init t → Recorded dir t := by
    rintro ⟨s, installed⟩ ⟨htidy, hpages⟩
    have hpages : installed = (userSpace dir s.mem).pages := hpages
    rw [hpages]
    exact recorded_init htidy
  exact h.forall_iff_guard hinit (fun _ _ _ hI hG hs => hI.step hG hs)
    (fun _ hI => hI.unmappable) fun _ _ _ hI hG hs => hI.not_step hG hs

end runs

/-! ## Section 6: A Concrete Process -/

/-- The process with its second page mapped. -/
theorem smallProcess_mapped : ∃ s', Owns frameList (numbered 0x80300) s' ∧
    Tidy (numbered 0x80300) s'.mem ∧
    ∃ f, (userSpace (numbered 0x80300) s'.mem).pages (pageNumber 0x1000) = some f := by
  obtain ⟨s', hmap⟩ := pagingMapPages_smallProcess
  have hrange : UserRange 0x1000 1 := ⟨by decide, by decide⟩
  obtain ⟨n, back, t, hrun, hloop⟩ := pagingMapPages_loop owns_smallProcess hrange
  obtain ⟨hn, rfl⟩ := Prod.mk.inj (Option.some.inj (hrun.symm.trans hmap))
  have hone : n = 1 := by
    have hcount : pageCount 0x1000 1 = 1 := by decide
    rcases hloop.count hrange with ⟨hn, -⟩ | ⟨hlt, -⟩
    · rw [hn, hcount]
    · obtain rfl : n = 0 := by omega
      exact absurd hn (by decide)
  subst hone
  have hpresent : IsPresent (userEntry (numbered 0x80300) t.mem (pageNumber 0x1000)) :=
    hloop.range.present (Nat.le_refl _) (Nat.lt_succ_self _)
  have hpage : (userSpace (numbered 0x80300) t.mem).pages (pageNumber 0x1000) =
      some (pageAddress (userEntry (numbered 0x80300) t.mem (pageNumber 0x1000))) := by
    rw [pages_of_lt (by decide), if_pos (ne_zero_of_isPresent hpresent)]
  refine ⟨t, hloop.range.owns, ⟨hloop.range.owns.tablesApart, fun k hk hne => ?_⟩, _, hpage⟩
  by_cases hin : pageNumber 0x1000 ≤ k ∧ k < pageNumber 0x1000 + 1
  · exact hloop.range.present hin.1 hin.2
  · rw [hloop.range.others k hk hin, userEntry_smallProcess hk] at hne
    exact absurd rfl hne

/-- The page is made absent. -/
theorem unsetPresent_run : ∃ t t' f, t.installed (pageNumber 0x1000) = some f ∧
    (flagSystem frameList (numbered 0x80300)).init t ∧
    (flagSystem frameList (numbered 0x80300)).step t (.unsetFlags 0x1000 1) t' := by
  obtain ⟨s', howns, htidy, f, hf⟩ := smallProcess_mapped
  refine ⟨⟨s', (userSpace (numbered 0x80300) s'.mem).pages⟩, ⟨(pagingUnsetFlags (numbered 0x80300)
    0x1000 1 s').2, (userSpace (numbered 0x80300) s'.mem).pages⟩, f, hf, ⟨htidy, rfl⟩, ?_⟩
  refine ⟨by decide, howns.acquireSpares, fun va heq => ?_, _, rfl, (ite_self _).symm⟩
  cases heq

theorem unmappable_iff_unsetPresent : ∃ t t' f, t.installed (pageNumber 0x1000) = some f ∧
    let states := fun i => if i = 0 then t else t'
    ((∀ i, i ≤ 1 → Unmappable frameList (numbered 0x80300) (states i)) ↔
      ∀ i, i < 1 → (FlagCall.unsetFlags 0x1000 1).Keeps (states i)) := by
  obtain ⟨t, t', f, hf, hinit, hstep⟩ := unsetPresent_run
  refine ⟨t, t', f, hf, @unmappable_iff _ frameList (numbered 0x80300) 1 _
    (fun _ => .unsetFlags 0x1000 1) ⟨hinit, fun i hi => ?_⟩⟩
  obtain rfl : i = 0 := by omega
  exact hstep

/-- A page that is made absent cannot be unmapped. -/
theorem not_forall_unmappable :
    ¬∀ t c t', (flagSystem frameList (numbered 0x80300)).init t →
      (flagSystem frameList (numbered 0x80300)).step t c t' →
        Unmappable frameList (numbered 0x80300) t' := by
  intro hall
  obtain ⟨⟨s, installed⟩, t', f, hf, ⟨htidy, hpages⟩, hstep⟩ := unsetPresent_run
  have hrecorded : Recorded (numbered 0x80300) ⟨s, installed⟩ := by
    have hpages : installed = (userSpace (numbered 0x80300) s.mem).pages := hpages
    rw [hpages]
    exact recorded_init htidy
  have hkeeps : ¬(FlagCall.unsetFlags 0x1000 1).Keeps ⟨s, installed⟩ := by
    intro hkeeps
    exact (hkeeps f hf).2 (by decide)
  exact hrecorded.not_step hkeeps hstep (hall _ _ _ ⟨htidy, hpages⟩ hstep)

end Avos
