import Avos.Library.Transition
import Avos.Paging.Terminate

/-! # The User Half as a Map

  A process maps its pages to frames: a partial map, with the groups of 1024 pages that have a
  page table already (`UserSpace`). `Paging_MapPage` and `Paging_UnmapPage` act on the memory
  as the two operations act on the map, in any sequence of calls (`userSpace_run`).

  All that is asked of the allocator is that it hands out frames that are not in use, and leaves
  the page tables alone (`AllocatorSpares`). That of a process which owns its pages does
  (`Owns.allocatorSpares`).
-/

open ByteMemory Transition

namespace Avos

/-! ## Section 1: The Map -/

/-- The calls. -/
inductive MapCall where
  | mapPage (va pa : BitVec 32) (create : Bool)
  | unmapPage (va : BitVec 32)

/-- A call, whether `Page_Acquire` has a frame, what the call returns, how many frames it
    acquires, and the frames it releases. -/
structure MapEvent where
  call : MapCall
  frame : Bool
  result : Bool
  acquired : Nat
  released : List (BitVec 32)

/-- The frames of the pages, and the groups of pages with a page table. -/
@[ext] structure UserSpace where
  pages : Nat → Option (BitVec 32)
  tables : Nat → Bool

/-- `Paging_MapPage` on the map: the page must not be mapped, and there has to be a page table
    for it, or `create` and a frame. -/
def UserSpace.mapPage (u : UserSpace) (k : Nat) (pa : BitVec 32) (create frame : Bool) :
    Bool × Nat × UserSpace :=
  if u.pages k ≠ none then (false, 0, u)
  else if u.tables (k / 1024) then
    (true, 0, { u with pages := Function.update u.pages k (some pa) })
  else if create && frame then
    (true, 1, ⟨Function.update u.pages k (some pa), Function.update u.tables (k / 1024) true⟩)
  else (false, 0, u)

/-- `Paging_UnmapPage` on the map: the frame of the page is released. -/
def UserSpace.unmapPage (u : UserSpace) (k : Nat) : Bool × List (BitVec 32) × UserSpace :=
  match u.pages k with
  | none => (false, [], u)
  | some pa => (true, [kernAddr32 pa], { u with pages := Function.update u.pages k none })

/-- The calls on the map. -/
def userSpaceSystem : System UserSpace MapEvent where
  init _ := True
  step u e u' :=
    match e.call with
    | .mapPage va pa create =>
        u.mapPage (pageNumber va) pa create e.frame = (e.result, e.acquired, u') ∧ e.released = []
    | .unmapPage va =>
        u.unmapPage (pageNumber va) = (e.result, e.released, u') ∧ e.acquired = 0

/-! ## Section 2: The Calls -/

section calls

variable {σ : Type*} (A : FrameAllocator σ) (dir : BitVec 32)

/-- The addresses are those of the user half, and of frames. -/
def MapCall.Valid : MapCall → Prop
  | .mapPage va pa _ => va < kernelStart ∧ IsFrame pa
  | .unmapPage va => va < kernelStart

/-- The call on the memory. -/
def MapCall.run (s : PagingState σ) : MapCall → Bool × PagingState σ
  | .mapPage va pa create => pagingMapPage A dir va pa create s
  | .unmapPage va => pagingUnmapPage A dir va s

/-- The page tables are frames of their own, and there is nothing in them but present entries. -/
structure Tidy (m : Memory) : Prop where
  apart : TablesApart dir m
  present : ∀ k < 2 ^ 19, userEntry dir m k ≠ 0 → IsPresent (userEntry dir m k)

/-- The allocator hands out frames that are not in use for page tables, and what it writes to
    frames it is given does not change page tables. -/
structure AllocatorSpares (s : PagingState σ) (c : MapCall) : Prop where
  acquire : AcquireSpares A dir s
  release : ∀ va, c = .unmapPage va → IsPresent (userEntry dir s.mem (pageNumber va)) →
    TablesKept dir s.mem (pageRelease0 A s (entryFrame (userEntry dir s.mem (pageNumber va)))).mem

/-- The calls on the memory. -/
def tableSystem : System (PagingState σ) MapEvent where
  init s := Tidy dir s.mem
  step s e s' :=
    e.call.Valid ∧ AllocatorSpares A dir s e.call ∧ e.frame = (pageAcquire0 A s).1.isSome ∧
      e.call.run A dir s = (e.result, s') ∧
      s'.acquired.length = s.acquired.length + e.acquired ∧ s'.released = e.released ++ s.released

/-- The map that the page tables hold. -/
def userSpace (m : Memory) : UserSpace where
  pages k :=
    if k < 2 ^ 19 ∧ userEntry dir m k ≠ 0 then some (pageAddress (userEntry dir m k)) else none
  tables i := decide (i < 512 ∧ IsPresent (pde dir m i))

end calls

/-! ## Section 3: The Map Follows the Calls -/

section steps

variable {σ : Type*} {A : FrameAllocator σ} {dir va pa : BitVec 32} {create : Bool}
  {s s' : PagingState σ} {m m' : Memory} {k n : Nat}

theorem ne_zero_of_isPresent {e : BitVec 32} (h : IsPresent e) : e ≠ 0 := by
  rintro rfl
  exact h (by decide)

/-- The entry of a frame. -/
theorem pageAddress_entry (h : IsFrame pa) : pageAddress (pa ||| pageFlags) = pa := by
  have hframe : IsFrame (kernAddr32 pa) := by
    have hsize : (0x80000000 : BitVec 32).toNat = 2 ^ 31 := rfl
    rw [IsFrame] at h ⊢
    rw [kernAddr32, BitVec.toNat_add, hsize]
    omega
  have hentry := entryFrame_physAddr hframe
  rw [kernAddr32, physAddr32, BitVec.add_sub_cancel, entryFrame, kernAddr32] at hentry
  exact (BitVec.add_left_inj _).mp hentry

theorem pages_of_lt (hk : k < 2 ^ 19) : (userSpace dir m).pages k =
    if userEntry dir m k ≠ 0 then some (pageAddress (userEntry dir m k)) else none := by
  simp only [userSpace, hk, true_and]

theorem pages_eq_none_iff (hk : k < 2 ^ 19) :
    (userSpace dir m).pages k = none ↔ userEntry dir m k = 0 := by
  rw [pages_of_lt hk]
  split
  · next h => exact iff_of_false (by simp) h
  · next h => exact iff_of_true rfl (not_not.mp h)

/-- `Paging_IsPageMapped` tells whether the page is in the map. -/
theorem isPageMapped_eq_isSome (hva : va < kernelStart) :
    pagingIsPageMapped dir va s = ((userSpace dir s.mem).pages (pageNumber va)).isSome := by
  have hk := pageNumber_lt (pageDirIdx_lt_of_lt hva)
  rw [pagingIsPageMapped_eq, pages_of_lt hk]
  split
  · next h => rw [decide_eq_true h]; rfl
  · next h => rw [decide_eq_false h]; rfl

/-- One entry changes. -/
theorem pages_update {e : BitVec 32} (hk : k < 2 ^ 19)
    (h : ∀ n < 2 ^ 19, userEntry dir m' n = if n = k then e else userEntry dir m n) :
    (userSpace dir m').pages = Function.update (userSpace dir m).pages k
      (if e ≠ 0 then some (pageAddress e) else none) := by
  funext n
  by_cases hn : n < 2 ^ 19
  · rw [pages_of_lt hn, h n hn]
    by_cases hnk : n = k
    · rw [if_pos hnk, hnk, Function.update_self]
    · rw [if_neg hnk, Function.update_of_ne hnk, pages_of_lt hn]
  · have hnk : n ≠ k := fun heq => hn (heq ▸ hk)
    rw [Function.update_of_ne hnk]
    simp only [userSpace, hn, false_and, if_false]

theorem tables_congr (h : ∀ i < 1024, pde dir m' i = pde dir m i) :
    (userSpace dir m').tables = (userSpace dir m).tables := by
  funext i
  simp only [userSpace]
  by_cases hi : i < 512
  · rw [h i (by omega)]
  · simp only [hi, false_and]

theorem userSpace_kept (h : TablesKept dir m m') : userSpace dir m' = userSpace dir m := by
  refine UserSpace.ext (funext fun k => ?_) (tables_congr fun i hi => h.pde_eq hi)
  by_cases hk : k < 2 ^ 19
  · rw [pages_of_lt hk, pages_of_lt hk, h.userEntry_eq hk]
  · simp only [userSpace, hk, false_and, if_false]

theorem tables_eq_true_iff (hk : k < 2 ^ 19) :
    (userSpace dir m).tables (k / 1024) = true ↔ IsPresent (pde dir m (k / 1024)) := by
  simp only [userSpace, decide_eq_true_eq, and_iff_right_iff_imp]
  exact fun _ => by omega

theorem Tidy.kept (h : Tidy dir m) (hk : TablesKept dir m m') : Tidy dir m' where
  apart := hk.apart h.apart
  present k hlt hne := by
    rw [hk.userEntry_eq hlt] at hne ⊢
    exact h.present k hlt hne

theorem Tidy.of_entries {e : BitVec 32} (h : Tidy dir m) (ha : TablesApart dir m')
    (hentries : ∀ n < 2 ^ 19, userEntry dir m' n = if n = k then e else userEntry dir m n)
    (he : e ≠ 0 → IsPresent e) : Tidy dir m' where
  apart := ha
  present n hn hne := by
    rw [hentries n hn] at hne ⊢
    split
    · next heq =>
      rw [if_pos heq] at hne
      exact he hne
    · next heq =>
      rw [if_neg heq] at hne
      exact h.present n hn hne

/-- `Paging_MapPage` acts on the map. -/
theorem mapPage_step (h : Tidy dir s.mem) (hspares : AcquireSpares A dir s)
    (hva : va < kernelStart) (hpa : IsFrame pa) {b : Bool}
    (hrun : pagingMapPage A dir va pa create s = (b, s')) :
    Tidy dir s'.mem ∧ ∃ n, (userSpace dir s.mem).mapPage (pageNumber va) pa create
        (pageAcquire0 A s).1.isSome = (b, n, userSpace dir s'.mem) ∧
      s'.acquired.length = s.acquired.length + n ∧ s'.released = s.released := by
  have hk := pageNumber_lt (pageDirIdx_lt_of_lt hva)
  have hpresent : IsPresent (pa ||| pageFlags) := isPresent_pageFlags
  obtain ⟨b', t, hrun', hspec⟩ := @pagingMapPage_spec _ _ _ _ pa create _ h.apart hspares hva
  obtain ⟨rfl, rfl⟩ := Prod.mk.inj (hrun'.symm.trans hrun)
  cases b' with
  | false =>
    rw [if_neg (by decide)] at hspec
    refine ⟨h.kept hspec.kept, 0, ?_, by rw [hspec.acquired]; rfl, hspec.released⟩
    rw [userSpace_kept hspec.kept, UserSpace.mapPage]
    rcases hspec.why with hne | ⟨habsent, hwhy⟩
    · rw [if_pos (mt (pages_eq_none_iff hk).mp hne)]
    · have hentry := userEntry_of_absent habsent
      rw [if_neg (not_not.mpr ((pages_eq_none_iff hk).mpr hentry)),
        if_neg (mt (tables_eq_true_iff hk).mp habsent), if_neg]
      rcases hwhy with rfl | hnone
      · simp
      · simp [hnone]
  | true =>
    rw [if_pos rfl] at hspec
    have hpages := pages_update hk hspec.entries
    rw [if_pos (ne_zero_of_isPresent hpresent), pageAddress_entry hpa] at hpages
    refine ⟨h.of_entries hspec.apart hspec.entries fun _ => hpresent, ?_⟩
    rw [UserSpace.mapPage, if_neg (not_not.mpr ((pages_eq_none_iff hk).mpr hspec.was))]
    rcases hspec.table with ⟨hp, hacq, -, hpde⟩ | ⟨hp, hcreate, t', s₁, ha, hacq, -, hpde⟩
    · refine ⟨0, ?_, by rw [hacq]; rfl, hspec.released⟩
      rw [if_pos ((tables_eq_true_iff hk).mpr hp)]
      congr 2
      exact UserSpace.ext hpages.symm (tables_congr hpde).symm
    · refine ⟨1, ?_, by rw [hacq]; rfl, hspec.released⟩
      have htables : (userSpace dir t.mem).tables =
          Function.update (userSpace dir s.mem).tables (pageNumber va / 1024) true := by
        funext i
        by_cases hi : i = pageNumber va / 1024
        · subst hi
          rw [Function.update_self, tables_eq_true_iff hk, hpde _ (by omega), if_pos rfl]
          exact isPresent_pageFlags
        · rw [Function.update_of_ne hi]
          simp only [userSpace]
          by_cases hlt : i < 512
          · rw [hpde i (by omega), if_neg hi]
          · simp only [hlt, false_and]
      have hframe : (create && (pageAcquire0 A s).1.isSome) = true := by rw [hcreate, ha]; rfl
      rw [if_neg (mt (tables_eq_true_iff hk).mp hp), if_pos hframe, ← hpages, ← htables]

/-- `Paging_UnmapPage` acts on the map. -/
theorem unmapPage_step (h : Tidy dir s.mem)
    (hkept : IsPresent (userEntry dir s.mem (pageNumber va)) → TablesKept dir s.mem
      (pageRelease0 A s (entryFrame (userEntry dir s.mem (pageNumber va)))).mem)
    (hva : va < kernelStart) {b : Bool} (hrun : pagingUnmapPage A dir va s = (b, s')) :
    Tidy dir s'.mem ∧ ∃ l, (userSpace dir s.mem).unmapPage (pageNumber va) =
        (b, l, userSpace dir s'.mem) ∧ s'.acquired = s.acquired ∧
      s'.released = l ++ s.released := by
  have hk := pageNumber_lt (pageDirIdx_lt_of_lt hva)
  rcases pagingUnmapPage_spec h.apart hkept hva with ⟨t, hrun', hspec⟩ | ⟨hrun', habsent⟩
  · obtain ⟨rfl, rfl⟩ := Prod.mk.inj (hrun'.symm.trans hrun)
    have hpages := pages_update hk hspec.entries
    rw [if_neg (not_not.mpr rfl)] at hpages
    refine ⟨h.of_entries hspec.apart hspec.entries fun h0 => absurd rfl h0,
      [entryFrame (userEntry dir s.mem (pageNumber va))], ?_, hspec.acquired, hspec.released⟩
    rw [UserSpace.unmapPage, pages_of_lt hk, if_pos (ne_zero_of_isPresent hspec.was), ← hpages,
      ← tables_congr hspec.tables]
    rfl
  · obtain ⟨rfl, rfl⟩ := Prod.mk.inj (hrun'.symm.trans hrun)
    have hentry : userEntry dir s.mem (pageNumber va) = 0 := by
      by_contra hne
      exact habsent (h.present _ hk hne)
    refine ⟨h, [], ?_, rfl, rfl⟩
    rw [UserSpace.unmapPage, (pages_eq_none_iff hk).mpr hentry]

end steps

/-! ## Section 4: Sequences of Calls -/

section runs

variable {σ : Type*} {A : FrameAllocator σ} {dir : BitVec 32} {s s' : PagingState σ}

/-- A call on the memory is the call on the map. -/
theorem userSpace_step {e : MapEvent} (h : Tidy dir s.mem) (hs : (tableSystem A dir).step s e s') :
    Tidy dir s'.mem ∧
      userSpaceSystem.step (userSpace dir s.mem) e (userSpace dir s'.mem) := by
  obtain ⟨hvalid, hspares, hframe, hrun, hacq, hrel⟩ := hs
  cases e with
  | mk call frame result acquired released =>
  cases call with
  | mapPage va pa create =>
    obtain ⟨htidy, n, hmap, hn, hsame⟩ := mapPage_step h hspares.acquire hvalid.1 hvalid.2 hrun
    obtain rfl : n = acquired := Nat.add_left_cancel (hn.symm.trans hacq)
    have hnil : released = [] := List.append_cancel_right (hrel.symm.trans hsame)
    obtain rfl : frame = (pageAcquire0 A s).1.isSome := hframe
    exact ⟨htidy, hmap, hnil⟩
  | unmapPage va =>
    obtain ⟨htidy, l, hmap, hsame, hl⟩ := unmapPage_step h (hspares.release va rfl) hvalid hrun
    obtain rfl : l = released := List.append_cancel_right (hl.symm.trans hrel)
    have hzero : acquired = 0 := by
      have hlength : s.acquired.length = s.acquired.length + acquired := by
        rw [← hsame]
        exact (congrArg List.length hsame).trans (hsame ▸ hacq)
      omega
    exact ⟨htidy, hmap, hzero⟩

/-- Along any sequence of calls the user half is the map that the calls make, and
    `Paging_IsPageMapped` tells what is in it. -/
theorem userSpace_run {n : Nat} {states : Nat → PagingState σ} {events : Nat → MapEvent}
    (h : (tableSystem A dir).Run n states events) :
    userSpaceSystem.Run n (fun i => userSpace dir (states i).mem) events ∧
      ∀ i ≤ n, ∀ va < kernelStart, pagingIsPageMapped dir va (states i) =
        ((userSpace dir (states i).mem).pages (pageNumber va)).isSome := by
  have hinv : (tableSystem A dir).Inductive fun s => Tidy dir s.mem :=
    ⟨fun _ hs => hs, fun _ _ _ h hs => (userSpace_step h hs).1⟩
  refine ⟨⟨trivial, fun i hi => ?_⟩, fun i _ va hva => isPageMapped_eq_isSome hva⟩
  exact (userSpace_step (hinv.reachable (h.reachable i (by omega))) (h.next i hi)).2

/-- Each call is a step. -/
theorem tableSystem_total {c : MapCall} (h : Tidy dir s.mem) (hvalid : c.Valid)
    (hspares : AllocatorSpares A dir s c) :
    ∃ e s', e.call = c ∧ (tableSystem A dir).step s e s' := by
  cases c with
  | mapPage va pa create =>
    have hrun : pagingMapPage A dir va pa create s = (_, _) := rfl
    obtain ⟨-, n, -, hacq, hrel⟩ := mapPage_step h hspares.acquire hvalid.1 hvalid.2 hrun
    exact ⟨⟨.mapPage va pa create, _, _, n, []⟩, _, rfl, hvalid, hspares, rfl, rfl, hacq, hrel⟩
  | unmapPage va =>
    obtain ⟨-, l, -, hacq, hrel⟩ := unmapPage_step h (hspares.release va rfl) hvalid
      (rfl : pagingUnmapPage A dir va s = (_, _))
    exact ⟨⟨.unmapPage va, _, _, 0, l⟩, _, rfl, hvalid, hspares, rfl, rfl,
      congrArg List.length hacq, hrel⟩

/-- The allocator of a process that owns its frames does what is asked of it. -/
theorem Owns.allocatorSpares {c : MapCall} (h : Owns A dir s) (hvalid : c.Valid) :
    AllocatorSpares A dir s c where
  acquire := h.acquireSpares
  release := by
    rintro va rfl hp
    exact h.release_tablesKept (pageNumber_lt (pageDirIdx_lt_of_lt hvalid)) hp

end runs

/-! ## Section 5: A Concrete Process -/

/-- A process that has just got its directory, with three frames left. -/
def smallProcess : PagingState (List (BitVec 20)) :=
  (PagingState.pagingInitialize frameList bareDirectory
    ⟨bareMemory, [0x80300, 0x80301, 0x80302, 0x80303], [], [], []⟩).2

theorem owns_smallProcess : Owns frameList (numbered 0x80300) smallProcess :=
  owns_of_initialize
    (s := ⟨bareMemory, [0x80300, 0x80301, 0x80302, 0x80303], [], [], []⟩) rfl

theorem not_isPresent_smallProcess {i : Nat} (hi : i < 512) :
    ¬IsPresent (pde (numbered 0x80300) smallProcess.mem i) := by
  have hzero : pde (numbered 0x80300) smallProcess.mem i = 0 :=
    pde_pagingInitialize hi (Nat.le_refl _)
  rw [hzero]
  decide

theorem userEntry_smallProcess {k : Nat} (hk : k < 2 ^ 19) :
    userEntry (numbered 0x80300) smallProcess.mem k = 0 :=
  userEntry_of_absent (not_isPresent_smallProcess (by omega))

theorem tidy_smallProcess : Tidy (numbered 0x80300) smallProcess.mem where
  apart := owns_smallProcess.tablesApart
  present _ hk hne := absurd (userEntry_smallProcess hk) hne

/-- A page is mapped, and a page table is made for it. -/
theorem userSpace_run_smallProcess :
    ∃ (e : MapEvent) (states : Nat → PagingState (List (BitVec 20))),
    e.call = .mapPage 0x1000 0x5000 true ∧ e.frame = true ∧ states 0 = smallProcess ∧
      userSpaceSystem.Run 1 (fun i => userSpace (numbered 0x80300) (states i).mem) (fun _ => e) ∧
      ∀ i ≤ 1, ∀ va < kernelStart, pagingIsPageMapped (numbered 0x80300) va (states i) =
        ((userSpace (numbered 0x80300) (states i).mem).pages (pageNumber va)).isSome := by
  have hvalid : (MapCall.mapPage 0x1000 0x5000 true).Valid := ⟨by decide, by rw [IsFrame]; decide⟩
  obtain ⟨e, s', hcall, hstep⟩ := tableSystem_total tidy_smallProcess hvalid
    (owns_smallProcess.allocatorSpares hvalid)
  refine ⟨e, fun i => if i = 0 then smallProcess else s', hcall, hstep.2.2.1, rfl, ?_⟩
  refine userSpace_run (A := frameList) ⟨tidy_smallProcess, fun i hi => ?_⟩
  obtain rfl : i = 0 := by omega
  exact hstep

end Avos
