import Avos.Paging.Clone
import Avos.Paging.Ranges
import Avos.Paging.Translate

/-! # The Spaces of All Processes

  Any number of processes share one memory and one allocator: processes are made, forked, map
  and unmap pages, and store bytes in their pages. What one process does stays within the frames
  that it uses and those that are free (`StaysIn`). So no frame has two purposes, in one process
  or in two, and no process sees what another one does (`spaces_isolated`).

  `Paging_MapPages` is called for the user half, the frames that `Paging_Clone` makes page tables
  of are clean, and no process goes through `Paging_Terminate`: where that is not so, the calls
  do something else (`isolated_iff`, `copiesSpace_iff`, `releasesOwned_iff`).
-/

open ByteMemory Transition

namespace Avos

variable {σ : Type*}

/-! ## Section 1: The Processes -/

/-- The memory and the allocator, and the directories of the processes. -/
structure Spaces (σ : Type*) where
  paging : PagingState σ
  live : List (BitVec 32)

/-- `Paging_Initialize` for a new process; a call for the process with a directory; a fork of it
    that succeeds; a byte that it stores in user mode; anything that the rest of the kernel
    does. -/
inductive SpaceEvent where
  | create
  | call (dir : BitVec 32) (c : PagingCall)
  | fork (dir : BitVec 32)
  | store (dir va : BitVec 32) (v : BitVec 8)
  | kernel

/-- The process that changes its space. A fork leaves the caller as it is. -/
def SpaceEvent.changed : SpaceEvent → Option (BitVec 32)
  | .call dir _ => some dir
  | .store dir _ _ => some dir
  | _ => none

/-- The byte that the page tables of a process map an address to. -/
def userAddress (dir : BitVec 32) (m : Memory) (va : BitVec 32) : Option (BitVec 32) :=
  if IsPresent (userEntry dir m (pageNumber va)) then
    some (entryFrame (userEntry dir m (pageNumber va)) + pageOffset va)
  else none

/-- What a process reads at an address. -/
def userRead (dir : BitVec 32) (m : Memory) (va : BitVec 32) : Option (BitVec 8) :=
  (userAddress dir m va).map m

/-- The first frame of memory and the kernel's directory, which are no process's. -/
def KernelFrame (kernelDirectory f : BitVec 32) : Prop := f = kernelStart ∨ f = kernelDirectory

/-- The processes, from none on, after `Initialize_Memory`. -/
def spaces (A : FrameAllocator σ) (kernelDirectory : BitVec 32) :
    System (Spaces σ) SpaceEvent where
  init s := s.live = [] ∧ IsFrame kernelDirectory ∧ HasKernelHalf kernelDirectory s.paging.mem ∧
    ∀ f, KernelFrame kernelDirectory f → ¬A.free s.paging.frames f
  step s e s' :=
    match e with
    | .create => ∃ o, PagingState.pagingInitialize A kernelDirectory s.paging = (o, s'.paging) ∧
        s'.live = o.toList ++ s.live
    | .call dir c => dir ∈ s.live ∧ c.Safe A dir s.paging ∧
        c.run A dir s.paging = some s'.paging ∧ s'.live = s.live
    | .fork dir => dir ∈ s.live ∧ ∃ clone t,
        PagingState.pagingInitialize A kernelDirectory s.paging = (some clone, t) ∧
          AllClean A dir clone 512 0 t ∧ pagingClone A dir clone t = some (true, s'.paging) ∧
            s'.live = clone :: s.live
    | .store dir va v => dir ∈ s.live ∧ va < kernelStart ∧ ∃ a,
        userAddress dir s.paging.mem va = some a ∧
          s'.paging = { s.paging with mem := Function.update s.paging.mem a v } ∧
            s'.live = s.live
    | .kernel => s'.live = s.live ∧ HasKernelHalf kernelDirectory s'.paging.mem ∧
        (∀ f, KernelFrame kernelDirectory f → ¬A.free s'.paging.frames f) ∧ ∀ dir ∈ s.live,
          ∀ o f, ownerFrame dir s.paging.mem o = some f → ¬A.free s'.paging.frames f ∧
            ∀ x, InBytes f 0x1000 x → s'.paging.mem x = s.paging.mem x

/-- What a process uses is in use, and has one purpose in one process. -/
structure Spaces.OnePurpose (A : FrameAllocator σ) (s : Spaces σ) : Prop where
  held : ∀ dir ∈ s.live, ∀ o f, ownerFrame dir s.paging.mem o = some f →
    ¬A.free s.paging.frames f
  one : ∀ dir ∈ s.live, ∀ dir' ∈ s.live, ∀ o o' f, ownerFrame dir s.paging.mem o = some f →
    ownerFrame dir' s.paging.mem o' = some f → dir = dir' ∧ o = o'

/-- A process is not affected: its pages are the same, with the same contents. -/
def Unaffected (dir : BitVec 32) (m m' : Memory) : Prop :=
  ∀ va < kernelStart, userAddress dir m' va = userAddress dir m va ∧
    userRead dir m' va = userRead dir m va

/-- What a step does to the processes: none is affected by what another one does, a process that
    is forked reads what its parent reads, and a byte is stored at one address. -/
structure StepIsolated (s : Spaces σ) (e : SpaceEvent) (s' : Spaces σ) : Prop where
  others : ∀ q ∈ s.live, e.changed ≠ some q → q ∈ s'.live ∧ Unaffected q s.paging.mem s'.paging.mem
  forked : ∀ dir, e = .fork dir → ∃ clone ∈ s'.live, clone ∉ s.live ∧
    ∀ va < kernelStart, userRead clone s'.paging.mem va = userRead dir s.paging.mem va
  stored : ∀ dir va v, e = .store dir va v → ∀ va' < kernelStart,
    userRead dir s'.paging.mem va' = if va' = va then some v else userRead dir s.paging.mem va'

/-! ## Section 2: What a Process Keeps -/

/-- A process between two calls: it owns its frames, all entries of its tables have the flags of
    `Paging_MapPage` or are zero, and the upper half of its directory is the kernel's. -/
structure Space (A : FrameAllocator σ) (dir : BitVec 32) (s : PagingState σ) : Prop
    extends Owns A dir s where
  flags : ∀ k < 2 ^ 19, userEntry dir s.mem k ≠ 0 → pageOffset (userEntry dir s.mem k) = pageFlags
  tableFlags : ∀ i < 512, pde dir s.mem i ≠ 0 → pageOffset (pde dir s.mem i) = pageFlags
  kernel : HasKernelHalf dir s.mem

/-- The frames that a call of the process may use: those that are free, and its own. -/
def Reach (A : FrameAllocator σ) (dir : BitVec 32) (s : PagingState σ) (f : BitVec 32) : Prop :=
  A.free s.frames f ∨ ∃ o, ownerFrame dir s.mem o = some f

/-- The frames in use outside of `R` are left alone, and `R` has all that is free or used
    by the process. -/
structure StaysIn (A : FrameAllocator σ) (R : BitVec 32 → Prop) (dir : BitVec 32) (m₀ : Memory)
    (s : PagingState σ) : Prop where
  mem : ∀ x, (∀ f, R f → ¬InBytes f 0x1000 x) → s.mem x = m₀ x
  free : ∀ f, A.free s.frames f → R f
  owned : ∀ o f, ownerFrame dir s.mem o = some f → R f

section process

variable {A : FrameAllocator σ} {R : BitVec 32 → Prop} {dir va p t f x : BitVec 32}
  {m m' m₀ : Memory} {s s' : PagingState σ} {o : Owner} {i k : Nat}

theorem StaysIn.start : StaysIn A (Reach A dir s) dir s.mem s where
  mem _ _ := rfl
  free _ hf := .inl hf
  owned o _ hf := .inr ⟨o, hf⟩

theorem isPresent_of_pageOffset {e : BitVec 32} (h : pageOffset e = pageFlags) : IsPresent e :=
  (isPresent_iff_of_pageOffset (h.trans (by decide : pageFlags = pageOffset pageFlags))).mpr
    (by decide)

theorem Space.present (h : Space A dir s) (hk : k < 2 ^ 19) (hne : userEntry dir s.mem k ≠ 0) :
    IsPresent (userEntry dir s.mem k) := isPresent_of_pageOffset (h.flags k hk hne)

theorem Space.tables (h : Space A dir s) (hi : i < 512) (hne : pde dir s.mem i ≠ 0) :
    IsPresent (pde dir s.mem i) := isPresent_of_pageOffset (h.tableFlags i hi hne)

/-- The flags of an entry that `Paging_MapPage` makes. -/
theorem pageOffset_physAddr (hf : IsFrame f) :
    pageOffset (physAddr32 f ||| pageFlags) = pageFlags := by
  have hzero : physAddr32 f &&& 0xFFF = 0 := by
    have h31 : (0x80000000 : BitVec 32).toNat = 2 ^ 31 := rfl
    have h0 : (0 : BitVec 32).toNat = 0 := rfl
    have hoff : (physAddr32 f &&& 0xFFF).toNat = (physAddr32 f).toNat % 0x1000 := toNat_pageOffset
    rw [IsFrame] at hf
    refine BitVec.eq_of_toNat_eq ?_
    rw [hoff, physAddr32, BitVec.toNat_sub, h31, h0]
    omega
  rw [pageOffset, BitVec.and_or_distrib_right, hzero]
  decide

theorem Space.tidy (h : Space A dir s) : Tidy dir s.mem where
  apart := h.tablesApart
  present _ hk hne := h.present hk hne

theorem Space.reach_isFrame (h : Space A dir s) (hf : Reach A dir s f) : IsFrame f := by
  rcases hf with hfree | ⟨o, ho⟩
  · exact A.isFrame _ _ hfree
  · exact h.isFrame ho

/-- Where the directory and the page tables are the same, so is the rest. -/
theorem Space.leaves (h : Space A dir s) (hl : Leaves A dir s s') : Space A dir s' where
  toOwns := h.toOwns.leaves hl
  flags k hk hne := by
    rw [hl.tablesKept.userEntry_eq hk] at hne ⊢
    exact h.flags k hk hne
  tableFlags i hi hne := by
    rw [hl.tablesKept.pde_eq (by omega)] at hne ⊢
    exact h.tableFlags i hi hne
  kernel i hle hi := by
    rw [hl.tablesKept.pde_eq hi]
    exact h.kernel i hle hi

/-- A step that leaves the process as it is and writes to no frame outside of `R`. -/
theorem StaysIn.leaves (h : StaysIn A R dir m₀ s) (hl : Leaves A dir s s')
    (hmem : ∀ x, (∀ f, R f → ¬InBytes f 0x1000 x) → s'.mem x = s.mem x)
    (hfree : ∀ f, A.free s'.frames f → R f) : StaysIn A R dir m₀ s' where
  mem x hx := (hmem x hx).trans (h.mem x hx)
  free := hfree
  owned o f hf := by
    rw [hl.ownerFrame_eq] at hf
    exact h.owned o f hf

/-- What `Page_Acquire` hands out is in `R`. -/
theorem StaysIn.acquire (h : StaysIn A R dir m₀ s) (hown : Owns A dir s) :
    StaysIn A R dir m₀ (pageAcquire0 A s).2 ∧ ∀ f, (pageAcquire0 A s).1 = some f → R f := by
  refine ⟨h.leaves hown.leaves_acquire (fun x hx => ?_) fun f hf => ?_, fun f hf => ?_⟩
  · exact A.acquire_frame s.frames s.mem x fun f hf => hx f (h.free f hf)
  · exact h.free f (A.acquire_rest s.frames s.mem f hf).1
  · exact h.free f (A.acquire_free s.frames s.mem f hf)

/-! ### Mapping a page -/

/-- The frames of the process are what its entries say. -/
theorem StaysIn.owned_of_entries (hdir : R dir)
    (htables : ∀ i < 512, IsPresent (pde dir m i) → R (entryFrame (pde dir m i)))
    (hpages : ∀ k < 2 ^ 19, IsPresent (userEntry dir m k) → R (entryFrame (userEntry dir m k))) :
    ∀ o f, ownerFrame dir m o = some f → R f := by
  intro o f hf
  cases o with
  | directory =>
    obtain rfl : dir = f := Option.some.inj hf
    exact hdir
  | table i =>
    obtain ⟨hi, hp, rfl⟩ := ownerFrame_table hf
    exact htables i hi hp
  | page k =>
    rw [ownerFrame_userEntry] at hf
    split at hf
    · next hp =>
      rw [← Option.some.inj hf]
      exact hpages k hp.1 hp.2
    · cases hf

theorem StaysIn.table (h : StaysIn A R dir m₀ s) (hi : i < 512)
    (hp : IsPresent (pde dir s.mem i)) : R (entryFrame (pde dir s.mem i)) :=
  h.owned (.table i) _ (ownerFrame_table_eq hi hp)

theorem StaysIn.page (h : StaysIn A R dir m₀ s) (hk : k < 2 ^ 19)
    (hp : IsPresent (userEntry dir s.mem k)) : R (entryFrame (userEntry dir s.mem k)) :=
  h.owned (.page k) _ (by rw [ownerFrame_userEntry, if_pos ⟨hk, hp⟩])

/-- A page is mapped with a write to a page table, or with a new page table. -/
theorem StaysIn.mapPage_mem (h : StaysIn A R dir m₀ s) (hown : Owns A dir s)
    (hva : pageDirIdx va < 512) (hm : pagingMapPage A dir va (physAddr32 p) true s = (true, s'))
    (hx : ∀ f, R f → ¬InBytes f 0x1000 x) : s'.mem x = s.mem x := by
  by_cases hpde : IsPresent (pde dir s.mem (pageDirIdx va))
  · rw [pagingMapPage_present hpde] at hm
    split at hm
    · exact absurd (congrArg Prod.fst hm) (by simp)
    · obtain rfl := congrArg Prod.snd hm
      exact store32_frame fun hin => hx _ (h.table hva hpde) (inBytes_entryAddr pageTabIdx_lt hin)
  · rw [pagingMapPage_absent hpde] at hm
    split at hm
    · exact absurd (congrArg Prod.fst hm) (by simp)
    · next t s₁ ha =>
      obtain rfl := congrArg Prod.snd hm
      have htable : ¬InBytes t 0x1000 x := hx t ((h.acquire hown).2 t (congrArg Prod.fst ha))
      have hdir : ¬InBytes dir 0x1000 x := hx dir (h.owned .directory dir rfl)
      obtain rfl : (pageAcquire0 A s).2 = s₁ := congrArg Prod.snd ha
      refine Eq.trans ?_ (A.acquire_frame s.frames s.mem x fun f hf => hx f (h.free f hf))
      refine Eq.trans ?_ (clearPage_frame (s := (pageAcquire0 A s).2) htable)
      refine (store32_frame fun hin => ?_).trans (store32_frame fun hin => ?_)
      · exact htable (inBytes_entryAddr pageTabIdx_lt hin)
      · exact hdir (inBytes_entryAddr pageDirIdx_lt hin)

/-- A page is mapped to a frame of `R`. -/
theorem StaysIn.mapPage (h : StaysIn A R dir m₀ s) (hs : Space A dir s) (hva : va < kernelStart)
    (hin : R p) (hp : Spare A dir s p)
    (hm : pagingMapPage A dir va (physAddr32 p) true s = (true, s')) :
    Space A dir s' ∧ StaysIn A R dir m₀ s' := by
  have hidx := pageDirIdx_lt_of_lt hva
  have hk : pageNumber va < 2 ^ 19 := pageNumber_lt hidx
  obtain ⟨b, t, hrun, hspec⟩ : ∃ b t, pagingMapPage A dir va (physAddr32 p) true s = (b, t) ∧
      if b then PageMapped A dir (physAddr32 p) true (pageNumber va) s t
      else PageNotMapped A dir true (pageNumber va) s t :=
    pagingMapPage_spec hs.tablesApart hs.acquireSpares hva
  obtain ⟨rfl, rfl⟩ := Prod.mk.inj (hrun.symm.trans hm)
  rw [if_pos rfl] at hspec
  have hentry : ∀ n < 2 ^ 19, userEntry dir t.mem n = _ := hspec.entries
  -- the directory has a new entry at most
  have htables : (∀ f, A.free t.frames f → R f) ∧ ∀ i < 1024, pde dir t.mem i = pde dir s.mem i ∨
      i < 512 ∧ ∃ t', pde dir t.mem i = physAddr32 t' ||| pageFlags ∧ R t' ∧ IsFrame t' := by
    rcases hspec.table with ⟨-, -, hframes, hpde⟩ | ⟨-, -, t', s₁, ha, -, hframes, hpde⟩
    · refine ⟨fun f hf => h.free f (by rwa [hframes] at hf), fun i hi => .inl ?_⟩
      exact hpde i hi
    · obtain ⟨h₁, hacq⟩ := h.acquire hs.toOwns
      have hfirst : (pageAcquire0 A s).1 = some t' := congrArg Prod.fst ha
      refine ⟨fun f hf => h₁.free f ?_, fun i hi => ?_⟩
      · rwa [hframes, ← congrArg (fun r => r.2.frames) ha] at hf
      · rw [hpde i hi]
        split
        · next heq =>
          exact .inr ⟨by omega, t', rfl, hacq t' hfirst, isFrame_pageAcquire0 hfirst⟩
        · exact .inl rfl
  refine ⟨⟨hs.toOwns.of_map_true hidx hp hm, fun k hk' hne => ?_, fun i hi hne => ?_,
      fun i hle hi => ?_⟩,
    ⟨fun x hx => (h.mapPage_mem hs.toOwns hidx hm hx).trans (h.mem x hx), htables.1,
      StaysIn.owned_of_entries (h.owned .directory dir rfl) (fun i hi hpi => ?_)
        fun k hk' hpk => ?_⟩⟩
  · rw [hentry k hk'] at hne ⊢
    split
    · exact pageOffset_physAddr hp.isFrame
    · next hother =>
      rw [if_neg hother] at hne
      exact hs.flags k hk' hne
  · rcases htables.2 i (by omega) with hsame | ⟨-, t', hnew, -, hframe⟩
    · rw [hsame] at hne ⊢
      exact hs.tableFlags i hi hne
    · rw [hnew]
      exact pageOffset_physAddr hframe
  · rcases htables.2 i hi with hsame | ⟨hlow, -⟩
    · exact hsame.trans (hs.kernel i hle hi)
    · omega
  · rcases htables.2 i (by omega) with hsame | ⟨-, t', hnew, hR, hframe⟩
    · rw [hsame] at hpi ⊢
      exact h.table hi hpi
    · rw [hnew, entryFrame_physAddr hframe]
      exact hR
  · rw [hentry k hk'] at hpk ⊢
    split
    · rw [entryFrame_physAddr hp.isFrame]
      exact hin
    · next hother =>
      rw [if_neg hother] at hpk
      exact h.page hk' hpk

/-- A page is acquired and mapped. -/
theorem StaysIn.mapNext (h : StaysIn A R dir m₀ s) (hs : Space A dir s)
    (hva : pageDirIdx va < 512) (hm : mapNext A dir va s = some s') :
    Space A dir s' ∧ StaysIn A R dir m₀ s' := by
  have hlow : va < kernelStart := BitVec.not_le.mp fun hle => by
    have := kernelStart_le_iff.mp hle
    omega
  rw [Avos.mapNext] at hm
  split at hm
  · cases hm
  · next page s₁ ha =>
    split at hm
    · cases hm
    · next s₂ hmap =>
      obtain rfl := Option.some.inj hm
      obtain ⟨h₁, hin⟩ := h.acquire hs.toOwns
      have hspare := hs.toOwns.spare_acquire ha
      have hpage : R page := hin page (congrArg Prod.fst ha)
      have hleaves := hs.toOwns.leaves_acquire
      rw [show (pageAcquire0 A s).2 = s₁ from congrArg Prod.snd ha] at h₁ hleaves
      exact h₁.mapPage (hs.leaves hleaves) hlow hpage hspare hmap

/-- A frame of `R` is given back. -/
theorem StaysIn.release_mem (h : StaysIn A R dir m₀ s) (hin : R p)
    (hx : ∀ f, R f → ¬InBytes f 0x1000 x) : (pageRelease0 A s p).mem x = s.mem x :=
  A.release_frame s.frames s.mem p x (fun f hf => hx f (h.free f hf)) (hx p hin)

theorem StaysIn.release_free (h : StaysIn A R dir m₀ s) (hin : R p)
    (hf : A.free (pageRelease0 A s p).frames f) : R f := by
  rcases A.release_rest s.frames s.mem p f hf with hfree | rfl
  · exact h.free f hfree
  · exact hin

/-- A page that cannot be mapped is left, with a second frame acquired at most. -/
theorem pagingMapPage_false {pa : BitVec 32}
    (hm : pagingMapPage A dir va pa true s = (false, s')) :
    s' = s ∨ s' = (pageAcquire0 A s).2 := by
  by_cases hpde : IsPresent (pde dir s.mem (pageDirIdx va))
  · rw [pagingMapPage_present hpde] at hm
    split at hm
    · exact .inl (congrArg Prod.snd hm).symm
    · exact absurd (congrArg Prod.fst hm) (by simp)
  · rw [pagingMapPage_absent hpde] at hm
    split at hm
    · next s₁ ha =>
      obtain rfl : (pageAcquire0 A s).2 = s₁ := congrArg Prod.snd ha
      exact .inr (congrArg Prod.snd hm).symm
    · exact absurd (congrArg Prod.fst hm) (by simp)

/-- The frame for a page that could not be mapped is given back. -/
theorem StaysIn.mapStop (h : StaysIn A R dir m₀ s) (hs : Space A dir s)
    (hm : Avos.mapNext A dir va s = none) :
    Space A dir (mapStop A dir va s) ∧ StaysIn A R dir m₀ (mapStop A dir va s) := by
  obtain ⟨h₁, hin⟩ := h.acquire hs.toOwns
  have hs₁ := hs.leaves hs.toOwns.leaves_acquire
  rw [Avos.mapNext] at hm
  rw [Avos.mapStop]
  split at hm
  · next s₁ ha =>
    obtain rfl : (pageAcquire0 A s).2 = s₁ := congrArg Prod.snd ha
    exact ⟨hs₁, h₁⟩
  · next page s₁ ha =>
    split at hm
    · next s₂ hmap =>
      have hspare := hs.toOwns.spare_acquire ha
      have hpage : R page := hin page (congrArg Prod.fst ha)
      obtain rfl : (pageAcquire0 A s).2 = s₁ := congrArg Prod.snd ha
      have hspare₂ := (hs₁.toOwns.of_map_false hspare hmap).2
      obtain ⟨hs₂, h₂⟩ : Space A dir s₂ ∧ StaysIn A R dir m₀ s₂ := by
        rcases pagingMapPage_false hmap with rfl | rfl
        · exact ⟨hs₁, h₁⟩
        · exact ⟨hs₁.leaves hs₁.toOwns.leaves_acquire, (h₁.acquire hs₁.toOwns).1⟩
      have hleaves := hs₂.toOwns.leaves_release hspare₂
      simp only [hmap]
      exact ⟨hs₂.leaves hleaves, h₂.leaves hleaves (fun x hx => h₂.release_mem hpage hx)
        fun f hf => h₂.release_free hpage hf⟩
    · cases hm

/-- A page is unmapped. -/
theorem StaysIn.unmapPage (h : StaysIn A R dir m₀ s) (hs : Space A dir s)
    (hva : va < kernelStart) : Space A dir (pagingUnmapPage A dir va s).2 ∧
      StaysIn A R dir m₀ (pagingUnmapPage A dir va s).2 := by
  have hidx := pageDirIdx_lt_of_lt hva
  have hk : pageNumber va < 2 ^ 19 := pageNumber_lt hidx
  have hown : Owns A dir (pagingUnmapPage A dir va s).2 := hs.toOwns.of_unmapPage hidx
  rcases pagingUnmapPage_spec hs.tablesApart (hs.toOwns.release_tablesKept hk) hva with
    ⟨t, hrun, hspec⟩ | ⟨hrun, -⟩
  · rw [hrun] at hown ⊢
    have hpage := h.page hk hspec.was
    have hmem : ∀ x, (∀ f, R f → ¬InBytes f 0x1000 x) → t.mem x = s.mem x := by
      intro x hx
      obtain heq | ⟨hpde, hpte, heq⟩ := @pagingUnmapPage_cases σ A dir s va
      · rw [hrun] at heq
        rw [show t = s from heq]
      · rw [hrun] at heq
        rw [show t = unmapped A dir va s from heq, unmapped]
        have hframe : R (entryFrame (load32 s.mem (pteAddr dir va s))) :=
          h.owned _ _ (ownerFrame_page_eq hidx hpde hpte)
        refine Eq.trans (store32_frame fun hin => ?_) (h.release_mem hframe hx)
        exact hx _ (h.table hidx hpde) (inBytes_entryAddr pageTabIdx_lt hin)
    have hentry : ∀ n < 2 ^ 19, userEntry dir t.mem n = _ := hspec.entries
    refine ⟨⟨hown, fun k hk' hne => ?_, fun i hi hne => ?_,
        fun i hle hi => (hspec.tables i hi).trans (hs.kernel i hle hi)⟩,
      ⟨fun x hx => (hmem x hx).trans (h.mem x hx), fun f hf => ?_,
        StaysIn.owned_of_entries (h.owned .directory dir rfl) (fun i hi hpi => ?_)
          fun k hk' hpk => ?_⟩⟩
    · rw [hentry k hk'] at hne ⊢
      split
      · next heq =>
        rw [if_pos heq] at hne
        exact absurd rfl hne
      · next hother =>
        rw [if_neg hother] at hne
        exact hs.flags k hk' hne
    · rw [hspec.tables i (by omega)] at hne ⊢
      exact hs.tableFlags i hi hne
    · rw [hspec.frames] at hf
      exact h.release_free hpage hf
    · rw [hspec.tables i (by omega)] at hpi ⊢
      exact h.table hi hpi
    · rw [hentry k hk'] at hpk ⊢
      split
      · next heq =>
        rw [if_pos heq] at hpk
        exact absurd hpk (by decide)
      · next hother =>
        rw [if_neg hother] at hpk
        exact h.page hk' hpk
  · rw [hrun]
    exact ⟨hs, h⟩

end process

/-! ### The calls -/

/-- What mapping and unmapping a page of the user half keep, the calls keep. -/
theorem call_invariant {A : FrameAllocator σ} {dir : BitVec 32} {I : PagingState σ → Prop}
    (hnext : ∀ s s' va, I s → pageDirIdx va < 512 → mapNext A dir va s = some s' → I s')
    (hstop : ∀ s va, I s → mapNext A dir va s = none → I (mapStop A dir va s))
    (hunmap : ∀ s va, I s → va < kernelStart → I (pagingUnmapPage A dir va s).2)
    {c : PagingCall} {s s' : PagingState σ} (hc : c.Safe A dir s) (hr : c.run A dir s = some s')
    (h : I s) : I s' := by
  have hmapPages : ∀ va size, NoKernelPage A dir va size s →
      PagingCall.run A dir s (.mapPages va size) = some s' → I s' := by
    intro va size hno hr
    obtain ⟨r, hr⟩ := run_mapPages.mp hr
    by_cases hsize : size = 0
    · rw [pagingMapPages, if_pos hsize] at hr
      obtain rfl := congrArg Prod.snd (Option.some.inj hr)
      exact h
    · obtain ⟨r', s'', hl, hk⟩ := mapPagesLoop_invariant (I := I) isFrame_pageAddress
        hnext hstop (2 ^ 20) (pageAddress va) 0 s isFrame_pageAddress h
        (by have := (pageAddress (va + size - 1) - pageAddress va).isLt; omega) (hno hsize)
      rw [pagingMapPages, if_neg hsize, hl] at hr
      obtain rfl := congrArg Prod.snd (Option.some.inj hr)
      exact hk
  have hunmapPages : ∀ va size, PagingCall.run A dir s (.unmapPages va size) = some s' → I s' := by
    intro va size hr
    obtain ⟨r, hr⟩ := run_unmapPages.mp hr
    have hstep : ∀ page t, I t → page < kernelStart → page ≤ pageAddress (va + size - 1) →
        I (pagingUnmapPage A dir page t).2 := fun page t h hva _ => hunmap t page h hva
    obtain ⟨r', s'', -, hl, hk, -⟩ := unmapPagesLoop_invariant (I := fun _ => I) hstep
      (2 ^ 19 + 1) (pageAddress (va + 0xFFF)) false s (by decide) (by omega) h
    rw [pagingUnmapPages, hl] at hr
    obtain rfl := congrArg Prod.snd (Option.some.inj hr)
    exact hk
  cases c with
  | mapPages va size => exact hmapPages va size hc hr
  | unmapPages va size => exact hunmapPages va size hr
  | shiftEndPoint endpoint shift =>
    rw [run_shiftEndPoint] at hr
    by_cases hzero : shift = 0
    · rw [if_pos hzero] at hr
      obtain rfl := Option.some.inj hr
      exact h
    rw [if_neg hzero] at hr
    by_cases hneg : shift.slt 0
    · rw [if_pos hneg] at hr
      exact hunmapPages _ _ hr
    · rw [if_neg hneg] at hr
      exact hmapPages _ _ ((hc.resolve_left hzero).resolve_left hneg) hr

/-- A user address is in the frame of its page. -/
theorem inBytes_pageOffset {f : BitVec 32} (va : BitVec 32) :
    InBytes f 0x1000 (f + pageOffset va) := by
  have hlt : (pageOffset va).toNat < 0x1000 := by
    rw [toNat_pageOffset]
    omega
  rw [InBytes, BitVec.add_comm, BitVec.add_sub_cancel]
  exact hlt

section calls

variable {A : FrameAllocator σ} {R : BitVec 32 → Prop} {dir clone f x : BitVec 32} {m₀ : Memory}
  {s s' : PagingState σ} {kernelDirectory : BitVec 32}

/-- A call for the process stays within its frames and those that are free. -/
theorem Space.call {c : PagingCall} (h : Space A dir s) (hc : c.Safe A dir s)
    (hr : c.run A dir s = some s') : Space A dir s' ∧ StaysIn A (Reach A dir s) dir s.mem s' :=
  call_invariant (I := fun t => Space A dir t ∧ StaysIn A (Reach A dir s) dir s.mem t)
    (fun _ _ _ ht hva hm => ht.2.mapNext ht.1 hva hm) (fun _ _ ht hm => ht.2.mapStop ht.1 hm)
    (fun _ _ ht hva => ht.2.unmapPage ht.1 hva) hc hr ⟨h, .start⟩

/-- `Paging_Initialize` copies the upper half of the kernel's directory. -/
theorem pde_copyKernelHalf {pgd : BitVec 32} {m : Memory} {i n : Nat} (hn : n ≤ 512)
    (hi : 512 ≤ i) (hin : i < 512 + n) (hapart : Apart pgd 0x1000 kernelDirectory 0x1000) :
    pde pgd (copyKernelHalf m kernelDirectory pgd n) i = pde kernelDirectory m i := by
  induction n with
  | zero => omega
  | succ n ih =>
    have hkept : load32 (copyKernelHalf m kernelDirectory pgd n)
        (entryAddr kernelDirectory (512 + n)) = pde kernelDirectory m (512 + n) :=
      load32_congr fun x hx => copyKernelHalf_frame (by omega) fun hx' =>
        hapart x hx' (inBytes_entryAddr (by omega) hx)
    rw [copyKernelHalf]
    by_cases heq : i = 512 + n
    · rw [heq]
      exact load32_store32.trans hkept
    · exact (load32_store32_of_apart (entries_apart (by omega) (by omega) heq)).trans
        (ih (by omega) (by omega))

/-- A new process has its directory, which was free. -/
theorem Space.initialize (hframe : IsFrame kernelDirectory)
    (hkernel : HasKernelHalf kernelDirectory s.mem) (hheld : ¬A.free s.frames kernelDirectory)
    (hs : PagingState.pagingInitialize A kernelDirectory s = (some dir, s')) :
    Space A dir s' ∧ StaysIn A (A.free s.frames) dir s.mem s' ∧ A.free s.frames dir ∧
      ∀ i < 512, pde dir s'.mem i = 0 := by
  have hown := owns_of_initialize hs
  rw [PagingState.pagingInitialize] at hs
  split at hs
  · cases congrArg Prod.fst hs
  · next page s₁ ha =>
    obtain rfl : page = dir := Option.some.inj (congrArg Prod.fst hs)
    have hfree : A.free s.frames page := A.acquire_free s.frames s.mem page (congrArg Prod.fst ha)
    obtain rfl : (pageAcquire0 A s).2 = s₁ := congrArg Prod.snd ha
    obtain rfl := congrArg Prod.snd hs
    have hpde : ∀ i < 512, pde page (copyKernelHalf (clearPage (pageAcquire0 A s).2 page).mem
        kernelDirectory page 512) i = 0 := fun i hi => pde_pagingInitialize hi (Nat.le_refl _)
    have habsent : ¬IsPresent 0 := by decide
    have hentry : ∀ k < 2 ^ 19, userEntry page (copyKernelHalf (clearPage (pageAcquire0 A s).2
        page).mem kernelDirectory page 512) k = 0 := by
      intro k hk
      refine userEntry_of_absent ?_
      rw [hpde _ (by omega)]
      exact habsent
    -- the directory of the kernel is read after the new one has been cleared
    have hapart : Apart page 0x1000 kernelDirectory 0x1000 :=
      frames_apart (A.isFrame _ _ hfree) hframe fun heq => hheld (heq ▸ hfree)
    have hread : ∀ x, InBytes kernelDirectory 0x1000 x →
        (clearPage (pageAcquire0 A s).2 page).mem x = s.mem x := fun x hx =>
      (clearPage_frame fun hx' => hapart x hx' hx).trans <|
        A.acquire_frame s.frames s.mem x fun f hf => frames_apart hframe (A.isFrame _ _ hf)
          (fun heq => hheld (heq ▸ hf)) x hx
    refine ⟨⟨hown, fun k hk hne => absurd (hentry k hk) hne, fun i hi hne =>
      absurd (hpde i hi) hne, fun i hle hi => ?_⟩, ⟨fun x hx => ?_, fun f hf => ?_, ?_⟩, hfree, hpde⟩
    · rw [pde_copyKernelHalf (Nat.le_refl _) hle (by omega) hapart, pde_congr hread hi]
      exact hkernel i hle hi
    · dsimp only [clearPage]
      rw [directory_frame (hx page hfree)]
      exact A.acquire_frame s.frames s.mem x hx
    · exact (A.acquire_rest s.frames s.mem f hf).1
    · refine StaysIn.owned_of_entries hfree (fun i hi hp => ?_) fun k hk hp => ?_
      · rw [hpde i hi] at hp
        exact absurd hp habsent
      · rw [hentry k hk] at hp
        exact absurd hp habsent

/-! ### What others keep -/

/-- A process is not affected where its frames stay in use and keep their contents. -/
theorem unaffected_of_same
    (hmem : ∀ o f, ownerFrame dir s.mem o = some f → ∀ x, InBytes f 0x1000 x → s'.mem x = s.mem x)
    (hheld : ∀ o f, ownerFrame dir s.mem o = some f → ¬A.free s'.frames f) :
    Leaves A dir s s' ∧ Unaffected dir s.mem s'.mem := by
  have hleaves : Leaves A dir s s' :=
    ⟨hmem .directory dir rfl, fun i t ht => hmem (.table i) t ht, fun o f hf _ => hheld o f hf⟩
  have haddress : ∀ va < kernelStart, userAddress dir s'.mem va = userAddress dir s.mem va := by
    intro va hva
    rw [userAddress, userAddress,
      hleaves.tablesKept.userEntry_eq (pageNumber_lt (pageDirIdx_lt_of_lt hva))]
  refine ⟨hleaves, fun va hva => ⟨haddress va hva, ?_⟩⟩
  rw [userRead, userRead, haddress va hva, userAddress]
  split
  · next hp =>
    have hk := pageNumber_lt (pageDirIdx_lt_of_lt hva)
    exact congrArg some (hmem (.page (pageNumber va)) _
      (by rw [ownerFrame_userEntry, if_pos ⟨hk, hp⟩]) _ (inBytes_pageOffset va))
  · rfl

/-- What stays in frames that are not those of a process does not affect it. -/
theorem StaysIn.unaffected {q : BitVec 32} (h : StaysIn A R dir s.mem s')
    (hR : ∀ f, R f → IsFrame f) (hq : Space A q s)
    (hapart : ∀ o f, ownerFrame q s.mem o = some f → ¬R f) :
    Leaves A q s s' ∧ Unaffected q s.mem s'.mem := by
  refine unaffected_of_same (fun o f hf x hx => h.mem x fun g hg => ?_) fun o f hf hfree => ?_
  · exact frames_apart (hq.isFrame hf) (hR g hg) (fun heq => hapart o f hf (heq ▸ hg)) x hx
  · exact hapart o f hf (h.free f hfree)

/-- One step after another stays in what the first one may use. -/
theorem StaysIn.trans {R' : BitVec 32 → Prop} (h : StaysIn A R dir m₀ s)
    (h' : StaysIn A R' dir s.mem s') (hsub : ∀ f, R' f → R f) : StaysIn A R dir m₀ s' where
  mem x hx := (h'.mem x fun f hf => hx f (hsub f hf)).trans (h.mem x hx)
  free f hf := hsub f (h'.free f hf)
  owned o f hf := hsub f (h'.owned o f hf)

/-! ### A fork -/

theorem spaceFrame_of_ownerFrame {m : Memory} {o : Owner} (h : ownerFrame dir m o = some f) :
    spaceFrame dir m o = some f := by
  cases o with
  | directory => exact h
  | table i =>
    obtain ⟨hi, hp, rfl⟩ := ownerFrame_table h
    exact if_pos ⟨hi, ne_zero_of_isPresent hp⟩
  | page k =>
    obtain ⟨hk, hpde, hpte, rfl⟩ := ownerFrame_page h
    exact if_pos ⟨hk, ne_zero_of_isPresent hpde, ne_zero_of_isPresent hpte⟩

/-- The entries of a process are present where they are not zero. -/
theorem Space.ownerFrame_of_spaceFrame {o : Owner} (h : Space A dir s)
    (hf : spaceFrame dir s.mem o = some f) : ownerFrame dir s.mem o = some f := by
  cases o with
  | directory => exact hf
  | table i =>
    obtain ⟨hi, hne, rfl⟩ := spaceFrame_table hf
    exact ownerFrame_table_eq hi (h.tables hi hne)
  | page k =>
    obtain ⟨hk, hpde, hpte, rfl⟩ := spaceFrame_page hf
    have hp := h.tables (by omega) hpde
    have hentry := userEntry_of_present (k := k) hp
    rw [ownerFrame_userEntry, if_pos, hentry]
    refine ⟨hk, h.present hk ?_⟩
    rwa [hentry]

/-- A process can be cloned to a new one. -/
theorem Space.cloneable (h : Space A dir s) (hc : Space A clone s)
    (hne : ∀ o, ownerFrame dir s.mem o ≠ some clone) (hempty : ∀ i < 512, pde clone s.mem i = 0)
    (hzero : ¬A.free s.frames kernelStart) : Cloneable A dir clone s where
  dirFrame := h.dirFrame
  held o f hf := h.held o f (h.ownerFrame_of_spaceFrame hf)
  present _ hi hne := h.tables hi hne
  cloneFrame := hc.dirFrame
  cloneHeld := hc.held .directory clone rfl
  cloneApart o hf := hne o (h.ownerFrame_of_spaceFrame hf)
  cloneEmpty := hempty
  pageZero := hzero

/-- A clone is a process of its own. -/
theorem Space.of_clone (h : Space A dir s) (hkernel : HasKernelHalf clone s.mem)
    (hp : Cloneable A dir clone s)
    (hclean : AllClean A dir clone 512 0 s) (hs : pagingClone A dir clone s = some (true, s')) :
    Space A clone s' ∧ StaysIn A (fun f => A.free s.frames f ∨ f = clone) clone s.mem s' := by
  have hcopy := (copiesSpace_iff A dir clone s s' hp hs).mpr hclean
  have hloop := cloneLoop_of_pagingClone hs
  obtain ⟨g, t, n, hc, hdone⟩ := Cloning.loop hp 512 0 ⟨fun _ => 0, fun _ => 0⟩ s
    (by omega) hp.cloning hloop
  obtain ⟨rfl, rfl, -, hall⟩ := hdone rfl
  have hstale : ∀ k < 2 ^ 19, pde dir s.mem (k / 1024) ≠ 0 → pte dir s.mem k = 0 →
      g.stale k = 0 := fun k hk => hall.mp hclean k (Nat.zero_le _) hk
  have hframes : ∀ o f, ownerFrame clone s'.mem o = some f → f = clone ∨
      A.free s.frames f ∧ ¬A.free s'.frames f := by
    intro o f hf
    rcases hc.spaceFrame_clone hstale (spaceFrame_of_ownerFrame hf) with ⟨-, rfl⟩ | ⟨ho, rfl⟩
    · exact .inl rfl
    · exact .inr (hc.fresh o ho).2
  refine ⟨⟨⟨⟨hp.cloneFrame, fun o o' f hf hf' => ?_⟩, fun o f hf => ?_⟩, fun k hk hne => ?_,
    fun i hi hne => ?_, fun i hle hi => ?_⟩, ⟨fun x hx => ?_, fun f hf => .inl (hc.free f hf),
      fun o f hf => ?_⟩⟩
  · exact hcopy.distinct o o' f (spaceFrame_of_ownerFrame hf) (spaceFrame_of_ownerFrame hf')
  · rcases hframes o f hf with rfl | ⟨-, hheld⟩
    · exact fun hfree => hp.cloneHeld (hc.free f hfree)
    · exact hheld
  · -- an entry of the clone has the flags of the parent's
    by_cases hpc : IsPresent (pde clone s'.mem (k / 1024))
    · have hpd := (isPresent_iff_of_pageOffset (hc.pde_clone (by omega)).1).mp hpc
      have hpde := ne_zero_of_isPresent hpd
      have hentry := userEntry_of_present (k := k) hpd
      rw [userEntry_of_present hpc, hc.pte_clone hk hpde] at hne ⊢
      by_cases hzero : pte dir s.mem k = 0
      · rw [if_neg (not_not.mpr hzero)] at hne
        exact absurd (hstale k hk hpde hzero) hne
      · have hframe := (hc.fresh (.page k) ⟨hk, hpde, hzero⟩).1
        rw [if_pos hzero, pageOffset_cloned hframe, ← hentry]
        exact h.flags k hk (by rwa [hentry])
    · exact absurd (userEntry_of_absent hpc) hne
  · rw [(hc.pde_clone hi).1]
    exact h.tableFlags i hi fun hzero => hne ((hc.pde_clone hi).2.2 hzero)
  · -- the upper half of the directory is not written to
    refine Eq.trans (load32_congr fun x hx => ?_) (hkernel i hle hi)
    have hin : InBytes clone 0x1000 x := inBytes_entryAddr hi hx
    refine (cloneLoop_outside (fun hlow => ?_) 512 0 s (Nat.le_refl _) (fun f hf => ?_) hloop).2
    · exact apart_add (a := clone) (i := 0) (n := 0x800) (j := 4 * i) (k := 4) (by omega)
        (by omega) x (by simpa using hlow) hx
    · exact frames_apart hp.cloneFrame (A.isFrame _ _ hf)
        (fun heq => hp.cloneHeld (heq ▸ hf)) x hin
  · exact (cloneLoop_outside (fun hlow => hx clone (.inr rfl) (hlow.mono (by decide))) 512 0 s
      (Nat.le_refl _) (fun f hf => hx f (.inl hf)) hloop).2
  · rcases hframes o f hf with rfl | ⟨hfree, -⟩
    · exact .inr rfl
    · exact .inl hfree

/-- A process that is forked reads what its parent reads. -/
theorem Space.fork (h : Space A dir s) (hframe : IsFrame kernelDirectory)
    (hkernel : HasKernelHalf kernelDirectory s.mem)
    (hheld : ∀ f, KernelFrame kernelDirectory f → ¬A.free s.frames f) {t : PagingState σ}
    (hi : PagingState.pagingInitialize A kernelDirectory s = (some clone, t))
    (hclean : AllClean A dir clone 512 0 t) (hs : pagingClone A dir clone t = some (true, s')) :
    Space A clone s' ∧ StaysIn A (A.free s.frames) clone s.mem s' ∧ A.free s.frames clone ∧
      ∀ va < kernelStart, userRead clone s'.mem va = userRead dir s.mem va := by
  obtain ⟨hc, hin, hfree, hempty⟩ := Space.initialize hframe hkernel (hheld _ (.inr rfl)) hi
  obtain ⟨hleaves, hsame⟩ := hin.unaffected (fun f hf => A.isFrame _ _ hf) h h.held
  have hpar : Space A dir t := h.leaves hleaves
  have hp : Cloneable A dir clone t := hpar.cloneable hc (fun o ho => h.held o clone
    (by rwa [hleaves.ownerFrame_eq] at ho) hfree) hempty fun hf => hheld _ (.inl rfl) (hin.free _ hf)
  obtain ⟨hclone, hin'⟩ := hpar.of_clone hc.kernel hp hclean hs
  have hcopy := (copiesSpace_iff A dir clone t s' hp hs).mpr hclean
  refine ⟨hclone, hin.trans hin' fun f hf => ?_, hfree, fun va hva => ?_⟩
  · rcases hf with hf | rfl
    · exact hin.free f hf
    · exact hfree
  · have hk := pageNumber_lt (pageDirIdx_lt_of_lt hva)
    have hmapped := hcopy.mapped va hva
    rw [pagingIsPageMapped_eq, pagingIsPageMapped_eq, decide_eq_decide] at hmapped
    rw [← (hsame va hva).2, userRead, userRead, userAddress, userAddress]
    by_cases hpd : IsPresent (userEntry dir t.mem (pageNumber va))
    · have hpc := hclone.present hk (hmapped.mpr (ne_zero_of_isPresent hpd))
      have hoff : BitVec.ofNat 32 (pageOffset va).toNat = pageOffset va := BitVec.ofNat_toNat _ _
      have hbyte := hcopy.contents (pageNumber va) _ _
        (spaceFrame_of_ownerFrame (by rw [ownerFrame_userEntry, if_pos ⟨hk, hpd⟩]))
        (spaceFrame_of_ownerFrame (by rw [ownerFrame_userEntry, if_pos ⟨hk, hpc⟩]))
        (pageOffset va).toNat (by rw [toNat_pageOffset]; omega)
      rw [hoff] at hbyte
      rw [if_pos hpd, if_pos hpc]
      exact congrArg some hbyte
    · have hpc : ¬IsPresent (userEntry clone s'.mem (pageNumber va)) := fun hpc =>
        hpd (hpar.present hk (hmapped.mp (ne_zero_of_isPresent hpc)))
      rw [if_neg hpd, if_neg hpc]
      rfl

/-! ### A byte that is stored -/

variable {va a : BitVec 32} {v : BitVec 8}

/-- A user address is an address of the page it is in. -/
theorem ownerFrame_of_userAddress {m : Memory} (hva : va < kernelStart)
    (ha : userAddress dir m va = some a) :
    ∃ f, ownerFrame dir m (.page (pageNumber va)) = some f ∧ a = f + pageOffset va := by
  rw [userAddress] at ha
  split at ha
  · next hp =>
    have hk := pageNumber_lt (pageDirIdx_lt_of_lt hva)
    exact ⟨_, by rw [ownerFrame_userEntry, if_pos ⟨hk, hp⟩], (Option.some.inj ha).symm⟩
  · cases ha

/-- Two addresses of a process are not mapped to one byte. -/
theorem Space.userAddress_inj {va' : BitVec 32} (h : Space A dir s) (hva : va < kernelStart)
    (hva' : va' < kernelStart) (ha : userAddress dir s.mem va = some a)
    (ha' : userAddress dir s.mem va' = some a) : va = va' := by
  obtain ⟨f, hf, rfl⟩ := ownerFrame_of_userAddress hva ha
  obtain ⟨g, hg, heq⟩ := ownerFrame_of_userAddress hva' ha'
  have hsame : f = g := by
    by_contra hne
    have hin : InBytes g 0x1000 (f + pageOffset va) := heq ▸ inBytes_pageOffset va'
    exact frames_apart (h.isFrame hf) (h.isFrame hg) hne _ (inBytes_pageOffset va) hin
  subst hsame
  have hpage : pageNumber va = pageNumber va' := Owner.page.inj (h.unique _ _ _ hf hg)
  have hoff := congrArg BitVec.toNat (BitVec.add_right_inj f |>.mp heq)
  rw [toNat_pageOffset, toNat_pageOffset] at hoff
  rw [pageNumber, pageNumber] at hpage
  exact BitVec.eq_of_toNat_eq (by omega)

/-- A byte that is stored is in a page, and in no page table. -/
theorem Space.store (h : Space A dir s) (hva : va < kernelStart)
    (ha : userAddress dir s.mem va = some a)
    (hs : s' = { s with mem := Function.update s.mem a v }) :
    Space A dir s' ∧ StaysIn A (Reach A dir s) dir s.mem s' ∧ ∀ va' < kernelStart,
      userRead dir s'.mem va' = if va' = va then some v else userRead dir s.mem va' := by
  obtain ⟨f, hf, hin⟩ := ownerFrame_of_userAddress hva ha
  have hother : ∀ x, x ≠ a → s'.mem x = s.mem x := by
    intro x hx
    rw [hs]
    exact Function.update_of_ne hx v s.mem
  have hframe : ∀ o g, ownerFrame dir s.mem o = some g → o ≠ .page (pageNumber va) →
      ∀ x, InBytes g 0x1000 x → s'.mem x = s.mem x := by
    intro o g hg ho x hx
    refine hother x fun heq => ?_
    have hne : g ≠ f := fun heq => ho (h.unique _ _ f (heq ▸ hg) hf)
    exact frames_apart (h.isFrame hg) (h.isFrame hf) hne x hx
      (by rw [heq, hin]; exact inBytes_pageOffset va)
  have hleaves : Leaves A dir s s' := ⟨hframe .directory dir rfl (by simp),
    fun i t ht => hframe (.table i) t ht (by simp), fun o g _ hheld => by rwa [hs]⟩
  refine ⟨h.leaves hleaves, StaysIn.start.leaves hleaves (fun x hx => hother x fun heq => ?_)
    fun g hg => .inl (by rwa [hs] at hg), fun va' hva' => ?_⟩
  · refine hx f (.inr ⟨_, hf⟩) ?_
    rw [heq, hin]
    exact inBytes_pageOffset va
  · have haddress : userAddress dir s'.mem va' = userAddress dir s.mem va' := by
      rw [userAddress, userAddress,
        hleaves.tablesKept.userEntry_eq (pageNumber_lt (pageDirIdx_lt_of_lt hva'))]
    rw [userRead, userRead, haddress]
    split
    · next heq =>
      rw [heq, ha, hs]
      exact congrArg some (Function.update_self a v s.mem)
    · next hne =>
      cases ha' : userAddress dir s.mem va' with
      | none => rfl
      | some b =>
        refine congrArg some (hother b fun heq => ?_)
        exact hne (h.userAddress_inj hva' hva ha' (heq ▸ ha))

end calls

/-! ## Section 3: All Processes -/

/-- Each process has its space, and no frame is used by two. -/
structure Spaces.Apart (A : FrameAllocator σ) (kernelDirectory : BitVec 32) (s : Spaces σ) :
    Prop where
  space : ∀ dir ∈ s.live, Space A dir s.paging
  apart : ∀ dir ∈ s.live, ∀ dir' ∈ s.live, ∀ o o' f, ownerFrame dir s.paging.mem o = some f →
    ownerFrame dir' s.paging.mem o' = some f → dir = dir'
  frame : IsFrame kernelDirectory
  kernel : HasKernelHalf kernelDirectory s.paging.mem
  reserved : ∀ f, KernelFrame kernelDirectory f → ¬A.free s.paging.frames f
  others : ∀ dir ∈ s.live, ∀ o f, ownerFrame dir s.paging.mem o = some f →
    ¬KernelFrame kernelDirectory f

section all

variable {A : FrameAllocator σ} {R : BitVec 32 → Prop} {p dir : BitVec 32} {s s' : Spaces σ}
  {t : PagingState σ} {l : List (BitVec 32)} {kernelDirectory : BitVec 32} {e : SpaceEvent}

theorem Spaces.Apart.onePurpose (h : s.Apart A kernelDirectory) : s.OnePurpose A where
  held dir hdir := (h.space dir hdir).held
  one dir hdir dir' hdir' o o' f hf hf' := by
    obtain rfl : dir = dir' := h.apart dir hdir dir' hdir' o o' f hf hf'
    exact ⟨rfl, (h.space dir hdir).unique o o' f hf hf'⟩

/-- The frames of all processes stay in use and keep their contents. -/
theorem Spaces.Apart.keep (h : s.Apart A kernelDirectory) (hkernel : HasKernelHalf kernelDirectory t.mem)
    (hheld : ∀ f, KernelFrame kernelDirectory f → ¬A.free t.frames f)
    (hsame : ∀ dir ∈ s.live, ∀ o f, ownerFrame dir s.paging.mem o = some f →
      ¬A.free t.frames f ∧ ∀ x, InBytes f 0x1000 x → t.mem x = s.paging.mem x) :
    Spaces.Apart A kernelDirectory ⟨t, s.live⟩ ∧ ∀ q ∈ s.live, Unaffected q s.paging.mem t.mem := by
  have hkept : ∀ q ∈ s.live, Leaves A q s.paging t ∧ Unaffected q s.paging.mem t.mem :=
    fun q hq => unaffected_of_same (fun o f hf => (hsame q hq o f hf).2)
      fun o f hf => (hsame q hq o f hf).1
  refine ⟨⟨fun q hq => (h.space q hq).leaves (hkept q hq).1, fun q hq q' hq' o o' f hf hf' => ?_,
    h.frame, hkernel, hheld, fun q hq o f hf => ?_⟩, fun q hq => (hkept q hq).2⟩
  · rw [(hkept q hq).1.ownerFrame_eq] at hf
    rw [(hkept q' hq').1.ownerFrame_eq] at hf'
    exact h.apart q hq q' hq' o o' f hf hf'
  · rw [(hkept q hq).1.ownerFrame_eq] at hf
    exact h.others q hq o f hf

/-- A process, which may be a new one, changes in frames that no other process uses. -/
theorem Spaces.Apart.update (h : s.Apart A kernelDirectory) (hp : Space A p t)
    (hin : StaysIn A R p s.paging.mem t) (hR : ∀ f, R f → IsFrame f ∧ ¬KernelFrame kernelDirectory f)
    (hothers : ∀ q ∈ s.live, q ≠ p → ∀ o f, ownerFrame q s.paging.mem o = some f → ¬R f)
    (hlive : ∀ q ∈ l, q = p ∨ q ∈ s.live) :
    Spaces.Apart A kernelDirectory ⟨t, l⟩ ∧ ∀ q ∈ s.live, q ≠ p → Unaffected q s.paging.mem t.mem := by
  have hkept : ∀ q ∈ s.live, q ≠ p → Leaves A q s.paging t ∧ Unaffected q s.paging.mem t.mem :=
    fun q hq hne => hin.unaffected (fun f hf => (hR f hf).1) (h.space q hq) (hothers q hq hne)
  -- what another process uses is what it used before, and is not in `R`
  have hframe : ∀ q ∈ l, q ≠ p → q ∈ s.live ∧ ∀ o f, ownerFrame q t.mem o = some f →
      ownerFrame q s.paging.mem o = some f ∧ ¬R f := by
    intro q hq hne
    have hold := (hlive q hq).resolve_left hne
    refine ⟨hold, fun o f hf => ?_⟩
    rw [(hkept q hold hne).1.ownerFrame_eq] at hf
    exact ⟨hf, hothers q hold hne o f hf⟩
  refine ⟨⟨fun q hq => ?_, fun q hq q' hq' o o' f hf hf' => ?_, h.frame, fun i hle hi => ?_,
    fun f hk hf => (hR f (hin.free f hf)).2 hk, fun q hq o f hf => ?_⟩,
    fun q hq hne => (hkept q hq hne).2⟩
  · by_cases heq : q = p
    · rw [heq]
      exact hp
    · have hold := (hframe q hq heq).1
      exact (h.space q hold).leaves (hkept q hold heq).1
  · by_cases heq : q = p <;> by_cases heq' : q' = p
    · exact heq.trans heq'.symm
    · exact absurd (hin.owned o f (heq ▸ hf)) ((hframe q' hq' heq').2 o' f hf').2
    · exact absurd (hin.owned o' f (heq' ▸ hf')) ((hframe q hq heq).2 o f hf).2
    · exact h.apart q (hframe q hq heq).1 q' (hframe q' hq' heq').1 o o' f
        ((hframe q hq heq).2 o f hf).1 ((hframe q' hq' heq').2 o' f hf').1
  · refine (pde_congr (fun x hx => hin.mem x fun f hf => ?_) hi).trans (h.kernel i hle hi)
    exact frames_apart h.frame (hR f hf).1 (fun heq => (hR f hf).2 (.inr heq.symm)) x hx
  · by_cases heq : q = p
    · exact (hR f (hin.owned o f (heq ▸ hf))).2
    · exact h.others q (hframe q hq heq).1 o f ((hframe q hq heq).2 o f hf).1

/-- A call or a store of a process stays in frames that no other process uses. -/
theorem Spaces.Apart.reach (h : s.Apart A kernelDirectory) (hdir : dir ∈ s.live) :
    (∀ f, Reach A dir s.paging f → IsFrame f ∧ ¬KernelFrame kernelDirectory f) ∧
      ∀ q ∈ s.live, q ≠ dir → ∀ o f, ownerFrame q s.paging.mem o = some f →
        ¬Reach A dir s.paging f := by
  refine ⟨fun f hf => ⟨(h.space dir hdir).reach_isFrame hf, fun hk => ?_⟩,
    fun q hq hne o f hf hr => ?_⟩
  · rcases hf with hfree | ⟨o, ho⟩
    · exact h.reserved f hk hfree
    · exact h.others dir hdir o f ho hk
  · rcases hr with hfree | ⟨o', ho'⟩
    · exact (h.space q hq).held o f hf hfree
    · exact hne (h.apart q hq dir hdir o o' f hf ho')

/-- What is free is used by no process. -/
theorem Spaces.Apart.free (h : s.Apart A kernelDirectory) :
    (∀ f, A.free s.paging.frames f → IsFrame f ∧ ¬KernelFrame kernelDirectory f) ∧
      ∀ q ∈ s.live, ∀ o f, ownerFrame q s.paging.mem o = some f → ¬A.free s.paging.frames f :=
  ⟨fun f hf => ⟨A.isFrame _ _ hf, fun hk => h.reserved f hk hf⟩, fun q hq => (h.space q hq).held⟩

/-- A step that is no fork and no store. -/
theorem StepIsolated.of_others (hfork : ∀ dir, e ≠ .fork dir)
    (hstore : ∀ dir va v, e ≠ .store dir va v)
    (h : ∀ q ∈ s.live, e.changed ≠ some q →
      q ∈ s'.live ∧ Unaffected q s.paging.mem s'.paging.mem) : StepIsolated s e s' where
  others := h
  forked dir he := absurd he (hfork dir)
  stored dir va v he := absurd he (hstore dir va v)

theorem pagingInitialize_none {s₁ s₂ : PagingState σ}
    (hi : PagingState.pagingInitialize A kernelDirectory s₁ = (none, s₂)) :
    s₂ = (pageAcquire0 A s₁).2 := by
  rw [PagingState.pagingInitialize] at hi
  split at hi
  · next s' ha => exact (congrArg Prod.snd hi).symm.trans (congrArg Prod.snd ha).symm
  · exact absurd (congrArg Prod.fst hi) (by simp)

/-- `Paging_Initialize`, when there is no frame and when there is one. -/
theorem Spaces.Apart.create (h : s.Apart A kernelDirectory)
    (hs : (spaces A kernelDirectory).step s .create s') :
    s'.Apart A kernelDirectory ∧ StepIsolated s .create s' := by
  obtain ⟨t, l⟩ := s'
  obtain ⟨o, hi, hl⟩ := hs
  cases o with
  | none =>
    obtain rfl : l = s.live := hl
    obtain rfl : t = (pageAcquire0 A s.paging).2 := pagingInitialize_none hi
    have hfree : ∀ f, A.free (pageAcquire0 A s.paging).2.frames f → A.free s.paging.frames f :=
      fun f hf => (A.acquire_rest s.paging.frames s.paging.mem f hf).1
    have hmem : ∀ f, IsFrame f → ¬A.free s.paging.frames f → ∀ x, InBytes f 0x1000 x →
        (pageAcquire0 A s.paging).2.mem x = s.paging.mem x := by
      intro f hframe hheld x hx
      refine A.acquire_frame s.paging.frames s.paging.mem x fun g hg => ?_
      exact frames_apart hframe (h.free.1 g hg).1 (fun heq => hheld (heq ▸ hg)) x hx
    have hkernel : HasKernelHalf kernelDirectory (pageAcquire0 A s.paging).2.mem :=
      fun i hle hi => (pde_congr (hmem _ h.frame (h.reserved _ (.inr rfl))) hi).trans
        (h.kernel i hle hi)
    obtain ⟨hapart, hsame⟩ := h.keep hkernel (fun f hk hf => h.reserved f hk (hfree f hf))
      fun q hq o f hf => ⟨fun hf' => h.free.2 q hq o f hf (hfree f hf'),
        hmem f ((h.space q hq).isFrame hf) (h.free.2 q hq o f hf)⟩
    exact ⟨hapart, .of_others (by simp) (by simp) fun q hq _ => ⟨hq, hsame q hq⟩⟩
  | some page =>
    obtain rfl : l = page :: s.live := hl
    obtain ⟨hp, hin, hfree, -⟩ := Space.initialize h.frame h.kernel (h.reserved _ (.inr rfl)) hi
    obtain ⟨hapart, hsame⟩ := h.update (l := page :: s.live) hp hin h.free.1
      (fun q hq _ => h.free.2 q hq) fun q hq => List.mem_cons.mp hq
    refine ⟨hapart, .of_others (by simp) (by simp) fun q hq _ =>
      ⟨List.mem_cons_of_mem _ hq, hsame q hq ?_⟩⟩
    rintro rfl
    exact h.free.2 q hq .directory q rfl hfree

theorem Spaces.Apart.call {c : PagingCall} (h : s.Apart A kernelDirectory)
    (hs : (spaces A kernelDirectory).step s (.call dir c) s') :
    s'.Apart A kernelDirectory ∧ StepIsolated s (.call dir c) s' := by
  obtain ⟨t, l⟩ := s'
  obtain ⟨hdir, hc, hr, hl⟩ := hs
  obtain rfl : l = s.live := hl
  obtain ⟨hp, hin⟩ := (h.space dir hdir).call hc hr
  obtain ⟨hapart, hsame⟩ := h.update (l := s.live) hp hin (h.reach hdir).1 (h.reach hdir).2
    fun q hq => .inr hq
  exact ⟨hapart, .of_others (by simp) (by simp) fun q hq hne =>
    ⟨hq, hsame q hq fun heq => hne (by rw [heq]; rfl)⟩⟩

theorem Spaces.Apart.fork (h : s.Apart A kernelDirectory)
    (hs : (spaces A kernelDirectory).step s (.fork dir) s') :
    s'.Apart A kernelDirectory ∧ StepIsolated s (.fork dir) s' := by
  obtain ⟨t, l⟩ := s'
  obtain ⟨hdir, clone, t₁, hi, hclean, hrun, hl⟩ := hs
  obtain rfl : l = clone :: s.live := hl
  obtain ⟨hp, hin, hfree, hreads⟩ := (h.space dir hdir).fork h.frame h.kernel
    h.reserved hi hclean hrun
  obtain ⟨hapart, hsame⟩ := h.update (l := clone :: s.live) hp hin h.free.1
    (fun q hq _ => h.free.2 q hq) fun q hq => List.mem_cons.mp hq
  have hnew : clone ∉ s.live := fun hq => h.free.2 clone hq .directory clone rfl hfree
  refine ⟨hapart, fun q hq _ => ⟨List.mem_cons_of_mem _ hq, hsame q hq ?_⟩, fun dir' he => ?_,
    fun _ _ _ he => absurd he (by simp)⟩
  · rintro rfl
    exact hnew hq
  · obtain rfl : dir = dir' := SpaceEvent.fork.inj he
    exact ⟨clone, List.mem_cons_self, hnew, hreads⟩

theorem Spaces.Apart.store {va : BitVec 32} {v : BitVec 8} (h : s.Apart A kernelDirectory)
    (hs : (spaces A kernelDirectory).step s (.store dir va v) s') :
    s'.Apart A kernelDirectory ∧ StepIsolated s (.store dir va v) s' := by
  obtain ⟨t, l⟩ := s'
  obtain ⟨hdir, hva, a, ha, ht, hl⟩ := hs
  obtain rfl : l = s.live := hl
  obtain ⟨hp, hin, hreads⟩ := (h.space dir hdir).store hva ha ht
  obtain ⟨hapart, hsame⟩ := h.update (l := s.live) hp hin (h.reach hdir).1 (h.reach hdir).2
    fun q hq => .inr hq
  refine ⟨hapart, fun q hq hne => ⟨hq, hsame q hq fun heq => hne (by rw [heq]; rfl)⟩,
    fun _ he => absurd he (by simp), fun dir' va' v' he => ?_⟩
  obtain ⟨rfl, rfl, rfl⟩ := SpaceEvent.store.inj he
  exact hreads

/-- No step brings two processes together, or affects a process other than the one that calls. -/
theorem Spaces.Apart.step (h : s.Apart A kernelDirectory) (hs : (spaces A kernelDirectory).step s e s') :
    s'.Apart A kernelDirectory ∧ StepIsolated s e s' := by
  cases e with
  | create => exact h.create hs
  | call dir c => exact h.call hs
  | fork dir => exact h.fork hs
  | store dir va v => exact h.store hs
  | kernel =>
    obtain ⟨t, l⟩ := s'
    obtain ⟨hl, hkernel, hheld, hkept⟩ := hs
    obtain rfl : l = s.live := hl
    obtain ⟨hapart, hsame⟩ := h.keep hkernel hheld hkept
    exact ⟨hapart, .of_others (by simp) (by simp) fun q hq _ => ⟨hq, hsame q hq⟩⟩

theorem spaces_apart (h : (spaces A kernelDirectory).Reachable s) : s.Apart A kernelDirectory := by
  refine System.Inductive.reachable ⟨fun s hs => ?_, fun s e s' hI hs => (hI.step hs).1⟩ h
  have hnone : ∀ dir, dir ∉ s.live := fun dir hdir => by
    rw [hs.1] at hdir
    cases hdir
  exact ⟨fun dir hd => absurd hd (hnone dir), fun dir hd => absurd hd (hnone dir), hs.2.1,
    hs.2.2.1, hs.2.2.2, fun dir hd => absurd hd (hnone dir)⟩

/-- Whatever the processes do, in whatever order: each frame that one of them uses is in use
    and has one purpose in one process, and no process is affected by what another one does. -/
theorem spaces_isolated (h : (spaces A kernelDirectory).Reachable s) :
    s.OnePurpose A ∧ ∀ e s', (spaces A kernelDirectory).step s e s' → StepIsolated s e s' :=
  ⟨(spaces_apart h).onePurpose, fun _ _ hs => ((spaces_apart h).step hs).2⟩

end all

/-! ## Section 4: Two Concrete Processes -/

section concrete

variable {m : Memory}

/-- A memory with four frames. -/
def fourFrames (m : Memory) : PagingState (List (BitVec 20)) :=
  ⟨m, [0x80300, 0x80301, 0x80302, 0x80303], [], [], []⟩

/-- A process has got its directory. -/
def oneSpace (m : Memory) : PagingState (List (BitVec 20)) :=
  (PagingState.pagingInitialize frameList bareDirectory (fourFrames m)).2

/-- A second process has got its directory. -/
def twoSpaces (m : Memory) : Spaces (List (BitVec 20)) where
  paging := (PagingState.pagingInitialize frameList bareDirectory (oneSpace m)).2
  live := [numbered 0x80301, numbered 0x80300]

theorem spaces_step_create {A : FrameAllocator σ} {kernelDirectory dir : BitVec 32}
    {s : Spaces σ} {t : PagingState σ}
    (h : PagingState.pagingInitialize A kernelDirectory s.paging = (some dir, t)) :
    (spaces A kernelDirectory).step s .create ⟨t, dir :: s.live⟩ := ⟨some dir, h, rfl⟩

theorem fourFrames_reachable (hm : HasKernelHalf bareDirectory m) :
    (spaces frameList bareDirectory).Reachable ⟨fourFrames m, []⟩ := by
  refine .init ⟨rfl, by rw [IsFrame]; decide, hm, fun f hk => ?_⟩
  rintro ⟨n, hn, rfl⟩
  have hn' : n ∈ ([0x80300, 0x80301, 0x80302, 0x80303] : List (BitVec 20)) := hn
  simp only [List.mem_cons, List.not_mem_nil, or_false] at hn'
  rcases hk with hk | hk <;> rcases hn' with rfl | rfl | rfl | rfl <;>
    exact absurd hk (by decide)

theorem oneSpace_reachable (hm : HasKernelHalf bareDirectory m) :
    (spaces frameList bareDirectory).Reachable ⟨oneSpace m, [numbered 0x80300]⟩ :=
  .step (fourFrames_reachable hm) (spaces_step_create rfl)

theorem twoSpaces_reachable (hm : HasKernelHalf bareDirectory m) :
    (spaces frameList bareDirectory).Reachable (twoSpaces m) :=
  .step (oneSpace_reachable hm) (spaces_step_create rfl)

/-- The first process has no page table. -/
theorem not_isPresent_twoSpaces (hm : HasKernelHalf bareDirectory m) {i : Nat} (hi : i < 512) :
    ¬IsPresent (pde (numbered 0x80300) (twoSpaces m).paging.mem i) := by
  have hstart := spaces_apart (fourFrames_reachable hm)
  have hone := spaces_apart (oneSpace_reachable hm)
  have hspace := hone.space (numbered 0x80300) (by simp)
  have hfirst : PagingState.pagingInitialize frameList bareDirectory (fourFrames m) =
      (some (numbered 0x80300), oneSpace m) := rfl
  have hsecond : PagingState.pagingInitialize frameList bareDirectory (oneSpace m) =
      (some (numbered 0x80301), (twoSpaces m).paging) := rfl
  obtain ⟨-, -, -, hempty⟩ := Space.initialize hstart.frame hstart.kernel
    (hstart.reserved _ (.inr rfl)) hfirst
  obtain ⟨-, hin, -⟩ := Space.initialize hone.frame hone.kernel
    (hone.reserved _ (.inr rfl)) hsecond
  obtain ⟨hleaves, -⟩ := hin.unaffected (fun f hf => frameList.isFrame _ _ hf) hspace hspace.held
  rw [hleaves.tablesKept.pde_eq (by omega), hempty i hi]
  decide

/-- The first process maps a page. -/
theorem twoSpaces_mapPages (hm : HasKernelHalf bareDirectory m) :
    ∃ s', (spaces frameList bareDirectory).step (twoSpaces m)
      (.call (numbered 0x80300) (.mapPages 0x1000 1)) s' := by
  have hcan : CanMap frameList (numbered 0x80300) (pageAddress 0x1000) (twoSpaces m).paging := by
    refine ⟨numbered 0x80302, (pageAcquire0 frameList (twoSpaces m).paging).2, rfl, ?_⟩
    rw [mem_acquire_frameList, if_neg (not_isPresent_twoSpaces hm (by decide))]
    exact ⟨numbered 0x80303, _, rfl⟩
  have hsafe : NoKernelPage frameList (numbered 0x80300) 0x1000 1 (twoSpaces m).paging := by
    rintro - s' va' (_ | ⟨hne, -, -⟩) hle
    · exact absurd hle (by decide)
    · exact absurd (by decide) hne
  obtain ⟨s', hmap, -⟩ := mapNext_of_canMap hcan
  have hrun : PagingCall.run frameList (numbered 0x80300) (twoSpaces m).paging
      (.mapPages 0x1000 1) = some s' := by
    have hfuel : 2 ^ 20 = 0xFFFFF + 1 := by decide
    rw [run_mapPages, pagingMapPages, if_neg (by decide), hfuel, mapPagesLoop_some hmap,
      if_pos (by decide)]
    exact ⟨_, rfl⟩
  exact ⟨⟨s', (twoSpaces m).live⟩, by simp [twoSpaces], hsafe, hrun, rfl⟩

end concrete

/-- After `Initialize_Memory` two processes are made, and the first one maps a page. -/
theorem spaces_isolated_twoSpaces :
    (twoSpaces (initializeMemory (fun _ => 0) bareDirectory)).OnePurpose frameList ∧
    ∃ s', (spaces frameList bareDirectory).step
      (twoSpaces (initializeMemory (fun _ => 0) bareDirectory))
      (.call (numbered 0x80300) (.mapPages 0x1000 1)) s' ∧
    StepIsolated (twoSpaces (initializeMemory (fun _ => 0) bareDirectory))
      (.call (numbered 0x80300) (.mapPages 0x1000 1)) s' := by
  obtain ⟨s', hs⟩ := twoSpaces_mapPages (m := initializeMemory (fun _ => 0) bareDirectory)
    hasKernelHalf_initializeMemory
  obtain ⟨hone, hall⟩ := spaces_isolated (twoSpaces_reachable hasKernelHalf_initializeMemory)
  exact ⟨hone, s', hs, hall _ _ hs⟩

end Avos
