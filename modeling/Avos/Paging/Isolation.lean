import Avos.Paging.Paging

/-! # The Kernel Half of a Directory

  Every directory shares the entries 512 to 1023 with the kernel: 4 MB entries that are not
  page tables. `Isolated` says that a call has not touched them. `Paging_UnmapPages` stops
  where the kernel half begins; `Paging_MapPages` does not, and it goes wrong exactly when
  a page of the kernel half that it comes to can be mapped (`isolated_iff`).
-/

open ByteMemory

namespace Avos

variable {σ : Type*} {A : FrameAllocator σ}

/-! ## Section 1: Frames and Entries -/

section addresses

variable {f g t va x : BitVec 32} {i j : Nat}

theorem frames_apart (hf : IsFrame f) (hg : IsFrame g) (hne : f ≠ g) :
    Apart f 0x1000 g 0x1000 := by
  intro x h h'
  rw [InBytes, BitVec.toNat_sub] at h h'
  rw [IsFrame] at hf hg
  refine hne (BitVec.eq_of_toNat_eq ?_)
  omega

theorem toNat_pageAddress (a : BitVec 32) :
    (pageAddress a).toNat = a.toNat / 2 ^ 12 * 2 ^ 12 :=
  toNat_and_not_lowBits (k := 12)

theorem isFrame_pageAddress {a : BitVec 32} : IsFrame (pageAddress a) := by
  rw [IsFrame, toNat_pageAddress]
  omega

theorem isFrame_entryFrame {e : BitVec 32} : IsFrame (entryFrame e) := by
  have h : (pageAddress e).toNat % 0x1000 = 0 := isFrame_pageAddress
  have h' : (0x80000000 : BitVec 32).toNat = 2 ^ 31 := rfl
  rw [IsFrame, entryFrame, kernAddr32, BitVec.toNat_add, h']
  omega

theorem isPresent_pageFlags : IsPresent (va ||| pageFlags) := by
  intro h
  have h' := congrArg (fun b : BitVec 32 => b.getLsbD 0) h
  simp [pageFlags] at h'

theorem pageDirIdx_eq : pageDirIdx va = va.toNat / 2 ^ 22 := by
  rw [pageDirIdx, BitVec.toNat_and, BitVec.toNat_ushiftRight, Nat.shiftRight_eq_div_pow]
  refine (Nat.and_two_pow_sub_one_eq_mod _ 10).trans (Nat.mod_eq_of_lt ?_)
  have := va.isLt
  omega

theorem pageTabIdx_lt : pageTabIdx va < 1024 := by
  rw [pageTabIdx, BitVec.toNat_and]
  exact Nat.lt_of_le_of_lt Nat.and_le_right (by decide)

/-- The kernel half, by the index of its directory entries. -/
theorem kernelStart_le_iff : kernelStart ≤ va ↔ 512 ≤ pageDirIdx va := by
  have h : kernelStart.toNat = 2 ^ 31 := rfl
  rw [pageDirIdx_eq, BitVec.le_def, h]
  omega

theorem pageDirIdx_lt : pageDirIdx va < 1024 := by
  rw [pageDirIdx_eq]
  have := va.isLt
  omega

/-- An entry is inside its table. -/
theorem inBytes_entryAddr (hi : i < 1024) (hx : InBytes (entryAddr t i) 4 x) :
    InBytes t 0x1000 x :=
  hx.of_add (by omega) (by decide)

theorem entries_apart (hi : i < 1024) (hj : j < 1024) (hij : i ≠ j) :
    Apart (entryAddr t i) 4 (entryAddr t j) 4 := by
  rcases Nat.lt_or_gt_of_ne hij with h | h
  · exact apart_add (by omega) (by omega)
  · exact (apart_add (by omega) (by omega)).symm

end addresses

/-! ## Section 2: What Is Expected -/

/-- The entry `i` of the directory. -/
def pde (dir : BitVec 32) (m : Memory) (i : Nat) : BitVec 32 := load32 m (entryAddr dir i)

/-- A page table of the user half. -/
def IsUserTable (dir : BitVec 32) (m : Memory) (t : BitVec 32) : Prop :=
  ∃ i < 512, IsPresent (pde dir m i) ∧ t = entryFrame (pde dir m i)

/-- A page that the user half maps. -/
def IsUserPage (dir : BitVec 32) (m : Memory) (f : BitVec 32) : Prop :=
  ∃ t, IsUserTable dir m t ∧ ∃ j < 1024, IsPresent (load32 m (entryAddr t j)) ∧
    f = entryFrame (load32 m (entryAddr t j))

/-- A process at the beginning of a call: its directory and the page tables of its user half
    are frames in use, and they are not the same frames as the directory or the pages. -/
structure OwnsFrames (A : FrameAllocator σ) (dir : BitVec 32) (s : PagingState σ) : Prop where
  dirFrame : IsFrame dir
  dirHeld : ¬A.free s.frames dir
  tableHeld : ∀ t, IsUserTable dir s.mem t → t ≠ dir ∧ ¬A.free s.frames t
  pageApart : ∀ f, IsUserPage dir s.mem f → f ≠ dir ∧ ¬IsUserTable dir s.mem f
  acquired : s.acquired = []
  writes : s.writes = []

/-- A write of a call from `s₀` goes to a frame that was acquired in the call, to the
    directory, or to a page table that the user half had, and it goes through no entry of
    the kernel half. -/
structure WriteAllowed (dir : BitVec 32) (s₀ s : PagingState σ) (w : PageWrite) : Prop where
  through : ∀ i, w.through = some i → i < 512
  inside : ∃ f, (f ∈ s.acquired ∨ f = dir ∨ IsUserTable dir s₀.mem f) ∧
    ∀ x, InBytes w.addr w.size x → InBytes f 0x1000 x

/-- The call from `s₀` to `s` leaves the kernel half alone. -/
structure Isolated (dir : BitVec 32) (s₀ s : PagingState σ) : Prop where
  kernelEntries : ∀ i, 512 ≤ i → i < 1024 → pde dir s.mem i = pde dir s₀.mem i
  writes : ∀ w ∈ s.writes, WriteAllowed dir s₀ s w

/-- The calls. -/
inductive PagingCall where
  | mapPages (va size : BitVec 32)
  | unmapPages (va size : BitVec 32)
  | shiftEndPoint (endpoint shift : BitVec 32)

/-- The state after a call. -/
def PagingCall.run (A : FrameAllocator σ) (dir : BitVec 32) (s : PagingState σ) :
    PagingCall → Option (PagingState σ)
  | .mapPages va size => (pagingMapPages A dir va size s).map Prod.snd
  | .unmapPages va size => (pagingUnmapPages A dir va size s).map Prod.snd
  | .shiftEndPoint endpoint shift => (processShiftEndPoint A dir endpoint shift s).map Prod.snd

/-! ## Section 3: The Condition -/

/-- The page can be mapped: a frame is free for it, and either its directory entry is absent
    and another frame is free for a page table, or the entry is present and the word at the
    page's index in what it points to is zero. -/
def CanMap (A : FrameAllocator σ) (dir va : BitVec 32) (s : PagingState σ) : Prop :=
  ∃ page s₁, pageAcquire0 A s = (some page, s₁) ∧
    if IsPresent (pde dir s₁.mem (pageDirIdx va)) then
      load32 s₁.mem (entryAddr (entryFrame (pde dir s₁.mem (pageDirIdx va))) (pageTabIdx va)) = 0
    else ∃ table s₂, pageAcquire0 A s₁ = (some table, s₂)

/-- One page is acquired and mapped. -/
def mapNext (A : FrameAllocator σ) (dir va : BitVec 32) (s : PagingState σ) :
    Option (PagingState σ) :=
  match pageAcquire0 A s with
  | (none, _) => none
  | (some page, s) =>
      match pagingMapPage A dir va (physAddr32 page) true s with
      | (false, _) => none
      | (true, s) => some s

/-- Mapping the pages from `va` to `vaEnd` one by one comes to the page `va'` in `s'`. -/
inductive ComesTo (A : FrameAllocator σ) (dir vaEnd : BitVec 32) :
    PagingState σ → BitVec 32 → PagingState σ → BitVec 32 → Prop
  | here {s va} : ComesTo A dir vaEnd s va s va
  | next {s va s₁ s' va'} : va ≠ vaEnd → mapNext A dir va s = some s₁ →
      ComesTo A dir vaEnd s₁ (va + 0x1000) s' va' → ComesTo A dir vaEnd s va s' va'

/-- No page of the kernel half that the loop of `Paging_MapPages` comes to can be mapped. -/
def NoKernelPage (A : FrameAllocator σ) (dir va size : BitVec 32) (s : PagingState σ) : Prop :=
  size ≠ 0 → ∀ s' va', ComesTo A dir (pageAddress (va + size - 1)) s (pageAddress va) s' va' →
    kernelStart ≤ va' → ¬CanMap A dir va' s'

/-- The condition for each call. `Paging_UnmapPages` has none. -/
def PagingCall.Safe (A : FrameAllocator σ) (dir : BitVec 32) (s : PagingState σ) :
    PagingCall → Prop
  | .mapPages va size => NoKernelPage A dir va size s
  | .unmapPages _ _ => True
  | .shiftEndPoint endpoint shift =>
      shift = 0 ∨ shift.slt 0 ∨ NoKernelPage A dir endpoint shift s

/-! ## Section 4: The Invariant -/

variable {dir : BitVec 32} {s₀ s s' : PagingState σ} {va pa t f p x : BitVec 32} {i : Nat}

/-- What holds at every point of a call from `s₀`. -/
structure Keeps (A : FrameAllocator σ) (dir : BitVec 32) (s₀ s : PagingState σ) : Prop where
  dirFrame : IsFrame dir
  dirHeld : ¬A.free s.frames dir
  tables : ∀ t, IsUserTable dir s.mem t →
    t ≠ dir ∧ ¬A.free s.frames t ∧ (t ∈ s.acquired ∨ IsUserTable dir s₀.mem t)
  isolated : Isolated dir s₀ s

theorem OwnsFrames.keeps (h : OwnsFrames A dir s) : Keeps A dir s s where
  dirFrame := h.dirFrame
  dirHeld := h.dirHeld
  tables t ht := ⟨(h.tableHeld t ht).1, (h.tableHeld t ht).2, .inr ht⟩
  isolated :=
    { kernelEntries := fun _ _ _ => rfl
      writes := fun w hw => by rw [h.writes] at hw; exact absurd hw List.not_mem_nil }

/-- A frame that is in use is apart from those that are free. -/
theorem not_inBytes_of_held (hf : IsFrame f) (hheld : ¬A.free a f) (hx : InBytes f 0x1000 x) :
    ∀ g, A.free a g → ¬InBytes g 0x1000 x := by
  intro g hg
  have hne : f ≠ g := fun h => hheld (h ▸ hg)
  exact frames_apart hf (A.isFrame a g hg) hne x hx

theorem pde_congr {m m' : Memory} (h : ∀ x, InBytes dir 0x1000 x → m' x = m x) (hi : i < 1024) :
    pde dir m' i = pde dir m i :=
  load32_congr fun x hx => h x (inBytes_entryAddr hi hx)

theorem isUserTable_congr {m m' : Memory} (h : ∀ x, InBytes dir 0x1000 x → m' x = m x) :
    IsUserTable dir m' t ↔ IsUserTable dir m t := by
  constructor
  · rintro ⟨i, hi, hp, rfl⟩
    have he := pde_congr h (i := i) (by omega)
    exact ⟨i, hi, he ▸ hp, by rw [he]⟩
  · rintro ⟨i, hi, hp, rfl⟩
    have he := pde_congr h (i := i) (by omega)
    exact ⟨i, hi, he.symm ▸ hp, by rw [he]⟩

theorem WriteAllowed.mono {w : PageWrite} (h : WriteAllowed dir s₀ s w)
    (ha : s.acquired ⊆ s'.acquired) : WriteAllowed dir s₀ s' w where
  through := h.through
  inside := by
    obtain ⟨f, hf, hin⟩ := h.inside
    exact ⟨f, hf.imp_left fun h => ha h, hin⟩

/-- A step that leaves the directory alone. -/
theorem Keeps.of_dir_eq (h : Keeps A dir s₀ s)
    (hmem : ∀ x, InBytes dir 0x1000 x → s'.mem x = s.mem x)
    (hfree : ∀ f, f = dir ∨ IsUserTable dir s.mem f → A.free s'.frames f → A.free s.frames f)
    (hacq : s.acquired ⊆ s'.acquired)
    (hwrites : ∀ w ∈ s'.writes, w ∈ s.writes ∨ WriteAllowed dir s₀ s' w) :
    Keeps A dir s₀ s' where
  dirFrame := h.dirFrame
  dirHeld hf := h.dirHeld (hfree dir (.inl rfl) hf)
  tables t ht := by
    have ht' := (isUserTable_congr hmem).mp ht
    obtain ⟨hne, hheld, hold⟩ := h.tables t ht'
    exact ⟨hne, fun hf => hheld (hfree t (.inr ht') hf), hold.imp_left fun h => hacq h⟩
  isolated :=
    { kernelEntries := fun i hi hi' =>
        (pde_congr hmem hi').trans (h.isolated.kernelEntries i hi hi')
      writes := fun w hw =>
        (hwrites w hw).elim (fun hw => (h.isolated.writes w hw).mono hacq) id }

/-! ## Section 5: Steps of the Functions -/

/-- A frame that the call holds and that is neither the directory nor a page table. -/
structure IsFresh (A : FrameAllocator σ) (dir : BitVec 32) (s : PagingState σ) (f : BitVec 32) :
    Prop where
  isFrame : IsFrame f
  ne_dir : f ≠ dir
  notTable : ¬IsUserTable dir s.mem f
  held : ¬A.free s.frames f
  acquired : f ∈ s.acquired

theorem acquire_dir (h : Keeps A dir s₀ s) :
    ∀ x, InBytes dir 0x1000 x → (pageAcquire0 A s).2.mem x = s.mem x := fun x hx =>
  A.acquire_frame s.frames s.mem x (not_inBytes_of_held h.dirFrame h.dirHeld hx)

theorem keeps_acquire (h : Keeps A dir s₀ s) : Keeps A dir s₀ (pageAcquire0 A s).2 :=
  h.of_dir_eq (acquire_dir h) (fun f _ hf => (A.acquire_rest s.frames s.mem f hf).1)
    (fun _ hf => List.mem_append_right _ hf) (fun _ hw => .inl hw)

theorem isFresh_acquire (h : Keeps A dir s₀ s) (ha : pageAcquire0 A s = (some f, s')) :
    IsFresh A dir s' f := by
  obtain rfl : (pageAcquire0 A s).2 = s' := by rw [ha]
  have hf : (A.acquire s.frames s.mem).1 = some f := congrArg Prod.fst ha
  have hfree := A.acquire_free s.frames s.mem f hf
  refine ⟨A.isFrame s.frames f hfree, ?_, ?_, ?_, ?_⟩
  · rintro rfl
    exact h.dirHeld hfree
  · intro ht
    exact (h.tables f ((isUserTable_congr (acquire_dir h)).mp ht)).2.1 hfree
  · intro hf'
    exact (A.acquire_rest s.frames s.mem f hf').2 hf
  · show f ∈ (A.acquire s.frames s.mem).1.toList ++ s.acquired
    rw [hf]
    exact List.mem_append_left _ (List.mem_singleton.mpr rfl)

/-- A frame that was acquired stays fresh over another acquisition. -/
theorem IsFresh.acquire (hp : IsFresh A dir s p) (h : Keeps A dir s₀ s)  :
    IsFresh A dir (pageAcquire0 A s).2 p where
  isFrame := hp.isFrame
  ne_dir := hp.ne_dir
  notTable ht := hp.notTable ((isUserTable_congr (acquire_dir h)).mp ht)
  held hf := hp.held (A.acquire_rest s.frames s.mem p hf).1
  acquired := List.mem_append_right _ hp.acquired

theorem release_frame_of_ne (hf : IsFrame f) (hheld : ¬A.free s.frames f) (hp : IsFrame p)
    (hne : f ≠ p) (hx : InBytes f 0x1000 x) : (pageRelease0 A s p).mem x = s.mem x :=
  A.release_frame s.frames s.mem p x (not_inBytes_of_held hf hheld hx)
    (frames_apart hf hp hne x hx)

theorem release_free (hf : A.free (pageRelease0 A s p).frames f) (hne : f ≠ p) :
    A.free s.frames f :=
  (A.release_rest s.frames s.mem p f hf).resolve_right hne

theorem keeps_release (h : Keeps A dir s₀ s) (hp : IsFrame p) (hdir : p ≠ dir)
    (htable : ¬IsUserTable dir s.mem p) : Keeps A dir s₀ (pageRelease0 A s p) := by
  refine h.of_dir_eq (fun x hx => release_frame_of_ne h.dirFrame h.dirHeld hp hdir.symm hx)
    ?_ (fun _ hf => hf) (fun _ hw => .inl hw)
  rintro f hf hfree
  refine release_free hfree ?_
  rintro rfl
  exact hf.elim hdir htable

theorem clearPage_frame (hx : ¬InBytes f 0x1000 x) : (clearPage s f).mem x = s.mem x := by
  show memset s.mem f 0 0x1000 x = s.mem x
  rw [memset_eq (by decide)]
  exact if_neg hx

theorem keeps_clearPage (h : Keeps A dir s₀ s) (hf : IsFresh A dir s f) :
    Keeps A dir s₀ (clearPage s f) := by
  refine h.of_dir_eq (fun x hx => ?_) (fun _ _ hf => hf) (fun _ hf => hf) (fun w hw => ?_)
  · exact clearPage_frame (frames_apart h.dirFrame hf.isFrame hf.ne_dir.symm x hx)
  · rcases List.mem_cons.mp hw with rfl | hw
    · exact .inr ⟨(fun _ h => nomatch h), f, .inl hf.acquired, fun _ hx => hx⟩
    · exact .inl hw

theorem IsFresh.clearPage (h : Keeps A dir s₀ s) (hf : IsFresh A dir s f) :
    IsFresh A dir (clearPage s f) f where
  isFrame := hf.isFrame
  ne_dir := hf.ne_dir
  notTable ht := hf.notTable <| (isUserTable_congr fun x hx =>
    clearPage_frame (frames_apart h.dirFrame hf.isFrame hf.ne_dir.symm x hx)).mp ht
  held := hf.held
  acquired := hf.acquired

/-- The entry that a new page table gets. -/
theorem entryFrame_physAddr (hf : IsFrame f) : entryFrame (physAddr32 f ||| pageFlags) = f := by
  have hflags : pageFlags &&& ~~~0xFFF = 0 := by decide
  have hor : pageAddress (physAddr32 f ||| pageFlags) = pageAddress (physAddr32 f) := by
    have := BitVec.and_or_distrib_right (x := physAddr32 f) (y := pageFlags) (z := ~~~0xFFF)
    rw [pageAddress, this, hflags]
    exact BitVec.or_zero
  have haligned : pageAddress (physAddr32 f) = physAddr32 f := by
    refine BitVec.eq_of_toNat_eq ?_
    have h' : (0x80000000 : BitVec 32).toNat = 2 ^ 31 := rfl
    rw [IsFrame] at hf
    rw [toNat_pageAddress, physAddr32, BitVec.toNat_sub, h']
    omega
  rw [entryFrame, hor, haligned, kernAddr32, physAddr32, BitVec.sub_add_cancel]

theorem pde_writeEntry_ne {v : BitVec 32} {o : Option Nat} {j : Nat} (hi : i < 1024)
    (hj : j < 1024) (hij : i ≠ j) :
    pde dir (writeEntry s (entryAddr dir i) v o).mem j = pde dir s.mem j :=
  load32_store32_of_apart (entries_apart hj hi hij.symm)

theorem pde_writeEntry {v : BitVec 32} {o : Option Nat} :
    pde dir (writeEntry s (entryAddr dir i) v o).mem i = v :=
  load32_store32

/-- A new page table is entered in the user half of the directory. -/
theorem keeps_writeDir (h : Keeps A dir s₀ s) (hf : IsFresh A dir s f) (hi : i < 512) :
    Keeps A dir s₀ (writeEntry s (entryAddr dir i) (physAddr32 f ||| pageFlags) none) where
  dirFrame := h.dirFrame
  dirHeld := h.dirHeld
  tables t ht := by
    obtain ⟨j, hj, hp, rfl⟩ := ht
    by_cases hij : i = j
    · subst hij
      rw [pde_writeEntry, entryFrame_physAddr hf.isFrame]
      exact ⟨hf.ne_dir, hf.held, .inl hf.acquired⟩
    · rw [pde_writeEntry_ne (by omega) (by omega) hij] at hp ⊢
      exact h.tables _ ⟨j, hj, hp, rfl⟩
  isolated :=
    { kernelEntries := fun j hj hj' =>
        (pde_writeEntry_ne (by omega) hj' (by omega)).trans
          (h.isolated.kernelEntries j hj hj')
      writes := fun w hw => by
        rcases List.mem_cons.mp hw with rfl | hw
        · exact ⟨(fun _ h => nomatch h), dir, .inr (.inl rfl),
            fun x hx => inBytes_entryAddr (by omega) hx⟩
        · exact (h.isolated.writes w hw).mono fun _ h => h }

/-- A write to an entry of a page table. -/
theorem keeps_writeTable (h : Keeps A dir s₀ s) (hi : i < 512)
    (hp : IsPresent (pde dir s.mem i)) {j : Nat} (hj : j < 1024) {v : BitVec 32} :
    Keeps A dir s₀
      (writeEntry s (entryAddr (entryFrame (pde dir s.mem i)) j) v (some i)) := by
  obtain ⟨hne, hheld, hold⟩ := h.tables _ ⟨i, hi, hp, rfl⟩
  refine h.of_dir_eq (fun x hx => ?_) (fun _ _ hf => hf) (fun _ hf => hf) (fun w hw => ?_)
  · refine store32_frame fun hx' => ?_
    exact frames_apart h.dirFrame isFrame_entryFrame hne.symm x hx (inBytes_entryAddr hj hx')
  · rcases List.mem_cons.mp hw with rfl | hw
    · refine .inr ⟨?_, _, hold.imp_right .inr, fun x hx => inBytes_entryAddr hj hx⟩
      rintro k hk
      exact Option.some.inj hk ▸ hi
    · exact .inl hw

/-! ## Section 6: Mapping -/

/-- The word at the page's index in what its directory entry points to. -/
abbrev pteAddr (dir va : BitVec 32) (s : PagingState σ) : BitVec 32 :=
  entryAddr (entryFrame (pde dir s.mem (pageDirIdx va))) (pageTabIdx va)

/-- The page gets a new page table. -/
def mapInTable (dir va pa table : BitVec 32) (s : PagingState σ) : PagingState σ :=
  let s := writeEntry (clearPage s table) (entryAddr dir (pageDirIdx va))
    (physAddr32 table ||| pageFlags) none
  writeEntry s (entryAddr table (pageTabIdx va)) (pa ||| pageFlags) (some (pageDirIdx va))

theorem pagingMapPage_present (hp : IsPresent (pde dir s.mem (pageDirIdx va))) :
    pagingMapPage A dir va pa true s =
      if load32 s.mem (pteAddr dir va s) ≠ 0 then (false, s)
      else (true, writeEntry s (pteAddr dir va s) (pa ||| pageFlags) (some (pageDirIdx va))) :=
  if_neg (not_not.mpr hp)

theorem pagingMapPage_absent (hp : ¬IsPresent (pde dir s.mem (pageDirIdx va))) :
    pagingMapPage A dir va pa true s =
      match pageAcquire0 A s with
      | (none, s) => (false, s)
      | (some table, s) => (true, mapInTable dir va pa table s) :=
  if_pos hp

theorem keeps_mapInTable (h : Keeps A dir s₀ s) (ht : IsFresh A dir s t)
    (hva : pageDirIdx va < 512) : Keeps A dir s₀ (mapInTable dir va pa t s) := by
  have hdir := keeps_writeDir (keeps_clearPage h ht) (ht.clearPage h) hva
  have he := @pde_writeEntry σ dir (clearPage s t) (pageDirIdx va)
    (physAddr32 t ||| pageFlags) none
  have hw := keeps_writeTable (v := pa ||| pageFlags) hdir hva
    (by rw [he]; exact isPresent_pageFlags) (@pageTabIdx_lt va)
  rwa [he, entryFrame_physAddr ht.isFrame] at hw

/-- A page that cannot be mapped is left as it is. -/
theorem keeps_of_map_false (h : Keeps A dir s₀ s) (hp : IsFresh A dir s p)
    (hm : pagingMapPage A dir va pa true s = (false, s')) :
    Keeps A dir s₀ s' ∧ IsFresh A dir s' p := by
  by_cases hpde : IsPresent (pde dir s.mem (pageDirIdx va))
  · rw [pagingMapPage_present hpde] at hm
    split at hm
    · obtain rfl := congrArg Prod.snd hm
      exact ⟨h, hp⟩
    · exact absurd (congrArg Prod.fst hm) (by simp)
  · rw [pagingMapPage_absent hpde] at hm
    split at hm
    · rename_i s₁ ha
      obtain rfl := congrArg Prod.snd hm
      obtain rfl : (pageAcquire0 A s).2 = s₁ := by rw [ha]
      exact ⟨keeps_acquire h, hp.acquire h⟩
    · exact absurd (congrArg Prod.fst hm) (by simp)

theorem keeps_of_map_true (h : Keeps A dir s₀ s) (hva : pageDirIdx va < 512)
    (hm : pagingMapPage A dir va pa true s = (true, s')) : Keeps A dir s₀ s' := by
  by_cases hpde : IsPresent (pde dir s.mem (pageDirIdx va))
  · rw [pagingMapPage_present hpde] at hm
    split at hm
    · exact absurd (congrArg Prod.fst hm) (by simp)
    · obtain rfl := congrArg Prod.snd hm
      exact keeps_writeTable h hva hpde pageTabIdx_lt
  · rw [pagingMapPage_absent hpde] at hm
    split at hm
    · exact absurd (congrArg Prod.fst hm) (by simp)
    · rename_i t s₁ ha
      obtain rfl := congrArg Prod.snd hm
      have hs₁ : (pageAcquire0 A s).2 = s₁ := by rw [ha]
      exact keeps_mapInTable (hs₁ ▸ keeps_acquire h) (isFresh_acquire h ha) hva

theorem keeps_mapNext (h : Keeps A dir s₀ s) (hva : pageDirIdx va < 512)
    (hm : mapNext A dir va s = some s') : Keeps A dir s₀ s' := by
  rw [mapNext] at hm
  split at hm
  · exact nomatch hm
  · rename_i page s₁ ha
    split at hm
    · exact nomatch hm
    · rename_i s₂ hmap
      obtain rfl := Option.some.inj hm
      have hs₁ : (pageAcquire0 A s).2 = s₁ := by rw [ha]
      exact keeps_of_map_true (hs₁ ▸ keeps_acquire h) hva hmap

section loop

variable {vaEnd sz : BitVec 32} {n : Nat}

theorem mapPagesLoop_some (hm : mapNext A dir va s = some s') :
    mapPagesLoop A dir vaEnd (n + 1) va sz s =
      if va = vaEnd then some (sz + 0x1000, s')
      else mapPagesLoop A dir vaEnd n (va + 0x1000) (sz + 0x1000) s' := by
  rw [mapNext] at hm
  split at hm
  · exact nomatch hm
  · rename_i page s₁ ha
    split at hm
    · exact nomatch hm
    · rename_i s₂ hmap
      obtain rfl := Option.some.inj hm
      rw [mapPagesLoop, ha]
      simp only [hmap]

/-- What the loop leaves when it stops at a page: it gives the frame back that it has acquired
    for it. -/
def mapStop (A : FrameAllocator σ) (dir va : BitVec 32) (s : PagingState σ) : PagingState σ :=
  match pageAcquire0 A s with
  | (none, s) => s
  | (some page, s) => pageRelease0 A (pagingMapPage A dir va (physAddr32 page) true s).2 page

theorem mapPagesLoop_none (hm : mapNext A dir va s = none) :
    mapPagesLoop A dir vaEnd (n + 1) va sz s = some (sz, mapStop A dir va s) := by
  rcases ha : pageAcquire0 A s with ⟨_ | page, s₁⟩
  · rw [mapPagesLoop, mapStop, ha]
  · rcases hmap : pagingMapPage A dir va (physAddr32 page) true s₁ with ⟨_ | _, s₂⟩
    · rw [mapPagesLoop, mapStop, ha]
      simp only [hmap]
    · rw [mapNext, ha] at hm
      simp only [hmap] at hm
      cases hm

theorem keeps_mapStop (h : Keeps A dir s₀ s) (hm : mapNext A dir va s = none) :
    Keeps A dir s₀ (mapStop A dir va s) := by
  rw [mapNext] at hm
  rw [mapStop]
  split at hm
  · rename_i s₁ ha
    obtain rfl : (pageAcquire0 A s).2 = s₁ := by rw [ha]
    exact keeps_acquire h
  · rename_i page s₁ ha
    split at hm
    · rename_i s₂ hmap
      have hs₁ : (pageAcquire0 A s).2 = s₁ := by rw [ha]
      obtain ⟨hk, hfresh⟩ :=
        keeps_of_map_false (hs₁ ▸ keeps_acquire h) (isFresh_acquire h ha) hmap
      simp only [hmap]
      exact keeps_release hk hfresh.isFrame hfresh.ne_dir hfresh.notTable
    · exact nomatch hm

theorem mapNext_eq {page : BitVec 32} {s₁ : PagingState σ} (ha : pageAcquire0 A s = (some page, s₁))
    (hmap : pagingMapPage A dir va (physAddr32 page) true s₁ = (true, s')) :
    mapNext A dir va s = some s' := by
  rw [mapNext, ha]
  simp only [hmap]

/-- A page can be mapped exactly when mapping it succeeds, and this writes through its
    directory entry. -/
theorem mapNext_of_canMap (hc : CanMap A dir va s) :
    ∃ s', mapNext A dir va s = some s' ∧
      ∃ w ∈ s'.writes, w.through = some (pageDirIdx va) := by
  obtain ⟨page, s₁, ha, hc⟩ := hc
  by_cases hpde : IsPresent (pde dir s₁.mem (pageDirIdx va))
  · rw [if_pos hpde] at hc
    have hmap := @pagingMapPage_present σ A _ _ _ (physAddr32 page) hpde
    rw [if_neg (not_not.mpr hc)] at hmap
    exact ⟨_, mapNext_eq ha hmap, _, List.mem_cons_self, rfl⟩
  · rw [if_neg hpde] at hc
    obtain ⟨t, s₂, ht⟩ := hc
    have hmap := @pagingMapPage_absent σ A _ _ _ (physAddr32 page) hpde
    rw [ht] at hmap
    exact ⟨_, mapNext_eq ha hmap, _, List.mem_cons_self, rfl⟩

theorem canMap_of_mapNext (hm : mapNext A dir va s = some s') : CanMap A dir va s := by
  rw [mapNext] at hm
  split at hm
  · exact nomatch hm
  · rename_i page s₁ ha
    refine ⟨page, s₁, ha, ?_⟩
    split at hm
    · exact nomatch hm
    · rename_i s₂ hmap
      by_cases hpde : IsPresent (pde dir s₁.mem (pageDirIdx va))
      · rw [if_pos hpde]
        rw [pagingMapPage_present hpde] at hmap
        by_contra hne
        rw [if_pos hne] at hmap
        exact absurd (congrArg Prod.fst hmap) (by simp)
      · rw [if_neg hpde]
        rw [pagingMapPage_absent hpde] at hmap
        split at hmap
        · exact absurd (congrArg Prod.fst hmap) (by simp)
        · rename_i t s₃ ht
          exact ⟨t, s₃, ht⟩

/-- While the loop comes to no page of the kernel half that can be mapped, it ends and keeps
    what mapping a page of the user half keeps. -/
theorem mapPagesLoop_invariant {I : PagingState σ → Prop} (hend : IsFrame vaEnd)
    (hnext : ∀ s s' va, I s → pageDirIdx va < 512 → mapNext A dir va s = some s' → I s')
    (hstop : ∀ s va, I s → mapNext A dir va s = none → I (mapStop A dir va s)) :
    ∀ (n : Nat) (va sz : BitVec 32) (s : PagingState σ), IsFrame va → I s →
      (vaEnd - va).toNat < 0x1000 * n →
      (∀ s' va', ComesTo A dir vaEnd s va s' va' → kernelStart ≤ va' → ¬CanMap A dir va' s') →
      ∃ r s', mapPagesLoop A dir vaEnd n va sz s = some (r, s') ∧ I s' := by
  intro n
  induction n with
  | zero => intro va sz s _ _ hn _; exact absurd hn (by omega)
  | succ n ih =>
    intro va sz s hva h hn hno
    cases hm : mapNext A dir va s with
    | none => exact ⟨sz, _, mapPagesLoop_none hm, hstop s va h hm⟩
    | some s₁ =>
      -- the page was mapped, so it is not in the kernel half
      have hidx : pageDirIdx va < 512 := by
        by_contra hge
        exact hno s va .here (kernelStart_le_iff.mpr (by omega)) (canMap_of_mapNext hm)
      have hk := hnext s s₁ va h hidx hm
      rw [mapPagesLoop_some hm]
      by_cases hlast : va = vaEnd
      · rw [if_pos hlast]
        exact ⟨_, _, rfl, hk⟩
      · rw [if_neg hlast]
        have hne : va.toNat ≠ vaEnd.toNat := fun h => hlast (BitVec.eq_of_toNat_eq h)
        have hv := va.isLt
        have he := vaEnd.isLt
        have hstep : (0x1000 : BitVec 32).toNat = 0x1000 := rfl
        rw [IsFrame] at hva hend
        refine ih _ _ _ ?_ hk ?_ fun s' va' hc => hno s' va' (.next hlast hm hc)
        · rw [IsFrame, BitVec.toNat_add, hstep]
          omega
        · rw [BitVec.toNat_sub] at hn
          rw [BitVec.toNat_sub, BitVec.toNat_add, hstep]
          omega

/-- Writes are not forgotten. -/
theorem writes_subset_mapPage : s.writes ⊆ (pagingMapPage A dir va pa true s).2.writes := by
  by_cases hpde : IsPresent (pde dir s.mem (pageDirIdx va))
  · rw [pagingMapPage_present hpde]
    split
    · exact fun _ h => h
    · exact List.subset_cons_self _ _
  · rw [pagingMapPage_absent hpde]
    have ha : s.writes = (pageAcquire0 A s).2.writes := rfl
    split
    · rename_i s₁ hs
      rw [ha, hs]
      exact fun _ h => h
    · rename_i t s₁ hs
      rw [ha, hs]
      exact fun _ h => List.mem_cons_of_mem _ (List.mem_cons_of_mem _ (List.mem_cons_of_mem _ h))

theorem writes_subset_mapPagesLoop {r : BitVec 32} :
    ∀ (n : Nat) (va sz : BitVec 32) (s : PagingState σ),
      mapPagesLoop A dir vaEnd n va sz s = some (r, s') → s.writes ⊆ s'.writes := by
  intro n
  induction n with
  | zero => intro va sz s h; exact nomatch h
  | succ n ih =>
    intro va sz s h
    rw [mapPagesLoop] at h
    have ha : s.writes = (pageAcquire0 A s).2.writes := rfl
    split at h
    · rename_i s₁ hs
      obtain rfl := congrArg Prod.snd (Option.some.inj h)
      rw [ha, hs]
      exact fun _ h => h
    · rename_i page s₁ hs
      rw [ha, hs]
      have hsub := @writes_subset_mapPage σ A dir s₁ va (physAddr32 page)
      split at h
      · rename_i s₂ hmap
        obtain rfl := congrArg Prod.snd (Option.some.inj h)
        rw [hmap] at hsub
        exact hsub
      · rename_i s₂ hmap
        rw [hmap] at hsub
        split at h
        · obtain rfl := congrArg Prod.snd (Option.some.inj h)
          exact hsub
        · exact fun w hw => ih _ _ _ h (hsub hw)

/-- What the loop comes to is the loop again. -/
theorem mapPagesLoop_of_comesTo {r : BitVec 32} {s₁ : PagingState σ} {va₁ : BitVec 32}
    (hc : ComesTo A dir vaEnd s va s₁ va₁) :
    ∀ {n : Nat} {sz : BitVec 32}, mapPagesLoop A dir vaEnd n va sz s = some (r, s') →
      ∃ n' sz', mapPagesLoop A dir vaEnd n' va₁ sz' s₁ = some (r, s') := by
  induction hc with
  | here => exact fun h => ⟨_, _, h⟩
  | next hne hm _ ih =>
    intro n sz h
    cases n with
    | zero => exact nomatch h
    | succ n =>
      rw [mapPagesLoop_some hm, if_neg hne] at h
      exact ih h

/-- A page of the kernel half that was mapped leaves a write through its entry. -/
theorem not_isolated_of_canMap {r : BitVec 32} (hva : kernelStart ≤ va) (hc : CanMap A dir va s)
    (hl : mapPagesLoop A dir vaEnd n va sz s = some (r, s')) : ¬Isolated dir s₀ s' := by
  obtain ⟨s₁, hm, w, hw, hthrough⟩ := mapNext_of_canMap hc
  have hw' : w ∈ s'.writes := by
    cases n with
    | zero => exact nomatch hl
    | succ n =>
      rw [mapPagesLoop_some hm] at hl
      split at hl
      · obtain rfl := congrArg Prod.snd (Option.some.inj hl)
        exact hw
      · exact writes_subset_mapPagesLoop _ _ _ _ hl hw
  intro hiso
  have := (hiso.writes w hw').through _ hthrough
  have := kernelStart_le_iff.mp hva
  omega

end loop

/-- `Paging_MapPages` leaves the kernel half alone exactly when no page of it that the loop
    comes to can be mapped. -/
theorem pagingMapPages_isolated_iff {size : BitVec 32} (h : OwnsFrames A dir s) :
    (∃ r s', pagingMapPages A dir va size s = some (r, s') ∧ Isolated dir s s') ↔
      NoKernelPage A dir va size s := by
  constructor
  · rintro ⟨r, s', hr, hiso⟩ hsize s₁ va₁ hc hva hcan
    rw [pagingMapPages, if_neg hsize] at hr
    obtain ⟨n, sz, hl⟩ := mapPagesLoop_of_comesTo hc hr
    exact not_isolated_of_canMap hva hcan hl hiso
  · intro hno
    by_cases hsize : size = 0
    · exact ⟨0, s, if_pos hsize, h.keeps.isolated⟩
    · obtain ⟨r, s', hl, hk⟩ := mapPagesLoop_invariant (I := Keeps A dir s) isFrame_pageAddress
        (fun _ _ _ h hva hm => keeps_mapNext h hva hm) (fun _ _ h hm => keeps_mapStop h hm)
        (2 ^ 20) (pageAddress va) 0 s isFrame_pageAddress h.keeps
        (by have := (pageAddress (va + size - 1) - pageAddress va).isLt; omega) (hno hsize)
      exact ⟨r, s', (if_neg hsize).trans hl, hk.isolated⟩

/-! ## Section 7: Unmapping -/

/-- The pages of the user half are neither the directory nor page tables of it. -/
def PagesApart (dir : BitVec 32) (m : Memory) : Prop :=
  ∀ f, IsUserPage dir m f → f ≠ dir ∧ ¬IsUserTable dir m f

/-- The state after a page is given back and its entry is cleared. -/
def unmapped (A : FrameAllocator σ) (dir va : BitVec 32) (s : PagingState σ) : PagingState σ :=
  writeEntry (pageRelease0 A s (entryFrame (load32 s.mem (pteAddr dir va s))))
    (pteAddr dir va s) 0 (some (pageDirIdx va))

theorem pagingUnmapPage_cases :
    (pagingUnmapPage A dir va s).2 = s ∨
      (IsPresent (pde dir s.mem (pageDirIdx va)) ∧
        IsPresent (load32 s.mem (pteAddr dir va s)) ∧
        (pagingUnmapPage A dir va s).2 = unmapped A dir va s) := by
  by_cases hpde : IsPresent (pde dir s.mem (pageDirIdx va))
  · by_cases hpte : IsPresent (load32 s.mem (pteAddr dir va s))
    · refine .inr ⟨hpde, hpte, congrArg Prod.snd (?_ : _ = (true, unmapped A dir va s))⟩
      exact (if_neg (not_not.mpr hpde)).trans (if_neg (not_not.mpr hpte))
    · refine .inl (congrArg Prod.snd (?_ : _ = (false, s)))
      exact (if_neg (not_not.mpr hpde)).trans (if_pos hpte)
  · exact .inl (congrArg Prod.snd (if_pos hpde : _ = (false, s)))

section unmapped

variable (h : Keeps A dir s₀ s) (hpages : PagesApart dir s.mem) (hva : pageDirIdx va < 512)
  (hpde : IsPresent (pde dir s.mem (pageDirIdx va)))
  (hpte : IsPresent (load32 s.mem (pteAddr dir va s)))

include hpages hva hpde hpte

/-- The page that is given back is neither the directory nor a page table. -/
theorem unmapped_page :
    entryFrame (load32 s.mem (pteAddr dir va s)) ≠ dir ∧
      ¬IsUserTable dir s.mem (entryFrame (load32 s.mem (pteAddr dir va s))) :=
  hpages _ ⟨_, ⟨_, hva, hpde, rfl⟩, _, pageTabIdx_lt, hpte, rfl⟩

include h

theorem keeps_unmapped : Keeps A dir s₀ (unmapped A dir va s) := by
  obtain ⟨hdir, htable⟩ := unmapped_page hpages hva hpde hpte
  have hk := keeps_release h isFrame_entryFrame hdir htable
  have he := pde_congr (fun x hx => release_frame_of_ne (A := A) h.dirFrame h.dirHeld
    isFrame_entryFrame hdir.symm hx) (Nat.lt_trans hva (by decide))
  have hw := keeps_writeTable (v := 0) hk hva (he.symm ▸ hpde) (@pageTabIdx_lt va)
  rwa [he] at hw

/-- Every other entry of a page table is what it was. -/
theorem load32_unmapped {j : Nat} (ht : IsUserTable dir s.mem t) (hj : j < 1024)
    (hne : t ≠ entryFrame (pde dir s.mem (pageDirIdx va)) ∨ pageTabIdx va ≠ j) :
    load32 (unmapped A dir va s).mem (entryAddr t j) = load32 s.mem (entryAddr t j) := by
  obtain ⟨hdir, htable⟩ := unmapped_page hpages hva hpde hpte
  have hframe : IsFrame t := by
    obtain ⟨i, _, _, rfl⟩ := ht
    exact isFrame_entryFrame
  refine (load32_store32_of_apart ?_).trans (load32_congr fun x hx => ?_)
  · by_cases heq : t = entryFrame (pde dir s.mem (pageDirIdx va))
    · rw [heq]
      exact entries_apart hj pageTabIdx_lt (hne.resolve_left (not_not.mpr heq)).symm
    · intro x hx hx'
      exact frames_apart hframe isFrame_entryFrame heq x (inBytes_entryAddr hj hx)
        (inBytes_entryAddr pageTabIdx_lt hx')
  · refine release_frame_of_ne hframe (h.tables t ht).2.1 isFrame_entryFrame ?_
      (inBytes_entryAddr hj hx)
    rintro rfl
    exact htable ht

theorem pagesApart_unmapped : PagesApart dir (unmapped A dir va s).mem := by
  obtain ⟨hdir, htable⟩ := unmapped_page hpages hva hpde hpte
  have htables : ∀ t, IsUserTable dir (unmapped A dir va s).mem t ↔ IsUserTable dir s.mem t := by
    refine fun t => isUserTable_congr fun x hx => ?_
    refine (store32_frame fun hx' => ?_).trans
      (release_frame_of_ne h.dirFrame h.dirHeld isFrame_entryFrame hdir.symm hx)
    exact frames_apart h.dirFrame isFrame_entryFrame (h.tables _ ⟨_, hva, hpde, rfl⟩).1.symm
      x hx (inBytes_entryAddr pageTabIdx_lt hx')
  rintro f ⟨t, ht, j, hj, hp, rfl⟩
  rw [htables] at ht ⊢
  by_cases hne : t ≠ entryFrame (pde dir s.mem (pageDirIdx va)) ∨ pageTabIdx va ≠ j
  · rw [load32_unmapped h hpages hva hpde hpte ht hj hne] at hp ⊢
    exact hpages _ ⟨t, ht, j, hj, hp, rfl⟩
  · -- the entry that was cleared
    obtain ⟨rfl, rfl⟩ : t = entryFrame (pde dir s.mem (pageDirIdx va)) ∧ pageTabIdx va = j := by
      rwa [not_or, not_not, not_not] at hne
    have hzero : load32 (unmapped A dir va s).mem (pteAddr dir va s) = 0 := load32_store32
    exact absurd (hzero ▸ hp) (by decide)

end unmapped

/-- `Paging_UnmapPages` never enters the kernel half, and ends. It keeps what unmapping a page
    of the user half keeps. -/
theorem unmapPagesLoop_invariant {vaEnd : BitVec 32} {I : BitVec 32 → PagingState σ → Prop}
    (hstep : ∀ va s, I va s → va < kernelStart → va ≤ vaEnd →
      I (va + 0x1000) (pagingUnmapPage A dir va s).2) :
    ∀ (n : Nat) (va : BitVec 32) (failed : Bool) (s : PagingState σ), 0 < n →
      2 ^ 31 + 0x1000 ≤ va.toNat + 0x1000 * n → I va s →
      ∃ r s' va', unmapPagesLoop A dir vaEnd n va failed s = some (r, s') ∧ I va' s' ∧
        (kernelStart ≤ va' ∨ vaEnd < va') := by
  intro n
  induction n with
  | zero => intro va failed s hn; exact absurd hn (by omega)
  | succ n ih =>
    intro va failed s _ hn h
    by_cases hkernel : kernelStart ≤ va
    · exact ⟨true, s, va, if_pos hkernel, h, .inl hkernel⟩
    by_cases hlast : vaEnd < va
    · exact ⟨failed, s, va, (if_neg hkernel).trans (if_pos hlast), h, .inr hlast⟩
    have hlt : va.toNat < 2 ^ 31 := Nat.lt_of_not_le hkernel
    have hsize : (0x1000 : BitVec 32).toNat = 0x1000 := rfl
    have hnext : 0 < n ∧ 2 ^ 31 + 0x1000 ≤ (va + 0x1000).toNat + 0x1000 * n := by
      rw [BitVec.toNat_add, hsize]
      omega
    obtain ⟨r, s', va', hl, hk⟩ := ih (va + 0x1000) (failed || !(pagingUnmapPage A dir va s).1)
      (pagingUnmapPage A dir va s).2 hnext.1 hnext.2
      (hstep va s h (BitVec.not_le.mp hkernel) (BitVec.not_lt.mp hlast))
    exact ⟨r, s', va', ((if_neg hkernel).trans (if_neg hlast)).trans hl, hk⟩

/-- A page of the user half is unmapped. -/
theorem keeps_unmapPage (h : Keeps A dir s₀ s ∧ PagesApart dir s.mem) (hva : va < kernelStart) :
    Keeps A dir s₀ (pagingUnmapPage A dir va s).2 ∧
      PagesApart dir (pagingUnmapPage A dir va s).2.mem := by
  have hidx : pageDirIdx va < 512 := by
    have := mt kernelStart_le_iff.mpr (BitVec.not_le.mpr hva)
    omega
  obtain hs | ⟨hpde, hpte, hs⟩ := @pagingUnmapPage_cases σ A dir s va
  · rw [hs]
    exact h
  · rw [hs]
    exact ⟨keeps_unmapped h.1 h.2 hidx hpde hpte, pagesApart_unmapped h.1 h.2 hidx hpde hpte⟩

theorem pagingUnmapPages_isolated {size : BitVec 32} (h : OwnsFrames A dir s) :
    ∃ r s', pagingUnmapPages A dir va size s = some (r, s') ∧ Isolated dir s s' := by
  obtain ⟨r, s', -, hl, hk, -⟩ := unmapPagesLoop_invariant
    (I := fun _ s' => Keeps A dir s s' ∧ PagesApart dir s'.mem)
    (fun va s h hva _ => keeps_unmapPage h hva) (2 ^ 19 + 1) (pageAddress (va + 0xFFF)) false s
    (by decide) (by omega) ⟨h.keeps, h.pageApart⟩
  exact ⟨r, s', hl, hk.1.isolated⟩

/-! ## Section 8: The Calls -/

theorem run_mapPages {size : BitVec 32} :
    PagingCall.run A dir s (.mapPages va size) = some s' ↔
      ∃ r, pagingMapPages A dir va size s = some (r, s') := by
  simp only [PagingCall.run, Option.map_eq_some_iff, Prod.exists]
  exact ⟨fun ⟨r, _, hr, h⟩ => ⟨r, h ▸ hr⟩, fun ⟨r, hr⟩ => ⟨r, s', hr, rfl⟩⟩

theorem run_unmapPages {size : BitVec 32} :
    PagingCall.run A dir s (.unmapPages va size) = some s' ↔
      ∃ r, pagingUnmapPages A dir va size s = some (r, s') := by
  simp only [PagingCall.run, Option.map_eq_some_iff, Prod.exists]
  exact ⟨fun ⟨r, _, hr, h⟩ => ⟨r, h ▸ hr⟩, fun ⟨r, hr⟩ => ⟨r, s', hr, rfl⟩⟩

/-- Shifting the end point unmaps pages, or maps them. -/
theorem run_shiftEndPoint {endpoint shift : BitVec 32} :
    PagingCall.run A dir s (.shiftEndPoint endpoint shift) =
      if shift = 0 then some s
      else if shift.slt 0 then PagingCall.run A dir s (.unmapPages (endpoint + shift) (-shift))
      else PagingCall.run A dir s (.mapPages endpoint shift) := by
  simp only [PagingCall.run, processShiftEndPoint]
  split
  · rfl
  split
  · cases pagingUnmapPages A dir (endpoint + shift) (-shift) s <;> rfl
  · cases pagingMapPages A dir endpoint shift s <;> rfl

theorem run_mapPages_isolated_iff {size : BitVec 32} (h : OwnsFrames A dir s) :
    (∃ s', PagingCall.run A dir s (.mapPages va size) = some s' ∧ Isolated dir s s') ↔
      NoKernelPage A dir va size s := by
  rw [← pagingMapPages_isolated_iff h, exists_comm]
  simp only [run_mapPages, exists_and_right]

theorem run_unmapPages_isolated {size : BitVec 32} (h : OwnsFrames A dir s) :
    ∃ s', PagingCall.run A dir s (.unmapPages va size) = some s' ∧ Isolated dir s s' := by
  obtain ⟨r, s', hr, hiso⟩ := @pagingUnmapPages_isolated σ A dir s va size h
  exact ⟨s', run_unmapPages.mpr ⟨r, hr⟩, hiso⟩

/-- For every process, start address and size or shift, a call ends and leaves the kernel half
    alone if and only if no page of the kernel half that it comes to can be mapped. -/
theorem isolated_iff (A : FrameAllocator σ) (dir : BitVec 32) (s : PagingState σ)
    (c : PagingCall) (h : OwnsFrames A dir s) :
    (∃ s', c.run A dir s = some s' ∧ Isolated dir s s') ↔ c.Safe A dir s := by
  cases c with
  | mapPages va size => exact run_mapPages_isolated_iff h
  | unmapPages va size => exact iff_of_true (run_unmapPages_isolated h) trivial
  | shiftEndPoint endpoint shift =>
    rw [run_shiftEndPoint, PagingCall.Safe]
    by_cases hzero : shift = 0
    · rw [if_pos hzero]
      exact iff_of_true ⟨s, rfl, h.keeps.isolated⟩ (.inl hzero)
    rw [if_neg hzero]
    by_cases hneg : shift.slt 0
    · rw [if_pos hneg]
      exact iff_of_true (run_unmapPages_isolated h) (.inr (.inl hneg))
    · rw [if_neg hneg, run_mapPages_isolated_iff h]
      exact ⟨fun h => .inr (.inr h), fun h => (h.resolve_left hzero).resolve_left hneg⟩

/-! ## Section 9: A Concrete Process -/

/-- The frame with this number. -/
def numbered (n : BitVec 20) : BitVec 32 := n.setWidth 32 <<< 12

theorem isFrame_numbered (n : BitVec 20) : IsFrame (numbered n) := by
  rw [IsFrame, numbered, BitVec.toNat_shiftLeft, BitVec.toNat_setWidth, Nat.shiftLeft_eq]
  omega

/-- A list of the numbers of the free frames. -/
def frameList : FrameAllocator (List (BitVec 20)) where
  free l f := ∃ n ∈ l, f = numbered n
  acquire l m :=
    match l with
    | [] => (none, [], m)
    | n :: l => (some (numbered n), l.filter fun k => numbered k ≠ numbered n, m)
  release l m p :=
    let n : BitVec 20 := p.extractLsb' 12 20
    if p = numbered n then (n :: l, m) else (l, m)
  isFrame := by
    rintro l _ ⟨n, _, rfl⟩
    exact isFrame_numbered n
  acquire_free := by
    rintro (_ | ⟨n, l⟩) m f h
    · exact nomatch h
    · exact ⟨n, List.mem_cons_self, (Option.some.inj h).symm⟩
  acquire_rest := by
    rintro (_ | ⟨n, l⟩) m f ⟨k, hk, rfl⟩
    · exact absurd hk List.not_mem_nil
    · obtain ⟨hk, hne⟩ := List.mem_filter.mp hk
      exact ⟨⟨k, List.mem_cons_of_mem _ hk, rfl⟩,
        fun h => of_decide_eq_true hne (Option.some.inj h).symm⟩
  acquire_frame := by
    rintro (_ | ⟨n, l⟩) m x _ <;> rfl
  release_rest := by
    intro l m p f h
    dsimp only at h
    split at h
    · rename_i hp
      obtain ⟨k, hk, rfl⟩ := h
      rcases List.mem_cons.mp hk with rfl | hk
      · exact .inr hp.symm
      · exact .inl ⟨k, hk, rfl⟩
    · exact .inl h
  release_frame := by
    intro l m p x _ _
    dsimp only
    split <;> rfl

/-- The directory of a process without pages. The kernel half is as `Initialize_Memory` makes
    it. -/
def bareDirectory : BitVec 32 := 0x80200000

def bareEntry (i : BitVec 32) : BitVec 32 :=
  if i < 512 then 0 else if i < 960 then (i - 512) <<< 22 ||| 0x83 else i <<< 22 ||| 0x83

def bareMemory : Memory := fun x =>
  let d := x - bareDirectory
  if d < 0x1000 then (bareEntry (d >>> 2)).extractLsb' (8 * (d &&& 3).toNat) 8 else 0

def bareProcess : PagingState (List (BitVec 20)) := ⟨bareMemory, [0x80300, 0x80301], [], [], []⟩

theorem bareMemory_low {x : BitVec 32} (hx : InBytes bareDirectory 0x800 x) :
    bareMemory x = 0 := by
  rw [inBytes_iff] at hx
  have hd : x - bareDirectory < 0x1000 := Nat.lt_of_lt_of_le hx (by decide)
  have hi : (x - bareDirectory) >>> 2 < (512 : BitVec 32) := by
    have h512 : (512 : BitVec 32).toNat = 512 := rfl
    rw [BitVec.lt_def, BitVec.toNat_ushiftRight, Nat.shiftRight_eq_div_pow, h512]
    omega
  have he : bareEntry ((x - bareDirectory) >>> 2) = 0 := if_pos hi
  refine (if_pos hd).trans ?_
  rw [he]
  exact BitVec.extractLsb'_zero

theorem not_isUserTable_bareProcess (t : BitVec 32) :
    ¬IsUserTable bareDirectory bareMemory t := by
  rintro ⟨i, hi, hp, _⟩
  have hzero : pde bareDirectory bareMemory i = load32 (fun _ => 0) (entryAddr bareDirectory i) :=
    load32_congr fun x hx => bareMemory_low (hx.of_add (by omega) (by decide))
  refine hp ?_
  rw [hzero]
  show ((0 : BitVec 8) ++ (0 : BitVec 8) ++ (0 : BitVec 8) ++ (0 : BitVec 8) : BitVec 32) &&& 1 = 0
  decide

theorem ownsFrames_bareProcess : OwnsFrames frameList bareDirectory bareProcess := by
  refine ⟨?_, ?_, ?_, ?_, rfl, rfl⟩
  · rw [IsFrame]
    decide
  · rintro ⟨n, hn, h⟩
    rcases List.mem_cons.mp hn with rfl | hn
    · exact absurd h (by decide)
    · rw [List.mem_singleton.mp hn] at h
      exact absurd h (by decide)
  · intro t ht
    exact absurd ht (not_isUserTable_bareProcess t)
  · rintro f ⟨t, ht, _⟩
    exact absurd ht (not_isUserTable_bareProcess t)

/-- A page of the user half is mapped. -/
theorem isolated_iff_userPage : ∃ s',
    PagingCall.run frameList bareDirectory bareProcess (.mapPages 0x1000 1) = some s' ∧
      Isolated bareDirectory bareProcess s' :=
  (isolated_iff frameList bareDirectory bareProcess (.mapPages 0x1000 1)
    ownsFrames_bareProcess).mpr fun _ s' va' hc hva => by
      cases hc with
      | here => exact absurd hva (by decide)
      | next hne => exact absurd (by decide) hne

/-- A page at `0x80400000` is entered in memory, in the frame that the 4 MB entry maps. -/
theorem not_forall_isolated : ¬∀ c : PagingCall, OwnsFrames frameList bareDirectory bareProcess →
    ∃ s', c.run frameList bareDirectory bareProcess = some s' ∧
      Isolated bareDirectory bareProcess s' := by
  intro h
  have hno := (run_mapPages_isolated_iff ownsFrames_bareProcess).mp
    (h (.mapPages 0x80400000 1) ownsFrames_bareProcess)
  refine hno (by decide) _ _ .here (by decide) ⟨numbered 0x80300, _, rfl, ?_⟩
  exact (if_pos (by decide +kernel)).mpr (by decide +kernel)

end Avos
