import Avos.Paging.Terminate

/-! # Copying an Address Space

  `Paging_Clone` gives a new process, whose user half is empty, a copy of the user half of its
  parent: a page table for each entry of the directory, a page for each entry of a page table.

  The page tables are filled only where the parent's have an entry, and they are not cleared
  before: an entry that the parent does not have is whatever the frame held. So the copy is
  one exactly when each frame that becomes a page table is zero at those entries
  (`copiesSpace_iff`).
-/

open ByteMemory

namespace Avos

variable {σ : Type*} {A : FrameAllocator σ}

/-! ## Section 1: The Code -/

/-- `PAGEOFFSET`. -/
def pageOffset (a : BitVec 32) : BitVec 32 := a &&& 0xFFF

/-- `memmove(page, src, PAGESIZE)`. -/
def copyPage (s : PagingState σ) (page src : BitVec 32) : PagingState σ :=
  { s with
    mem := memmove s.mem page src 0x1000, writes := ⟨page, 0x1000, none⟩ :: s.writes }

/-- Enter a page in a page table of the clone, and copy it. -/
def clonePage (ptab table page : BitVec 32) (j : Nat) (s : PagingState σ) : PagingState σ :=
  let s := writeEntry s (entryAddr table j)
    (physAddr32 page + pageOffset (load32 s.mem (entryAddr ptab j))) none
  copyPage s page (entryFrame (load32 s.mem (entryAddr ptab j)))

/-- The inner loop of `Paging_Clone`, for the `n` entries from entry `j` on. -/
def cloneTableLoop (A : FrameAllocator σ) (ptab table : BitVec 32) : Nat → Nat →
    PagingState σ → Bool × PagingState σ
  | 0, _, s => (true, s)
  | n + 1, j, s =>
      if load32 s.mem (entryAddr ptab j) = 0 then cloneTableLoop A ptab table n (j + 1) s
      else
        match pageAcquire0 A s with
        | (none, s) => (false, s)
        | (some page, s) =>
            cloneTableLoop A ptab table n (j + 1) (clonePage ptab table page j s)

/-- Enter a page table in the directory of the clone. -/
def cloneEntry (dir clone : BitVec 32) (i : Nat) (table : BitVec 32) (s : PagingState σ) :
    PagingState σ :=
  writeEntry s (entryAddr clone i) (physAddr32 table + pageOffset (load32 s.mem (entryAddr dir i)))
    none

/-- One round of the outer loop of `Paging_Clone`, for entry `i`. -/
def cloneTable (A : FrameAllocator σ) (dir clone : BitVec 32) (i : Nat) (s : PagingState σ) :
    Bool × PagingState σ :=
  if load32 s.mem (entryAddr dir i) = 0 then (true, s)
  else
    match pageAcquire0 A s with
    | (none, s) => (false, s)
    | (some table, s) =>
        let s := cloneEntry dir clone i table s
        cloneTableLoop A (entryFrame (load32 s.mem (entryAddr dir i))) table 1024 0 s

/-- The outer loop, for the `n` entries from entry `i` on. -/
def cloneLoop (A : FrameAllocator σ) (dir clone : BitVec 32) : Nat → Nat → PagingState σ →
    Bool × PagingState σ
  | 0, _, s => (true, s)
  | n + 1, i, s =>
      match cloneTable A dir clone i s with
      | (false, s) => (false, s)
      | (true, s) => cloneLoop A dir clone n (i + 1) s

/-- `Paging_Clone`. -/
def pagingClone (A : FrameAllocator σ) (dir clone : BitVec 32) (s : PagingState σ) :
    Option (Bool × PagingState σ) :=
  match cloneLoop A dir clone 512 0 s with
  | (true, s) => some (true, s)
  | (false, s) => (pagingTerminate A clone s).map fun s => (false, s)

/-! ## Section 2: The Property -/

/-- The frames of an address space by what its entries say, as `Paging_Clone` and
    `Paging_IsPageMapped` test them: an entry of a page table counts when it is not zero. -/
def spaceFrame (dir : BitVec 32) (m : Memory) : Owner → Option (BitVec 32)
  | .directory => some dir
  | .table i => if i < 512 ∧ pde dir m i ≠ 0 then some (entryFrame (pde dir m i)) else none
  | .page k =>
      if k < 2 ^ 19 ∧ pde dir m (k / 1024) ≠ 0 ∧ pte dir m k ≠ 0 then
        some (entryFrame (pte dir m k))
      else none

/-- A parent and a clone when `Paging_Clone` is called: the parent's frames are in use and are
    not the clone's directory, which has no entries in its user half. A directory entry is
    zero or present. The page at physical address 0 is not one that is handed out. -/
structure Cloneable (A : FrameAllocator σ) (dir clone : BitVec 32) (s : PagingState σ) : Prop where
  dirFrame : IsFrame dir
  held : ∀ o f, spaceFrame dir s.mem o = some f → ¬A.free s.frames f
  present : ∀ i < 512, pde dir s.mem i ≠ 0 → IsPresent (pde dir s.mem i)
  cloneFrame : IsFrame clone
  cloneHeld : ¬A.free s.frames clone
  cloneApart : ∀ o, spaceFrame dir s.mem o ≠ some clone
  cloneEmpty : ∀ i < 512, pde clone s.mem i = 0
  pageZero : ¬A.free s.frames kernelStart

/-- From `s` to `s'` the clone has become a copy of the parent. -/
structure CopiesSpace (dir clone : BitVec 32) (s s' : PagingState σ) : Prop where
  mapped : ∀ va < kernelStart, pagingIsPageMapped clone va s' = pagingIsPageMapped dir va s
  tableFlags : ∀ i < 512, pageOffset (pde clone s'.mem i) = pageOffset (pde dir s.mem i)
  pageFlags : ∀ k f, spaceFrame dir s.mem (.page k) = some f →
    pageOffset (pte clone s'.mem k) = pageOffset (pte dir s.mem k)
  contents : ∀ k f g, spaceFrame dir s.mem (.page k) = some f →
    spaceFrame clone s'.mem (.page k) = some g → ∀ x < 0x1000,
      s'.mem (g + BitVec.ofNat 32 x) = s.mem (f + BitVec.ofNat 32 x)
  distinct : ∀ o o' f, spaceFrame clone s'.mem o = some f → spaceFrame clone s'.mem o' = some f →
    o = o'
  apart : ∀ o o' f, spaceFrame clone s'.mem o = some f → spaceFrame dir s.mem o' ≠ some f
  parent : ∀ o f x, spaceFrame dir s.mem o = some f → InBytes f 0x1000 x → s'.mem x = s.mem x

/-- The frame that becomes the page table of entry `i` is zero, when it is handed out,
    wherever the parent's page table is. -/
def HandsOutClean (A : FrameAllocator σ) (dir : BitVec 32) (i : Nat) (s : PagingState σ) : Prop :=
  pde dir s.mem i ≠ 0 → ∀ table s₁, pageAcquire0 A s = (some table, s₁) →
    ∀ j < 1024, load32 s₁.mem (entryAddr (entryFrame (pde dir s₁.mem i)) j) = 0 →
      load32 s₁.mem (entryAddr table j) = 0

/-- That holds in each round of the outer loop. -/
def AllClean (A : FrameAllocator σ) (dir clone : BitVec 32) : Nat → Nat → PagingState σ → Prop
  | 0, _, _ => True
  | n + 1, i, s =>
      HandsOutClean A dir i s ∧
        ∀ s', cloneTable A dir clone i s = (true, s') → AllClean A dir clone n (i + 1) s'

/-! ## Section 3: Entries -/

section entries

variable {f e : BitVec 32} {x : BitVec 32}

theorem toNat_pageOffset : (pageOffset e).toNat = e.toNat % 0x1000 := by
  rw [pageOffset, BitVec.toNat_and]
  exact Nat.and_two_pow_sub_one_eq_mod _ 12

/-- The entry of the clone points to the new frame, and has the flags of the parent's. -/
theorem toNat_cloned (hf : IsFrame f) :
    (physAddr32 f).toNat % 0x1000 = 0 ∧
      (physAddr32 f + pageOffset e).toNat = (physAddr32 f).toNat + e.toNat % 0x1000 := by
  have hoff : (0x80000000 : BitVec 32).toNat = 2 ^ 31 := rfl
  have hlt := f.isLt
  rw [IsFrame] at hf
  rw [BitVec.toNat_add, toNat_pageOffset, physAddr32, BitVec.toNat_sub, hoff]
  omega

theorem entryFrame_cloned (hf : IsFrame f) : entryFrame (physAddr32 f + pageOffset e) = f := by
  obtain ⟨hmod, hsum⟩ := toNat_cloned (e := e) hf
  have haddr : pageAddress (physAddr32 f + pageOffset e) = physAddr32 f := by
    refine BitVec.eq_of_toNat_eq ?_
    rw [toNat_pageAddress, hsum]
    omega
  rw [entryFrame, haddr, kernAddr32, physAddr32, BitVec.sub_add_cancel]

theorem pageOffset_cloned (hf : IsFrame f) :
    pageOffset (physAddr32 f + pageOffset e) = pageOffset e := by
  obtain ⟨hmod, hsum⟩ := toNat_cloned (e := e) hf
  refine BitVec.eq_of_toNat_eq ?_
  rw [toNat_pageOffset, toNat_pageOffset, hsum]
  omega

theorem cloned_ne_zero (hf : IsFrame f) (hzero : f ≠ kernelStart) :
    physAddr32 f + pageOffset e ≠ 0 := by
  intro h
  have hframe := entryFrame_cloned (e := e) hf
  rw [h] at hframe
  exact hzero hframe.symm

theorem isPresent_iff_of_pageOffset {e' : BitVec 32} (h : pageOffset e = pageOffset e') :
    IsPresent e ↔ IsPresent e' := by
  have hbit : ∀ a : BitVec 32, pageOffset a &&& 1 = a &&& 1 := fun a => by
    rw [pageOffset, BitVec.and_assoc]
    rfl
  rw [IsPresent, IsPresent, ← hbit e, ← hbit e', h]

end entries

/-! ## Section 4: The Invariant -/

/-- What the clone is made of: a frame for each page table and page that is copied, and the
    words that were in the frames of the page tables before. -/
structure CloneMap where
  frame : Owner → BitVec 32
  stale : Nat → BitVec 32

/-- What has been copied when the loops are done with the first `t` page tables and the first
    `n` pages. -/
def Copied (dir : BitVec 32) (m : Memory) (t n : Nat) : Owner → Prop
  | .directory => False
  | .table i => i < t ∧ pde dir m i ≠ 0
  | .page k => k < n ∧ pde dir m (k / 1024) ≠ 0 ∧ pte dir m k ≠ 0

/-- What holds at every point of the loops that began in `s₀`. -/
structure Cloning (A : FrameAllocator σ) (dir clone : BitVec 32) (s₀ : PagingState σ)
    (g : CloneMap) (t n : Nat) (s : PagingState σ) : Prop where
  le : n ≤ 1024 * t
  parent : ∀ o f x, spaceFrame dir s₀.mem o = some f → InBytes f 0x1000 x → s.mem x = s₀.mem x
  free : ∀ f, A.free s.frames f → A.free s₀.frames f
  fresh : ∀ o, Copied dir s₀.mem t n o →
    IsFrame (g.frame o) ∧ A.free s₀.frames (g.frame o) ∧ ¬A.free s.frames (g.frame o)
  injective : ∀ o o', Copied dir s₀.mem t n o → Copied dir s₀.mem t n o' →
    g.frame o = g.frame o' → o = o'
  entries : ∀ i < 512, pde clone s.mem i =
    if i < t ∧ pde dir s₀.mem i ≠ 0 then
      physAddr32 (g.frame (.table i)) + pageOffset (pde dir s₀.mem i)
    else 0
  words : ∀ k, Copied dir s₀.mem t n (.table (k / 1024)) →
    load32 s.mem (entryAddr (g.frame (.table (k / 1024))) (k % 1024)) =
      if k < n ∧ pte dir s₀.mem k ≠ 0 then
        physAddr32 (g.frame (.page k)) + pageOffset (pte dir s₀.mem k)
      else g.stale k
  contents : ∀ k, Copied dir s₀.mem t n (.page k) → ∀ x < 0x1000,
    s.mem (g.frame (.page k) + BitVec.ofNat 32 x) =
      s₀.mem (entryFrame (pte dir s₀.mem k) + BitVec.ofNat 32 x)

section cloning

variable {dir clone : BitVec 32} {s₀ s s' : PagingState σ} {g : CloneMap} {t n : Nat}
  {m : Memory} {f p x : BitVec 32} {i j k : Nat} {o : Owner}

/-- The frames that the loops must not change by accident. -/
def Involved (dir clone : BitVec 32) (m : Memory) (g : CloneMap) (t n : Nat) (f : BitVec 32) :
    Prop :=
  (∃ o, spaceFrame dir m o = some f) ∨ f = clone ∨ ∃ o, Copied dir m t n o ∧ f = g.frame o

theorem Cloneable.isFrame (h : Cloneable A dir clone s) (hf : spaceFrame dir s.mem o = some f) :
    IsFrame f := by
  cases o with
  | directory =>
    obtain rfl : dir = f := Option.some.inj hf
    exact h.dirFrame
  | table i =>
    rw [spaceFrame] at hf
    split at hf
    · rw [← Option.some.inj hf]
      exact isFrame_entryFrame
    · cases hf
  | page k =>
    rw [spaceFrame] at hf
    split at hf
    · rw [← Option.some.inj hf]
      exact isFrame_entryFrame
    · cases hf

theorem Cloning.isFrame (h : Cloning A dir clone s₀ g t n s) (hp : Cloneable A dir clone s₀)
    (hf : Involved dir clone s₀.mem g t n f) : IsFrame f := by
  rcases hf with ⟨o, ho⟩ | rfl | ⟨o, ho, rfl⟩
  · exact hp.isFrame ho
  · exact hp.cloneFrame
  · exact (h.fresh o ho).1

theorem Cloning.held (h : Cloning A dir clone s₀ g t n s) (hp : Cloneable A dir clone s₀)
    (hf : Involved dir clone s₀.mem g t n f) : ¬A.free s.frames f := by
  rcases hf with ⟨o, ho⟩ | rfl | ⟨o, ho, rfl⟩
  · exact fun hfree => hp.held o f ho (h.free f hfree)
  · exact fun hfree => hp.cloneHeld (h.free f hfree)
  · exact (h.fresh o ho).2.2

/-- At the beginning nothing has been copied. -/
theorem Cloneable.cloning (h : Cloneable A dir clone s) : Cloning A dir clone s g 0 0 s := by
  have hnone : ∀ o, ¬Copied dir s.mem 0 0 o := by
    intro o ho
    cases o with
    | directory => exact ho
    | table i => exact absurd ho.1 (Nat.not_lt_zero i)
    | page k => exact absurd ho.1 (Nat.not_lt_zero k)
  refine ⟨Nat.zero_le _, fun _ _ _ _ _ => rfl, fun _ hf => hf, fun o ho => absurd ho (hnone o),
    fun o _ ho => absurd ho (hnone o), fun i hi => ?_, fun k hk => absurd hk (hnone _),
    fun k hk => absurd hk (hnone _)⟩
  rw [if_neg fun h => Nat.not_lt_zero i h.1]
  exact h.cloneEmpty i hi

/-- A step that leaves the frames involved alone. -/
theorem Cloning.of_frames (h : Cloning A dir clone s₀ g t n s)
    (hmem : ∀ f, Involved dir clone s₀.mem g t n f → ∀ x, InBytes f 0x1000 x → s'.mem x = s.mem x)
    (hfree : ∀ f, A.free s'.frames f → A.free s.frames f) : Cloning A dir clone s₀ g t n s' where
  le := h.le
  parent o f x ho hx := (hmem f (.inl ⟨o, ho⟩) x hx).trans (h.parent o f x ho hx)
  free f hf := h.free f (hfree f hf)
  fresh o ho := ⟨(h.fresh o ho).1, (h.fresh o ho).2.1, fun hf => (h.fresh o ho).2.2 (hfree _ hf)⟩
  injective := h.injective
  entries i hi := (pde_congr (hmem clone (.inr (.inl rfl))) (by omega)).trans (h.entries i hi)
  words k hk := (load32_congr fun x hx => hmem _ (.inr (.inr ⟨_, hk, rfl⟩)) x
    (inBytes_entryAddr (Nat.mod_lt _ (by decide)) hx)).trans (h.words k hk)
  contents k hk x hx := (hmem _ (.inr (.inr ⟨_, hk, rfl⟩)) _
    (inBytes_add hx (by decide))).trans (h.contents k hk x hx)

theorem Cloning.after_acquire (h : Cloning A dir clone s₀ g t n s) (hp : Cloneable A dir clone s₀) :
    Cloning A dir clone s₀ g t n (pageAcquire0 A s).2 := by
  refine h.of_frames (fun f hf x hx => ?_) fun f hf => (A.acquire_rest s.frames s.mem f hf).1
  exact A.acquire_frame s.frames s.mem x (not_inBytes_of_held (h.isFrame hp hf) (h.held hp hf) hx)

/-- A frame that is handed out is not involved yet. -/
theorem Cloning.acquire (h : Cloning A dir clone s₀ g t n s) (hp : Cloneable A dir clone s₀)
    (ha : pageAcquire0 A s = (some f, s')) :
    Cloning A dir clone s₀ g t n s' ∧ ¬Involved dir clone s₀.mem g t n f ∧ IsFrame f ∧
      A.free s₀.frames f ∧ ¬A.free s'.frames f := by
  obtain rfl : (pageAcquire0 A s).2 = s' := by rw [ha]
  have hf : (A.acquire s.frames s.mem).1 = some f := congrArg Prod.fst ha
  have hfree := A.acquire_free s.frames s.mem f hf
  refine ⟨h.after_acquire hp, fun hin => h.held hp hin hfree, A.isFrame s.frames f hfree,
    h.free f hfree, fun hf' => ?_⟩
  exact (A.acquire_rest s.frames s.mem f hf').2 hf

/-- The parent's entries are what they were. -/
theorem Cloning.pde_eq (h : Cloning A dir clone s₀ g t n s) (hi : i < 512) :
    pde dir s.mem i = pde dir s₀.mem i :=
  pde_congr (fun x hx => h.parent .directory dir x rfl hx) (by omega)

theorem Cloning.pte_eq (h : Cloning A dir clone s₀ g t n s) (hi : i < 512)
    (hpde : pde dir s₀.mem i ≠ 0) (hj : j < 1024) :
    load32 s.mem (entryAddr (entryFrame (pde dir s₀.mem i)) j) =
      load32 s₀.mem (entryAddr (entryFrame (pde dir s₀.mem i)) j) :=
  load32_congr fun x hx => h.parent (.table i) _ x (if_pos ⟨hi, hpde⟩) (inBytes_entryAddr hj hx)

/-! ### The page tables -/

/-- An entry of the directory that is zero is passed over. -/
theorem Cloning.skip_table (h : Cloning A dir clone s₀ g t (1024 * t) s)
    (hpde : pde dir s₀.mem t = 0) : Cloning A dir clone s₀ g (t + 1) (1024 * (t + 1)) s := by
  have hcopied : ∀ o, Copied dir s₀.mem (t + 1) (1024 * (t + 1)) o →
      Copied dir s₀.mem t (1024 * t) o := by
    intro o ho
    cases o with
    | directory => exact ho
    | table i =>
      refine ⟨Nat.lt_of_le_of_ne (Nat.le_of_lt_succ ho.1) fun heq => ?_, ho.2⟩
      exact ho.2 (heq ▸ hpde)
    | page k =>
      refine ⟨?_, ho.2⟩
      by_contra hk
      have hlt := ho.1
      have heq : k / 1024 = t := by omega
      exact ho.2.1 (heq ▸ hpde)
  refine ⟨Nat.le_refl _, h.parent, h.free, fun o ho => h.fresh o (hcopied o ho),
    fun o o' ho ho' => h.injective o o' (hcopied o ho) (hcopied o' ho'), fun i hi => ?_,
    fun k hk => ?_, fun k hk => h.contents k (hcopied _ hk)⟩
  · have hiff : (i < t + 1 ∧ pde dir s₀.mem i ≠ 0) ↔ (i < t ∧ pde dir s₀.mem i ≠ 0) := by
      refine ⟨fun ⟨hlt, hne⟩ => ⟨?_, hne⟩, fun ⟨hlt, hne⟩ => ⟨by omega, hne⟩⟩
      refine Nat.lt_of_le_of_ne (Nat.le_of_lt_succ hlt) fun heq => ?_
      exact hne (heq ▸ hpde)
    simp only [h.entries i hi, hiff]
  · have hlt := (hcopied _ hk).1
    have hiff : (k < 1024 * (t + 1) ∧ pte dir s₀.mem k ≠ 0) ↔
        (k < 1024 * t ∧ pte dir s₀.mem k ≠ 0) :=
      ⟨fun ⟨_, hne⟩ => ⟨by omega, hne⟩, fun ⟨_, hne⟩ => ⟨by omega, hne⟩⟩
    simp only [h.words k (hcopied _ hk), hiff]

/-- The map with a new page table, whose words are as they are. -/
def CloneMap.enter (g : CloneMap) (t : Nat) (table : BitVec 32) (m : Memory) : CloneMap where
  frame o := if o = .table t then table else g.frame o
  stale k := if k / 1024 = t then load32 m (entryAddr table (k % 1024)) else g.stale k

/-- A frame that is not involved becomes the page table of an entry. -/
theorem Cloning.enter_table {table : BitVec 32} (h : Cloning A dir clone s₀ g t (1024 * t) s)
    (hp : Cloneable A dir clone s₀) (ht : t < 512) (hpde : pde dir s₀.mem t ≠ 0)
    (hnew : ¬Involved dir clone s₀.mem g t (1024 * t) table) (hframe : IsFrame table)
    (hfree : A.free s₀.frames table) (hheld : ¬A.free s.frames table) :
    Cloning A dir clone s₀ (g.enter t table s.mem) (t + 1) (1024 * t)
      (cloneEntry dir clone t table s) := by
  have hne : table ≠ clone := fun heq => hnew (.inr (.inl heq))
  have hother : ∀ f, IsFrame f → f ≠ clone → ∀ x, InBytes f 0x1000 x →
      (cloneEntry dir clone t table s).mem x = s.mem x := by
    intro f hf hne x hx
    refine store32_frame fun hx' => ?_
    exact frames_apart hf hp.cloneFrame hne x hx (inBytes_entryAddr (by omega) hx')
  have hcopied : ∀ o, Copied dir s₀.mem (t + 1) (1024 * t) o →
      o = .table t ∨ o ≠ .table t ∧ Copied dir s₀.mem t (1024 * t) o := by
    intro o ho
    by_cases heq : o = .table t
    · exact .inl heq
    · refine .inr ⟨heq, ?_⟩
      cases o with
      | directory => exact ho
      | table i => exact ⟨Nat.lt_of_le_of_ne (Nat.le_of_lt_succ ho.1) fun h => heq (h ▸ rfl), ho.2⟩
      | page k => exact ho
  have hself : (g.enter t table s.mem).frame (.table t) = table := if_pos rfl
  have hrest : ∀ o, o ≠ .table t → (g.enter t table s.mem).frame o = g.frame o :=
    fun o ho => if_neg ho
  have hclone : ∀ o, Copied dir s₀.mem t (1024 * t) o → g.frame o ≠ clone := fun o ho heq =>
    hp.cloneHeld (heq ▸ (h.fresh o ho).2.1)
  have hvalue : load32 s.mem (entryAddr dir t) = pde dir s₀.mem t := h.pde_eq ht
  refine ⟨by omega, fun o f x ho hx => ?_, h.free, fun o ho => ?_, fun o o' ho ho' heq => ?_,
    fun i hi => ?_, fun k hk => ?_, fun k hk x hx => ?_⟩
  · rw [hother f (hp.isFrame ho) (fun heq => hp.cloneApart o (heq ▸ ho)) x hx]
    exact h.parent o f x ho hx
  · rcases hcopied o ho with rfl | ⟨hne, ho⟩
    · rw [hself]
      exact ⟨hframe, hfree, hheld⟩
    · rw [hrest o hne]
      exact h.fresh o ho
  · rcases hcopied o ho with rfl | ⟨hne, ho⟩ <;> rcases hcopied o' ho' with rfl | ⟨hne', ho'⟩
    · rfl
    · rw [hself, hrest o' hne'] at heq
      exact absurd (.inr (.inr ⟨o', ho', heq⟩)) hnew
    · rw [hself, hrest o hne] at heq
      exact absurd (.inr (.inr ⟨o, ho, heq.symm⟩)) hnew
    · rw [hrest o hne, hrest o' hne'] at heq
      exact h.injective o o' ho ho' heq
  · by_cases hit : t = i
    · subst hit
      rw [if_pos ⟨Nat.lt_succ_self t, hpde⟩, hself, ← hvalue]
      exact pde_writeEntry
    · rw [hrest _ fun heq => hit (Owner.table.inj heq).symm]
      have hiff : (i < t + 1 ∧ pde dir s₀.mem i ≠ 0) ↔ (i < t ∧ pde dir s₀.mem i ≠ 0) :=
        ⟨fun ⟨_, hne⟩ => ⟨by omega, hne⟩, fun ⟨_, hne⟩ => ⟨by omega, hne⟩⟩
      simp only [hiff]
      exact (pde_writeEntry_ne (by omega) (by omega) hit).trans (h.entries i hi)
  · have hload : ∀ f, IsFrame f → f ≠ clone →
        load32 (cloneEntry dir clone t table s).mem (entryAddr f (k % 1024)) =
          load32 s.mem (entryAddr f (k % 1024)) := fun f hf hne =>
      load32_congr fun x hx => hother f hf hne x
        (inBytes_entryAddr (Nat.mod_lt _ (by decide)) hx)
    rcases hcopied _ hk with heq | ⟨hkt, hk⟩
    · -- the new page table has none of its pages yet
      have hdiv : k / 1024 = t := Owner.table.inj heq
      rw [if_neg fun h => absurd h.1 (by omega), heq, hself, hload table hframe hne]
      exact (if_pos hdiv).symm
    · have hdiv : k / 1024 ≠ t := fun heq => hkt (congrArg Owner.table heq)
      have hstale : (g.enter t table s.mem).stale k = g.stale k := if_neg hdiv
      rw [hrest _ hkt, hload _ (h.fresh _ hk).1 (hclone _ hk), h.words k hk, hstale,
        hrest _ (by simp : Owner.page k ≠ .table t)]
  · have hk' : Copied dir s₀.mem t (1024 * t) (.page k) := hk
    rw [hrest _ (by simp : Owner.page k ≠ .table t),
      hother _ (h.fresh _ hk').1 (hclone _ hk') _ (inBytes_add hx (by decide))]
    exact h.contents k hk' x hx

/-! ### The pages -/

/-- An entry of a page table that is zero is passed over. -/
theorem Cloning.skip_page (h : Cloning A dir clone s₀ g t n s) (hn : n < 1024 * t)
    (hpte : pte dir s₀.mem n = 0) : Cloning A dir clone s₀ g t (n + 1) s := by
  have hne : ∀ k, pte dir s₀.mem k ≠ 0 → k < n + 1 → k < n := fun k hk hlt =>
    Nat.lt_of_le_of_ne (Nat.le_of_lt_succ hlt) fun heq => hk (heq ▸ hpte)
  have hcopied : ∀ o, Copied dir s₀.mem t (n + 1) o → Copied dir s₀.mem t n o := by
    intro o ho
    cases o with
    | directory => exact ho
    | table i => exact ho
    | page k => exact ⟨hne k ho.2.2 ho.1, ho.2⟩
  refine ⟨hn, h.parent, h.free, fun o ho => h.fresh o (hcopied o ho),
    fun o o' ho ho' => h.injective o o' (hcopied o ho) (hcopied o' ho'), h.entries, fun k hk => ?_,
    fun k hk => h.contents k (hcopied _ hk)⟩
  have hiff : (k < n + 1 ∧ pte dir s₀.mem k ≠ 0) ↔ (k < n ∧ pte dir s₀.mem k ≠ 0) :=
    ⟨fun ⟨hlt, hk⟩ => ⟨hne k hk hlt, hk⟩, fun ⟨hlt, hk⟩ => ⟨by omega, hk⟩⟩
  simp only [h.words k hk, hiff]

/-- The map with a new page. -/
def CloneMap.copy (g : CloneMap) (n : Nat) (page : BitVec 32) : CloneMap where
  frame o := if o = .page n then page else g.frame o
  stale := g.stale

theorem CloneMap.copy_table {page : BitVec 32} :
    (g.copy n page).frame (.table i) = g.frame (.table i) := by
  show (if Owner.table i = .page n then page else g.frame (.table i)) = g.frame (.table i)
  exact if_neg (by simp)

theorem copyPage_frame {src : BitVec 32} (hx : ¬InBytes p 0x1000 x) :
    (copyPage s p src).mem x = s.mem x := onlyIn_memmove x hx

@[simp] theorem copyPage_frames {src : BitVec 32} : (copyPage s p src).frames = s.frames := by
  rw [copyPage]

theorem copyPage_page {src : BitVec 32} {y : Nat} (hp : IsFrame p) (hsrc : IsFrame src)
    (hy : y < 0x1000) : (copyPage s p src).mem (p + BitVec.ofNat 32 y) =
      s.mem (src + BitVec.ofNat 32 y) := by
  have hsize : (0x1000 : BitVec 32).toNat = 0x1000 := rfl
  have hp' := p.isLt
  have hsrc' := src.isLt
  rw [IsFrame] at hp hsrc
  have hmove := memmove_eq s.mem p src 0x1000 (by omega) (by omega)
  refine (congrFun hmove _).trans ((if_pos (inBytes_add hy (by decide))).trans ?_)
  rw [BitVec.add_comm p, BitVec.add_sub_cancel]

/-- A frame that is not involved becomes the copy of a page. -/
theorem Cloning.copy_page (h : Cloning A dir clone s₀ g t n s) (hp : Cloneable A dir clone s₀)
    (ht : t ≤ 512) (hn : n < 1024 * t) (hpde : pde dir s₀.mem (n / 1024) ≠ 0)
    (hpte : pte dir s₀.mem n ≠ 0) (hnew : ¬Involved dir clone s₀.mem g t n p) (hframe : IsFrame p)
    (hfree : A.free s₀.frames p) (hheld : ¬A.free s.frames p) :
    Cloning A dir clone s₀ (g.copy n p) t (n + 1)
      (clonePage (entryFrame (pde dir s₀.mem (n / 1024))) (g.frame (.table (n / 1024))) p
        (n % 1024) s) := by
  have hmod : n % 1024 < 1024 := Nat.mod_lt _ (by decide)
  have htable : Copied dir s₀.mem t n (.table (n / 1024)) := ⟨by omega, hpde⟩
  obtain ⟨htframe, htfree, -⟩ := h.fresh _ htable
  have hsrc : spaceFrame dir s₀.mem (.page n) = some (entryFrame (pte dir s₀.mem n)) :=
    if_pos ⟨by omega, hpde, hpte⟩
  -- the parent's frames are not those of the clone
  have hparent : ∀ o f, spaceFrame dir s₀.mem o = some f →
      f ≠ g.frame (.table (n / 1024)) ∧ f ≠ p := by
    intro o f ho
    refine ⟨?_, ?_⟩
    · rintro rfl
      exact hp.held o _ ho htfree
    · rintro rfl
      exact hp.held o _ ho hfree
  have hpage : p ≠ g.frame (.table (n / 1024)) := fun heq => hnew (.inr (.inr ⟨_, htable, heq⟩))
  have hread : load32 s.mem (entryAddr (entryFrame (pde dir s₀.mem (n / 1024))) (n % 1024)) =
      pte dir s₀.mem n := h.pte_eq (by omega) hpde hmod
  -- what the two writes leave
  obtain ⟨s₁, hs₁⟩ : ∃ s₁, s₁ = writeEntry s
      (entryAddr (g.frame (.table (n / 1024))) (n % 1024))
      (physAddr32 p + pageOffset (pte dir s₀.mem n)) none := ⟨_, rfl⟩
  have hwrite : ∀ f, IsFrame f → f ≠ g.frame (.table (n / 1024)) → ∀ x, InBytes f 0x1000 x →
      s₁.mem x = s.mem x := by
    intro f hf hne x hx
    rw [hs₁]
    refine store32_frame fun hx' => ?_
    exact frames_apart hf htframe hne x hx (inBytes_entryAddr hmod hx')
  have hread₁ : load32 s₁.mem (entryAddr (entryFrame (pde dir s₀.mem (n / 1024))) (n % 1024)) =
      pte dir s₀.mem n := by
    have hptab : spaceFrame dir s₀.mem (.table (n / 1024)) =
        some (entryFrame (pde dir s₀.mem (n / 1024))) := if_pos ⟨by omega, hpde⟩
    rw [← hread]
    exact load32_congr fun x hx => hwrite _ isFrame_entryFrame (hparent _ _ hptab).1 x
      (inBytes_entryAddr hmod hx)
  have hclone : clonePage (entryFrame (pde dir s₀.mem (n / 1024))) (g.frame (.table (n / 1024))) p
      (n % 1024) s = copyPage s₁ p (entryFrame (pte dir s₀.mem n)) := by
    rw [clonePage, hread, ← hs₁, hread₁]
  rw [hclone]
  have hother : ∀ f, IsFrame f → f ≠ g.frame (.table (n / 1024)) → f ≠ p →
      ∀ x, InBytes f 0x1000 x →
        (copyPage s₁ p (entryFrame (pte dir s₀.mem n))).mem x = s.mem x := by
    intro f hf hne hne' x hx
    rw [copyPage_frame (frames_apart hf hframe hne' x hx), hwrite f hf hne x hx]
  have hframes : (copyPage s₁ p (entryFrame (pte dir s₀.mem n))).frames = s.frames := by
    rw [copyPage_frames, hs₁]
    rfl
  have hcopied : ∀ o, Copied dir s₀.mem t (n + 1) o →
      o = .page n ∨ o ≠ .page n ∧ Copied dir s₀.mem t n o := by
    intro o ho
    by_cases heq : o = .page n
    · exact .inl heq
    · refine .inr ⟨heq, ?_⟩
      cases o with
      | directory => exact ho
      | table i => exact ho
      | page k => exact ⟨Nat.lt_of_le_of_ne (Nat.le_of_lt_succ ho.1) fun h => heq (h ▸ rfl), ho.2⟩
  have hself : (g.copy n p).frame (.page n) = p := if_pos rfl
  have hrest : ∀ o, o ≠ .page n → (g.copy n p).frame o = g.frame o := fun o ho => if_neg ho
  have hinvolved : ∀ o, Copied dir s₀.mem t n o → g.frame o ≠ p := fun o ho heq =>
    hnew (.inr (.inr ⟨o, ho, heq.symm⟩))
  refine ⟨hn, fun o f x ho hx => ?_, ?_, fun o ho => ?_, fun o o' ho ho' heq => ?_,
    fun i hi => ?_, fun k hk => ?_, fun k hk x hx => ?_⟩
  · rw [hother f (hp.isFrame ho) (hparent o f ho).1 (hparent o f ho).2 x hx]
    exact h.parent o f x ho hx
  · rw [hframes]
    exact h.free
  · rw [hframes]
    rcases hcopied o ho with rfl | ⟨hne, ho⟩
    · rw [hself]
      exact ⟨hframe, hfree, hheld⟩
    · rw [hrest o hne]
      exact h.fresh o ho
  · rcases hcopied o ho with rfl | ⟨hne, ho⟩ <;> rcases hcopied o' ho' with rfl | ⟨hne', ho'⟩
    · rfl
    · rw [hself, hrest o' hne'] at heq
      exact absurd heq.symm (hinvolved o' ho')
    · rw [hself, hrest o hne] at heq
      exact absurd heq (hinvolved o ho)
    · rw [hrest o hne, hrest o' hne'] at heq
      exact h.injective o o' ho ho' heq
  · have hne : clone ≠ g.frame (.table (n / 1024)) := fun heq => hp.cloneHeld (heq ▸ htfree)
    have hne' : clone ≠ p := fun heq => hp.cloneHeld (heq ▸ hfree)
    rw [hrest _ (by simp : Owner.table i ≠ .page n), ← h.entries i hi]
    exact pde_congr (hother clone hp.cloneFrame hne hne') (by omega)
  · have hk' : Copied dir s₀.mem t n (.table (k / 1024)) := hk
    obtain ⟨hkframe, -, -⟩ := h.fresh _ hk'
    rw [hrest _ (by simp : Owner.table (k / 1024) ≠ .page n)]
    -- the new page is not the page table
    have hpage₁ : load32 (copyPage s₁ p (entryFrame (pte dir s₀.mem n))).mem
        (entryAddr (g.frame (.table (k / 1024))) (k % 1024)) =
          load32 s₁.mem (entryAddr (g.frame (.table (k / 1024))) (k % 1024)) :=
      load32_congr fun x hx => copyPage_frame (frames_apart hkframe hframe (hinvolved _ hk') x
        (inBytes_entryAddr (Nat.mod_lt _ (by decide)) hx))
    rw [hpage₁]
    by_cases hkn : k = n
    · subst hkn
      rw [if_pos ⟨Nat.lt_succ_self k, hpte⟩, hself, hs₁]
      exact load32_store32
    · have hiff : (k < n + 1 ∧ pte dir s₀.mem k ≠ 0) ↔ (k < n ∧ pte dir s₀.mem k ≠ 0) :=
        ⟨fun ⟨_, hne⟩ => ⟨by omega, hne⟩, fun ⟨_, hne⟩ => ⟨by omega, hne⟩⟩
      rw [hrest _ fun heq => hkn (Owner.page.inj heq)]
      simp only [hiff]
      refine Eq.trans ?_ (h.words k hk')
      rw [hs₁]
      refine load32_store32_of_apart ?_
      by_cases hdiv : k / 1024 = n / 1024
      · rw [hdiv]
        exact entries_apart (Nat.mod_lt _ (by decide)) hmod (by omega)
      · intro x hx hx'
        refine frames_apart hkframe htframe (fun heq => hdiv ?_) x
          (inBytes_entryAddr (Nat.mod_lt _ (by decide)) hx) (inBytes_entryAddr hmod hx')
        exact Owner.table.inj (h.injective _ _ hk' htable heq)
  · rcases hcopied _ hk with heq | ⟨hkn, hk⟩
    · obtain rfl := Owner.page.inj heq
      rw [hself, copyPage_page hframe isFrame_entryFrame hx,
        hwrite _ isFrame_entryFrame (hparent _ _ hsrc).1 _ (inBytes_add hx (by decide))]
      exact h.parent _ _ _ hsrc (inBytes_add hx (by decide))
    · have htne : g.frame (.page k) ≠ g.frame (.table (n / 1024)) := fun heq => by
        cases h.injective _ _ hk htable heq
      rw [hrest _ hkn, hother _ (h.fresh _ hk).1 htne (hinvolved _ hk) _
        (inBytes_add hx (by decide))]
      exact h.contents k hk x hx

/-! ## Section 5: The Loops -/

theorem pte_add (hj : j < 1024) :
    pte dir m (1024 * i + j) = load32 m (entryAddr (entryFrame (pde dir m i)) j) := by
  have hdiv : (1024 * i + j) / 1024 = i := by omega
  have hmod : (1024 * i + j) % 1024 = j := by omega
  rw [pte, hdiv, hmod]

/-- The inner loop, from entry `j` on. It is done with the page table unless a page could not
    be had. -/
theorem Cloning.tableLoop (hp : Cloneable A dir clone s₀) (hi : i < 512)
    (hpde : pde dir s₀.mem i ≠ 0) {table : BitVec 32} {r : Bool} :
    ∀ (m j : Nat) (g : CloneMap) (s : PagingState σ), j + m = 1024 → g.frame (.table i) = table →
      Cloning A dir clone s₀ g (i + 1) (1024 * i + j) s →
      cloneTableLoop A (entryFrame (pde dir s₀.mem i)) table m j s = (r, s') →
      ∃ g' j', Cloning A dir clone s₀ g' (i + 1) (1024 * i + j') s' ∧ g'.stale = g.stale ∧
        (r = true → j' = 1024) := by
  intro m
  induction m with
  | zero =>
    intro j g s hj _ h hl
    obtain rfl : s = s' := congrArg Prod.snd hl
    exact ⟨g, j, h, rfl, fun _ => hj⟩
  | succ m ih =>
    intro j g s hj htable h hl
    have hdiv : (1024 * i + j) / 1024 = i := by omega
    have hmod : (1024 * i + j) % 1024 = j := by omega
    have hread : load32 s.mem (entryAddr (entryFrame (pde dir s₀.mem i)) j) =
        pte dir s₀.mem (1024 * i + j) := by
      rw [h.pte_eq hi hpde (by omega), pte_add (by omega)]
    rw [cloneTableLoop, hread] at hl
    by_cases hpte : pte dir s₀.mem (1024 * i + j) = 0
    · rw [if_pos hpte] at hl
      exact ih (j + 1) g s (by omega) htable (h.skip_page (by omega) hpte) hl
    · rw [if_neg hpte] at hl
      split at hl
      · next s₁ ha =>
        obtain ⟨rfl, rfl⟩ := Prod.mk.inj hl
        obtain rfl : (pageAcquire0 A s).2 = s₁ := by rw [ha]
        exact ⟨g, j, h.after_acquire hp, rfl, fun hr => nomatch hr⟩
      · next page s₁ ha =>
        obtain ⟨h₁, hnew, hframe, hfree, hheld⟩ := h.acquire hp ha
        have hpde' : pde dir s₀.mem ((1024 * i + j) / 1024) ≠ 0 := hdiv.symm ▸ hpde
        have h₂ := h₁.copy_page hp (by omega) (by omega) hpde' hpte hnew hframe hfree hheld
        rw [hdiv, hmod, htable] at h₂
        exact ih (j + 1) (g.copy (1024 * i + j) page) _ (by omega)
          (CloneMap.copy_table.trans htable) h₂ hl

/-- A round of the outer loop. -/
theorem Cloning.table (hp : Cloneable A dir clone s₀) (hi : i < 512)
    (h : Cloning A dir clone s₀ g i (1024 * i) s) {r : Bool}
    (hl : cloneTable A dir clone i s = (r, s')) :
    ∃ g' t' n', Cloning A dir clone s₀ g' t' n' s' ∧
      (r = true → t' = i + 1 ∧ n' = 1024 * (i + 1) ∧ (∀ k < 1024 * i, g'.stale k = g.stale k) ∧
        (HandsOutClean A dir i s ↔ ∀ k, k / 1024 = i → pde dir s₀.mem i ≠ 0 →
          pte dir s₀.mem k = 0 → g'.stale k = 0)) := by
  have hread : load32 s.mem (entryAddr dir i) = pde dir s₀.mem i := h.pde_eq hi
  rw [cloneTable, hread] at hl
  by_cases hpde : pde dir s₀.mem i = 0
  · rw [if_pos hpde] at hl
    obtain ⟨rfl, rfl⟩ := Prod.mk.inj hl
    refine ⟨g, i + 1, 1024 * (i + 1), h.skip_table hpde, fun _ => ⟨rfl, rfl, fun _ _ => rfl, ?_⟩⟩
    rw [HandsOutClean, h.pde_eq hi]
    exact iff_of_true (fun hne => absurd hpde hne) fun _ _ hne => absurd hpde hne
  · rw [if_neg hpde] at hl
    split at hl
    · next s₁ ha =>
      obtain ⟨rfl, rfl⟩ := Prod.mk.inj hl
      obtain rfl : (pageAcquire0 A s).2 = s₁ := by rw [ha]
      exact ⟨g, i, 1024 * i, h.after_acquire hp, fun hr => nomatch hr⟩
    · next table s₁ ha =>
      obtain ⟨h₁, hnew, hframe, hfree, hheld⟩ := h.acquire hp ha
      have h₂ := h₁.enter_table hp hi hpde hnew hframe hfree hheld
      have hpde₂ : load32 (cloneEntry dir clone i table s₁).mem (entryAddr dir i) =
          pde dir s₀.mem i := h₂.pde_eq hi
      dsimp only at hl
      rw [hpde₂] at hl
      obtain ⟨g', j', h', hstale, hdone⟩ := Cloning.tableLoop hp hi hpde 1024 0
        (g.enter i table s₁.mem) _ (by omega) (if_pos rfl) h₂ hl
      refine ⟨g', i + 1, 1024 * i + j', h', fun hr => ⟨rfl, ?_, fun k hk => ?_, ?_⟩⟩
      · rw [hdone hr]
        omega
      · rw [hstale]
        exact if_neg (by omega)
      · have hword : ∀ k, k / 1024 = i → g'.stale k = load32 s₁.mem (entryAddr table (k % 1024)) :=
          fun k hk => by
            rw [hstale]
            exact if_pos hk
        have hread₁ : ∀ k, k / 1024 = i →
            load32 s₁.mem (entryAddr (entryFrame (pde dir s₁.mem i)) (k % 1024)) =
              pte dir s₀.mem k := fun k hk => by
          rw [h₁.pde_eq hi, h₁.pte_eq hi hpde (Nat.mod_lt _ (by decide)), pte, hk]
        constructor
        · intro hclean k hk _ hzero
          rw [hword k hk]
          refine hclean (by rwa [h.pde_eq hi]) table s₁ ha _ (Nat.mod_lt _ (by decide)) ?_
          rwa [hread₁ k hk]
        · intro hall _ table' s₁' ha' j hj hzero
          obtain ⟨hsome, rfl⟩ := Prod.mk.inj (ha'.symm.trans ha)
          obtain rfl := Option.some.inj hsome
          have hdiv : (1024 * i + j) / 1024 = i := by omega
          have hmod : (1024 * i + j) % 1024 = j := by omega
          have hzero' := hread₁ _ hdiv
          rw [hmod, hzero] at hzero'
          have hstale' := hall _ hdiv hpde hzero'.symm
          rwa [hword _ hdiv, hmod] at hstale'

/-- The outer loop, from entry `i` on. -/
theorem Cloning.loop (hp : Cloneable A dir clone s₀) {r : Bool} :
    ∀ (m i : Nat) (g : CloneMap) (s : PagingState σ), i + m = 512 →
      Cloning A dir clone s₀ g i (1024 * i) s → cloneLoop A dir clone m i s = (r, s') →
      ∃ g' t' n', Cloning A dir clone s₀ g' t' n' s' ∧
        (r = true → t' = 512 ∧ n' = 2 ^ 19 ∧ (∀ k < 1024 * i, g'.stale k = g.stale k) ∧
          (AllClean A dir clone m i s ↔ ∀ k, 1024 * i ≤ k → k < 2 ^ 19 →
            pde dir s₀.mem (k / 1024) ≠ 0 → pte dir s₀.mem k = 0 → g'.stale k = 0)) := by
  intro m
  induction m with
  | zero =>
    intro i g s hi h hl
    obtain rfl : s = s' := congrArg Prod.snd hl
    refine ⟨g, i, 1024 * i, h, fun _ => ⟨by omega, by omega, fun _ _ => rfl, ?_⟩⟩
    exact iff_of_true trivial fun k hk hk' => absurd hk' (by omega)
  | succ m ih =>
    intro i g s hi h hl
    rw [cloneLoop] at hl
    split at hl
    · next s₁ hround =>
      obtain ⟨rfl, rfl⟩ := Prod.mk.inj hl
      obtain ⟨g₁, t₁, n₁, h₁, -⟩ := h.table hp (by omega) hround
      exact ⟨g₁, t₁, n₁, h₁, fun hr => nomatch hr⟩
    · next s₁ hround =>
      obtain ⟨g₁, t₁, n₁, h₁, hdone₁⟩ := h.table hp (by omega) hround
      obtain ⟨rfl, rfl, hstale₁, hclean₁⟩ := hdone₁ rfl
      obtain ⟨g', t', n', h', hdone⟩ := ih (i + 1) g₁ s₁ (by omega) h₁ hl
      refine ⟨g', t', n', h', fun hr => ?_⟩
      obtain ⟨ht, hn, hstale, hclean⟩ := hdone hr
      refine ⟨ht, hn, fun k hk => (hstale k (by omega)).trans (hstale₁ k hk), ?_⟩
      have hrest : (∀ s', cloneTable A dir clone i s = (true, s') →
          AllClean A dir clone m (i + 1) s') ↔ AllClean A dir clone m (i + 1) s₁ := by
        refine ⟨fun hall => hall s₁ hround, fun hall s₂ hs₂ => ?_⟩
        obtain ⟨-, rfl⟩ := Prod.mk.inj (hround.symm.trans hs₂)
        exact hall
      rw [AllClean, hrest, hclean, hclean₁]
      -- the words of this page table, then those of the others
      constructor
      · rintro ⟨hfirst, hothers⟩ k hk hk' hne hzero
        by_cases hdiv : k / 1024 = i
        · rw [hstale k (by omega)]
          exact hfirst k hdiv (hdiv ▸ hne) hzero
        · exact hothers k (by omega) hk' hne hzero
      · intro hall
        refine ⟨fun k hdiv hne hzero => ?_, fun k hk => hall k (by omega)⟩
        rw [← hstale k (by omega)]
        exact hall k (by omega) (by omega) (hdiv.symm ▸ hne) hzero

end cloning

/-! ## Section 6: The Copy -/

section copy

variable {dir clone : BitVec 32} {s s' : PagingState σ} {m : Memory} {f va : BitVec 32}
  {i k : Nat} {o : Owner}

theorem pteAddr_eq :
    load32 s.mem (pteAddr dir va s) = pte dir s.mem (pageNumber va) := by
  rw [pteAddr, pageDirIdx_eq_number, pageTabIdx_eq_number, pte]

theorem pagingIsPageMapped_iff :
    pagingIsPageMapped dir va s = true ↔
      IsPresent (pde dir s.mem (pageNumber va / 1024)) ∧ pte dir s.mem (pageNumber va) ≠ 0 := by
  rw [← pteAddr_eq, ← pageDirIdx_eq_number, pagingIsPageMapped]
  by_cases hp : IsPresent (pde dir s.mem (pageDirIdx va))
  · rw [pde] at hp
    simp only [hp, not_true_eq_false, if_false, decide_eq_true_iff, pde, true_and]
    exact Iff.rfl
  · rw [pde] at hp
    simp only [hp, not_false_eq_true, if_true, pde, false_and, Bool.false_eq_true]

/-- The address of a page of the user half. -/
theorem exists_pageNumber (hk : k < 2 ^ 19) : ∃ va, va < kernelStart ∧ pageNumber va = k := by
  have hto : (BitVec.ofNat 32 (0x1000 * k)).toNat = 0x1000 * k := by
    rw [BitVec.toNat_ofNat, Nat.mod_eq_of_lt (by omega)]
  have hkernel : kernelStart.toNat = 2 ^ 31 := rfl
  refine ⟨BitVec.ofNat 32 (0x1000 * k), ?_, ?_⟩
  · rw [BitVec.lt_def, hto, hkernel]
    omega
  · rw [pageNumber, hto]
    omega

theorem spaceFrame_table (h : spaceFrame dir m (.table i) = some f) :
    i < 512 ∧ pde dir m i ≠ 0 ∧ f = entryFrame (pde dir m i) := by
  rw [spaceFrame] at h
  split at h
  · next hp => exact ⟨hp.1, hp.2, (Option.some.inj h).symm⟩
  · cases h

theorem spaceFrame_page (h : spaceFrame dir m (.page k) = some f) :
    k < 2 ^ 19 ∧ pde dir m (k / 1024) ≠ 0 ∧ pte dir m k ≠ 0 ∧ f = entryFrame (pte dir m k) := by
  rw [spaceFrame] at h
  split at h
  · next hp => exact ⟨hp.1, hp.2.1, hp.2.2, (Option.some.inj h).symm⟩
  · cases h

variable {g : CloneMap}

section done

variable (hp : Cloneable A dir clone s) (h : Cloning A dir clone s g 512 (2 ^ 19) s')

include h

/-- The entries of the clone's directory. -/
theorem Cloning.pde_clone (hi : i < 512) :
    pageOffset (pde clone s'.mem i) = pageOffset (pde dir s.mem i) ∧
      (pde dir s.mem i ≠ 0 → entryFrame (pde clone s'.mem i) = g.frame (.table i)) ∧
      (pde dir s.mem i = 0 → pde clone s'.mem i = 0) := by
  by_cases hpde : pde dir s.mem i = 0
  · have hzero : pde clone s'.mem i = 0 :=
      (h.entries i hi).trans (if_neg fun hc => hc.2 hpde)
    rw [hzero, hpde]
    exact ⟨rfl, fun hne => absurd rfl hne, fun _ => rfl⟩
  · have hword := (h.entries i hi).trans (if_pos ⟨hi, hpde⟩)
    obtain ⟨hframe, -, -⟩ := h.fresh (.table i) ⟨hi, hpde⟩
    rw [hword]
    exact ⟨pageOffset_cloned hframe, fun _ => entryFrame_cloned hframe,
      fun hzero => absurd hzero hpde⟩

/-- The entries of the clone's page tables. -/
theorem Cloning.pte_clone (hk : k < 2 ^ 19) (hpde : pde dir s.mem (k / 1024) ≠ 0) :
    pte clone s'.mem k =
      if pte dir s.mem k ≠ 0 then physAddr32 (g.frame (.page k)) + pageOffset (pte dir s.mem k)
      else g.stale k := by
  rw [pte, (h.pde_clone (by omega)).2.1 hpde, h.words k ⟨by omega, hpde⟩]
  simp only [hk, true_and]

/-- The page tables of the clone. -/
theorem Cloning.spaceFrame_table_clone (hf : spaceFrame clone s'.mem (.table i) = some f) :
    Copied dir s.mem 512 (2 ^ 19) (.table i) ∧ f = g.frame (.table i) := by
  obtain ⟨hi, hne, rfl⟩ := spaceFrame_table hf
  have hpde : pde dir s.mem i ≠ 0 := fun hzero => hne ((h.pde_clone hi).2.2 hzero)
  exact ⟨⟨hi, hpde⟩, (h.pde_clone hi).2.1 hpde⟩

/-- The pages of the clone, when no word was left in a page table. -/
theorem Cloning.spaceFrame_page_clone
    (hclean : ∀ k < 2 ^ 19, pde dir s.mem (k / 1024) ≠ 0 → pte dir s.mem k = 0 → g.stale k = 0)
    (hf : spaceFrame clone s'.mem (.page k) = some f) :
    Copied dir s.mem 512 (2 ^ 19) (.page k) ∧ f = g.frame (.page k) := by
  obtain ⟨hk, hpde, hpte, rfl⟩ := spaceFrame_page hf
  have hpde' : pde dir s.mem (k / 1024) ≠ 0 := fun hzero =>
    hpde ((h.pde_clone (by omega)).2.2 hzero)
  rw [h.pte_clone hk hpde'] at hpte ⊢
  by_cases hzero : pte dir s.mem k = 0
  · rw [if_neg (not_not.mpr hzero)] at hpte
    exact absurd (hclean k hk hpde' hzero) hpte
  · have hcopied : Copied dir s.mem 512 (2 ^ 19) (.page k) := ⟨hk, hpde', hzero⟩
    rw [if_pos hzero]
    exact ⟨hcopied, entryFrame_cloned (h.fresh _ hcopied).1⟩

/-- The frames of the clone, when no word was left in a page table. -/
theorem Cloning.spaceFrame_clone
    (hclean : ∀ k < 2 ^ 19, pde dir s.mem (k / 1024) ≠ 0 → pte dir s.mem k = 0 → g.stale k = 0)
    (hf : spaceFrame clone s'.mem o = some f) :
    o = .directory ∧ f = clone ∨ Copied dir s.mem 512 (2 ^ 19) o ∧ f = g.frame o := by
  cases o with
  | directory => exact .inl ⟨rfl, (Option.some.inj hf).symm⟩
  | table i => exact .inr (h.spaceFrame_table_clone hf)
  | page k => exact .inr (h.spaceFrame_page_clone hclean hf)

include hp

/-- A page of the clone is mapped if the parent's is. When the parent's is not, it is mapped
    if a word was left in the page table. -/
theorem Cloning.isPageMapped_clone (hva : va < kernelStart) :
    pagingIsPageMapped clone va s' = true ↔
      pagingIsPageMapped dir va s = true ∨
        (pde dir s.mem (pageNumber va / 1024) ≠ 0 ∧ pte dir s.mem (pageNumber va) = 0 ∧
          g.stale (pageNumber va) ≠ 0) := by
  have hk : pageNumber va < 2 ^ 19 := pageNumber_lt (pageDirIdx_lt_of_lt hva)
  have hdiv : pageNumber va / 1024 < 512 := by omega
  rw [pagingIsPageMapped_iff, pagingIsPageMapped_iff,
    isPresent_iff_of_pageOffset (h.pde_clone hdiv).1]
  by_cases hpde : pde dir s.mem (pageNumber va / 1024) = 0
  · have habsent : ¬IsPresent 0 := by decide
    simp only [hpde, habsent, false_and, ne_eq, not_true_eq_false, or_self]
  · have hpresent := hp.present _ hdiv hpde
    rw [h.pte_clone hk hpde]
    by_cases hpte : pte dir s.mem (pageNumber va) = 0
    · simp only [hpresent, hpte, hpde, ne_eq, not_true_eq_false, not_false_eq_true, if_false,
        and_false, true_and, false_or]
    · have hcopied : Copied dir s.mem 512 (2 ^ 19) (.page (pageNumber va)) := ⟨hk, hpde, hpte⟩
      obtain ⟨hframe, hfree, -⟩ := h.fresh _ hcopied
      have hne := cloned_ne_zero (e := pte dir s.mem (pageNumber va)) hframe
        fun heq => hp.pageZero (heq ▸ hfree)
      simp only [hpresent, hpte, ne_eq, not_false_eq_true, if_true, hne, and_self, false_and,
        and_false, or_false]

end done

theorem cloneLoop_of_pagingClone (hs : pagingClone A dir clone s = some (true, s')) :
    cloneLoop A dir clone 512 0 s = (true, s') := by
  rw [pagingClone] at hs
  split at hs
  · next s₁ hl =>
    obtain ⟨-, rfl⟩ := Prod.mk.inj (Option.some.inj hs)
    exact hl
  · next s₁ hl =>
    obtain ⟨s₂, -, heq⟩ := Option.map_eq_some_iff.mp hs
    exact absurd (congrArg Prod.fst heq) (by simp)

/-- For every parent, every clone whose user half is empty and every allocator, when
    `Paging_Clone` returns true the clone is a copy of the parent if and only if each frame that
    became a page table was zero where the parent's page table is. -/
theorem copiesSpace_iff (A : FrameAllocator σ) (dir clone : BitVec 32) (s s' : PagingState σ)
    (hp : Cloneable A dir clone s) (hs : pagingClone A dir clone s = some (true, s')) :
    CopiesSpace dir clone s s' ↔ AllClean A dir clone 512 0 s := by
  obtain ⟨g, t, n, h, hdone⟩ := Cloning.loop hp 512 0 ⟨fun _ => 0, fun _ => 0⟩ s
    (by omega) hp.cloning (cloneLoop_of_pagingClone hs)
  obtain ⟨rfl, rfl, -, hclean⟩ := hdone rfl
  rw [hclean]
  constructor
  · intro hcopy k _ hk hpde hpte
    obtain ⟨va, hva, rfl⟩ := exists_pageNumber hk
    by_contra hne
    have hmapped := (h.isPageMapped_clone hp hva).mpr (.inr ⟨hpde, hpte, hne⟩)
    rw [hcopy.mapped va hva, pagingIsPageMapped_iff] at hmapped
    exact hmapped.2 hpte
  · intro hall
    have hzero : ∀ k < 2 ^ 19, pde dir s.mem (k / 1024) ≠ 0 → pte dir s.mem k = 0 →
        g.stale k = 0 := fun k hk => hall k (Nat.zero_le _) hk
    refine ⟨fun va hva => ?_, fun i hi => (h.pde_clone hi).1, fun k f hf => ?_,
      fun k f f' hf hf' x hx => ?_, fun o o' f hf hf' => ?_, fun o o' f hf hf' => ?_, h.parent⟩
    · rw [Bool.eq_iff_iff, h.isPageMapped_clone hp hva]
      refine or_iff_left fun hstale => hstale.2.2 ?_
      exact hzero _ (pageNumber_lt (pageDirIdx_lt_of_lt hva)) hstale.1 hstale.2.1
    · obtain ⟨hk, hpde, hpte, -⟩ := spaceFrame_page hf
      rw [h.pte_clone hk hpde, if_pos hpte]
      exact pageOffset_cloned (h.fresh (.page k) ⟨hk, hpde, hpte⟩).1
    · obtain ⟨-, -, -, rfl⟩ := spaceFrame_page hf
      obtain ⟨hcopied, rfl⟩ := h.spaceFrame_page_clone hzero hf'
      exact h.contents k hcopied x hx
    · rcases h.spaceFrame_clone hzero hf with ⟨rfl, rfl⟩ | ⟨ho, rfl⟩ <;>
        rcases h.spaceFrame_clone hzero hf' with ⟨rfl, heq⟩ | ⟨ho', heq⟩
      · rfl
      · exact absurd (heq ▸ (h.fresh o' ho').2.1) hp.cloneHeld
      · exact absurd (heq ▸ (h.fresh o ho).2.1) hp.cloneHeld
      · exact h.injective o o' ho ho' heq
    · rcases h.spaceFrame_clone hzero hf with ⟨-, rfl⟩ | ⟨ho, rfl⟩
      · exact hp.cloneApart o' hf'
      · exact hp.held o' _ hf' (h.fresh o ho).2.1

end copy

/-! ## Section 7: What Is Not Copied -/

/-- The address is in no free frame. -/
def Outside (A : FrameAllocator σ) (a : σ) (x : BitVec 32) : Prop :=
  ∀ f, A.free a f → ¬InBytes f 0x1000 x

section outside

variable {dir clone ptab table f x : BitVec 32} {s s' : PagingState σ}

/-- A frame that is handed out was free. -/
theorem Outside.acquire (h : Outside A s.frames x) (ha : pageAcquire0 A s = (some f, s')) :
    Outside A s'.frames x ∧ s'.mem x = s.mem x ∧ ¬InBytes f 0x1000 x := by
  obtain rfl : (pageAcquire0 A s).2 = s' := by rw [ha]
  have hf : (A.acquire s.frames s.mem).1 = some f := congrArg Prod.fst ha
  refine ⟨fun g hg => h g (A.acquire_rest s.frames s.mem g hg).1, ?_,
    h f (A.acquire_free s.frames s.mem f hf)⟩
  exact A.acquire_frame s.frames s.mem x h

theorem cloneTableLoop_outside (htable : ¬InBytes table 0x1000 x) :
    ∀ (n j : Nat) (s : PagingState σ), j + n ≤ 1024 → Outside A s.frames x →
      cloneTableLoop A ptab table n j s = (true, s') →
        Outside A s'.frames x ∧ s'.mem x = s.mem x := by
  intro n
  induction n with
  | zero =>
    intro j s _ h hl
    obtain rfl : s = s' := congrArg Prod.snd hl
    exact ⟨h, rfl⟩
  | succ n ih =>
    intro j s hj h hl
    rw [cloneTableLoop] at hl
    split at hl
    · exact ih (j + 1) s (by omega) h hl
    · split at hl
      · exact nomatch congrArg Prod.fst hl
      · next page s₁ ha =>
        obtain ⟨h₁, hmem₁, hpage⟩ := h.acquire ha
        have hframes : (clonePage ptab table page j s₁).frames = s₁.frames := by
          rw [clonePage, copyPage_frames]
          rfl
        obtain ⟨h', hmem'⟩ := ih (j + 1) _ (by omega) (by rwa [hframes]) hl
        refine ⟨h', hmem'.trans ?_⟩
        rw [clonePage, copyPage_frame hpage, ← hmem₁]
        exact store32_frame fun hx => htable (inBytes_entryAddr (by omega) hx)

theorem cloneTable_outside {i : Nat} (hi : i < 512) (hclone : ¬InBytes clone 0x800 x)
    (h : Outside A s.frames x) (hl : cloneTable A dir clone i s = (true, s')) :
    Outside A s'.frames x ∧ s'.mem x = s.mem x := by
  rw [cloneTable] at hl
  split at hl
  · obtain rfl : s = s' := congrArg Prod.snd hl
    exact ⟨h, rfl⟩
  · split at hl
    · exact nomatch congrArg Prod.fst hl
    · next table s₁ ha =>
      obtain ⟨h₁, hmem₁, htable⟩ := h.acquire ha
      obtain ⟨h', hmem'⟩ := cloneTableLoop_outside htable 1024 0
        (cloneEntry dir clone i table s₁) (Nat.le_refl _) h₁ hl
      refine ⟨h', hmem'.trans ?_⟩
      rw [← hmem₁]
      exact store32_frame fun hx => hclone (hx.of_add (by omega) (by decide))

/-- `Paging_Clone` writes to the user half of the clone's directory and to frames that were
    free. -/
theorem cloneLoop_outside (hclone : ¬InBytes clone 0x800 x) :
    ∀ (n i : Nat) (s : PagingState σ), i + n ≤ 512 → Outside A s.frames x →
      cloneLoop A dir clone n i s = (true, s') → Outside A s'.frames x ∧ s'.mem x = s.mem x := by
  intro n
  induction n with
  | zero =>
    intro i s _ h hl
    obtain rfl : s = s' := congrArg Prod.snd hl
    exact ⟨h, rfl⟩
  | succ n ih =>
    intro i s hi h hl
    rw [cloneLoop] at hl
    split at hl
    · exact nomatch congrArg Prod.fst hl
    · next s₁ hround =>
      obtain ⟨h₁, hmem₁⟩ := cloneTable_outside (by omega) hclone h hround
      obtain ⟨h', hmem'⟩ := ih (i + 1) s₁ (by omega) h₁ hl
      exact ⟨h', hmem'.trans hmem₁⟩

end outside

/-! ## Section 8: A Concrete Parent -/

section zero

variable {dir clone ptab table : BitVec 32}

theorem cloneTableLoop_of_zero : ∀ (n j : Nat) (s : PagingState σ),
    (∀ j', j' < j + n → load32 s.mem (entryAddr ptab j') = 0) →
      cloneTableLoop A ptab table n j s = (true, s) := by
  intro n
  induction n with
  | zero =>
    intro j s _
    rfl
  | succ n ih =>
    intro j s h
    rw [cloneTableLoop, if_pos (h j (by omega))]
    exact ih (j + 1) s fun j' hj' => h j' (by omega)

theorem cloneTable_of_zero {i : Nat} {s : PagingState σ} (h : pde dir s.mem i = 0) :
    cloneTable A dir clone i s = (true, s) := if_pos h

theorem cloneLoop_of_zero : ∀ (n i : Nat) (s : PagingState σ),
    (∀ i', i ≤ i' → i' < i + n → pde dir s.mem i' = 0) →
      cloneLoop A dir clone n i s = (true, s) := by
  intro n
  induction n with
  | zero =>
    intro i s _
    rfl
  | succ n ih =>
    intro i s h
    rw [cloneLoop, cloneTable_of_zero (h i (Nat.le_refl _) (by omega))]
    exact ih (i + 1) s fun i' hi hi' => h i' (by omega) (by omega)

theorem allClean_of_zero : ∀ (n i : Nat) (s : PagingState σ),
    (∀ i', i ≤ i' → i' < i + n → pde dir s.mem i' = 0) → AllClean A dir clone n i s := by
  intro n
  induction n with
  | zero =>
    intro i s _
    trivial
  | succ n ih =>
    intro i s h
    have hzero := h i (Nat.le_refl _) (by omega)
    refine ⟨fun hne => absurd hzero hne, fun s' hs' => ?_⟩
    rw [cloneTable_of_zero hzero] at hs'
    obtain ⟨-, rfl⟩ := Prod.mk.inj hs'
    exact ih (i + 1) s fun i' hi hi' => h i' (by omega) (by omega)

end zero

/-- A parent with a page table, at `0x80300000`, but no pages, and one free frame that holds
    the byte `w`. The new directory is at `0x80400000`. -/
def recycledMemory (w : BitVec 8) : Memory := fun x =>
  if x = 0x80200000 then 7 else if x = 0x80200002 then 0x30 else if x = 0x80500000 then w else 0

def recycled (w : BitVec 8) : PagingState (List (BitVec 20)) :=
  ⟨recycledMemory w, [0x80500], [], [], []⟩

/-- The frame is handed out, and becomes the first page table of the clone. -/
def recycledClone (w : BitVec 8) : PagingState (List (BitVec 20)) :=
  cloneEntry 0x80200000 0x80400000 0 0x80500000 ⟨recycledMemory w, [], [0x80500000], [], []⟩

section recycled

variable {w : BitVec 8} {i j : Nat}

theorem recycledMemory_eq_zero {x : BitVec 32} (hfree : ¬InBytes 0x80500000 0x1000 x)
    (hdir : ¬InBytes 0x80200000 4 x) : recycledMemory w x = 0 := by
  have h₁ : x ≠ 0x80200000 := fun h => hdir (h ▸ inBytes_self (by decide))
  have h₂ : x ≠ 0x80200002 := fun h => hdir (h ▸ by decide)
  have h₃ : x ≠ 0x80500000 := fun h => hfree (h ▸ inBytes_self (by decide))
  rw [recycledMemory, if_neg h₁, if_neg h₂, if_neg h₃]

theorem isFrame_of_mod {f : BitVec 32} (h : f.toNat % 0x1000 = 0) : IsFrame f := h

/-- The words of the other frames. -/
theorem recycled_word {f : BitVec 32} (hf : IsFrame f) (hne : f ≠ 0x80500000) (hj : j < 1024)
    (hdir : f ≠ 0x80200000 ∨ j ≠ 0) : load32 (recycledMemory w) (entryAddr f j) = 0 := by
  refine load32_eq_zero fun x hx => recycledMemory_eq_zero ?_ ?_
  · exact frames_apart hf (isFrame_of_mod (by decide)) hne x (inBytes_entryAddr hj hx)
  · intro hx'
    have hx'' : InBytes (entryAddr 0x80200000 0) 4 x := hx'
    by_cases heq : f = 0x80200000
    · subst heq
      exact entries_apart hj (by decide) (hdir.resolve_left (not_not.mpr rfl)) x hx hx''
    · exact frames_apart hf (isFrame_of_mod (by decide)) heq x (inBytes_entryAddr hj hx)
        (inBytes_entryAddr (by decide) hx'')

theorem recycled_pde : pde 0x80200000 (recycledMemory w) 0 = 0x00300007 := by
  simp [pde, load32, entryAddr, recycledMemory]

theorem cloneable_recycled : Cloneable frameList 0x80200000 0x80400000 (recycled w) := by
  have hother : ∀ i, i < 512 → pde 0x80200000 (recycledMemory w) i ≠ 0 → i = 0 := by
    intro i hi hne
    by_contra h0
    exact hne (recycled_word (isFrame_of_mod (by decide)) (by decide) (by omega) (.inr h0))
  have hframe : entryFrame 0x00300007 = 0x80300000 := by decide
  have hfree : ∀ f, frameList.free (recycled w).frames f → f = 0x80500000 := by
    rintro f ⟨n, hn, rfl⟩
    rw [List.mem_singleton.mp hn]
    decide
  have hframes : ∀ o f, spaceFrame 0x80200000 (recycledMemory w) o = some f →
      f = 0x80200000 ∨ f = 0x80300000 := by
    intro o f hf
    cases o with
    | directory => exact .inl (Option.some.inj hf).symm
    | table i =>
      obtain ⟨hi, hne, rfl⟩ := spaceFrame_table hf
      obtain rfl := hother i hi hne
      rw [recycled_pde, hframe]
      exact .inr rfl
    | page k =>
      obtain ⟨hk, hpde, hpte, -⟩ := spaceFrame_page hf
      refine absurd ?_ hpte
      rw [pte, hother _ (by omega) hpde, recycled_pde, hframe]
      exact recycled_word (isFrame_of_mod (by decide)) (by decide) (Nat.mod_lt _ (by decide))
        (.inl (by decide))
  refine ⟨isFrame_of_mod (by decide), fun o f hf hfr => ?_, fun i hi hne => ?_,
    isFrame_of_mod (by decide), fun hfr => ?_, fun o ho => ?_, fun i hi => ?_, fun hfr => ?_⟩
  · rcases hframes o f hf with rfl | rfl
    · exact absurd (hfree _ hfr) (by decide)
    · exact absurd (hfree _ hfr) (by decide)
  · rw [hother i hi hne]
    show IsPresent (pde 0x80200000 (recycledMemory w) 0)
    rw [recycled_pde]
    decide
  · exact absurd (hfree _ hfr) (by decide)
  · rcases hframes o _ ho with h | h
    · exact absurd h (by decide)
    · exact absurd h (by decide)
  · exact recycled_word (isFrame_of_mod (by decide)) (by decide) (by omega) (.inl (by decide))
  · exact absurd (hfree _ hfr) (by decide)

theorem acquire_recycled : pageAcquire0 frameList (recycled w) =
    (some 0x80500000, ⟨recycledMemory w, [], [0x80500000], [], []⟩) := by
  have hframe : numbered 0x80500 = 0x80500000 := by decide
  rw [← hframe]
  rfl

/-- The frames of the parent, and the one that is handed out, keep their words. -/
theorem recycledClone_word {f : BitVec 32} (hf : IsFrame f) (hne : f ≠ 0x80400000)
    (hj : j < 1024) : load32 (recycledClone w).mem (entryAddr f j) =
      load32 (recycledMemory w) (entryAddr f j) := by
  refine load32_store32_of_apart fun x hx hx' => ?_
  exact frames_apart hf (isFrame_of_mod (by decide)) hne x (inBytes_entryAddr hj hx)
    (inBytes_entryAddr (by decide) hx')

theorem cloneTable_recycled :
    cloneTable frameList 0x80200000 0x80400000 0 (recycled w) = (true, recycledClone w) := by
  have hread : load32 (recycled w).mem (entryAddr 0x80200000 0) = 0x00300007 := recycled_pde
  have hread' : load32 (recycledClone w).mem (entryAddr 0x80200000 0) = 0x00300007 :=
    (recycledClone_word (isFrame_of_mod (by decide)) (by decide) (by decide)).trans recycled_pde
  have hframe : entryFrame 0x00300007 = 0x80300000 := by decide
  rw [cloneTable, hread, if_neg (by decide), acquire_recycled]
  dsimp only
  rw [← recycledClone, hread', hframe]
  refine cloneTableLoop_of_zero 1024 0 _ fun j hj => ?_
  rw [recycledClone_word (isFrame_of_mod (by decide)) (by decide) (by omega)]
  exact recycled_word (isFrame_of_mod (by decide)) (by decide) (by omega) (.inl (by decide))

theorem recycledClone_rest (hi : 1 ≤ i) (hi' : i < 512) :
    pde 0x80200000 (recycledClone w).mem i = 0 := by
  rw [pde, recycledClone_word (isFrame_of_mod (by decide)) (by decide) (by omega)]
  exact recycled_word (isFrame_of_mod (by decide)) (by decide) (by omega) (.inr (by omega))

theorem pagingClone_recycled : pagingClone frameList 0x80200000 0x80400000 (recycled w) =
    some (true, recycledClone w) := by
  have hl : cloneLoop frameList 0x80200000 0x80400000 512 0 (recycled w) =
      (true, recycledClone w) := by
    rw [cloneLoop, cloneTable_recycled]
    exact cloneLoop_of_zero 511 1 _ fun i hi hi' => recycledClone_rest hi (by omega)
  rw [pagingClone, hl]

end recycled

/-- The free frame is all zero. -/
theorem copiesSpace_iff_cleared :
    CopiesSpace 0x80200000 0x80400000 (recycled 0) (recycledClone 0) := by
  refine (copiesSpace_iff frameList 0x80200000 0x80400000 (recycled 0) (recycledClone 0)
    cloneable_recycled pagingClone_recycled).mpr ⟨fun _ table s₁ ha j hj _ => ?_, fun s' hs' => ?_⟩
  · obtain ⟨hsome, rfl⟩ := Prod.mk.inj (acquire_recycled.symm.trans ha)
    obtain rfl := Option.some.inj hsome
    refine load32_eq_zero fun x hx => ?_
    by_cases hx' : InBytes 0x80200000 4 x
    · exact absurd (hx'.mono (by decide : 4 ≤ 0x1000)) (frames_apart (isFrame_of_mod (by decide))
        (isFrame_of_mod (by decide)) (by decide) x (inBytes_entryAddr hj hx))
    · by_cases heq : x = 0x80500000
      · subst heq
        rfl
      · have h₁ : x ≠ 0x80200000 := fun h => hx' (h ▸ inBytes_self (by decide))
        have h₂ : x ≠ 0x80200002 := fun h => hx' (h ▸ by decide)
        show recycledMemory 0 x = 0
        rw [recycledMemory, if_neg h₁, if_neg h₂, if_neg heq]
  · obtain ⟨-, rfl⟩ := Prod.mk.inj (cloneTable_recycled.symm.trans hs')
    exact allClean_of_zero 511 1 _ fun i hi hi' => recycledClone_rest hi (by omega)

/-- The free frame begins with the byte 1: the clone has a page at address 0, the parent none. -/
theorem not_forall_copiesSpace :
    ¬∀ s s', Cloneable frameList 0x80200000 0x80400000 s →
      pagingClone frameList 0x80200000 0x80400000 s = some (true, s') →
        CopiesSpace 0x80200000 0x80400000 s s' := by
  intro h
  have hcopy := (h (recycled 1) (recycledClone 1) cloneable_recycled pagingClone_recycled).mapped 0
    (by decide)
  have hnumber : pageNumber 0 = 0 := by decide
  have hframe : entryFrame 0x00300007 = 0x80300000 := by decide
  have hclone : pde 0x80400000 (recycledClone 1).mem 0 = 0x00500007 := by
    have hvalue : physAddr32 0x80500000 + pageOffset 0x00300007 = 0x00500007 := by decide
    rw [← hvalue, ← recycled_pde (w := 1)]
    exact pde_writeEntry
  have htable : entryFrame 0x00500007 = 0x80500000 := by decide
  have hmapped : pagingIsPageMapped 0x80400000 0 (recycledClone 1) = true := by
    rw [pagingIsPageMapped_iff, hnumber, pte, hclone, htable,
      recycledClone_word (isFrame_of_mod (by decide)) (by decide) (by decide)]
    refine ⟨by decide, ?_⟩
    simp [load32, entryAddr, recycledMemory]
  have hunmapped : ¬pagingIsPageMapped 0x80200000 0 (recycled 1) = true := by
    rw [pagingIsPageMapped_iff, hnumber]
    refine fun hm => hm.2 ?_
    show load32 (recycledMemory 1) (entryAddr (entryFrame (pde 0x80200000 (recycledMemory 1) 0)) 0)
      = 0
    rw [recycled_pde, hframe]
    exact recycled_word (isFrame_of_mod (by decide)) (by decide) (by decide) (.inl (by decide))
  exact hunmapped (hcopy ▸ hmapped)

end Avos
