import Avos.Paging.Entries
import Avos.Tasking.AddressSpace

/-! # The Frames of a Process

  A process owns its directory, the page tables of its user half and the pages that these
  map. `ownerFrame` reads off the memory which frame has which purpose: mapping adds a frame,
  unmapping takes one away, and no frame ever has two purposes (`Owns`).
  That holds of a process from its `Paging_Initialize` on, over any calls that map and unmap
  pages of the user half (`owns_of_hasSpace`).
-/

open ByteMemory

namespace Avos

variable {σ : Type*} {A : FrameAllocator σ}

/-! ## Section 1: The Code -/

/-- `Paging_Initialize`, with the directory it makes. The address of the directory is the value
    that `task_context->cr3` gets. -/
def PagingState.pagingInitialize (A : FrameAllocator σ) (kernelDirectory : BitVec 32)
    (s : PagingState σ) : Option (BitVec 32) × PagingState σ :=
  match pageAcquire0 A s with
  | (none, s) => (none, s)
  | (some pgd, s) =>
      let s := clearPage s pgd
      (some pgd, { s with mem := copyKernelHalf s.mem kernelDirectory pgd 512 })

/-! ## Section 2: Who Owns a Frame -/

/-- What a process needs a frame for: its directory, a page table of the user half, by its
    entry, or a page of the user half, by its number. -/
inductive Owner where
  | directory
  | table (i : Nat)
  | page (k : Nat)
  deriving DecidableEq

/-- The frame, if there is one. -/
def ownerFrame (dir : BitVec 32) (m : Memory) : Owner → Option (BitVec 32)
  | .directory => some dir
  | .table i =>
      if i < 512 ∧ IsPresent (pde dir m i) then some (entryFrame (pde dir m i)) else none
  | .page k =>
      if k < 2 ^ 19 ∧ IsPresent (pde dir m (k / 1024)) ∧ IsPresent (pte dir m k) then
        some (entryFrame (pte dir m k))
      else none

/-- Each frame has one purpose. -/
structure OneOwner (dir : BitVec 32) (m : Memory) : Prop where
  dirFrame : IsFrame dir
  unique : ∀ o o' f, ownerFrame dir m o = some f → ownerFrame dir m o' = some f → o = o'

/-- The frames of a process are in use, and each has one purpose. -/
structure Owns (A : FrameAllocator σ) (dir : BitVec 32) (s : PagingState σ) : Prop
    extends OneOwner dir s.mem where
  held : ∀ o f, ownerFrame dir s.mem o = some f → ¬A.free s.frames f

/-- A step that concerns none of the frames of the process: its directory and page tables
    keep their contents, and its frames stay in use. -/
structure Leaves (A : FrameAllocator σ) (dir : BitVec 32) (s s' : PagingState σ) : Prop where
  directory : ∀ x, InBytes dir 0x1000 x → s'.mem x = s.mem x
  tables : ∀ i t, ownerFrame dir s.mem (.table i) = some t →
    ∀ x, InBytes t 0x1000 x → s'.mem x = s.mem x
  held : ∀ o f, ownerFrame dir s.mem o = some f → ¬A.free s.frames f → ¬A.free s'.frames f

/-- The states of a process from its `Paging_Initialize` on: pages are mapped and unmapped, in
    the user half, and in between anything may happen that leaves its frames alone. -/
inductive HasSpace (A : FrameAllocator σ) (kernelDirectory : BitVec 32) :
    BitVec 32 → PagingState σ → Prop
  | start {s s' dir} : PagingState.pagingInitialize A kernelDirectory s = (some dir, s') →
      HasSpace A kernelDirectory dir s'
  | call {dir s s' c} : HasSpace A kernelDirectory dir s → PagingCall.Safe A dir s c →
      c.run A dir s = some s' → HasSpace A kernelDirectory dir s'
  | other {dir s s'} : HasSpace A kernelDirectory dir s → Leaves A dir s s' →
      HasSpace A kernelDirectory dir s'

/-! ## Section 3: The Frames Under the Steps -/

section frames

variable {dir : BitVec 32} {s s' : PagingState σ} {m m' : Memory} {va pa t f g p x : BitVec 32}
  {i j k : Nat} {o o' : Owner}

theorem ownerFrame_table (h : ownerFrame dir m (.table i) = some t) :
    i < 512 ∧ IsPresent (pde dir m i) ∧ t = entryFrame (pde dir m i) := by
  rw [ownerFrame] at h
  split at h
  · next hp => exact ⟨hp.1, hp.2, (Option.some.inj h).symm⟩
  · cases h

theorem ownerFrame_page (h : ownerFrame dir m (.page k) = some f) :
    k < 2 ^ 19 ∧ IsPresent (pde dir m (k / 1024)) ∧ IsPresent (pte dir m k) ∧
      f = entryFrame (pte dir m k) := by
  rw [ownerFrame] at h
  split at h
  · next hp => exact ⟨hp.1, hp.2.1, hp.2.2, (Option.some.inj h).symm⟩
  · cases h

theorem ownerFrame_table_eq (hi : i < 512) (hp : IsPresent (pde dir m i)) :
    ownerFrame dir m (.table i) = some (entryFrame (pde dir m i)) := if_pos ⟨hi, hp⟩

theorem Owns.isFrame (h : Owns A dir s) (hf : ownerFrame dir s.mem o = some f) : IsFrame f := by
  cases o with
  | directory =>
    obtain rfl : dir = f := Option.some.inj hf
    exact h.dirFrame
  | table i =>
    rw [(ownerFrame_table hf).2.2]
    exact isFrame_entryFrame
  | page k =>
    rw [(ownerFrame_page hf).2.2.2]
    exact isFrame_entryFrame

/-- The frames are read off the directory and the page tables. -/
theorem ownerFrame_congr (hdir : ∀ x, InBytes dir 0x1000 x → m' x = m x)
    (htables : ∀ i t, ownerFrame dir m (.table i) = some t →
      ∀ x, InBytes t 0x1000 x → m' x = m x) : ownerFrame dir m' o = ownerFrame dir m o := by
  have hpde : ∀ i, i < 512 → pde dir m' i = pde dir m i := fun i hi =>
    pde_congr hdir (by omega)
  have hpte : ∀ k, k < 2 ^ 19 → IsPresent (pde dir m (k / 1024)) → pte dir m' k = pte dir m k := by
    intro k hk hp
    rw [pte, pte, hpde _ (by omega)]
    exact load32_congr fun x hx => htables _ _ (ownerFrame_table_eq (by omega) hp) x
      (inBytes_entryAddr (Nat.mod_lt _ (by decide)) hx)
  cases o with
  | directory => rfl
  | table i =>
    rw [ownerFrame, ownerFrame]
    by_cases hi : i < 512
    · rw [hpde i hi]
    · rw [if_neg fun h => hi h.1, if_neg fun h => hi h.1]
  | page k =>
    rw [ownerFrame, ownerFrame]
    by_cases hk : k < 2 ^ 19
    · rw [hpde _ (by omega)]
      by_cases hp : IsPresent (pde dir m (k / 1024))
      · rw [hpte k hk hp]
      · rw [if_neg fun h => hp h.2.1, if_neg fun h => hp h.2.1]
    · rw [if_neg fun h => hk h.1, if_neg fun h => hk h.1]

theorem Leaves.ownerFrame_eq (h : Leaves A dir s s') :
    ownerFrame dir s'.mem o = ownerFrame dir s.mem o :=
  ownerFrame_congr h.directory h.tables

theorem Owns.leaves (h : Owns A dir s) (hl : Leaves A dir s s') : Owns A dir s' where
  dirFrame := h.dirFrame
  held o f hf := by
    rw [hl.ownerFrame_eq] at hf
    exact hl.held o f hf (h.held o f hf)
  unique o o' f hf hf' := by
    rw [hl.ownerFrame_eq] at hf hf'
    exact h.unique o o' f hf hf'

/-- A frame that is in use, but not by the process. -/
structure Spare (A : FrameAllocator σ) (dir : BitVec 32) (s : PagingState σ) (f : BitVec 32) :
    Prop where
  isFrame : IsFrame f
  held : ¬A.free s.frames f
  spare : ∀ o, ownerFrame dir s.mem o ≠ some f

/-- A spare frame gets a purpose. -/
theorem Owns.gain (h : Owns A dir s) (hf : Spare A dir s f)
    (hupd : ∀ o', ownerFrame dir s'.mem o' = if o' = o then some f else ownerFrame dir s.mem o')
    (hfree : ∀ g, A.free s'.frames g → A.free s.frames g) : Owns A dir s' where
  dirFrame := h.dirFrame
  held o' g hg hg' := by
    rw [hupd] at hg
    split at hg
    · obtain rfl := Option.some.inj hg
      exact hf.held (hfree f hg')
    · exact h.held o' g hg (hfree g hg')
  unique o₁ o₂ g h₁ h₂ := by
    rw [hupd] at h₁ h₂
    split at h₁
    · next heq₁ =>
      split at h₂
      · next heq₂ => rw [heq₁, heq₂]
      · exact absurd (h₂.trans h₁.symm) (hf.spare o₂)
    · split at h₂
      · exact absurd (h₁.trans h₂.symm) (hf.spare o₁)
      · exact h.unique o₁ o₂ g h₁ h₂

/-- A frame is given back. -/
theorem Owns.lose (h : Owns A dir s) (hf : ownerFrame dir s.mem o = some f)
    (hupd : ∀ o', ownerFrame dir s'.mem o' = if o' = o then none else ownerFrame dir s.mem o')
    (hfree : ∀ g, A.free s'.frames g → A.free s.frames g ∨ g = f) : Owns A dir s' where
  dirFrame := h.dirFrame
  held o' g hg hg' := by
    rw [hupd] at hg
    split at hg
    · cases hg
    · next hne =>
      rcases hfree g hg' with hfree | rfl
      · exact h.held o' g hg hfree
      · exact hne (h.unique o' o g hg hf)
  unique o₁ o₂ g h₁ h₂ := by
    rw [hupd] at h₁ h₂
    split at h₁
    · cases h₁
    · split at h₂
      · cases h₂
      · exact h.unique o₁ o₂ g h₁ h₂

/-! ### The allocator -/

theorem Owns.acquire_frame (h : Owns A dir s) (hf : ownerFrame dir s.mem o = some f)
    (hx : InBytes f 0x1000 x) : (pageAcquire0 A s).2.mem x = s.mem x :=
  A.acquire_frame s.frames s.mem x (not_inBytes_of_held (h.isFrame hf) (h.held o f hf) hx)

theorem Owns.leaves_acquire (h : Owns A dir s) : Leaves A dir s (pageAcquire0 A s).2 where
  directory _ hx := h.acquire_frame (o := .directory) rfl hx
  tables _ _ ht _ hx := h.acquire_frame ht hx
  held _ f _ hheld hf := hheld (A.acquire_rest s.frames s.mem f hf).1

theorem Owns.spare_acquire (h : Owns A dir s) (ha : pageAcquire0 A s = (some f, s')) :
    Spare A dir s' f := by
  obtain rfl : (pageAcquire0 A s).2 = s' := by rw [ha]
  have hf : (A.acquire s.frames s.mem).1 = some f := congrArg Prod.fst ha
  have hfree := A.acquire_free s.frames s.mem f hf
  refine ⟨A.isFrame s.frames f hfree, fun hf' => ?_, fun o ho => ?_⟩
  · exact (A.acquire_rest s.frames s.mem f hf').2 hf
  · rw [h.leaves_acquire.ownerFrame_eq] at ho
    exact h.held o f ho hfree

theorem Spare.acquire (hp : Spare A dir s p) (h : Owns A dir s) :
    Spare A dir (pageAcquire0 A s).2 p where
  isFrame := hp.isFrame
  held hf := hp.held (A.acquire_rest s.frames s.mem p hf).1
  spare o ho := by
    rw [h.leaves_acquire.ownerFrame_eq] at ho
    exact hp.spare o ho

/-- A frame that is given back is not one of the others. -/
theorem Owns.release_frame (h : Owns A dir s) (hf : ownerFrame dir s.mem o = some f)
    (hp : IsFrame p) (hne : f ≠ p) (hx : InBytes f 0x1000 x) :
    (pageRelease0 A s p).mem x = s.mem x :=
  release_frame_of_ne (h.isFrame hf) (h.held o f hf) hp hne hx

theorem Owns.leaves_release (h : Owns A dir s) (hp : Spare A dir s p) :
    Leaves A dir s (pageRelease0 A s p) where
  directory _ hx := h.release_frame (o := .directory) rfl hp.isFrame
    (fun heq => hp.spare .directory (congrArg some heq)) hx
  tables i _ ht _ hx := h.release_frame ht hp.isFrame
    (fun heq => hp.spare (.table i) (ht.trans (congrArg some heq))) hx
  held o _ hf hheld hfree := hheld (release_free hfree fun heq =>
    hp.spare o (hf.trans (congrArg some heq)))

/-! ### The writes -/

/-- A frame that the process does not own may be written to. -/
theorem Owns.leaves_write (h : Owns A dir s) (hf : Spare A dir s f)
    (hmem : ∀ x, ¬InBytes f 0x1000 x → s'.mem x = s.mem x) (hfrees : s'.frames = s.frames) :
    Leaves A dir s s' where
  directory x hx := hmem x (frames_apart h.dirFrame hf.isFrame
    (fun heq => hf.spare .directory (congrArg some heq)) x hx)
  tables i _ ht x hx := hmem x (frames_apart (h.isFrame ht) hf.isFrame
    (fun heq => hf.spare (.table i) (ht.trans (congrArg some heq))) x hx)
  held _ _ _ hheld := by rwa [hfrees]

theorem Spare.leaves (hp : Spare A dir s p) (hl : Leaves A dir s s') (hfree : ¬A.free s'.frames p) :
    Spare A dir s' p where
  isFrame := hp.isFrame
  held := hfree
  spare o ho := by
    rw [hl.ownerFrame_eq] at ho
    exact hp.spare o ho

theorem OneOwner.tablesApart (h : OneOwner dir m) : TablesApart dir m where
  dirFrame := h.dirFrame
  ne_dir i hi hp heq := by
    have := h.unique (.table i) .directory dir
      ((ownerFrame_table_eq hi hp).trans (congrArg some heq)) rfl
    cases this
  unique i j hi hj hp hp' heq := Owner.table.inj (h.unique _ _ _ (ownerFrame_table_eq hi hp)
    ((ownerFrame_table_eq hj hp').trans (congrArg some heq.symm)))

/-- The page of an entry. -/
theorem ownerFrame_userEntry : ownerFrame dir m (.page k) =
    if k < 2 ^ 19 ∧ IsPresent (userEntry dir m k) then some (entryFrame (userEntry dir m k))
    else none := by
  rw [ownerFrame]
  by_cases hp : IsPresent (pde dir m (k / 1024))
  · rw [userEntry_of_present hp]
    simp only [hp, true_and]
  · have habsent : ¬IsPresent 0 := by decide
    rw [userEntry_of_absent hp, if_neg fun h => hp h.2.1, if_neg fun h => habsent h.2]

/-- The frames of a process, when the directory and the entries of the user half are the same. -/
theorem ownerFrame_table_congr (hpde : ∀ i < 1024, pde dir m' i = pde dir m i) :
    ownerFrame dir m' (.table i) = ownerFrame dir m (.table i) := by
  rw [ownerFrame, ownerFrame]
  by_cases hi : i < 512
  · rw [hpde i (by omega)]
  · rw [if_neg fun h => hi h.1, if_neg fun h => hi h.1]

/-- A word is written to an entry of a page table. -/
theorem ownerFrame_writePte (h : OneOwner dir s.mem) (hk : k < 2 ^ 19)
    (hp : IsPresent (pde dir s.mem (k / 1024))) {v : BitVec 32} {w : Option Nat} :
    ownerFrame dir (writeEntry s (entryAddr (entryFrame (pde dir s.mem (k / 1024))) (k % 1024))
      v w).mem o = if o = .page k then (if IsPresent v then some (entryFrame v) else none)
        else ownerFrame dir s.mem o := by
  have happly : ∀ n < 2 ^ 19, userEntry dir (writeEntry s (entryOf dir s.mem k) v w).mem n =
      if n = k then v else userEntry dir s.mem n :=
    fun n hn => userEntry_store h.tablesApart hk hp hn
  cases o with
  | directory => rfl
  | table i =>
    rw [if_neg (by simp : ¬Owner.table i = .page k)]
    exact ownerFrame_table_congr fun i hi => pde_store h.tablesApart hk hp hi
  | page n =>
    rw [ownerFrame_userEntry, ownerFrame_userEntry]
    by_cases hn : n < 2 ^ 19
    · rw [← entryOf, happly n hn]
      by_cases hnk : n = k
      · rw [if_pos hnk, if_pos (congrArg Owner.page hnk)]
        simp only [hn, true_and]
      · rw [if_neg hnk, if_neg (by simpa using hnk : ¬Owner.page n = .page k)]
    · have hnk : n ≠ k := fun heq => hn (heq ▸ hk)
      rw [if_neg (by simpa using hnk : ¬Owner.page n = .page k), if_neg fun h => hn h.1,
        if_neg fun h => hn h.1]

/-- A cleared frame becomes the page table of an absent entry. -/
theorem ownerFrame_writePde (h : OneOwner dir s.mem) (hi : i < 512)
    (hp : ¬IsPresent (pde dir s.mem i)) (ht : Spare A dir s t)
    (hzero : ∀ j, j < 1024 → load32 s.mem (entryAddr t j) = 0)
    {w : Option Nat} :
    ownerFrame dir (writeEntry s (entryAddr dir i) (physAddr32 t ||| pageFlags) w).mem o =
      if o = .table i then some t else ownerFrame dir s.mem o := by
  have hdir : t ≠ dir := fun heq => ht.spare .directory (congrArg some heq.symm)
  cases o with
  | directory => rfl
  | table n =>
    rw [ownerFrame, ownerFrame]
    by_cases hn : n < 512
    · have hpde : pde dir (writeEntry s (entryAddr dir i) (physAddr32 t ||| pageFlags) w).mem n =
          if n = i then physAddr32 t ||| pageFlags else pde dir s.mem n :=
        pde_install (by omega) (by omega)
      rw [hpde]
      by_cases hni : n = i
      · rw [if_pos hni, if_pos ⟨hn, isPresent_pageFlags⟩, if_pos (congrArg Owner.table hni),
          entryFrame_physAddr ht.isFrame]
      · rw [if_neg hni, if_neg (by simpa using hni : ¬Owner.table n = .table i)]
    · have hni : n ≠ i := fun heq => hn (heq ▸ hi)
      rw [if_neg (by simpa using hni : ¬Owner.table n = .table i), if_neg fun h => hn h.1,
        if_neg fun h => hn h.1]
  | page n =>
    rw [if_neg (by simp : ¬Owner.page n = .table i), ownerFrame_userEntry, ownerFrame_userEntry]
    by_cases hn : n < 2 ^ 19
    · have hentry : userEntry dir (writeEntry s (entryAddr dir i) (physAddr32 t ||| pageFlags)
          w).mem n = userEntry dir s.mem n :=
        userEntry_install h.tablesApart hi hp ht.isFrame hdir hzero hn
      rw [hentry]
    · rw [if_neg fun h => hn h.1, if_neg fun h => hn h.1]

/-! ### Mapping -/

theorem Owns.writePte (h : Owns A dir s) (hva : pageDirIdx va < 512)
    (hpde : IsPresent (pde dir s.mem (pageDirIdx va))) (hp : Spare A dir s p) {w : Option Nat} :
    Owns A dir (writeEntry s (pteAddr dir va s) (physAddr32 p ||| pageFlags) w) := by
  rw [pteAddr, pageDirIdx_eq_number, pageTabIdx_eq_number]
  rw [pageDirIdx_eq_number] at hpde
  refine h.gain (o := .page (pageNumber va)) hp (fun o' => ?_) fun _ hg => hg
  rw [ownerFrame_writePte h.toOneOwner (pageNumber_lt hva) hpde, if_pos isPresent_pageFlags,
    entryFrame_physAddr hp.isFrame]

theorem Owns.of_mapInTable (h : Owns A dir s) (hva : pageDirIdx va < 512)
    (hpde : ¬IsPresent (pde dir s.mem (pageDirIdx va))) (ht : Spare A dir s t)
    (hp : Spare A dir s p) (hne : t ≠ p) : Owns A dir (mapInTable dir va (physAddr32 p) t s) := by
  have hclear : Leaves A dir s (clearPage s t) := h.leaves_write ht (fun _ => clearPage_frame) rfl
  have ht₁ : Spare A dir (clearPage s t) t := ht.leaves hclear ht.held
  have hp₁ : Spare A dir (clearPage s t) p := hp.leaves hclear hp.held
  have hpde₁ : ¬IsPresent (pde dir (clearPage s t).mem (pageDirIdx va)) := by
    rwa [pde_congr hclear.directory pageDirIdx_lt]
  have hupd := fun o' => ownerFrame_writePde (o := o') (w := none) (h.leaves hclear).toOneOwner hva
    hpde₁ ht₁ fun _ => load32_clearPage
  have h₂ := (h.leaves hclear).gain ht₁ hupd fun _ hg => hg
  have hp₂ : Spare A dir (writeEntry (clearPage s t) (entryAddr dir (pageDirIdx va))
      (physAddr32 t ||| pageFlags) none) p := by
    refine ⟨hp.isFrame, hp.held, fun o ho => ?_⟩
    rw [hupd] at ho
    split at ho
    · exact hne (Option.some.inj ho)
    · exact hp₁.spare o ho
  have he := @pde_writeEntry σ dir (clearPage s t) (pageDirIdx va) (physAddr32 t ||| pageFlags)
    none
  have h₃ := h₂.writePte (w := some (pageDirIdx va)) hva (by rw [he]; exact isPresent_pageFlags) hp₂
  rwa [pteAddr, he, entryFrame_physAddr ht.isFrame] at h₃

theorem Owns.of_map_true (h : Owns A dir s) (hva : pageDirIdx va < 512) (hp : Spare A dir s p)
    (hm : pagingMapPage A dir va (physAddr32 p) true s = (true, s')) : Owns A dir s' := by
  by_cases hpde : IsPresent (pde dir s.mem (pageDirIdx va))
  · rw [pagingMapPage_present hpde] at hm
    split at hm
    · exact absurd (congrArg Prod.fst hm) (by simp)
    · obtain rfl := congrArg Prod.snd hm
      exact h.writePte hva hpde hp
  · rw [pagingMapPage_absent hpde] at hm
    split at hm
    · exact absurd (congrArg Prod.fst hm) (by simp)
    · next t s₁ ha =>
      obtain rfl := congrArg Prod.snd hm
      have hs₁ : (pageAcquire0 A s).2 = s₁ := by rw [ha]
      have hl : Leaves A dir s s₁ := hs₁ ▸ h.leaves_acquire
      have hfree : A.free s.frames t := A.acquire_free s.frames s.mem t (congrArg Prod.fst ha)
      refine (h.leaves hl).of_mapInTable hva ?_ (h.spare_acquire ha) (hs₁ ▸ hp.acquire h) ?_
      · rwa [pde_congr hl.directory pageDirIdx_lt]
      · exact fun heq => hp.held (heq ▸ hfree)

/-- A page that cannot be mapped stays spare. -/
theorem Owns.of_map_false (h : Owns A dir s) (hp : Spare A dir s p)
    (hm : pagingMapPage A dir va pa true s = (false, s')) : Owns A dir s' ∧ Spare A dir s' p := by
  by_cases hpde : IsPresent (pde dir s.mem (pageDirIdx va))
  · rw [pagingMapPage_present hpde] at hm
    split at hm
    · obtain rfl := congrArg Prod.snd hm
      exact ⟨h, hp⟩
    · exact absurd (congrArg Prod.fst hm) (by simp)
  · rw [pagingMapPage_absent hpde] at hm
    split at hm
    · next s₁ ha =>
      obtain rfl := congrArg Prod.snd hm
      obtain rfl : (pageAcquire0 A s).2 = s₁ := by rw [ha]
      exact ⟨h.leaves h.leaves_acquire, hp.acquire h⟩
    · exact absurd (congrArg Prod.fst hm) (by simp)

theorem Owns.of_mapNext (h : Owns A dir s) (hva : pageDirIdx va < 512)
    (hm : mapNext A dir va s = some s') : Owns A dir s' := by
  rw [mapNext] at hm
  split at hm
  · cases hm
  · next page s₁ ha =>
    split at hm
    · cases hm
    · next s₂ hmap =>
      obtain rfl := Option.some.inj hm
      have hs₁ : (pageAcquire0 A s).2 = s₁ := by rw [ha]
      exact (h.leaves (hs₁ ▸ h.leaves_acquire)).of_map_true hva (h.spare_acquire ha) hmap

theorem Owns.of_mapStop (h : Owns A dir s) (hm : mapNext A dir va s = none) :
    Owns A dir (mapStop A dir va s) := by
  rw [mapNext] at hm
  rw [mapStop]
  split at hm
  · next s₁ ha =>
    obtain rfl : (pageAcquire0 A s).2 = s₁ := by rw [ha]
    exact h.leaves h.leaves_acquire
  · next page s₁ ha =>
    split at hm
    · next s₂ hmap =>
      have hs₁ : (pageAcquire0 A s).2 = s₁ := by rw [ha]
      obtain ⟨h₂, hp₂⟩ :=
        (h.leaves (hs₁ ▸ h.leaves_acquire)).of_map_false (h.spare_acquire ha) hmap
      simp only [hmap]
      exact h₂.leaves (h₂.leaves_release hp₂)
    · cases hm

/-! ### Unmapping -/

/-- A page that is given back leaves the directory and the page tables as they are. -/
theorem Owns.ownerFrame_release (h : Owns A dir s) (hf : ownerFrame dir s.mem (.page k) = some f) :
    ownerFrame dir (pageRelease0 A s f).mem o = ownerFrame dir s.mem o := by
  have hother : ∀ o' g x, ownerFrame dir s.mem o' = some g → o' ≠ .page k → InBytes g 0x1000 x →
      (pageRelease0 A s f).mem x = s.mem x := fun o' g x hg hne hx =>
    h.release_frame hg (h.isFrame hf) (fun heq => hne (h.unique _ _ f (heq ▸ hg) hf)) hx
  exact ownerFrame_congr (fun x hx => hother .directory dir x rfl (by simp) hx)
    fun i t ht x hx => hother (.table i) t x ht (by simp) hx

theorem ownerFrame_page_eq (hva : pageDirIdx va < 512)
    (hpde : IsPresent (pde dir s.mem (pageDirIdx va)))
    (hpte : IsPresent (load32 s.mem (pteAddr dir va s))) :
    ownerFrame dir s.mem (.page (pageNumber va)) =
      some (entryFrame (load32 s.mem (pteAddr dir va s))) := by
  rw [pteAddr, pageDirIdx_eq_number, pageTabIdx_eq_number] at hpte ⊢
  rw [pageDirIdx_eq_number] at hpde
  exact if_pos ⟨pageNumber_lt hva, hpde, hpte⟩

/-- The page of an entry is taken out. -/
theorem Owns.ownerFrame_unmapped (h : Owns A dir s) (hva : pageDirIdx va < 512)
    (hpde : IsPresent (pde dir s.mem (pageDirIdx va)))
    (hpte : IsPresent (load32 s.mem (pteAddr dir va s))) :
    ownerFrame dir (unmapped A dir va s).mem o =
      if o = .page (pageNumber va) then none else ownerFrame dir s.mem o := by
  have hf := ownerFrame_page_eq hva hpde hpte
  have hsame := fun o => h.ownerFrame_release (o := o) hf
  have hone : OneOwner dir (pageRelease0 A s (entryFrame (load32 s.mem (pteAddr dir va s)))).mem :=
    ⟨h.dirFrame, fun o o' g hg hg' => h.unique o o' g (hsame o ▸ hg) (hsame o' ▸ hg')⟩
  have hpde' : pde dir (pageRelease0 A s (entryFrame (load32 s.mem (pteAddr dir va s)))).mem
      (pageDirIdx va) = pde dir s.mem (pageDirIdx va) :=
    pde_congr (fun x hx => h.release_frame (o := .directory) rfl isFrame_entryFrame
      (fun heq => by cases h.unique .directory _ dir rfl (hf.trans (congrArg some heq.symm))) hx)
      pageDirIdx_lt
  have hupd := ownerFrame_writePte (o := o) (v := 0) (w := some (pageDirIdx va)) hone
    (pageNumber_lt hva) (by rw [← pageDirIdx_eq_number, hpde']; exact hpde)
  rw [← pageDirIdx_eq_number, ← pageTabIdx_eq_number, hpde', hsame o] at hupd
  exact hupd

theorem Owns.of_unmapped (h : Owns A dir s) (hva : pageDirIdx va < 512)
    (hpde : IsPresent (pde dir s.mem (pageDirIdx va)))
    (hpte : IsPresent (load32 s.mem (pteAddr dir va s))) : Owns A dir (unmapped A dir va s) :=
  h.lose (ownerFrame_page_eq hva hpde hpte) (fun _ => h.ownerFrame_unmapped hva hpde hpte)
    fun g hg => A.release_rest s.frames s.mem _ g hg

theorem Owns.of_unmapPage (h : Owns A dir s) (hva : pageDirIdx va < 512) :
    Owns A dir (pagingUnmapPage A dir va s).2 := by
  obtain hs | ⟨hpde, hpte, hs⟩ := @pagingUnmapPage_cases σ A dir s va
  · rw [hs]
    exact h
  · rw [hs]
    exact h.of_unmapped hva hpde hpte

/-! ### The page tables -/

theorem Leaves.tablesKept (h : Leaves A dir s s') : TablesKept dir s.mem s'.mem := by
  rintro x (hx | ⟨i, hi, hp, hx⟩)
  · exact h.directory x hx
  · exact h.tables i _ (ownerFrame_table_eq hi hp) x hx

theorem Spare.ne_dir (h : Spare A dir s f) : f ≠ dir := by
  rintro rfl
  exact h.spare .directory rfl

theorem Spare.not_isUserTable (h : Spare A dir s f) : ¬IsUserTable dir s.mem f := by
  rintro ⟨i, hi, hp, rfl⟩
  exact h.spare (.table i) (ownerFrame_table_eq hi hp)

/-- For a process that owns its frames, `Page_Acquire` hands out other frames. -/
theorem Owns.acquireSpares (h : Owns A dir s) : AcquireSpares A dir s where
  kept := h.leaves_acquire.tablesKept
  fresh f hf := by
    have ha : pageAcquire0 A s = (some _, (pageAcquire0 A s).2) := Prod.ext hf rfl
    have hspare := h.spare_acquire ha
    refine ⟨hspare.ne_dir, fun ht => hspare.not_isUserTable ?_⟩
    exact (isUserTable_congr h.leaves_acquire.directory).mpr ht

/-- The page of an entry is given back, and the page tables are left alone. -/
theorem Owns.release_tablesKept (h : Owns A dir s) (hk : k < 2 ^ 19)
    (hp : IsPresent (userEntry dir s.mem k)) :
    TablesKept dir s.mem (pageRelease0 A s (entryFrame (userEntry dir s.mem k))).mem := by
  have hf : ownerFrame dir s.mem (.page k) = some (entryFrame (userEntry dir s.mem k)) := by
    rw [ownerFrame_userEntry, if_pos ⟨hk, hp⟩]
  rintro x (hx | ⟨i, hi, hpde, hx⟩)
  · refine h.release_frame (o := .directory) rfl isFrame_entryFrame (fun heq => ?_) hx
    cases h.unique .directory _ dir rfl (hf.trans (congrArg some heq.symm))
  · have ht := ownerFrame_table_eq hi hpde
    refine h.release_frame ht isFrame_entryFrame (fun heq => ?_) hx
    cases h.unique (.table i) _ _ ht (hf.trans (congrArg some heq.symm))

/-! ## Section 4: Every State of a Process -/

theorem owns_of_mapPages {size : BitVec 32} (h : Owns A dir s) (hno : NoKernelPage A dir va size s)
    (hr : PagingCall.run A dir s (.mapPages va size) = some s') : Owns A dir s' := by
  obtain ⟨r, hr⟩ := run_mapPages.mp hr
  by_cases hsize : size = 0
  · rw [pagingMapPages, if_pos hsize] at hr
    obtain rfl := congrArg Prod.snd (Option.some.inj hr)
    exact h
  · obtain ⟨r', s'', hl, hk⟩ := mapPagesLoop_invariant (I := Owns A dir) isFrame_pageAddress
      (fun _ _ _ h hva hm => h.of_mapNext hva hm) (fun _ _ h hm => h.of_mapStop hm)
      (2 ^ 20) (pageAddress va) 0 s isFrame_pageAddress h
      (by have := (pageAddress (va + size - 1) - pageAddress va).isLt; omega) (hno hsize)
    rw [pagingMapPages, if_neg hsize, hl] at hr
    obtain rfl := congrArg Prod.snd (Option.some.inj hr)
    exact hk

theorem owns_of_unmapPages {size : BitVec 32} (h : Owns A dir s)
    (hr : PagingCall.run A dir s (.unmapPages va size) = some s') : Owns A dir s' := by
  obtain ⟨r, hr⟩ := run_unmapPages.mp hr
  have hstep : ∀ page t, Owns A dir t → page < kernelStart →
      page ≤ pageAddress (va + size - 1) → Owns A dir (pagingUnmapPage A dir page t).2 :=
    fun _ _ h hva _ => h.of_unmapPage (pageDirIdx_lt_of_lt hva)
  obtain ⟨r', s'', -, hl, hk, -⟩ := unmapPagesLoop_invariant (I := fun _ => Owns A dir) hstep
    (2 ^ 19 + 1) (pageAddress (va + 0xFFF)) false s (by decide) (by omega) h
  rw [pagingUnmapPages, hl] at hr
  obtain rfl := congrArg Prod.snd (Option.some.inj hr)
  exact hk

theorem owns_of_call {c : PagingCall} (h : Owns A dir s) (hc : c.Safe A dir s)
    (hr : c.run A dir s = some s') : Owns A dir s' := by
  cases c with
  | mapPages va size => exact owns_of_mapPages h hc hr
  | unmapPages va size => exact owns_of_unmapPages h hr
  | shiftEndPoint endpoint shift =>
    rw [run_shiftEndPoint] at hr
    by_cases hzero : shift = 0
    · rw [if_pos hzero] at hr
      obtain rfl := Option.some.inj hr
      exact h
    rw [if_neg hzero] at hr
    by_cases hneg : shift.slt 0
    · rw [if_pos hneg] at hr
      exact owns_of_unmapPages h hr
    · rw [if_neg hneg] at hr
      exact owns_of_mapPages h ((hc.resolve_left hzero).resolve_left hneg) hr

/-- A new directory has no page tables in its user half. -/
theorem pde_pagingInitialize {kernelDirectory : BitVec 32} {n : Nat} (hi : i < 512) (hn : n ≤ 512) :
    pde dir (copyKernelHalf (clearPage s dir).mem kernelDirectory dir n) i = 0 := by
  induction n with
  | zero => exact load32_clearPage (by omega)
  | succ n ih =>
    refine Eq.trans ?_ (ih (by omega))
    rw [pde, copyKernelHalf]
    exact load32_store32_of_apart (entries_apart (t := dir) (by omega) (by omega) (by omega))

theorem owns_of_initialize {kernelDirectory : BitVec 32}
    (hs : PagingState.pagingInitialize A kernelDirectory s = (some dir, s')) : Owns A dir s' := by
  rw [PagingState.pagingInitialize] at hs
  split at hs
  · exact nomatch congrArg Prod.fst hs
  · next pgd s₁ ha =>
    obtain rfl : pgd = dir := Option.some.inj (congrArg Prod.fst hs)
    obtain rfl := congrArg Prod.snd hs
    have hfst : (A.acquire s.frames s.mem).1 = some pgd := congrArg Prod.fst ha
    have hfrees : (A.acquire s.frames s.mem).2.1 = s₁.frames :=
      congrArg (fun r => r.2.frames) ha
    -- the directory is the only frame
    have hzero : ∀ i, i < 512 → ¬IsPresent (pde pgd
        (copyKernelHalf (clearPage s₁ pgd).mem kernelDirectory pgd 512) i) := by
      intro i hi hp
      rw [pde_pagingInitialize hi (Nat.le_refl _)] at hp
      exact absurd hp (by decide)
    have honly : ∀ o f, ownerFrame pgd (copyKernelHalf (clearPage s₁ pgd).mem kernelDirectory pgd
        512) o = some f → o = .directory ∧ f = pgd := by
      intro o f hf
      cases o with
      | directory => exact ⟨rfl, (Option.some.inj hf).symm⟩
      | table i =>
        obtain ⟨hi, hp, -⟩ := ownerFrame_table hf
        exact absurd hp (hzero i hi)
      | page k =>
        obtain ⟨hk, hp, -⟩ := ownerFrame_page hf
        exact absurd hp (hzero _ (by omega))
    refine ⟨⟨A.isFrame s.frames pgd (A.acquire_free s.frames s.mem pgd hfst), ?_⟩, ?_⟩
    · intro o o' f hf hf'
      rw [(honly o f hf).1, (honly o' f hf').1]
    · intro o f hf hfree
      obtain rfl := (honly o f hf).2
      have hfree' : A.free (A.acquire s.frames s.mem).2.1 f := hfrees ▸ hfree
      exact (A.acquire_rest s.frames s.mem f hfree').2 hfst

theorem owns_of_hasSpace {kernelDirectory : BitVec 32} (h : HasSpace A kernelDirectory dir s) :
    Owns A dir s := by
  induction h with
  | start hs => exact owns_of_initialize hs
  | call _ hc hr ih => exact owns_of_call ih hc hr
  | other _ hl ih => exact ih.leaves hl

end frames

end Avos
