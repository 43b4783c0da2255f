import Avos.Paging.Ownership
import Mathlib.Data.List.Nodup

/-! # The End of an Address Space

  `Paging_Terminate` gives the pages of the user half back, then one frame for each of the 512
  entries of the directory, whether the entry is present or not, then the directory. What it
  releases is what the process owns exactly when all the entries are present
  (`releasesOwned_iff`): an absent entry is taken for a page table at `KERNADDR(0)`.
-/

open ByteMemory

namespace Avos

variable {σ : Type*} {A : FrameAllocator σ}

/-! ## Section 1: The Code -/

/-- The loop of `Paging_Terminate`, for the `n` entries from entry `i` on. -/
def terminateLoop (A : FrameAllocator σ) (dir : BitVec 32) : Nat → Nat → PagingState σ →
    PagingState σ
  | 0, _, s => s
  | n + 1, i, s =>
      let s := pageRelease0 A s (entryFrame (load32 s.mem (entryAddr dir i)))
      terminateLoop A dir n (i + 1) (writeEntry s (entryAddr dir i) 0 none)

/-- `Paging_Terminate`. -/
def pagingTerminate (A : FrameAllocator σ) (dir : BitVec 32) (s : PagingState σ) :
    Option (PagingState σ) :=
  (pagingUnmapPages A dir 0 kernelStart s).map fun (_, s) =>
    pageRelease0 A (terminateLoop A dir 512 0 s) dir

/-! ## Section 2: The Property -/

/-- The pages with the first `n` numbers. -/
def pagesBelow (dir : BitVec 32) (m : Memory) (n : Nat) : List (BitVec 32) :=
  (List.range n).filterMap fun k => ownerFrame dir m (.page k)

/-- The page tables of the user half. -/
def userTables (dir : BitVec 32) (m : Memory) : List (BitVec 32) :=
  (List.range 512).filterMap fun i => ownerFrame dir m (.table i)

/-- The pages that the user half maps. -/
def userPages (dir : BitVec 32) (m : Memory) : List (BitVec 32) := pagesBelow dir m (2 ^ 19)

/-- All frames of the process. -/
def ownedFrames (dir : BitVec 32) (m : Memory) : List (BitVec 32) :=
  dir :: (userTables dir m ++ userPages dir m)

/-- `Paging_Terminate` releases what the process owns, each frame once, and nothing else. -/
def ReleasesOwned (A : FrameAllocator σ) (dir : BitVec 32) (s : PagingState σ) : Prop :=
  ∃ s' released, pagingTerminate A dir s = some s' ∧ s'.released = released ++ s.released ∧
    released.Perm (ownedFrames dir s.mem) ∧ (ownedFrames dir s.mem).Nodup

/-! ## Section 3: The Pages -/

section pages

variable {dir : BitVec 32} {s s' : PagingState σ} {m : Memory} {va f : BitVec 32} {n : Nat}

theorem unmapPage_of_page (hf : ownerFrame dir s.mem (.page (pageNumber va)) = some f) :
    (pagingUnmapPage A dir va s).2 = unmapped A dir va s ∧
      f = entryFrame (load32 s.mem (pteAddr dir va s)) := by
  obtain ⟨-, hpde, hpte, rfl⟩ := ownerFrame_page hf
  rw [pte, ← pageDirIdx_eq_number, ← pageTabIdx_eq_number] at hpte ⊢
  rw [← pageDirIdx_eq_number] at hpde
  refine ⟨congrArg Prod.snd (?_ : _ = (true, unmapped A dir va s)), rfl⟩
  exact (if_neg (not_not.mpr hpde)).trans (if_neg (not_not.mpr hpte))

theorem unmapPage_of_no_page (hva : pageDirIdx va < 512)
    (hf : ownerFrame dir s.mem (.page (pageNumber va)) = none) :
    (pagingUnmapPage A dir va s).2 = s := by
  obtain hs | ⟨hpde, hpte, -⟩ := @pagingUnmapPage_cases σ A dir s va
  · exact hs
  · rw [ownerFrame_page_eq hva hpde hpte] at hf
    cases hf

/-- From `s`, the pages below the address have been given back. -/
structure UnmappedBelow (A : FrameAllocator σ) (dir : BitVec 32) (s : PagingState σ)
    (va : BitVec 32) (s' : PagingState σ) : Prop where
  aligned : IsFrame va
  le : va.toNat ≤ 2 ^ 31
  owns : Owns A dir s'
  owners : ∀ o, ownerFrame dir s'.mem o =
    if ∃ k < pageNumber va, o = .page k then none else ownerFrame dir s.mem o
  released : s'.released = (pagesBelow dir s.mem (pageNumber va)).reverse ++ s.released

theorem pagesBelow_succ :
    pagesBelow dir m (n + 1) = pagesBelow dir m n ++ (ownerFrame dir m (.page n)).toList := by
  rw [pagesBelow, List.range_succ, List.filterMap_append, ← pagesBelow]
  cases h : ownerFrame dir m (.page n) <;> simp [h]

theorem pageNumber_add (hva : IsFrame va) (hlt : va < kernelStart) :
    IsFrame (va + 0x1000) ∧ (va + 0x1000).toNat ≤ 2 ^ 31 ∧
      pageNumber (va + 0x1000) = pageNumber va + 1 := by
  have hlt' : va.toNat < 2 ^ 31 := hlt
  have hsize : (0x1000 : BitVec 32).toNat = 0x1000 := rfl
  rw [IsFrame] at hva ⊢
  rw [pageNumber, pageNumber, BitVec.toNat_add, hsize]
  omega

theorem UnmappedBelow.step (h : UnmappedBelow A dir s va s') (hva : va < kernelStart) :
    UnmappedBelow A dir s (va + 0x1000) (pagingUnmapPage A dir va s').2 := by
  obtain ⟨haligned, hle, hnumber⟩ := pageNumber_add h.aligned hva
  have hidx := pageDirIdx_lt_of_lt hva
  have hpage : ownerFrame dir s'.mem (.page (pageNumber va)) =
      ownerFrame dir s.mem (.page (pageNumber va)) := by
    rw [h.owners, if_neg]
    rintro ⟨k, hk, heq⟩
    exact absurd (Owner.page.inj heq) (by omega)
  have hsplit : ∀ o, (∃ k < pageNumber va + 1, o = Owner.page k) ↔
      o = .page (pageNumber va) ∨ ∃ k < pageNumber va, o = Owner.page k := by
    intro o
    constructor
    · rintro ⟨k, hk, rfl⟩
      rcases Nat.lt_succ_iff_lt_or_eq.mp hk with hk | rfl
      · exact .inr ⟨k, hk, rfl⟩
      · exact .inl rfl
    · rintro (rfl | ⟨k, hk, rfl⟩)
      · exact ⟨_, Nat.lt_succ_self _, rfl⟩
      · exact ⟨k, by omega, rfl⟩
  refine ⟨haligned, hle, h.owns.of_unmapPage hidx, fun o => ?_, ?_⟩
  · rw [hnumber]
    simp only [hsplit o]
    cases hf : ownerFrame dir s'.mem (.page (pageNumber va)) with
    | none =>
      rw [unmapPage_of_no_page hidx hf]
      by_cases ho : o = .page (pageNumber va)
      · rw [if_pos (.inl ho), ho, hf]
      · rw [h.owners]
        simp only [ho, false_or]
    | some f =>
      obtain ⟨-, hpde, hpte, -⟩ := ownerFrame_page hf
      rw [(unmapPage_of_page hf).1, h.owns.ownerFrame_unmapped hidx
        (by rw [pageDirIdx_eq_number]; exact hpde)
        (by rw [pteAddr, pageDirIdx_eq_number, pageTabIdx_eq_number]; exact hpte)]
      by_cases ho : o = .page (pageNumber va)
      · rw [if_pos ho, if_pos (.inl ho)]
      · rw [if_neg ho, h.owners]
        simp only [ho, false_or]
  · rw [hnumber, pagesBelow_succ, List.reverse_append, List.append_assoc, ← h.released]
    cases hf : ownerFrame dir s'.mem (.page (pageNumber va)) with
    | none =>
      rw [unmapPage_of_no_page hidx hf, ← hpage, hf]
      rfl
    | some f =>
      obtain ⟨hs, rfl⟩ := unmapPage_of_page (A := A) hf
      rw [hs, ← hpage, hf]
      rfl

/-- `Paging_UnmapPages` gives all the pages of the user half back. -/
theorem pagingUnmapPages_all (h : Owns A dir s) :
    ∃ r s', pagingUnmapPages A dir 0 kernelStart s = some (r, s') ∧ Owns A dir s' ∧
      (∀ i, ownerFrame dir s'.mem (.table i) = ownerFrame dir s.mem (.table i)) ∧
      s'.released = (userPages dir s.mem).reverse ++ s.released := by
  have hstart : UnmappedBelow A dir s (pageAddress (0 + 0xFFF)) s := by
    refine ⟨isFrame_pageAddress, by decide, h, fun o => ?_, rfl⟩
    rw [if_neg]
    rintro ⟨k, hk, -⟩
    exact absurd hk (Nat.not_lt_zero k)
  have hstep : ∀ va t, UnmappedBelow A dir s va t → va < kernelStart →
      va ≤ pageAddress (0 + kernelStart - 1) →
        UnmappedBelow A dir s (va + 0x1000) (pagingUnmapPage A dir va t).2 :=
    fun _ _ h hva _ => h.step hva
  obtain ⟨r, s', va', hl, hk, hend⟩ := unmapPagesLoop_invariant hstep
    (2 ^ 19 + 1) (pageAddress (0 + 0xFFF)) false s (by decide) (by omega) hstart
  have hlast : pageNumber va' = 2 ^ 19 := by
    have hend' : 2 ^ 31 ≤ va'.toNat ∨ 0x7FFFF000 < va'.toNat := hend
    have hle := hk.le
    have haligned := hk.aligned
    rw [IsFrame] at haligned
    rw [pageNumber]
    omega
  refine ⟨r, s', hl, hk.owns, fun i => ?_, ?_⟩
  · rw [hk.owners, if_neg]
    rintro ⟨k, -, heq⟩
    cases heq
  · rw [hk.released, hlast, userPages]

end pages

/-! ## Section 4: The Page Tables -/

section tables

variable {dir : BitVec 32} {s : PagingState σ}

/-- One frame is released for each entry, present or not. -/
theorem released_terminateLoop_length :
    ∀ (n i : Nat) (s : PagingState σ), ∃ l, l.length = n ∧
      (terminateLoop A dir n i s).released = l ++ s.released := by
  intro n
  induction n with
  | zero =>
    intro i s
    exact ⟨[], rfl, rfl⟩
  | succ n ih =>
    intro i s
    obtain ⟨l, hl, hrel⟩ := ih (i + 1) (writeEntry (pageRelease0 A s
      (entryFrame (load32 s.mem (entryAddr dir i)))) (entryAddr dir i) 0 none)
    refine ⟨l ++ [entryFrame (load32 s.mem (entryAddr dir i))], ?_, ?_⟩
    · rw [List.length_append, hl]
      rfl
    · rw [terminateLoop, hrel, List.append_assoc]
      rfl

/-- The frames that are released, when none of them is the directory. -/
theorem released_terminateLoop (T : Nat → BitVec 32) (hdir : IsFrame dir) :
    ∀ (n i : Nat) (s : PagingState σ), i + n ≤ 512 → ¬A.free s.frames dir →
      (∀ j, i ≤ j → j < i + n → entryFrame (pde dir s.mem j) = T j ∧ T j ≠ dir) →
      (terminateLoop A dir n i s).released = ((List.range' i n).map T).reverse ++ s.released := by
  intro n
  induction n with
  | zero =>
    intro i s _ _ _
    rfl
  | succ n ih =>
    intro i s hn hheld hT
    obtain ⟨hTi, hne⟩ := hT i (Nat.le_refl _) (by omega)
    have hframe : IsFrame (T i) := hTi ▸ isFrame_entryFrame
    have hload : entryFrame (load32 s.mem (entryAddr dir i)) = T i := hTi
    rw [terminateLoop, hload]
    have hstep := ih (i + 1) (writeEntry (pageRelease0 A s (T i)) (entryAddr dir i) 0 none)
      (by omega) (fun hfree => hheld (release_free hfree hne.symm)) ?_
    · rw [hstep, List.range'_succ, List.map_cons, List.reverse_cons, List.append_assoc]
      rfl
    · intro j hij hj
      rw [pde_writeEntry_ne (by omega) (by omega) (by omega),
        pde_congr (fun x hx => release_frame_of_ne hdir hheld hframe hne.symm hx) (by omega)]
      exact hT j (by omega) (by omega)

end tables

/-! ## Section 5: What Is Released -/

section terminate

variable {dir : BitVec 32} {s : PagingState σ}

/-- The owners of a process. -/
def owners : List Owner :=
  .directory :: ((List.range 512).map .table ++ (List.range (2 ^ 19)).map .page)

theorem nodup_owners : owners.Nodup := by
  rw [owners, List.nodup_cons, List.nodup_append]
  refine ⟨by simp, ?_, ?_, ?_⟩
  · exact List.nodup_range.map fun _ _ h => Owner.table.inj h
  · exact List.nodup_range.map fun _ _ h => Owner.page.inj h
  · intro o ho o' ho'
    obtain ⟨i, -, rfl⟩ := List.mem_map.mp ho
    obtain ⟨k, -, rfl⟩ := List.mem_map.mp ho'
    exact nofun

theorem ownedFrames_eq {m : Memory} : ownedFrames dir m = owners.filterMap (ownerFrame dir m) := by
  rw [owners, List.filterMap_cons_some (f := ownerFrame dir m) (b := dir) rfl,
    List.filterMap_append, List.filterMap_map, List.filterMap_map]
  rfl

theorem Owns.nodup_ownedFrames (h : Owns A dir s) : (ownedFrames dir s.mem).Nodup := by
  rw [ownedFrames_eq]
  exact nodup_owners.filterMap fun o o' f hf hf' => h.unique o o' f hf hf'

theorem userTables_length_iff {m : Memory} :
    (userTables dir m).length = 512 ↔ ∀ i < 512, IsPresent (pde dir m i) := by
  have hiff := @List.filterMap_length_eq_length _ _ (fun i => ownerFrame dir m (.table i))
    (List.range 512)
  rw [List.length_range] at hiff
  rw [userTables, hiff]
  constructor
  · intro h i hi
    obtain ⟨t, ht⟩ := Option.isSome_iff_exists.mp (h i (List.mem_range.mpr hi))
    exact (ownerFrame_table ht).2.1
  · intro h i hi
    have hi := List.mem_range.mp hi
    rw [ownerFrame_table_eq hi (h i hi)]
    rfl

/-- A process owns its frames: what `Paging_Terminate` releases for it. -/
theorem releasesOwned_iff_of_owns (h : Owns A dir s) :
    ReleasesOwned A dir s ↔ ∀ i < 512, IsPresent (pde dir s.mem i) := by
  obtain ⟨r, s₁, hunmap, h₁, htables, hrel₁⟩ := pagingUnmapPages_all h
  have hterm : pagingTerminate A dir s =
      some (pageRelease0 A (terminateLoop A dir 512 0 s₁) dir) := by
    rw [pagingTerminate, hunmap, Option.map_some]
  constructor
  · rintro ⟨s', released, hs', hrel, hperm, -⟩
    rw [hterm] at hs'
    obtain rfl := Option.some.inj hs'
    -- 512 frames are released for the entries
    obtain ⟨l, hl, hloop⟩ := @released_terminateLoop_length σ A dir 512 0 s₁
    have hall : released = dir :: (l ++ (userPages dir s.mem).reverse) := by
      have hsplit : released ++ s.released =
          (dir :: (l ++ (userPages dir s.mem).reverse)) ++ s.released := by
        rw [← hrel]
        show dir :: (terminateLoop A dir 512 0 s₁).released = _
        rw [hloop, hrel₁, List.cons_append, List.append_assoc]
      exact List.append_cancel_right hsplit
    have hlen := hperm.length_eq
    rw [hall, ownedFrames] at hlen
    simp only [List.length_cons, List.length_append, List.length_reverse, hl] at hlen
    exact userTables_length_iff.mp (by omega)
  · intro hp
    have hT : ∀ j, j < 512 → ownerFrame dir s.mem (.table j) =
        some (entryFrame (pde dir s.mem j)) := fun j hj => ownerFrame_table_eq hj (hp j hj)
    have hloop := released_terminateLoop (A := A) (fun j => entryFrame (pde dir s.mem j)) h.dirFrame
      512 0 s₁ (by omega) (h₁.held .directory dir rfl) ?_
    · refine ⟨_, dir :: (((List.range 512).map fun j => entryFrame (pde dir s.mem j)).reverse ++
        (userPages dir s.mem).reverse), hterm, ?_, ?_, h.nodup_ownedFrames⟩
      · show dir :: (terminateLoop A dir 512 0 s₁).released = _
        rw [hloop, hrel₁, List.range_eq_range', List.cons_append, List.append_assoc]
      · have htab : userTables dir s.mem =
            (List.range 512).map fun j => entryFrame (pde dir s.mem j) := by
          rw [userTables, ← List.filterMap_eq_map']
          exact List.filterMap_congr fun j hj => hT j (List.mem_range.mp hj)
        rw [ownedFrames, htab]
        exact ((List.reverse_perm _).append (List.reverse_perm _)).cons dir
    · intro j _ hj
      have hj' : j < 512 := by omega
      have ht := (htables j).trans (hT j hj')
      obtain ⟨-, -, heq⟩ := ownerFrame_table ht
      refine ⟨heq.symm, fun hdir => ?_⟩
      cases h.unique (.table j) .directory dir ((hT j hj').trans (congrArg some hdir)) rfl

end terminate

/-- Whatever pages of its user half a process has mapped and unmapped since its
    `Paging_Initialize`, `Paging_Terminate` releases what the process owns and nothing else if
    and only if all the directory entries of the user half are present. -/
theorem releasesOwned_iff (A : FrameAllocator σ) (kernelDirectory dir : BitVec 32)
    (s : PagingState σ) (h : HasSpace A kernelDirectory dir s) :
    ReleasesOwned A dir s ↔ ∀ i < 512, IsPresent (pde dir s.mem i) :=
  releasesOwned_iff_of_owns (owns_of_hasSpace h)

/-! ## Section 6: A Concrete Process -/

/-- A process that has just got its directory. -/
def newProcess : PagingState (List (BitVec 20)) :=
  (PagingState.pagingInitialize frameList bareDirectory
    ⟨bareMemory, [0x80300], [], [], []⟩).2

theorem hasSpace_newProcess : HasSpace frameList bareDirectory (numbered 0x80300) newProcess :=
  .start (s := ⟨bareMemory, [0x80300], [], [], []⟩) rfl

theorem not_isPresent_newProcess : ¬IsPresent (pde (numbered 0x80300) newProcess.mem 0) := by
  have hzero : pde (numbered 0x80300) newProcess.mem 0 = 0 :=
    pde_pagingInitialize (by decide) (Nat.le_refl _)
  rw [hzero]
  decide

/-- It owns one frame, and 513 are released. -/
theorem releasesOwned_iff_newProcess :
    ¬ReleasesOwned frameList (numbered 0x80300) newProcess := by
  intro h
  exact not_isPresent_newProcess ((releasesOwned_iff frameList bareDirectory (numbered 0x80300)
    newProcess hasSpace_newProcess).mp h 0 (by decide))

theorem not_forall_releasesOwned :
    ¬∀ s, HasSpace frameList bareDirectory (numbered 0x80300) s →
      ReleasesOwned frameList (numbered 0x80300) s := by
  intro h
  have howns := owns_of_hasSpace hasSpace_newProcess
  exact not_isPresent_newProcess
    ((releasesOwned_iff_of_owns howns).mp (h _ hasSpace_newProcess) 0 (by decide))

end Avos
