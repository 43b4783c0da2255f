import Avos.Paging.Spaces

/-! # What User Mode Can Reach

  The processor uses the directory of a process in both modes. In every state that the processes
  come to, its lower half leads to the pages of the process, its upper half leads to memory and
  devices as in every other directory, and only the lower half may be used in user mode. So user
  mode reaches no page table, no directory, no free frame and no other process
  (`spaces_protected`).
-/

open ByteMemory Transition

namespace Avos

variable {σ : Type*} {A : FrameAllocator σ} {kernelDirectory dir va e : BitVec 32}

/-- What the directory of a process says. -/
structure Spaces.Protected (A : FrameAllocator σ) (kernelDirectory : BitVec 32) (s : Spaces σ)
    (dir : BitVec 32) : Prop where
  lower : ∀ va < kernelStart, translate dir s.paging.mem va =
    (userAddress dir s.paging.mem va).map fun a => ⟨physAddr32 a, true, true⟩
  upper : ∀ va, kernelStart ≤ va →
    translate dir s.paging.mem va = some ⟨kernelTarget va, true, false⟩
  reserved : ∀ va t, translate dir s.paging.mem va = some t → t.user = true →
    ∀ f, A.free s.paging.frames f ∨ KernelFrame kernelDirectory f →
      ¬InBytes f 0x1000 (kernAddr32 t.pa)
  owned : ∀ va t, translate dir s.paging.mem va = some t → t.user = true →
    ∀ dir' ∈ s.live, ∀ o f, ownerFrame dir' s.paging.mem o = some f →
      InBytes f 0x1000 (kernAddr32 t.pa) → dir' = dir ∧ o = .page (pageNumber va)

theorem hasFlag_of_pageOffset {flag : BitVec 32} (h : pageOffset e = pageFlags)
    (hflag : 0xFFF &&& flag = flag) : HasFlag e flag ↔ HasFlag pageFlags flag := by
  have heq : e &&& flag = pageFlags &&& flag := by
    rw [← hflag, ← BitVec.and_assoc, ← BitVec.and_assoc, show e &&& 0xFFF = pageFlags from h]
    rfl
  rw [HasFlag, HasFlag, heq]

/-- The lower half of a directory leads to the pages of the process. -/
theorem Space.translate_lower {s : PagingState σ} (h : Space A dir s) (hva : va < kernelStart) :
    translate dir s.mem va =
      (userAddress dir s.mem va).map fun a => ⟨physAddr32 a, true, true⟩ := by
  have hidx := pageDirIdx_lt_of_lt hva
  have hk := pageNumber_lt hidx
  have hdiv : pageDirIdx va = pageNumber va / 1024 := pageDirIdx_eq_number
  rw [translate, userAddress]
  by_cases hp : IsPresent (pde dir s.mem (pageDirIdx va))
  · have hflags := h.tableFlags _ hidx (ne_zero_of_isPresent hp)
    have hsmall : ¬HasFlag (pde dir s.mem (pageDirIdx va)) 0x80 := by
      rw [hasFlag_of_pageOffset hflags (by decide)]
      decide
    have hwrite : HasFlag (pde dir s.mem (pageDirIdx va)) 2 := by
      rw [hasFlag_of_pageOffset hflags (by decide)]
      decide
    have huser : HasFlag (pde dir s.mem (pageDirIdx va)) 4 := by
      rw [hasFlag_of_pageOffset hflags (by decide)]
      decide
    have hentry : load32 s.mem (entryAddr (entryFrame (pde dir s.mem (pageDirIdx va)))
        (pageTabIdx va)) = userEntry dir s.mem (pageNumber va) := by
      rw [hdiv] at hp
      rw [userEntry_of_present hp, ← load32_entryOf, ← entryOf_pageNumber]
    dsimp only
    rw [if_neg (not_not.mpr hp), if_neg hsmall, hentry]
    by_cases hp' : IsPresent (userEntry dir s.mem (pageNumber va))
    · have hflags' := h.flags _ hk (ne_zero_of_isPresent hp')
      have hwrite' : HasFlag (userEntry dir s.mem (pageNumber va)) 2 := by
        rw [hasFlag_of_pageOffset hflags' (by decide)]
        decide
      have huser' : HasFlag (userEntry dir s.mem (pageNumber va)) 4 := by
        rw [hasFlag_of_pageOffset hflags' (by decide)]
        decide
      have hpa : pageAddress (userEntry dir s.mem (pageNumber va)) + pageOffset va =
          physAddr32 (entryFrame (userEntry dir s.mem (pageNumber va)) + pageOffset va) := by
        rw [physAddr32, entryFrame, kernAddr32, add_right_comm, BitVec.add_sub_cancel]
      rw [if_neg (not_not.mpr hp'), if_pos hp', decide_eq_true ⟨hwrite, hwrite'⟩,
        decide_eq_true ⟨huser, huser'⟩, hpa]
      rfl
    · rw [if_pos hp', if_neg hp']
      rfl
  · dsimp only
    rw [if_pos hp, if_neg]
    · rfl
    · rw [hdiv] at hp
      rw [userEntry_of_absent hp]
      decide

variable {s : Spaces σ}

/-- What is used in user mode is in a page of the process. -/
theorem Space.user_page {s : PagingState σ} {t : Translation} (h : Space A dir s)
    (ht : translate dir s.mem va = some t) (huser : t.user = true) :
    ∃ f, ownerFrame dir s.mem (.page (pageNumber va)) = some f ∧
      InBytes f 0x1000 (kernAddr32 t.pa) := by
  by_cases hva : va < kernelStart
  · rw [h.translate_lower hva, Option.map_eq_some_iff] at ht
    obtain ⟨a, ha, rfl⟩ := ht
    obtain ⟨f, hf, rfl⟩ := ownerFrame_of_userAddress hva ha
    refine ⟨f, hf, ?_⟩
    dsimp only
    rw [kernAddr32, physAddr32, BitVec.sub_add_cancel]
    exact inBytes_pageOffset va
  · rw [h.kernel.translate_eq (BitVec.not_lt.mp hva)] at ht
    rw [← Option.some.inj ht] at huser
    cases huser

/-- In every state that the processes come to, each of them is protected: what it uses in user
    mode are its pages, which are nobody else's. -/
theorem spaces_protected (h : (spaces A kernelDirectory).Reachable s) :
    ∀ dir ∈ s.live, s.Protected A kernelDirectory dir := by
  intro dir hdir
  have hapart := spaces_apart h
  have hspace := hapart.space dir hdir
  refine ⟨fun va hva => hspace.translate_lower hva, fun va hva => hspace.kernel.translate_eq hva,
    fun va t ht huser f hf hin => ?_, fun va t ht huser dir' hdir' o f hf hin => ?_⟩
  · obtain ⟨p, hp, hin'⟩ := hspace.user_page ht huser
    have hframe : IsFrame f := by
      rcases hf with hfree | rfl | rfl
      · exact A.isFrame _ _ hfree
      · rw [IsFrame]
        decide
      · exact hapart.frame
    have heq : p = f := by
      by_contra hne
      exact frames_apart (hspace.isFrame hp) hframe hne _ hin' hin
    subst heq
    rcases hf with hfree | hk
    · exact hspace.held _ p hp hfree
    · exact hapart.others dir hdir _ p hp hk
  · obtain ⟨p, hp, hin'⟩ := hspace.user_page ht huser
    have heq : p = f := by
      by_contra hne
      exact frames_apart (hspace.isFrame hp) ((hapart.space dir' hdir').isFrame hf) hne _ hin' hin
    subst heq
    exact hapart.onePurpose.one dir' hdir' dir hdir _ _ p hf hp

/-- After `Initialize_Memory` two processes are made. -/
theorem spaces_protected_twoSpaces :
    (twoSpaces (initializeMemory (fun _ => 0) bareDirectory)).Protected frameList bareDirectory
      (numbered 0x80300) :=
  spaces_protected (twoSpaces_reachable hasKernelHalf_initializeMemory) _ (by simp [twoSpaces])

end Avos
