import Avos.Bootloader.LoadKernel
import Mathlib.Data.List.TakeWhile

/-! # Relocatable Kernels

  A kernel whose header has a relocatable tag, and no address tag, is to start at a multiple of
  the alignment, and to lie with its bss between the two addresses of the tag.

  `Multiboot_LoadKernel` looks for memory for the file, and not for the kernel with its bss; its
  sums may wrap; and a preference it does not know leaves the kernel where it was
  (`relocates_iff`).
-/

open ByteMemory Walks Searches

namespace Avos.Multiboot

/-! ## Section 1: Runs That Load a Kernel -/

section runs

variable {m m' : Memory} {mbi mmap mmapSize : BitVec 32} {info info' k : KernelInfo}
  {p : LoadParams} {fuel : Nat}

/-- What `Multiboot_LoadKernel` has done when it returns true. -/
structure Loads (fuel : Nat) (m : Memory) (mmap mmapSize : BitVec 32) (info : KernelInfo)
    (p : LoadParams) (k info' : KernelInfo) (m' : Memory) : Prop where
  tags : readTags m fuel (getHeader m info.fileAddr info.fileSize) (initialParams m info) =
    some (.ok p)
  place : placeKernel m mmap mmapSize p = .ok k
  mem : m' = cleanUp (loadImage m p k) k.start k.size k.fileAddr k.fileSize
  info : info' = { k with
    entry := if p.kernelEntry = memoryNullPtr then k.start else p.kernelEntry
    multibootHeader := getHeader m' k.start k.size }

theorem loadKernel_true (hmap : ramInfo fuel m mbi = some (some (mmap, mmapSize))) :
    loadKernel fuel m mbi info = some (true, info', m') ↔
      ∃ p k, Loads fuel m mmap mmapSize info p k info' m' := by
  rw [loadKernel, hmap]
  show loadKernelAt fuel m mmap mmapSize info = _ ↔ _
  rw [loadKernelAt]
  constructor
  · intro hrun
    cases htags : readTags m fuel (getHeader m info.fileAddr info.fileSize)
        (initialParams m info) with
    | none =>
      rw [htags] at hrun
      exact nomatch hrun
    | some out =>
      rw [htags] at hrun
      cases out with
      | error i => exact nomatch hrun
      | ok p =>
        dsimp only at hrun
        cases hplace : placeKernel m mmap mmapSize p with
        | error i =>
          rw [hplace] at hrun
          exact nomatch hrun
        | ok k =>
          rw [hplace] at hrun
          obtain ⟨-, hinfo, hmem⟩ : true = true ∧ _ = info' ∧ _ = m' := by
            simpa only [Option.some.injEq, Prod.mk.injEq] using hrun
          refine ⟨p, k, htags, hplace, hmem.symm, ?_⟩
          rw [← hinfo, ← hmem]
  · rintro ⟨p, k, h⟩
    rw [h.tags]
    dsimp only
    rw [h.place, h.info, h.mem]

/-- What holds of a kernel that has a place. -/
structure HasPlace (m : Memory) (mmap mmapSize : BitVec 32) (p : LoadParams) (k : KernelInfo) :
    Prop where
  info : k = { p.info with start := k.start }
  notEmpty : p.info.size ≠ 0
  range : p.relocation.reloc →
    p.info.size ≤ p.relocation.endMax - p.relocation.startMin
  start : if ¬p.loadInfo ∧ p.relocation.reloc then
      relocate m mmap mmapSize p.info p.relocation = some k.start
    else k.start = p.info.start
  available : findBlockAddress m k.start true p.info.fileSize 1 mmap mmapSize = k.start

theorem placeKernel_ok : placeKernel m mmap mmapSize p = .ok k ↔
    HasPlace m mmap mmapSize p k := by
  constructor
  · intro h
    rw [placeKernel] at h
    split at h
    · exact nomatch h
    next hsize =>
    split at h
    · exact nomatch h
    next hrange =>
    split at h
    · exact nomatch h
    next start hstart =>
    dsimp only at h
    split at h
    · exact nomatch h
    next havailable =>
    obtain rfl := Except.ok.inj h
    refine ⟨rfl, hsize, fun hreloc => ?_, ?_, not_not.mp havailable⟩
    · exact BitVec.not_lt.mp fun hlt => hrange ⟨hreloc, hlt⟩
    · split
      · next hplaced =>
        rw [if_pos hplaced] at hstart
        exact hstart
      · next hplaced =>
        rw [if_neg hplaced] at hstart
        exact (Option.some.inj hstart).symm
  · intro h
    have hstart : (if ¬p.loadInfo ∧ p.relocation.reloc then
        relocate m mmap mmapSize p.info p.relocation else some p.info.start) = some k.start := by
      have hstart := h.start
      split
      · next hplaced =>
        rw [if_pos hplaced] at hstart
        exact hstart
      · next hplaced =>
        rw [if_neg hplaced] at hstart
        rw [hstart]
    have hrange : ¬(p.relocation.reloc ∧
        p.relocation.endMax - p.relocation.startMin < p.info.size) :=
      fun hlt => absurd hlt.2 (BitVec.not_lt.mpr (h.range hlt.1))
    rw [placeKernel]
    simp only [if_neg h.notEmpty, if_neg hrange, hstart, h.available, ne_eq, not_true_eq_false,
      if_false]
    exact congrArg _ h.info.symm

end runs

/-! ## Section 2: The Relocatable Tag -/

namespace HeaderTag

variable (t : HeaderTag)

-- `struct Multiboot_Header_Tag_Relocatable`
def minAddr : BitVec 32 := t.fields.minAddr
def maxAddr : BitVec 32 := t.fields.maxAddr
def align : BitVec 32 := t.fields.align
def preference : BitVec 32 := t.fields.preference

/-- What the tag sets. -/
def relocation : Relocation := ⟨true, t.minAddr, t.maxAddr, t.preference, t.align⟩

end HeaderTag

section relocation

variable {m m' : Memory} {header mbi mmap mmapSize start size : BitVec 32}
  {info info' : KernelInfo} {p : LoadParams} {tags ts : List HeaderTag} {r t : HeaderTag}
  {s : Relocation} {fuel : Nat}

/-- Tags that do not place the kernel at an address set the relocation, and the loop goes on. -/
theorem tagRounds_append (h : ∀ t ∈ ts, t.type ≠ 2 ∧ t.type ≠ 3) :
    tagRounds header (ts ++ tags) p = tagRounds header tags
      { p with relocation := ts.foldl (fun s t => readRelocatable t.fields s) p.relocation } := by
  induction ts generalizing p with
  | nil => rfl
  | cons t ts ih =>
    obtain ⟨⟨haddress, hentry⟩, hts⟩ := List.forall_mem_cons.mp h
    have hround : tagRound header t.fields p =
        .ok { p with relocation := readRelocatable t.fields p.relocation } := by
      have haddress' : ¬t.fields.type = 2 := haddress
      rw [tagRound, if_neg haddress']
      exact if_neg hentry
    rw [List.cons_append, tagRounds, List.foldlM_cons, hround]
    exact ih hts

/-- Without an address tag, the loop sets the relocation only, and the entry. -/
theorem tagRounds_relocation (hnone : ∀ t ∈ ts, t.type ≠ 2) : ∃ q,
    TagExit.result (tagRounds header ts p) = .ok q ∧ q.info = p.info ∧
      q.loadInfo = p.loadInfo ∧ q.loadStart = p.loadStart ∧
      q.relocation =
        (visitedTags ts).foldl (fun s t => readRelocatable t.fields s) p.relocation := by
  have hvisited : ∀ t ∈ visitedTags ts, t.type ≠ 2 ∧ t.type ≠ 3 := by
    intro t ht
    have hentry := List.mem_takeWhile_imp ht
    exact ⟨hnone t ((List.takeWhile_sublist _).subset ht), of_decide_eq_true hentry⟩
  have hrounds : tagRounds header (visitedTags ts ++ ts.dropWhile fun t => t.type ≠ 3) p = _ :=
    tagRounds_append hvisited
  rw [visitedTags, List.takeWhile_append_dropWhile, ← visitedTags] at hrounds
  rw [hrounds]
  cases hrest : ts.dropWhile fun t => t.type ≠ 3 with
  | nil => exact ⟨_, rfl, rfl, rfl, rfl, rfl⟩
  | cons e rest =>
    -- the loop is left at the first tag of an entry address
    have hentry : e.type = 3 := by
      have hhead := List.head?_dropWhile_not (fun t : HeaderTag => t.type ≠ 3) ts
      rw [hrest] at hhead
      simpa using hhead
    rw [tagRounds, List.foldlM_cons, tagRound_of_entry hentry]
    exact ⟨_, rfl, rfl, rfl, rfl, rfl⟩

end relocation

/-! ### A kernel with a large bss -/

/-- A record with one block of RAM, from 1 MiB to 3 MiB. -/
def ramRecord : List (BitVec 8) :=
  [48, 0, 0, 0, 0, 0, 0, 0, 98, 0, 0, 0, 32, 0, 0, 0, 16, 0, 0, 0, 0, 0, 0, 0,
    0, 0, 0x10, 0, 0, 0, 0, 0, 0, 0, 0x20, 0, 0, 0, 0, 0, 0, 0, 0, 0, 8, 0, 0, 0]

def bssInfo : KernelInfo where
  bootDriveId := 0x80
  bootPartition := 0
  blocklistPtr := 0
  start := 0x200000
  size := 0
  bssSize := 0
  multibootHeader := 0
  entry := 0
  fileAddr := 0x100000
  fileSize := 136

end Avos.Multiboot
