import Avos.Clib.String

/-! # Page Tables

  The functions of `kernel/arch/paging/src/paging.c` that map and unmap pages, over a
  memory of bytes. A directory is given by its higher-half address, as it stands in
  `task_context->cr3`.

  `Page_Acquire` and `Page_Release` are those of an allocator that hands out frames nobody
  uses and writes to free frames only (`FrameAllocator`). The state also records the frames
  that were acquired and released, and every write that the functions make themselves.
-/

open ByteMemory

namespace Avos

/-! ## Section 1: Addresses -/

/-- `PAGEADDRESS`. -/
def pageAddress (a : BitVec 32) : BitVec 32 := a &&& ~~~0xFFF

/-- `PAGEDIRIDX`. -/
def pageDirIdx (va : BitVec 32) : Nat := ((va >>> 22) &&& 0x3FF).toNat

/-- `PAGETABIDX`. -/
def pageTabIdx (va : BitVec 32) : Nat := ((va >>> 12) &&& 0x3FF).toNat

/-- `KERNADDR`. -/
def kernAddr32 (a : BitVec 32) : BitVec 32 := a + 0x80000000

/-- `PHYSADDR`. -/
def physAddr32 (a : BitVec 32) : BitVec 32 := a - 0x80000000

/-- `KERNEL_MMAP_VIRTUAL_START`, where the kernel half begins. -/
def kernelStart : BitVec 32 := 0x80000000

/-- The entry `i` of a directory or of a page table. -/
def entryAddr (table : BitVec 32) (i : Nat) : BitVec 32 := table + BitVec.ofNat 32 (4 * i)

/-- The flags `PRESENT | READWRITE | USER`. -/
def pageFlags : BitVec 32 := 7

/-- `PAGING_PDE_PRESENT` and `PAGING_PTE_PRESENT`. -/
def IsPresent (entry : BitVec 32) : Prop := entry &&& 1 ≠ 0

instance : DecidablePred IsPresent := fun _ => inferInstanceAs (Decidable (_ ≠ _))

/-- The frame an entry points to, as the kernel sees it. -/
def entryFrame (entry : BitVec 32) : BitVec 32 := kernAddr32 (pageAddress entry)

/-! ## Section 2: The Allocator -/

/-- A frame begins at a page boundary. -/
def IsFrame (f : BitVec 32) : Prop := f.toNat % 0x1000 = 0

/-- `Page_Acquire(0)` and `Page_Release(page, 0)`: frames that are free are handed out, and
    besides the free frames only the one that is given back is written to. -/
structure FrameAllocator (σ : Type*) where
  free : σ → BitVec 32 → Prop
  acquire : σ → Memory → Option (BitVec 32) × σ × Memory
  release : σ → Memory → BitVec 32 → σ × Memory
  isFrame : ∀ a f, free a f → IsFrame f
  acquire_free : ∀ a m f, (acquire a m).1 = some f → free a f
  acquire_rest : ∀ a m f, free (acquire a m).2.1 f → free a f ∧ (acquire a m).1 ≠ some f
  acquire_frame : ∀ a m x, (∀ f, free a f → ¬InBytes f 0x1000 x) →
    (acquire a m).2.2 x = m x
  release_rest : ∀ a m p f, free (release a m p).1 f → free a f ∨ f = p
  release_frame : ∀ a m p x, (∀ f, free a f → ¬InBytes f 0x1000 x) → ¬InBytes p 0x1000 x →
    (release a m p).2 x = m x

/-- A write of the functions: `size` bytes from `addr` on. A write to a page-table entry
    goes through an entry of the directory. -/
structure PageWrite where
  addr : BitVec 32
  size : Nat
  through : Option Nat

/-- The memory, the allocator, and what has been done. -/
structure PagingState (σ : Type*) where
  mem : Memory
  frames : σ
  acquired : List (BitVec 32)
  released : List (BitVec 32)
  writes : List PageWrite

section functions

variable {σ : Type*} (A : FrameAllocator σ)

/-- `Page_Acquire(0)`; `PAGE_LIST_NULL` is `none`. -/
def pageAcquire0 (s : PagingState σ) : Option (BitVec 32) × PagingState σ :=
  let r := A.acquire s.frames s.mem
  (r.1, { s with mem := r.2.2, frames := r.2.1, acquired := r.1.toList ++ s.acquired })

/-- `Page_Release(page, 0)`. -/
def pageRelease0 (s : PagingState σ) (page : BitVec 32) : PagingState σ :=
  let r := A.release s.frames s.mem page
  { s with mem := r.2, frames := r.1, released := page :: s.released }

/-- Write a word. -/
def writeEntry (s : PagingState σ) (addr value : BitVec 32) (through : Option Nat) :
    PagingState σ :=
  { s with mem := store32 s.mem addr value, writes := ⟨addr, 4, through⟩ :: s.writes }

/-- `memset(page, 0, PAGESIZE)`. -/
def clearPage (s : PagingState σ) (page : BitVec 32) : PagingState σ :=
  { s with mem := memset s.mem page 0 0x1000, writes := ⟨page, 0x1000, none⟩ :: s.writes }

/-! ## Section 3: Single Pages -/

/-- `Paging_IsPageMapped`. -/
def pagingIsPageMapped (dir va : BitVec 32) (s : PagingState σ) : Bool :=
  let pde := load32 s.mem (entryAddr dir (pageDirIdx va))
  if ¬IsPresent pde then false
  else load32 s.mem (entryAddr (entryFrame pde) (pageTabIdx va)) ≠ 0

/-- `Paging_MapPage`. -/
def pagingMapPage (dir va pa : BitVec 32) (create : Bool) (s : PagingState σ) :
    Bool × PagingState σ :=
  let i := pageDirIdx va
  let pde := load32 s.mem (entryAddr dir i)
  if ¬IsPresent pde then
    if ¬create then (false, s)
    else
      match pageAcquire0 A s with
      | (none, s) => (false, s)
      | (some table, s) =>
          let s := clearPage s table
          let s := writeEntry s (entryAddr dir i) (physAddr32 table ||| pageFlags) none
          (true, writeEntry s (entryAddr table (pageTabIdx va)) (pa ||| pageFlags) (some i))
  else
    let entry := entryAddr (entryFrame pde) (pageTabIdx va)
    if load32 s.mem entry ≠ 0 then (false, s)
    else (true, writeEntry s entry (pa ||| pageFlags) (some i))

/-- `Paging_UnmapPage`. -/
def pagingUnmapPage (dir va : BitVec 32) (s : PagingState σ) : Bool × PagingState σ :=
  let i := pageDirIdx va
  let pde := load32 s.mem (entryAddr dir i)
  if ¬IsPresent pde then (false, s)
  else
    let entry := entryAddr (entryFrame pde) (pageTabIdx va)
    let pte := load32 s.mem entry
    if ¬IsPresent pte then (false, s)
    else
      let s := pageRelease0 A s (entryFrame pte)
      (true, writeEntry s entry 0 (some i))

/-! ## Section 4: Ranges of Pages -/

/-- The loop of `Paging_MapPages`, with a bound on its rounds. -/
def mapPagesLoop (dir vaEnd : BitVec 32) : Nat → BitVec 32 → BitVec 32 → PagingState σ →
    Option (BitVec 32 × PagingState σ)
  | 0, _, _, _ => none
  | n + 1, va, sz, s =>
      match pageAcquire0 A s with
      | (none, s) => some (sz, s)
      | (some page, s) =>
          match pagingMapPage A dir va (physAddr32 page) true s with
          | (false, s) => some (sz, pageRelease0 A s page)
          | (true, s) =>
              if va = vaEnd then some (sz + 0x1000, s)
              else mapPagesLoop dir vaEnd n (va + 0x1000) (sz + 0x1000) s

/-- `Paging_MapPages`. There are no more than `2^20` pages to go through. -/
def pagingMapPages (dir va size : BitVec 32) (s : PagingState σ) :
    Option (BitVec 32 × PagingState σ) :=
  if size = 0 then some (0, s)
  else mapPagesLoop A dir (pageAddress (va + size - 1)) (2 ^ 20) (pageAddress va) 0 s

/-- The loop of `Paging_UnmapPages`, with a bound on its rounds. -/
def unmapPagesLoop (dir vaEnd : BitVec 32) : Nat → BitVec 32 → Bool → PagingState σ →
    Option (Bool × PagingState σ)
  | 0, _, _, _ => none
  | n + 1, va, failed, s =>
      if kernelStart ≤ va then some (true, s)
      else if vaEnd < va then some (failed, s)
      else
        let r := pagingUnmapPage A dir va s
        unmapPagesLoop dir vaEnd n (va + 0x1000) (failed || !r.1) r.2

/-- `Paging_UnmapPages`. The kernel half is never entered, after `2^19` pages at most. -/
def pagingUnmapPages (dir va size : BitVec 32) (s : PagingState σ) :
    Option (Bool × PagingState σ) :=
  unmapPagesLoop A dir (pageAddress (va + size - 1)) (2 ^ 19 + 1) (pageAddress (va + 0xFFF)) false
    s

/-- `Process_ShiftEndPoint`, for the process with this directory and end point. -/
def processShiftEndPoint (dir endpoint shift : BitVec 32) (s : PagingState σ) :
    Option (BitVec 32 × PagingState σ) :=
  let newEnd := endpoint + shift
  if shift = 0 then some (endpoint, s)
  else if shift.slt 0 then
    match pagingUnmapPages A dir newEnd (-shift) s with
    | none => none
    | some (_, s) => some (newEnd, s)
  else
    match pagingMapPages A dir endpoint shift s with
    | none => none
    | some (sizeAlloc, s) =>
        let oldPage := pageAddress endpoint
        some (if oldPage + sizeAlloc < newEnd then oldPage + sizeAlloc else newEnd, s)

end functions

end Avos
