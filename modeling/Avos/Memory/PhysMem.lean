import Avos.Library.Links
import Mathlib.Algebra.Group.Nat.Defs
import Mathlib.Algebra.GroupWithZero.Nat
import Mathlib.Data.Nat.Bits
import Mathlib.Tactic.Common

/-! # The Physical Page Allocator

  `kernel/core/memory/src/physmem.c`, function by function, with the macros of
  `physmem.h` and the constants of `setup.h`.

  Addresses are natural numbers below `2 ^ 32`; `w32` marks where `uintptr_t`
  arithmetic may wrap. The free lists are threaded through the free pages
  themselves: `nodes` gives the `next` and `prev` fields of the
  `struct Page_List` at each (higher-half) address. `pageMaps order index` is
  the byte `Page_maps[order][index]`.

  The functions here are what runs between the acquisition and the release of
  `Page_operation_lock`. -/

namespace Avos

/-! ## Constants -/

def kernelHigherHalfOffset : Nat := 0x80000000
def kernelMmapVirtualStart : Nat := 0x80000000
def kernelMmapVirtualEnd : Nat := 0xF0000000
def kernelMmapLowmemEnd : Nat := 0x80100000
def kernelPageSizeInBits : Nat := 12
def kernelByteInBits : Nat := 3

/-- `PAGE_LIST_NULL` -/
def pageListNull : Nat := 0xFFFFFFFF
def pageMaxOrder : Nat := 10

/-- Arithmetic on `uintptr_t` and `uint32_t`. -/
def w32 (x : Nat) : Nat := x % 2 ^ 32

/-- `KERNADDR` -/
def kernAddr (x : Nat) : Nat := w32 (x + kernelHigherHalfOffset)

/-- `PHYSADDR` -/
def physAddr (x : Nat) : Nat := w32 (x + 2 ^ 32 - kernelHigherHalfOffset)

/-! ## The macros of `physmem.h` -/

def pageMapIdx (addr order : Nat) : Nat :=
  addr >>> (kernelPageSizeInBits + 1 + kernelByteInBits + order)

def pageMapBit (addr order : Nat) : Nat :=
  (addr >>> (kernelPageSizeInBits + 1 + order)) &&& ((1 <<< kernelByteInBits) - 1)

def pageBuddy (addr order : Nat) : Nat :=
  if addr % (1 <<< (kernelPageSizeInBits + 1 + order)) = 0 then
    w32 (addr + 1 <<< (kernelPageSizeInBits + order))
  else w32 (addr + 2 ^ 32 - 1 <<< (kernelPageSizeInBits + order))

def pageSizeAtOrder (order : Nat) : Nat := 1 <<< (kernelPageSizeInBits + order)

/-- `Page_maps_size` -/
def pageMapsSize (order : Nat) : Nat :=
  (kernelMmapVirtualEnd - kernelMmapVirtualStart) / (0x10000 <<< order)

/-! ## State -/

/-- The allocator's data. `written` and `touched` are logs that no function
    reads: the nodes that have been stored to, and the bitmap bytes
    (order and index) that have been accessed. -/
structure PhysMem where
  pageLists : Nat → Nat
  pageMaps : Nat → Nat → BitVec 8
  nodes : Links.Heap Nat
  written : List Nat
  touched : List (Nat × Nat)

namespace PhysMem

/-- `Page_lists[order] = node` -/
def setHead (s : PhysMem) (order node : Nat) : PhysMem :=
  { s with pageLists := Function.update s.pageLists order node }

/-- `node->next = value` -/
def setNext (s : PhysMem) (node value : Nat) : PhysMem :=
  { s with
    nodes := { s.nodes with next := Function.update s.nodes.next node value }
    written := node :: s.written }

/-- `node->prev = value` -/
def setPrev (s : PhysMem) (node value : Nat) : PhysMem :=
  { s with
    nodes := { s.nodes with prev := Function.update s.nodes.prev node value }
    written := node :: s.written }

/-- `Page_maps[order][PAGE_MAP_IDX(addr, order)] = value` -/
def setMapByte (s : PhysMem) (addr order : Nat) (value : BitVec 8) : PhysMem :=
  { s with
    pageMaps := Function.update s.pageMaps order
      (Function.update (s.pageMaps order) (pageMapIdx addr order) value)
    touched := (order, pageMapIdx addr order) :: s.touched }

/-- `Page_maps[order][PAGE_MAP_IDX(addr, order)]` -/
def mapByte (s : PhysMem) (addr order : Nat) : BitVec 8 :=
  s.pageMaps order (pageMapIdx addr order)

def pageMapIsBitSet (s : PhysMem) (addr order : Nat) : Bool :=
  decide (0#8 < s.mapByte addr order &&& (1#8 <<< pageMapBit addr order))

def pageMapSetBit (s : PhysMem) (addr order : Nat) : PhysMem :=
  s.setMapByte addr order (s.mapByte addr order ||| (1#8 <<< pageMapBit addr order))

def pageMapToggleBit (s : PhysMem) (addr order : Nat) : PhysMem :=
  s.setMapByte addr order (s.mapByte addr order ^^^ (1#8 <<< pageMapBit addr order))

/-- Insert a node at the front of `Page_lists[order]`. -/
def pushNode (s : PhysMem) (order node : Nat) : PhysMem :=
  let s := s.setPrev node pageListNull
  let s := s.setNext node (s.pageLists order)
  let s := if s.pageLists order ≠ pageListNull then s.setPrev (s.pageLists order) node else s
  s.setHead order node

/-! ## `Page_Release` -/

/-- The first loop: toggle the bits from order `i` upwards until one is set. The
    first argument is `PAGE_MAX_ORDER - i`. Returns the order reached. -/
def releaseToggle (addr : Nat) : Nat → Nat → PhysMem → PhysMem × Nat
  | 0, i, s => (s.pageMapToggleBit addr i, i)
  | n + 1, i, s =>
      let s := s.pageMapToggleBit addr i
      if s.pageMapIsBitSet addr i then (s, i) else releaseToggle addr n (i + 1) s

/-- The body of the second loop: unlink the buddy from `Page_lists[j]`. -/
def unlinkBuddy (s : PhysMem) (j buddy : Nat) : PhysMem :=
  let s := if s.nodes.prev buddy ≠ pageListNull then
      s.setNext (s.nodes.prev buddy) (s.nodes.next buddy) else s
  let s := if s.nodes.next buddy ≠ pageListNull then
      s.setPrev (s.nodes.next buddy) (s.nodes.prev buddy) else s
  let s := if s.nodes.prev buddy = pageListNull then s.setHead j (s.nodes.next buddy) else s
  let s := s.setPrev buddy 0
  s.setNext buddy 0

/-- The second loop, for the `n` orders from `j` on. -/
def releaseUnlink (addr : Nat) : Nat → Nat → PhysMem → PhysMem
  | 0, _, s => s
  | n + 1, j, s => releaseUnlink addr n (j + 1) (s.unlinkBuddy j (kernAddr (pageBuddy addr j)))

def pageRelease (s : PhysMem) (pointer order : Nat) : PhysMem :=
  if pointer = pageListNull then s
  else
    let addr := physAddr pointer
    let (s, i) := releaseToggle addr (pageMaxOrder - order) order s
    let s := releaseUnlink addr (i - order) order s
    -- addr & ~((1 << (12 + i)) - 1)
    s.pushNode i (kernAddr ((addr >>> (12 + i)) <<< (12 + i)))

/-! ## `Page_Acquire` -/

/-- The search for a nonempty list. The first argument is `PAGE_MAX_ORDER - i`. -/
def acquireFind (s : PhysMem) : Nat → Nat → Option Nat
  | 0, i => if s.pageLists i ≠ pageListNull then some i else none
  | n + 1, i => if s.pageLists i ≠ pageListNull then some i else s.acquireFind n (i + 1)

/-- The body of the splitting loop. -/
def acquireStep (addr i j : Nat) (s : PhysMem) : PhysMem :=
  let s := s.pageMapToggleBit addr j
  if j = i then
    let s := s.setHead j (s.nodes.next (s.pageLists j))
    if s.pageLists j ≠ pageListNull then s.setPrev (s.pageLists j) pageListNull else s
  else
    let breakupAddr := w32 (addr + 1 <<< (12 + j))
    let s := s.setHead j (kernAddr breakupAddr)
    let s := s.setNext (s.pageLists j) pageListNull
    s.setPrev (s.pageLists j) pageListNull

/-- The splitting loop from order `j` down, with `n` rounds to go after this one. -/
def acquireLoop (addr i : Nat) : Nat → Nat → PhysMem → PhysMem
  | 0, j, s => acquireStep addr i j s
  | n + 1, j, s => acquireLoop addr i n (j - 1) (acquireStep addr i j s)

/-- The block's address, or `PAGE_LIST_NULL`. -/
def pageAcquire (s : PhysMem) (order : Nat) : Nat × PhysMem :=
  match s.acquireFind (pageMaxOrder - order) order with
  | none => (pageListNull, s)
  | some i =>
    let page := s.pageLists i
    (page, acquireLoop (physAddr page) i (i - order) i s)

/-! ## Which fields a store leaves alone -/

section fields

variable (s : PhysMem) (order node value addr : Nat) (byte : BitVec 8)

@[simp] theorem setHead_nodes : (s.setHead order node).nodes = s.nodes := rfl
@[simp] theorem setHead_pageMaps : (s.setHead order node).pageMaps = s.pageMaps := rfl
@[simp] theorem setHead_written : (s.setHead order node).written = s.written := rfl
@[simp] theorem setHead_pageLists :
    (s.setHead order node).pageLists = Function.update s.pageLists order node := rfl
@[simp] theorem setHead_touched : (s.setHead order node).touched = s.touched := rfl

@[simp] theorem setNext_next :
    (s.setNext node value).nodes.next = Function.update s.nodes.next node value := rfl
@[simp] theorem setNext_prev : (s.setNext node value).nodes.prev = s.nodes.prev := rfl
@[simp] theorem setNext_pageLists : (s.setNext node value).pageLists = s.pageLists := rfl
@[simp] theorem setNext_pageMaps : (s.setNext node value).pageMaps = s.pageMaps := rfl
@[simp] theorem setNext_written : (s.setNext node value).written = node :: s.written := rfl
@[simp] theorem setNext_touched : (s.setNext node value).touched = s.touched := rfl

@[simp] theorem setPrev_next : (s.setPrev node value).nodes.next = s.nodes.next := rfl
@[simp] theorem setPrev_prev :
    (s.setPrev node value).nodes.prev = Function.update s.nodes.prev node value := rfl
@[simp] theorem setPrev_pageLists : (s.setPrev node value).pageLists = s.pageLists := rfl
@[simp] theorem setPrev_pageMaps : (s.setPrev node value).pageMaps = s.pageMaps := rfl
@[simp] theorem setPrev_written : (s.setPrev node value).written = node :: s.written := rfl
@[simp] theorem setPrev_touched : (s.setPrev node value).touched = s.touched := rfl

@[simp] theorem setMapByte_nodes : (s.setMapByte addr order byte).nodes = s.nodes := rfl
@[simp] theorem setMapByte_pageLists : (s.setMapByte addr order byte).pageLists = s.pageLists := rfl
@[simp] theorem setMapByte_written : (s.setMapByte addr order byte).written = s.written := rfl
@[simp] theorem setMapByte_touched :
    (s.setMapByte addr order byte).touched = (order, pageMapIdx addr order) :: s.touched := rfl

@[simp] theorem pageMapToggleBit_nodes : (s.pageMapToggleBit addr order).nodes = s.nodes := rfl
@[simp] theorem pageMapToggleBit_pageLists :
    (s.pageMapToggleBit addr order).pageLists = s.pageLists := rfl
@[simp] theorem pageMapToggleBit_written :
    (s.pageMapToggleBit addr order).written = s.written := rfl

@[simp] theorem pageMapSetBit_nodes : (s.pageMapSetBit addr order).nodes = s.nodes := rfl
@[simp] theorem pageMapSetBit_pageLists :
    (s.pageMapSetBit addr order).pageLists = s.pageLists := rfl
@[simp] theorem pageMapSetBit_written : (s.pageMapSetBit addr order).written = s.written := rfl
@[simp] theorem pageMapSetBit_touched :
    (s.pageMapSetBit addr order).touched = (order, pageMapIdx addr order) :: s.touched := rfl

end fields

/-! ## Bits of the maps -/

/-- The bit of pair `q` of order `k`: bit `q % 8` of byte `q / 8`. -/
def mapBit (s : PhysMem) (k q : Nat) : Bool := (s.pageMaps k (q / 8)).getLsbD (q % 8)

theorem pageMapIdx_eq (addr k : Nat) : pageMapIdx addr k = addr / 2 ^ (13 + k) / 8 := by
  rw [pageMapIdx, Nat.shiftRight_eq_div_pow, Nat.div_div_eq_div_mul]
  congr 1
  rw [show kernelPageSizeInBits + 1 + kernelByteInBits + k = (13 + k) + 3 by
    simp [kernelPageSizeInBits, kernelByteInBits]; omega, Nat.pow_add]

theorem pageMapBit_eq (addr k : Nat) : pageMapBit addr k = addr / 2 ^ (13 + k) % 8 := by
  rw [pageMapBit, Nat.shiftRight_eq_div_pow,
    show (1 <<< kernelByteInBits) - 1 = 2 ^ 3 - 1 from rfl, Nat.and_two_pow_sub_one_eq_mod]
  rfl

theorem bit_isSet_iff (byte : BitVec 8) {i : Nat} (hi : i < 8) :
    (0#8 < byte &&& (1#8 <<< i)) ↔ byte.getLsbD i = true := by
  have hcases : ∀ i : Fin 8, (0#8 < byte &&& (1#8 <<< i.val)) ↔ byte.getLsbD i.val = true := by
    revert byte; decide
  exact hcases ⟨i, hi⟩

theorem getLsbD_toggle (byte : BitVec 8) {i j : Nat} (hi : i < 8) (hj : j < 8) :
    (byte ^^^ (1#8 <<< i)).getLsbD j = if j = i then !byte.getLsbD j else byte.getLsbD j := by
  have hcases : ∀ i j : Fin 8, (1#8 <<< i.val).getLsbD j.val = decide (j.val = i.val) := by decide
  rw [BitVec.getLsbD_xor, hcases ⟨i, hi⟩ ⟨j, hj⟩]
  by_cases h : j = i <;> simp [h]

theorem getLsbD_set (byte : BitVec 8) {i j : Nat} (hi : i < 8) (hj : j < 8) :
    (byte ||| (1#8 <<< i)).getLsbD j = if j = i then true else byte.getLsbD j := by
  have hcases : ∀ i j : Fin 8, (1#8 <<< i.val).getLsbD j.val = decide (j.val = i.val) := by decide
  rw [BitVec.getLsbD_or, hcases ⟨i, hi⟩ ⟨j, hj⟩]
  by_cases h : j = i <;> simp [h]

theorem pageMapIsBitSet_eq (s : PhysMem) (addr k : Nat) :
    s.pageMapIsBitSet addr k = s.mapBit k (addr / 2 ^ (13 + k)) := by
  rw [pageMapIsBitSet, mapByte, mapBit, Bool.eq_iff_iff, decide_eq_true_iff, pageMapIdx_eq,
    pageMapBit_eq]
  exact bit_isSet_iff _ (Nat.mod_lt _ (by decide))

/-- Rewriting one byte changes only the bits in it. -/
theorem mapBit_setMapByte (s : PhysMem) (addr order : Nat) (byte : BitVec 8) (k q : Nat) :
    (s.setMapByte addr order byte).mapBit k q =
      if k = order ∧ q / 8 = addr / 2 ^ (13 + order) / 8 then byte.getLsbD (q % 8)
      else s.mapBit k q := by
  unfold mapBit setMapByte
  rw [pageMapIdx_eq]
  by_cases hk : k = order
  · subst hk
    by_cases hq : q / 8 = addr / 2 ^ (13 + k) / 8 <;> simp [hq]
  · simp [hk]

theorem mapBit_toggle (s : PhysMem) (addr order k q : Nat) :
    (s.pageMapToggleBit addr order).mapBit k q =
      if k = order ∧ q = addr / 2 ^ (13 + order) then !s.mapBit k q else s.mapBit k q := by
  rw [pageMapToggleBit, mapBit_setMapByte, mapByte, pageMapIdx_eq, pageMapBit_eq,
    getLsbD_toggle _ (Nat.mod_lt _ (by decide)) (Nat.mod_lt _ (by decide))]
  unfold mapBit
  by_cases hk : k = order
  · subst hk
    by_cases hq : q / 8 = addr / 2 ^ (13 + k) / 8
    · have hiff : q % 8 = addr / 2 ^ (13 + k) % 8 ↔ q = addr / 2 ^ (13 + k) := by omega
      simp [hq, hiff]
    · have hne : q ≠ addr / 2 ^ (13 + k) := fun h => hq (by rw [h])
      simp [hq, hne]
  · simp [hk]

theorem mapBit_set (s : PhysMem) (addr order k q : Nat) :
    (s.pageMapSetBit addr order).mapBit k q =
      if k = order ∧ q = addr / 2 ^ (13 + order) then true else s.mapBit k q := by
  rw [pageMapSetBit, mapBit_setMapByte, mapByte, pageMapIdx_eq, pageMapBit_eq,
    getLsbD_set _ (Nat.mod_lt _ (by decide)) (Nat.mod_lt _ (by decide))]
  unfold mapBit
  by_cases hk : k = order
  · subst hk
    by_cases hq : q / 8 = addr / 2 ^ (13 + k) / 8
    · have hiff : q % 8 = addr / 2 ^ (13 + k) % 8 ↔ q = addr / 2 ^ (13 + k) := by omega
      simp [hq, hiff]
    · have hne : q ≠ addr / 2 ^ (13 + k) := fun h => hq (by rw [h])
      simp [hq, hne]
  · simp [hk]

/-- The bits of an order determine its bytes. -/
theorem pageMaps_eq_of_mapBit {s s' : PhysMem} {k : Nat} (h : ∀ q, s'.mapBit k q = s.mapBit k q) :
    s'.pageMaps k = s.pageMaps k := by
  funext idx
  apply BitVec.eq_of_getLsbD_eq
  intro i hi
  have hbit := h (8 * idx + i)
  unfold mapBit at hbit
  rwa [show (8 * idx + i) / 8 = idx by omega, show (8 * idx + i) % 8 = i by omega] at hbit

/-! ## The list edits

  What each edit leaves in the heads and in the fields of the nodes. -/

section listEdits

variable {s : PhysMem} {order node addr i a b : Nat}

@[simp] theorem pushNode_pageLists :
    (s.pushNode order node).pageLists = Function.update s.pageLists order node := by
  unfold pushNode
  by_cases h : s.pageLists order = pageListNull <;> simp [h]

@[simp] theorem pushNode_pageMaps : (s.pushNode order node).pageMaps = s.pageMaps := by
  unfold pushNode
  by_cases h : s.pageLists order = pageListNull <;> simp [h]

@[simp] theorem pushNode_touched : (s.pushNode order node).touched = s.touched := by
  unfold pushNode
  by_cases h : s.pageLists order = pageListNull <;> simp [h]

@[simp] theorem pushNode_next :
    (s.pushNode order node).nodes.next
      = Function.update s.nodes.next node (s.pageLists order) := by
  unfold pushNode
  by_cases h : s.pageLists order = pageListNull <;> simp [h]

theorem pushNode_prev :
    (s.pushNode order node).nodes.prev b =
      if b = s.pageLists order ∧ b ≠ pageListNull then node
      else if b = node then pageListNull else s.nodes.prev b := by
  unfold pushNode
  by_cases h : s.pageLists order = pageListNull
  · by_cases hb : b = node <;> simp [h, hb]
  · by_cases hb : b = s.pageLists order
    · simp [h, hb]
    · by_cases hb' : b = node
      · subst hb'
        simp [h, hb]
      · simp [h, hb, hb']

theorem mem_written_pushNode :
    a ∈ (s.pushNode order node).written ↔
      a = node ∨ a = s.pageLists order ∧ a ≠ pageListNull ∨ a ∈ s.written := by
  unfold pushNode
  by_cases h : s.pageLists order = pageListNull
  · simp [h]
  · simp [h]
    grind

@[simp] theorem unlinkBuddy_pageMaps : (s.unlinkBuddy order node).pageMaps = s.pageMaps := by
  unfold unlinkBuddy
  by_cases h : s.nodes.prev node = pageListNull <;> simp only [h] <;> split_ifs <;> rfl

@[simp] theorem releaseUnlink_pageMaps (addr n j : Nat) (s : PhysMem) :
    (releaseUnlink addr n j s).pageMaps = s.pageMaps := by
  induction n generalizing j s with
  | zero => rfl
  | succ n ih => rw [releaseUnlink, ih, unlinkBuddy_pageMaps]

theorem unlinkBuddy_pageLists (hp : s.nodes.prev node ≠ node) (hn : s.nodes.next node ≠ node) :
    (s.unlinkBuddy order node).pageLists =
      if s.nodes.prev node = pageListNull then
        Function.update s.pageLists order (s.nodes.next node) else s.pageLists := by
  unfold unlinkBuddy
  by_cases h1 : s.nodes.prev node = pageListNull <;>
    by_cases h2 : s.nodes.next node = pageListNull <;> simp [h1, h2, hp.symm, hn.symm]

theorem unlinkBuddy_next (hp : s.nodes.prev node ≠ node) (hn : s.nodes.next node ≠ node)
    (hb : b ≠ node) :
    (s.unlinkBuddy order node).nodes.next b =
      if b = s.nodes.prev node ∧ b ≠ pageListNull then s.nodes.next node
      else s.nodes.next b := by
  unfold unlinkBuddy
  by_cases h1 : s.nodes.prev node = pageListNull
  · have hb' : ¬ (b = s.nodes.prev node ∧ b ≠ pageListNull) := fun h => h.2 (h.1.trans h1)
    rw [if_neg hb']
    by_cases h2 : s.nodes.next node = pageListNull <;> simp [h1, h2, hb, hn.symm]
  · by_cases h2 : s.nodes.next node = pageListNull <;>
      by_cases h3 : b = s.nodes.prev node <;> simp [h1, h2, h3, hp, hp.symm, hn.symm, hb]

theorem unlinkBuddy_prev (hp : s.nodes.prev node ≠ node) (hn : s.nodes.next node ≠ node)
    (hb : b ≠ node) :
    (s.unlinkBuddy order node).nodes.prev b =
      if b = s.nodes.next node ∧ b ≠ pageListNull then s.nodes.prev node
      else s.nodes.prev b := by
  unfold unlinkBuddy
  by_cases h2 : s.nodes.next node = pageListNull
  · have hb' : ¬ (b = s.nodes.next node ∧ b ≠ pageListNull) := fun h => h.2 (h.1.trans h2)
    rw [if_neg hb']
    by_cases h1 : s.nodes.prev node = pageListNull <;> simp [h1, h2, hb, hp.symm]
  · by_cases h1 : s.nodes.prev node = pageListNull <;>
      by_cases h3 : b = s.nodes.next node <;> simp [h1, h2, h3, hp.symm, hn, hn.symm, hb]

theorem mem_written_unlinkBuddy (hp : s.nodes.prev node ≠ node) (hn : s.nodes.next node ≠ node)
    (ha : a ∈ (s.unlinkBuddy order node).written) :
    a = node ∨ (a = s.nodes.prev node ∨ a = s.nodes.next node) ∧ a ≠ pageListNull ∨
      a ∈ s.written := by
  unfold unlinkBuddy at ha
  by_cases h1 : s.nodes.prev node = pageListNull <;>
    by_cases h2 : s.nodes.next node = pageListNull <;>
      simp [h1, h2, hp.symm, hn.symm] at ha <;> grind

/-! The first round of the splitting loop takes the block off its list. -/

theorem acquireStep_self_pageLists :
    (acquireStep addr i i s).pageLists
      = Function.update s.pageLists i (s.nodes.next (s.pageLists i)) := by
  unfold acquireStep
  by_cases h : s.nodes.next (s.pageLists i) = pageListNull <;> simp [h]

theorem acquireStep_self_next : (acquireStep addr i i s).nodes.next = s.nodes.next := by
  unfold acquireStep
  by_cases h : s.nodes.next (s.pageLists i) = pageListNull <;> simp [h]

theorem acquireStep_self_prev :
    (acquireStep addr i i s).nodes.prev b =
      if b = s.nodes.next (s.pageLists i) ∧ b ≠ pageListNull then pageListNull
      else s.nodes.prev b := by
  unfold acquireStep
  by_cases h : s.nodes.next (s.pageLists i) = pageListNull
  · have hb : ¬ (b = s.nodes.next (s.pageLists i) ∧ b ≠ pageListNull) :=
      fun hb => hb.2 (hb.1.trans h)
    rw [if_neg hb]
    simp [h]
  · by_cases hb : b = s.nodes.next (s.pageLists i) <;> simp [h, hb]

theorem mem_written_acquireStep_self (ha : a ∈ (acquireStep addr i i s).written) :
    a = s.nodes.next (s.pageLists i) ∧ a ≠ pageListNull ∨ a ∈ s.written := by
  unfold acquireStep at ha
  by_cases h : s.nodes.next (s.pageLists i) = pageListNull
  · simp [h] at ha
    exact .inr ha
  · simp [h] at ha
    grind

/-- A later round makes the upper half the only block of its list. -/
theorem acquireStep_of_ne {j : Nat} (h : j ≠ i) :
    acquireStep addr i j s =
      let half := kernAddr (w32 (addr + 1 <<< (12 + j)))
      (((s.pageMapToggleBit addr j).setHead j half).setNext half pageListNull).setPrev half
        pageListNull := by
  simp [acquireStep, h]

theorem acquireStep_mapBit {j : Nat} (k q : Nat) :
    (acquireStep addr i j s).mapBit k q = (s.pageMapToggleBit addr j).mapBit k q := by
  unfold acquireStep mapBit
  split_ifs
  · simp only []
    split_ifs <;> rfl
  · rfl

end listEdits

end PhysMem

end Avos
