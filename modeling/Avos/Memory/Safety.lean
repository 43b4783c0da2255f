import Avos.Memory.Calls

/-! # Runs of the Page Allocator

  The callers of the allocator acquire blocks of any order, write to the blocks
  they hold and release them. A state is well formed when the eleven free lists,
  the eleven bitmaps and the blocks held fit together.

  * A run keeps its states well formed, and the memory they account for the
    same, as long as every release is of a block aligned to each order it merges
    at. `PAGE_BUDDY` is computed from the address given back, not from the
    address of the block merged so far, so the second loop of `Page_Release`
    unlinks a node that is not the other half when that alignment is missing.
  * When releases come in the reverse order of the acquires, the alignment is
    always there, and the lists and the bitmaps end as they began. -/

open Links Buddy Transition

namespace Avos

/-! ## Section 1: Well-formed states -/

namespace PhysMem

/-- The free blocks, with the bitmaps of the state. -/
def pool (s : PhysMem) (free : Nat → List Nat) : Pool := ⟨free, s.mapBit⟩

/-- The blocks numbered `free k` are the free blocks of order `k`, and the blocks
    `out` are outstanding. -/
structure WellFormed (s : PhysMem) (free : Nat → List Nat) (out : List Block) : Prop where
  isList : ∀ k, k ≤ pageMaxOrder →
    IsList s.nodes pageListNull (s.pageLists k) ((free k).map (blockNode k))
  apart : Apart (blocks free out)
  inWindow : ∀ x ∈ memory (blocks free out), x < windowPages
  orders : ∀ b ∈ out, b.order ≤ pageMaxOrder
  bits : ∀ k, k < pageMaxOrder → ∀ q, q * 2 ^ (k + 1) < windowPages →
    (s.mapBit k q = true ↔ Xor (2 * q ∈ free k) (2 * q + 1 ∈ free k))
  notBoth : ∀ k, k < pageMaxOrder → ∀ q, ¬ (2 * q ∈ free k ∧ 2 * q + 1 ∈ free k)

section wellFormed

variable {s : PhysMem} {P : Pool} {free : Nat → List Nat} {out : List Block}

/-- A well-formed state represents a sound pool. -/
theorem WellFormed.rep (h : s.WellFormed free out) : Rep (fun _ => True) s (s.pool free) :=
  ⟨⟨h.isList, fun _ _ => trivial⟩, fun _ _ _ => rfl⟩

theorem WellFormed.sound (h : s.WellFormed free out) :
    (s.pool free).Sound pageMaxOrder windowPages out where
  total_le x := by
    rw [← load_blocks_eq]
    exact (apart_iff_load_le_one _).mp h.apart x
  bounded x hx := h.inWindow x ((mem_memory_blocks (P := s.pool free) x).mpr hx)
  orders := h.orders
  bitsOk k hk q hq := ⟨h.bits k hk q hq, h.notBoth k hk q⟩

theorem WellFormed.of_rep {S : Nat → Prop} (h : Rep S s P)
    (hs : P.Sound pageMaxOrder windowPages out) : s.WellFormed P.lists out where
  isList := h.isList
  apart := by
    rw [apart_iff_load_le_one]
    exact fun x => by rw [load_blocks_eq]; exact hs.total_le x
  inWindow x hx := hs.bounded x ((mem_memory_blocks x).mp hx)
  orders := hs.orders
  bits k hk q hq := by
    rw [h.bits k hk.le q]
    exact (hs.bitsOk k hk q hq).1
  notBoth k hk q hboth := by
    refine (hs.bitsOk k hk q ?_).2 hboth
    have hlt : 2 * q * 2 ^ k < windowPages :=
      hs.toValid.free_lt hk.le (by rw [Nat.mul_div_cancel _ (Nat.two_pow_pos k)]; exact hboth.1)
    rwa [pow_succ, Nat.mul_comm (2 ^ k) 2, ← Nat.mul_assoc, Nat.mul_comm q 2]

end wellFormed

end PhysMem

/-! ## Section 2: Every run -/

/-- The state is well formed and accounts for the pages `m`. -/
def Arena.WellFormed (a : Arena) (m : Set Nat) : Prop :=
  ∃ free out, a.held = out.map handle ∧ a.mem.WellFormed free out ∧
    memory (PhysMem.blocks free out) = m

/-- A release is aligned when, at each order where it finds the bit set, the address
    given back is the start of a block of that order. -/
def Call.Aligned (a : Arena) : Call → Prop
  | release ptr k => ∀ j, k ≤ j → j < pageMaxOrder →
      (∀ t, k ≤ t → t ≤ j → a.mem.pageMapIsBitSet (physAddr ptr) t = true) →
      2 ^ (12 + j) ∣ physAddr ptr
  | _ => True

namespace Arena

variable {S : Nat → Prop} {a : Arena} {P P' : Pool} {out : List Block} {m : Set Nat} {k p : Nat}
  {b : Block}

theorem wellFormed_iff :
    a.WellFormed m ↔ ∃ P out, a.Shows (fun _ => True) P out ∧
      P.Sound pageMaxOrder windowPages out ∧ ∀ x, x ∈ m ↔ 0 < P.total pageMaxOrder out x := by
  constructor
  · rintro ⟨free, out, hheld, hwf, rfl⟩
    exact ⟨a.mem.pool free, out, ⟨hheld, hwf.rep, hwf.sound.toValid.mono windowPages_le,
      fun _ _ => trivial⟩, hwf.sound, fun x => PhysMem.mem_memory_blocks (P := a.mem.pool free) x⟩
  · rintro ⟨P, out, h, hs, hm⟩
    refine ⟨P.lists, out, h.held, .of_rep h.rep hs, Set.ext fun x => ?_⟩
    rw [hm, PhysMem.mem_memory_blocks]

/-- A block held may be taken for the one in front. -/
theorem sound_front (h : P.Sound pageMaxOrder windowPages out) (hb : b ∈ out) :
    P.Sound pageMaxOrder windowPages (blockOf b.order b.page :: out.erase b) := by
  rw [blockOf_page]
  exact h.perm (List.perm_cons_erase hb)

/-- The bits below the order a release reaches are set. -/
theorem Shows.isBitSet (h : a.Shows S P out) (hb : b ∈ out) {t : Nat} (ht : b.order ≤ t)
    (hlt : t < (Pool.mergeUp b.page (pageMaxOrder - b.order) b.order P).1) :
    a.mem.pageMapIsBitSet (physAddr (handle b).1) t = true := by
  have hk : b.order ≤ pageMaxOrder := h.valid.orders b hb
  have hle := (Pool.le_mergeUp_order (p := b.page) (k := b.order) (P := P)
    (pageMaxOrder - b.order)).2
  rw [physAddr_handle h hb, PhysMem.pageMapIsBitSet_eq, page_pair, h.rep.bits t (by omega)]
  exact Pool.bits_of_lt_mergeUp_order ht hlt

/-- The alignment the code relies on, in terms of the pool. -/
theorem Shows.aligned (h : a.Shows S P out) (hb : b ∈ out)
    (hal : (Call.release (handle b).1 (handle b).2).Aligned a) {j : Nat} (hj : b.order ≤ j)
    (hlt : j < (Pool.mergeUp b.page (pageMaxOrder - b.order) b.order P).1) : 2 ^ j ∣ b.page := by
  have hk : b.order ≤ pageMaxOrder := h.valid.orders b hb
  have hle := (Pool.le_mergeUp_order (p := b.page) (k := b.order) (P := P)
    (pageMaxOrder - b.order)).2
  have hdvd := hal j hj (by omega) (fun t ht ht' => h.isBitSet hb ht (lt_of_le_of_lt ht' hlt))
  rw [physAddr_handle h hb, Nat.add_comm, Nat.pow_add] at hdvd
  exact Nat.dvd_of_mul_dvd_mul_right (by decide) hdvd

/-- One call keeps a well-formed state well formed. -/
theorem WellFormed.exec (h : a.WellFormed m) {c : Call} (hc : c.Allowed a) (hal : c.Aligned a) :
    (a.exec c).WellFormed m := by
  obtain ⟨P, out, hs, hsound, hm⟩ := wellFormed_iff.mp h
  rw [wellFormed_iff]
  cases c with
  | acquire k =>
    rcases hacq : P.acquire pageMaxOrder k with _ | ⟨p, P'⟩
    · exact ⟨P, out, (hs.acquire_none hc hacq).symm ▸ hs, hsound, hm⟩
    · exact ⟨P', _, hs.acquire_some hc hacq, hsound.acquire hacq hc,
        fun x => by rw [hm, Pool.total_acquire hacq hc]⟩
  | release ptr k =>
    obtain ⟨b, hb, rfl, rfl⟩ := hs.block_of_held hc
    have hk : b.order ≤ pageMaxOrder := hs.valid.orders b hb
    have hfree := (sound_front hsound hb).mergesFree (g := pageMaxOrder - b.order) (by omega)
    refine ⟨_, _, hs.release hb hfree (fun j hj hlt => hs.aligned hb hal hj hlt),
      (sound_front hsound hb).release, fun x => ?_⟩
    rw [hm, Pool.release, Pool.total_mergeUp (by omega) hfree, total_front hb]
  | store ptr k x next prev =>
    obtain ⟨hheld, hx⟩ := hc
    obtain ⟨b, hb, rfl, rfl⟩ := hs.block_of_held hheld
    exact ⟨P, out, hs.store hb hx next prev, hsound, hm⟩

end Arena

/-- From a well-formed state, a run whose releases are all aligned only passes through
    well-formed states, and no page is lost or handed out twice. -/
theorem pageCalls_wellFormed {start : Arena} {m : Set Nat} (hstart : start.WellFormed m)
    {n : Nat} {states : Nat → Arena} {calls : Nat → Call}
    (hrun : (pageCalls start).Run n states calls)
    (haligned : ∀ i, i < n → (calls i).Aligned (states i)) :
    ∀ i, i ≤ n → (states i).WellFormed m := by
  refine hrun.invariant_of_guard (I := (Arena.WellFormed · m)) (G := fun a c => c.Aligned a) ?_ ?_
    haligned
  · rintro a rfl
    exact hstart
  · rintro a c a' ha hal ⟨hallowed, rfl⟩
    exact ha.exec hallowed hal

/-- One free block of eight pages at 1 MB. -/
def eightPages : Arena where
  mem :=
    { pageLists := fun k => if k = 3 then 0x80100000 else pageListNull
      pageMaps := fun k idx => if k = 3 ∧ idx = 2 then 1#8 else 0#8
      nodes := ⟨fun _ => pageListNull, fun _ => pageListNull⟩
      written := []
      touched := [] }
  held := []

theorem eightPages_wellFormed : eightPages.WellFormed {x | x / 2 ^ 3 = 0x20} := by
  refine ⟨fun k => if k = 3 then [0x20] else [], [], rfl, ⟨?_, ?_, ?_, ?_, ?_, ?_⟩, ?_⟩
  · intro k _
    by_cases hk : k = 3
    · subst hk
      exact ⟨List.nodup_singleton _, by decide, by decide, rfl, rfl⟩
    · simp [hk, eightPages]
  · exact List.pairwise_singleton _ _
  · rintro x ⟨b, hb, hx⟩
    obtain rfl := List.mem_singleton.mp hb
    have hx : x / 2 ^ 3 = 0x20 := hx
    unfold windowPages kernelMmapVirtualEnd kernelHigherHalfOffset
    omega
  · simp
  · intro k _ q _
    by_cases hk : k = 3
    · subst hk
      by_cases hq : q / 8 = 2
      · have hbit : eightPages.mem.mapBit 3 q = (1#8).getLsbD (q % 8) := by
          simp [PhysMem.mapBit, eightPages, hq]
        rw [hbit]
        simp [xor_def]
        omega
      · have hbit : eightPages.mem.mapBit 3 q = false := by
          simp [PhysMem.mapBit, eightPages, hq]
        rw [hbit]
        simp [xor_def]
        omega
    · simp [PhysMem.mapBit, eightPages, hk]
  · intro k _ q
    by_cases hk : k = 3
    · subst hk
      simp
      omega
    · simp [hk]
  · ext x
    constructor
    · rintro ⟨b, hb, hx⟩
      obtain rfl := List.mem_singleton.mp hb
      exact hx
    · exact fun hx => ⟨⟨3, 0x20⟩, List.mem_singleton.mpr rfl, hx⟩

/-- The block of eight pages is acquired and released. -/
def wholeCalls : Nat → Call
  | 0 => .acquire 3
  | _ => .release 0x80100000 3

theorem pageCalls_wellFormed_eightPages :
    (eightPages.after wholeCalls 2).WellFormed {x | x / 2 ^ 3 = 0x20} := by
  refine pageCalls_wellFormed eightPages_wellFormed (Arena.run_after (n := 2) (by decide +kernel))
    (fun i hi => ?_) 2 le_rfl
  obtain rfl | rfl : i = 0 ∨ i = 1 := by omega
  · trivial
  · -- the acquire cleared the bit of the pair, so nothing is merged
    intro j hj _ hbits
    exact absurd (hbits 3 le_rfl hj) (by decide +kernel)

/-- Six single pages are acquired. Of the pages `0x103`, `0x104` and `0x105`, released in
    this order, the last merges at orders 0 and 1, from an address that is not aligned to
    order 1. -/
def strayCalls : Nat → Call
  | 6 => .release 0x80103000 0
  | 7 => .release 0x80104000 0
  | 8 => .release 0x80105000 0
  | _ => .acquire 0

/-- Page `0x103` is unlinked in place of the pair `0x106`, `0x107`: it stays at the head
    of the list of order 0, with a `next` field of zero. -/
theorem not_forall_pageCalls_wellFormed :
    ¬ ∀ (start : Arena) (m : Set Nat), start.WellFormed m →
      ∀ (n : Nat) (states : Nat → Arena) (calls : Nat → Call),
        (pageCalls start).Run n states calls → ∀ i, i ≤ n → (states i).WellFormed m := by
  intro h
  obtain ⟨free, out, -, hwf, -⟩ := h eightPages _ eightPages_wellFormed 9 _ strayCalls
    (Arena.run_after (by decide +kernel)) 9 le_rfl
  have hlist := hwf.isList 0 (by decide)
  have hhead : (eightPages.after strayCalls 9).mem.pageLists 0 = 0x80103000 := by decide +kernel
  have hnext : (eightPages.after strayCalls 9).mem.nodes.next 0x80103000 = 0 := by decide +kernel
  rw [hhead] at hlist
  -- a field of zero is neither the end of the list nor the node of a block of the window
  have hmem := hlist.next_mem (hlist.head_mem (by decide)) (by rw [hnext]; decide)
  rw [hnext] at hmem
  obtain ⟨n, hn, hzero⟩ := List.mem_map.mp hmem
  have hin := hwf.sound.toValid.free_lt (x := n) (k := 0) (by decide)
    (by rwa [Nat.pow_zero, Nat.div_one])
  unfold blockNode pageNode kernAddr w32 at hzero
  unfold windowPages kernelMmapVirtualEnd kernelHigherHalfOffset at *
  omega

/-! ## Section 3: Nested calls -/

/-- A release gives back the block acquired last, and none of the `base` blocks held at
    the start. -/
def Call.Nested (base : Nat) (a : Arena) : Call → Prop
  | release ptr k => base < a.held.length ∧ a.held.head? = some (ptr, k)
  | _ => True

/-- The arena shows a pool that nested acquires made of `P₀`. -/
def Arena.Nested (P₀ : Pool) (out₀ : List Block) (a : Arena) : Prop :=
  ∃ P out, Pool.Nest pageMaxOrder windowPages P₀ out₀ P out ∧ a.Shows (fun _ => True) P out ∧
    P.Sound pageMaxOrder windowPages out

theorem Arena.Nested.exec {P₀ : Pool} {out₀ : List Block} {a : Arena} (h : a.Nested P₀ out₀)
    {c : Call} (hc : c.Allowed a) (hnested : c.Nested out₀.length a) :
    (a.exec c).Nested P₀ out₀ := by
  obtain ⟨P, out, hnest, hs, hsnd⟩ := h
  cases c with
  | acquire k =>
    rcases hacq : P.acquire pageMaxOrder k with _ | ⟨p, P'⟩
    · exact ⟨P, out, hnest, (hs.acquire_none hc hacq).symm ▸ hs, hsnd⟩
    · exact ⟨P', _, hnest.acquire hsnd hc hacq, hs.acquire_some hc hacq, hsnd.acquire hacq hc⟩
  | release ptr k =>
    obtain ⟨hlen, hhead⟩ := hnested
    rw [hs.held] at hlen hhead
    cases hnest with
    | base => exact absurd hlen (by simp)
    | @acquire Q _ out k' p hnest hsound hk hacq =>
      obtain ⟨i, hi, hmerge⟩ := Pool.mergeUp_acquire hsound hacq hk
      have hpage : (blockOf k' p).page = p := Nat.div_mul_cancel (Pool.aligned_of_acquire hacq hk)
      obtain ⟨rfl, rfl⟩ : (handle (blockOf k' p)).1 = ptr ∧ (handle (blockOf k' p)).2 = k := by
        rw [List.map_cons, List.head?_cons, Option.some.injEq] at hhead
        simp only [hhead, and_self]
      have hrel := hs.release (b := blockOf k' p) List.mem_cons_self
        ((Arena.sound_front hsnd List.mem_cons_self).mergesFree
          (by rw [blockOf_order]; omega)) (fun j _ hlt => by
        rw [hpage, blockOf_order, hmerge] at hlt
        rw [hpage]
        exact (Nat.pow_dvd_pow 2 (Nat.le_of_lt hlt)).trans hi)
      rw [hpage, blockOf_order, Pool.release, hmerge, List.erase_cons_head] at hrel
      exact ⟨Q, out, hnest, hrel, hsound⟩
  | store ptr k x next prev =>
    obtain ⟨hheld, hx⟩ := hc
    obtain ⟨b, hb, rfl, rfl⟩ := hs.block_of_held hheld
    exact ⟨P, out, hnest, hs.store hb hx next prev, hsnd⟩

/-- When every block acquired since the start has been released, latest first, the free
    lists hold the same blocks in the same order as at the start, and the bitmaps are
    the same. -/
theorem nestedCalls_restore {start : Arena} {m : Set Nat} (hstart : start.WellFormed m)
    {n : Nat} {states : Nat → Arena} {calls : Nat → Call}
    (hrun : (pageCalls start).Run n states calls)
    (hnested : ∀ i, i < n → (calls i).Nested start.held.length (states i))
    (hend : (states n).held.length = start.held.length) :
    ∀ k, k ≤ pageMaxOrder →
      (∀ l, IsList (states n).mem.nodes pageListNull ((states n).mem.pageLists k) l ↔
        IsList start.mem.nodes pageListNull (start.mem.pageLists k) l) ∧
      (states n).mem.pageMaps k = start.mem.pageMaps k := by
  obtain ⟨P₀, out₀, hs₀, hsound₀, -⟩ := Arena.wellFormed_iff.mp hstart
  have hlen₀ : start.held.length = out₀.length := by rw [hs₀.held, List.length_map]
  have hinv := hrun.invariant_of_guard (I := Arena.Nested P₀ out₀)
    (G := fun a c => c.Nested out₀.length a)
    (by rintro a rfl; exact ⟨P₀, out₀, .base, hs₀, hsound₀⟩)
    (by rintro a c a' ha hG ⟨hallowed, rfl⟩; exact ha.exec hallowed hG)
    (fun i hi => hlen₀ ▸ hnested i hi)
  obtain ⟨P, out, hnest, hs, -⟩ := hinv n le_rfl
  rw [hs.held, List.length_map, hlen₀] at hend
  obtain rfl := hnest.eq_of_length hend
  intro k hk
  have hlist := hs.rep.isList k hk
  have hlist₀ := hs₀.rep.isList k hk
  refine ⟨fun l => ⟨fun hl => ?_, fun hl => ?_⟩, PhysMem.pageMaps_eq_of_mapBit (fun q => ?_)⟩
  · rwa [hl.unique hlist]
  · rwa [hl.unique hlist₀]
  · rw [hs.rep.bits k hk q, hs₀.rep.bits k hk q]

/-- Two single pages, acquired and released in reverse order. -/
def pairedCalls : Nat → Call
  | 0 => .acquire 0
  | 1 => .acquire 0
  | 2 => .release 0x80101000 0
  | _ => .release 0x80100000 0

theorem nestedCalls_restore_eightPages :
    (∀ l, IsList (eightPages.after pairedCalls 4).mem.nodes pageListNull
        ((eightPages.after pairedCalls 4).mem.pageLists 3) l ↔
      IsList eightPages.mem.nodes pageListNull (eightPages.mem.pageLists 3) l) ∧
    (eightPages.after pairedCalls 4).mem.pageMaps 3 = eightPages.mem.pageMaps 3 := by
  refine nestedCalls_restore eightPages_wellFormed (Arena.run_after (n := 4) (by decide +kernel))
    (fun i hi => ?_) (by decide +kernel) 3 (by decide)
  obtain rfl | rfl | rfl | rfl : i = 0 ∨ i = 1 ∨ i = 2 ∨ i = 3 := by omega
  · trivial
  · trivial
  · exact ⟨by decide +kernel, by decide +kernel⟩
  · exact ⟨by decide +kernel, by decide +kernel⟩

end Avos
