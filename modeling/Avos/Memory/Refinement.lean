import Avos.Library.Buddy
import Avos.Memory.PhysMem

/-! # The Page Allocator Refines the Buddy System

  A state of the allocator represents a pool of the buddy system when each of
  the eleven free lists threads the blocks of the pool's list of that order, in
  order, and each bit of the maps is the pool's bit. `Page_Acquire` and
  `Page_Release` are simulated by `Pool.acquire` and `Pool.release`, the latter
  as long as `PAGE_BUDDY` is asked for the buddy of a block it can answer for.

  The unit page of the buddy system is the 4 KB page: page `x` is at physical
  address `x * 2 ^ 12`, and its `struct Page_List` at `pageNode x`. -/

open Links Buddy

namespace Avos

/-- The number of pages in 4 GB. -/
def numPages : Nat := 2 ^ 20

/-- The number of pages between physical address 0 and the end of the window the
    kernel can address. -/
def windowPages : Nat := (kernelMmapVirtualEnd - kernelHigherHalfOffset) / 2 ^ 12

theorem windowPages_le : windowPages ≤ numPages := by decide

/-- The pointer to page `x`. -/
def pageNode (x : Nat) : Nat := kernAddr (x * 2 ^ 12)

/-- The pointer to block `n` of order `k`. -/
def blockNode (k n : Nat) : Nat := pageNode (n * 2 ^ k)

/-! ## Addresses -/

theorem pageNode_inj {x y : Nat} (hx : x < numPages) (hy : y < numPages)
    (h : pageNode x = pageNode y) : x = y := by
  unfold pageNode kernAddr w32 kernelHigherHalfOffset numPages at *
  omega

theorem pageNode_ne_null (x : Nat) : pageNode x ≠ pageListNull := by
  unfold pageNode kernAddr w32 kernelHigherHalfOffset pageListNull
  omega

theorem physAddr_pageNode {x : Nat} (hx : x < numPages) : physAddr (pageNode x) = x * 2 ^ 12 := by
  unfold pageNode physAddr kernAddr w32 kernelHigherHalfOffset numPages at *
  omega

/-- The pair of the block of order `k` at page `x`. -/
theorem page_pair (x k : Nat) : x * 2 ^ 12 / 2 ^ (13 + k) = x / 2 ^ (k + 1) := by
  rw [show 13 + k = (k + 1) + 12 by omega, Nat.pow_add,
    Nat.mul_div_mul_right _ _ (Nat.two_pow_pos 12)]

theorem page_block (x k : Nat) : x * 2 ^ 12 / 2 ^ (12 + k) = x / 2 ^ k := by
  rw [Nat.add_comm 12 k, Nat.pow_add, Nat.mul_div_mul_right _ _ (Nat.two_pow_pos 12)]

/-- Rounding a page's address down to a block boundary gives the block's address. -/
theorem kernAddr_round (x k : Nat) :
    kernAddr ((x * 2 ^ 12) >>> (12 + k) <<< (12 + k)) = blockNode k (x / 2 ^ k) := by
  rw [Nat.shiftRight_eq_div_pow, Nat.shiftLeft_eq, page_block, blockNode, pageNode,
    Nat.add_comm 12 k, Nat.pow_add, Nat.mul_assoc]

/-! ## Representation -/

namespace PhysMem

/-- The free lists of `s` are the lists of `P`, and all nodes that have been
    stored to are among `S`. -/
structure RepLists (S : Nat → Prop) (s : PhysMem) (P : Pool) : Prop where
  isList : ∀ k, k ≤ pageMaxOrder →
    IsList s.nodes pageListNull (s.pageLists k) ((P.lists k).map (blockNode k))
  written : ∀ a ∈ s.written, S a

/-- The bits of the maps of `s` are the bits of `P`. -/
def RepBits (s : PhysMem) (P : Pool) : Prop :=
  ∀ k, k ≤ pageMaxOrder → ∀ q, s.mapBit k q = P.bits k q

/-- Every block, free or handed out, has its first node among `S`. -/
def Covers (S : Nat → Prop) (P : Pool) (out : List Block) : Prop :=
  ∀ x, 0 < P.total pageMaxOrder out x → S (pageNode x)

/-- The blocks, free and handed out, are disjoint runs of pages below 4 GB. -/
abbrev Valid (P : Pool) (out : List Block) : Prop := P.Valid pageMaxOrder numPages out

/-- Every block, free by order and held. -/
def blocks (free : Nat → List Nat) (out : List Block) : List Block :=
  Pool.blocks pageMaxOrder ⟨free, fun _ _ => false⟩ out

section nodes

variable {P : Pool} {out : List Block} {S : Nat → Prop} {k j n m p : Nat}

theorem load_blocks_eq (x : Nat) :
    load (blocks P.lists out) x = P.total pageMaxOrder out x :=
  Pool.load_blocks _ _ _ _

theorem mem_memory_blocks (x : Nat) :
    x ∈ memory (blocks P.lists out) ↔ 0 < P.total pageMaxOrder out x := by
  rw [mem_memory_iff, load_blocks_eq]

theorem Covers.congr {P' : Pool} {out' : List Block} (h : Covers S P out)
    (htotal : ∀ x, P'.total pageMaxOrder out' x = P.total pageMaxOrder out x) :
    Covers S P' out' :=
  fun x hx => h x (htotal x ▸ hx)

theorem total_pos_of_free (hk : k ≤ pageMaxOrder) (hn : n ∈ P.lists k) :
    0 < P.total pageMaxOrder out (n * 2 ^ k) := by
  have hcount := P.count_le_freeLoad hk (n * 2 ^ k)
  rw [Nat.mul_div_cancel _ (Nat.two_pow_pos k)] at hcount
  have hpos : 0 < (P.lists k).count n := List.count_pos_iff.mpr hn
  unfold Pool.total
  omega

theorem total_pos_of_mem {b : Block} (hb : b ∈ out) {x : Nat} (hx : b.Contains x) :
    0 < P.total pageMaxOrder out x := by
  have hpos := load_pos_of_mem hb hx
  unfold Pool.total
  omega

theorem total_pos_of_hand (b : Block) (P : Pool) (out : List Block) {x : Nat}
    (hx : b.Contains x) : 0 < P.total pageMaxOrder (b :: out) x := by
  unfold Pool.total
  rw [load_cons, if_pos hx]
  omega

theorem Covers.free (h : Covers S P out) (hk : k ≤ pageMaxOrder) (hn : n ∈ P.lists k) :
    S (blockNode k n) :=
  h _ (total_pos_of_free hk hn)

theorem Covers.hand (h : Covers S P (blockOf k p :: out)) : S (blockNode k (p / 2 ^ k)) :=
  h _ (total_pos_of_hand _ _ _
    (by rw [blockOf_contains, Nat.mul_div_cancel _ (Nat.two_pow_pos k)]))

theorem blockNode_ne_null (k n : Nat) : blockNode k n ≠ pageListNull := pageNode_ne_null _

theorem free_lt (h : Valid P out) (hk : k ≤ pageMaxOrder) (hn : n ∈ P.lists k) :
    n * 2 ^ k < numPages :=
  h.bounded _ (total_pos_of_free hk hn)

/-- The nodes of two free blocks differ. -/
theorem blockNode_inj (h : Valid P out) (hk : k ≤ pageMaxOrder) (hj : j ≤ pageMaxOrder)
    (hn : n ∈ P.lists k) (hm : m ∈ P.lists j) (heq : blockNode k n = blockNode j m) :
    k = j ∧ n = m := by
  have hpage : n * 2 ^ k = m * 2 ^ j :=
    pageNode_inj (free_lt h hk hn) (free_lt h hj hm) (by simpa only [blockNode] using heq)
  have hn' : n * 2 ^ k / 2 ^ k = n := Nat.mul_div_cancel _ (Nat.two_pow_pos k)
  have hm' : n * 2 ^ k / 2 ^ j = m := by rw [hpage, Nat.mul_div_cancel _ (Nat.two_pow_pos j)]
  by_cases hkj : k = j
  · subst hkj
    exact ⟨rfl, hn'.symm.trans hm'⟩
  · have hdisj := h.lists_disjoint (x := n * 2 ^ k) hk hj hkj (by rwa [hn'])
    rw [hm'] at hdisj
    exact absurd hm hdisj

/-- A free block's node is no page of the block in hand. -/
theorem blockNode_ne_hand {b : Block} {x : Nat} (h : Valid P (b :: out)) (hk : k ≤ pageMaxOrder)
    (hn : n ∈ P.lists k) (hx : b.Contains x) : blockNode k n ≠ pageNode x := by
  intro heq
  have hpage := pageNode_inj (free_lt h hk hn) (h.hand_lt hx) heq
  refine h.not_mem_of_hand hk hx ?_
  rwa [← hpage, Nat.mul_div_cancel _ (Nat.two_pow_pos k)]

end nodes

/-! ## Edits of one list -/

section edits

variable {s : PhysMem} {P : Pool} {out : List Block} {S : Nat → Prop} {k n p : Nat} {l : List Nat}

/-- An edit of list `k` that stores to nodes of that list and to one page of the
    block in hand only. -/
theorem RepLists.edit {s' : PhysMem} (h : RepLists S s P) (hk : k ≤ pageMaxOrder)
    (hlist : IsList s'.nodes pageListNull (s'.pageLists k) (l.map (blockNode k)))
    (hheads : ∀ j, j ≠ k → s'.pageLists j = s.pageLists j)
    (hframe : ∀ j, j ≤ pageMaxOrder → j ≠ k → ∀ m ∈ P.lists j,
      s'.nodes.next (blockNode j m) = s.nodes.next (blockNode j m) ∧
      s'.nodes.prev (blockNode j m) = s.nodes.prev (blockNode j m))
    (hwritten : ∀ a ∈ s'.written, S a) : RepLists S s' (P.setList k l) where
  isList j hj := by
    by_cases hjk : j = k
    · subst hjk
      simpa using hlist
    · rw [Pool.setList_lists_ne _ _ hjk, hheads j hjk]
      refine (h.isList j hj).congr (fun a ha => ?_) (fun a ha => ?_)
      · obtain ⟨m, hm, rfl⟩ := List.mem_map.mp ha
        exact (hframe j hj hjk m hm).1
      · obtain ⟨m, hm, rfl⟩ := List.mem_map.mp ha
        exact (hframe j hj hjk m hm).2
  written := hwritten

theorem RepLists.head_eq_null_iff (h : RepLists S s P) (hk : k ≤ pageMaxOrder) :
    s.pageLists k = pageListNull ↔ P.lists k = [] := by
  rw [(h.isList k hk).head_eq_null_iff, List.map_eq_nil_iff]

/-- A nonempty list starts at the node of its first block. -/
theorem RepLists.head_eq (h : RepLists S s P) (hk : k ≤ pageMaxOrder) (hl : P.lists k = n :: l) :
    s.pageLists k = blockNode k n := by
  have hhead := (h.isList k hk).head_eq
  rwa [hl, List.map_cons, List.headD_cons] at hhead

/-- A node of a list is not the node of a block of another list. -/
theorem blockNode_ne_of_mem (hv : Valid P out) {j m a : Nat} (hk : k ≤ pageMaxOrder)
    (hj : j ≤ pageMaxOrder) (hjk : j ≠ k) (hm : m ∈ P.lists j)
    (ha : a ∈ (P.lists k).map (blockNode k)) : blockNode j m ≠ a := by
  obtain ⟨n, hn, rfl⟩ := List.mem_map.mp ha
  exact fun heq => hjk (blockNode_inj hv hj hk hm hn heq).1

theorem Covers.node (hS : Covers S P out) {a : Nat} (hk : k ≤ pageMaxOrder)
    (ha : a ∈ (P.lists k).map (blockNode k)) : S a := by
  obtain ⟨n, hn, rfl⟩ := List.mem_map.mp ha
  exact hS.free hk hn

/-- The block in hand goes to the front of a list. -/
theorem RepLists.push (h : RepLists S s P) (hv : Valid P (blockOf k p :: out))
    (hS : Covers S P (blockOf k p :: out)) :
    RepLists S (s.pushNode k (blockNode k (p / 2 ^ k))) (P.push k (p / 2 ^ k)) := by
  have hk : k ≤ pageMaxOrder := hv.orders _ List.mem_cons_self
  have hcontains : (blockOf k p).Contains (p / 2 ^ k * 2 ^ k) := by
    rw [blockOf_contains, Nat.mul_div_cancel _ (Nat.two_pow_pos k)]
  have hfresh : ∀ j, j ≤ pageMaxOrder → ∀ m ∈ P.lists j,
      blockNode j m ≠ blockNode k (p / 2 ^ k) :=
    fun j hj m hm => blockNode_ne_hand hv hj hm hcontains
  have hnull := blockNode_ne_null k (p / 2 ^ k)
  have hSnode : S (blockNode k (p / 2 ^ k)) := hS.hand
  generalize hnode : blockNode k (p / 2 ^ k) = node at *
  have hne : ∀ b ∈ (P.lists k).map (blockNode k), b ≠ node := by
    intro b hb
    obtain ⟨m, hm, rfl⟩ := List.mem_map.mp hb
    exact hfresh k hk m hm
  have hhead : s.pageLists k ≠ node := by
    by_cases hempty : s.pageLists k = pageListNull
    · rw [hempty]; exact hnull.symm
    · exact hne _ ((h.isList k hk).head_mem hempty)
  refine h.edit hk ?_ (fun j hj => by simp [hj]) (fun j hj hjk m hm => ?_) (fun a ha => ?_)
  · rw [List.map_cons, hnode, pushNode_pageLists, Function.update_self]
    refine (h.isList k hk).push hnull (fun hmem => hne node hmem rfl) (by simp) ?_ ?_
      (fun b hb => by simp [hne b hb]) (fun b hb hbh => ?_)
    · rw [pushNode_prev, if_neg (fun hc => hhead hc.1.symm), if_pos rfl]
    · intro hne'
      rw [pushNode_prev, if_pos ⟨rfl, hne'⟩]
    · rw [pushNode_prev, if_neg (fun hc => hbh hc.1), if_neg (hne b hb)]
  · have hm1 := hfresh j hj m hm
    refine ⟨by simp [hm1], ?_⟩
    rw [pushNode_prev, if_neg, if_neg hm1]
    rintro ⟨heq, hnull⟩
    exact blockNode_ne_of_mem hv hk hj hjk hm ((h.isList k hk).head_mem (heq ▸ hnull)) heq
  · rcases mem_written_pushNode.mp ha with rfl | ⟨rfl, hnull⟩ | ha
    · exact hSnode
    · exact hS.node hk ((h.isList k hk).head_mem hnull)
    · exact h.written a ha

theorem map_erase_of_inj {α β : Type*} [BEq α] [LawfulBEq α] [BEq β] [LawfulBEq β] {f : α → β}
    {l : List α} {n : α} (hf : ∀ m ∈ l, f m = f n → m = n) :
    (l.map f).erase (f n) = (l.erase n).map f := by
  induction l with
  | nil => rfl
  | cons m l ih =>
    have hl := ih (fun m' hm' => hf m' (by simp [hm']))
    by_cases hmn : m = n
    · subst hmn
      simp
    · have hne : f m ≠ f n := fun heq => hmn (hf m (by simp) heq)
      rw [List.map_cons, List.erase_cons_tail (by simpa using hne),
        List.erase_cons_tail (by simpa using hmn), List.map_cons, hl]

/-- A free block is unlinked from its list. -/
theorem RepLists.unlink (h : RepLists S s P) (hv : Valid P out) (hS : Covers S P out)
    (hk : k ≤ pageMaxOrder) (hn : n ∈ P.lists k) :
    RepLists S (s.unlinkBuddy k (blockNode k n)) (P.remove k n) := by
  have hlist := h.isList k hk
  have hmem : blockNode k n ∈ (P.lists k).map (blockNode k) := List.mem_map_of_mem hn
  have herase : ((P.lists k).map (blockNode k)).erase (blockNode k n)
      = ((P.lists k).erase n).map (blockNode k) :=
    map_erase_of_inj (fun m hm heq => (blockNode_inj hv hk hk hm hn heq).2)
  obtain ⟨hp, hx⟩ := hlist.neighbours_ne hmem
  have hprev := hlist.prev_mem hmem
  have hnext := hlist.next_mem hmem
  have hnode : ∀ a ∈ (P.lists k).map (blockNode k), a ≠ pageListNull := hlist.ne_null
  refine h.edit hk ?_ (fun j hj => ?_) (fun j hj hjk m hm => ?_) (fun a ha => ?_)
  · rw [← herase, unlinkBuddy_pageLists hp hx]
    have hul := hlist.unlink (K := (s.unlinkBuddy k (blockNode k n)).nodes) hmem
      (fun a ha hab => by rw [unlinkBuddy_next hp hx hab]; simp [hnode a ha])
      (fun a ha hab => by rw [unlinkBuddy_prev hp hx hab]; simp [hnode a ha])
    split_ifs with hfirst
    · rw [Function.update_self]
      rwa [if_pos hfirst] at hul
    · rwa [if_neg hfirst] at hul
  · rw [unlinkBuddy_pageLists hp hx]
    split_ifs
    · rw [Function.update_of_ne hj]
    · rfl
  · have hmb := blockNode_ne_of_mem hv hk hj hjk hm hmem
    rw [unlinkBuddy_next hp hx hmb, unlinkBuddy_prev hp hx hmb]
    refine ⟨if_neg ?_, if_neg ?_⟩
    · rintro ⟨heq, hne⟩
      exact blockNode_ne_of_mem hv hk hj hjk hm (hprev (heq ▸ hne)) heq
    · rintro ⟨heq, hne⟩
      exact blockNode_ne_of_mem hv hk hj hjk hm (hnext (heq ▸ hne)) heq
  · rcases mem_written_unlinkBuddy hp hx ha with heq | ⟨heq | heq, hne⟩ | ha
    · exact heq ▸ hS.node hk hmem
    · exact heq ▸ hS.node hk (hprev (heq ▸ hne))
    · exact heq ▸ hS.node hk (hnext (heq ▸ hne))
    · exact h.written a ha

/-- The first block of a list is taken. -/
theorem RepLists.take (h : RepLists S s P) (hv : Valid P out) (hS : Covers S P out)
    (hk : k ≤ pageMaxOrder) (hl : P.lists k = n :: l) (addr : Nat) :
    RepLists S (acquireStep addr k k s) (P.setList k l) := by
  have hlist := h.isList k hk
  have hhead := h.head_eq hk hl
  have hmem : blockNode k n ∈ (P.lists k).map (blockNode k) :=
    List.mem_map_of_mem (by simp [hl])
  have hnext := hlist.next_mem hmem
  refine h.edit hk ?_ (fun j hj => ?_) (fun j hj hjk m hm => ?_) (fun a ha => ?_)
  · rw [acquireStep_self_pageLists, Function.update_self, hhead]
    rw [hl, List.map_cons] at hlist
    refine hlist.pop (fun hne => ?_) (fun b _ => by rw [acquireStep_self_next])
      (fun b _ hb => ?_)
    · rw [acquireStep_self_prev, hhead, if_pos ⟨rfl, hne⟩]
    · rw [acquireStep_self_prev, hhead, if_neg (fun hc => hb hc.1)]
  · rw [acquireStep_self_pageLists, Function.update_of_ne hj]
  · rw [acquireStep_self_next, acquireStep_self_prev, hhead]
    refine ⟨rfl, if_neg ?_⟩
    rintro ⟨heq, hne⟩
    exact blockNode_ne_of_mem hv hk hj hjk hm (hnext (heq ▸ hne)) heq
  · rcases mem_written_acquireStep_self ha with ⟨rfl, hne⟩ | ha
    · rw [hhead] at hne ⊢
      exact hS.node hk (hnext hne)
    · exact h.written a ha

/-- Where the upper half of the block of order `k + 1` at page `p` starts. -/
theorem kernAddr_half (hp : 2 ^ (k + 1) ∣ p) :
    kernAddr (w32 (p * 2 ^ 12 + 1 <<< (12 + k))) = blockNode k (p / 2 ^ k + 1) := by
  obtain ⟨m, rfl⟩ := (Nat.pow_dvd_pow 2 (Nat.le_succ k)).trans hp
  rw [Nat.mul_div_cancel_left _ (Nat.two_pow_pos k), blockNode, pageNode, kernAddr, kernAddr, w32,
    w32, w32, Nat.mod_add_mod, Nat.shiftLeft_eq, Nat.one_mul, Nat.pow_add, Nat.add_mul,
    Nat.one_mul, Nat.add_mul, Nat.mul_comm (2 ^ k) m, Nat.mul_comm (2 ^ 12) (2 ^ k)]

/-- The upper half of the block in hand becomes the only block of its list. -/
theorem RepLists.half (h : RepLists S s P) (hv : Valid P (blockOf (k + 1) p :: out))
    (hS : Covers S P (blockOf (k + 1) p :: out)) (hp : 2 ^ (k + 1) ∣ p)
    (hempty : P.lists k = []) {i : Nat} (hki : k ≠ i) :
    RepLists S (acquireStep (p * 2 ^ 12) i k s) (P.push k (p / 2 ^ k + 1)) := by
  have hk : k + 1 ≤ pageMaxOrder := hv.orders _ List.mem_cons_self
  have hcontains : (blockOf (k + 1) p).Contains ((p / 2 ^ k + 1) * 2 ^ k) := by
    rw [blockOf_contains, div_two_pow_succ, div_two_pow_succ,
      Nat.mul_div_cancel _ (Nat.two_pow_pos k)]
    have heven : p / 2 ^ k % 2 = 0 := by
      obtain ⟨m, rfl⟩ := hp
      rw [pow_succ, Nat.mul_assoc, Nat.mul_div_cancel_left _ (Nat.two_pow_pos k)]
      omega
    omega
  have hfresh : ∀ j, j ≤ pageMaxOrder → ∀ m ∈ P.lists j,
      blockNode j m ≠ blockNode k (p / 2 ^ k + 1) :=
    fun j hj m hm => blockNode_ne_hand hv hj hm hcontains
  have hnull := blockNode_ne_null k (p / 2 ^ k + 1)
  have hSnode : S (blockNode k (p / 2 ^ k + 1)) := hS _ (total_pos_of_hand _ _ _ hcontains)
  rw [acquireStep_of_ne hki, kernAddr_half hp]
  generalize hnode : blockNode k (p / 2 ^ k + 1) = node at *
  refine h.edit (by omega) ?_ (fun j hj => by simp [hj]) (fun j hj hjk m hm => ?_)
    (fun a ha => ?_)
  · rw [hempty, List.map_cons, hnode]
    simp [IsList, hnull]
  · have hm1 := hfresh j hj m hm
    simp [hm1]
  · simp only [setPrev_written, setNext_written, setHead_written, pageMapToggleBit_written,
      List.mem_cons] at ha
    rcases ha with rfl | rfl | ha
    · exact hSnode
    · exact hSnode
    · exact h.written a ha

end edits

/-! ## Bits -/

section bits

variable {s s' : PhysMem} {P P' : Pool} {k x : Nat}

theorem RepBits.congr (h : RepBits s P) (hbits : P'.bits = P.bits) : RepBits s P' :=
  fun k hk q => by rw [h k hk q, hbits]

/-- Toggling the bit of an address toggles the bit of its page's pair. -/
theorem RepBits.toggle (h : RepBits s P)
    (hs : ∀ j q, s'.mapBit j q = (s.pageMapToggleBit (x * 2 ^ 12) k).mapBit j q) :
    RepBits s' (P.toggle k (x / 2 ^ (k + 1))) := by
  intro j hj q
  rw [hs, mapBit_toggle, page_pair, h j hj q]
  rfl

end bits

/-! ## The operations -/

/-- The lists and the bits of `s` are those of `P`. -/
structure Rep (S : Nat → Prop) (s : PhysMem) (P : Pool) : Prop extends RepLists S s P where
  bits : RepBits s P

section acquire

variable {s : PhysMem} {P P' : Pool} {out : List Block} {S : Nat → Prop} {k n p i : Nat}

theorem acquireFind_eq (h : RepLists S s P) {g : Nat} (hk : k + g ≤ pageMaxOrder) :
    s.acquireFind g k = P.findOrder g k := by
  induction g generalizing k with
  | zero =>
    have hnull := h.head_eq_null_iff (k := k) (by omega)
    unfold acquireFind Pool.findOrder
    by_cases hl : P.lists k = []
    · rw [if_neg (by simp [hnull, hl]), if_pos hl]
    · rw [if_pos (by simp [hnull, hl]), if_neg hl]
  | succ g ih =>
    have hnull := h.head_eq_null_iff (k := k) (by omega)
    unfold acquireFind Pool.findOrder
    by_cases hl : P.lists k = []
    · rw [if_neg (by simp [hnull, hl]), if_pos hl, ih (by omega)]
    · rw [if_pos (by simp [hnull, hl]), if_neg hl]

theorem Rep.take (h : Rep S s P) (hv : Valid P out) (hS : Covers S P out)
    (hi : i ≤ pageMaxOrder) {l : List Nat} (hl : P.lists i = n :: l) :
    Rep S (acquireStep (n * 2 ^ i * 2 ^ 12) i i s) ((P.setList i l).toggle i (n / 2)) := by
  have hbits := h.bits.toggle (x := n * 2 ^ i) (k := i) (acquireStep_mapBit (i := i) (j := i))
  rw [div_two_pow_succ, Nat.mul_div_cancel _ (Nat.two_pow_pos i)] at hbits
  exact ⟨⟨(h.toRepLists.take hv hS hi hl _).isList, (h.toRepLists.take hv hS hi hl _).written⟩,
    hbits.congr rfl⟩

theorem Rep.half (h : Rep S s P) (hv : Valid P (blockOf (k + 1) p :: out))
    (hS : Covers S P (blockOf (k + 1) p :: out)) (hp : 2 ^ (k + 1) ∣ p)
    (hempty : P.lists k = []) (hki : k ≠ i) :
    Rep S (acquireStep (p * 2 ^ 12) i k s)
      ((P.push k (p / 2 ^ k + 1)).toggle k (p / 2 ^ (k + 1))) := by
  have hlists := h.toRepLists.half hv hS hp hempty hki
  exact ⟨⟨hlists.isList, hlists.written⟩,
    (h.bits.toggle (acquireStep_mapBit (i := i) (j := k))).congr rfl⟩

/-- The rounds of the splitting loop below the order of the block taken. Induction
    on the number of rounds, with the state and the pool they start from general. -/
theorem Rep.acquireLoop {d : Nat} (h : Rep S s P) (hv : Valid P (blockOf (k + d + 1) p :: out))
    (hS : Covers S P (blockOf (k + d + 1) p :: out)) (hp : 2 ^ (k + d + 1) ∣ p)
    (hempty : ∀ j, k ≤ j → j < k + d + 1 → P.lists j = []) (hi : k + d < i) :
    Rep S (PhysMem.acquireLoop (p * 2 ^ 12) i d (k + d) s) (Pool.splitDown p k (d + 1) P) := by
  induction d generalizing s P with
  | zero => exact h.half hv hS hp (hempty k le_rfl (by omega)) (by omega)
  | succ d ih =>
    have hk : k + (d + 1) + 1 ≤ pageMaxOrder := hv.orders _ List.mem_cons_self
    have hhalf := h.half hv hS hp (hempty (k + (d + 1)) (by omega) (by omega)) (i := i) (by omega)
    have htotal : ∀ x, ((P.push (k + (d + 1)) (p / 2 ^ (k + (d + 1)) + 1)).toggle (k + (d + 1))
        (p / 2 ^ (k + (d + 1) + 1))).total pageMaxOrder (blockOf (k + (d + 1)) p :: out) x
          = P.total pageMaxOrder (blockOf (k + (d + 1) + 1) p :: out) x :=
      fun x => Pool.total_split hk hp _ x
    rw [PhysMem.acquireLoop, Pool.splitDown, show k + (d + 1) - 1 = k + d by omega]
    refine ih hhalf (hv.congr htotal (fun b hb => ?_)) (hS.congr htotal)
      ((Nat.pow_dvd_pow 2 (by omega)).trans hp) (fun j hj hj' => ?_) (by omega)
    · rcases List.mem_cons.mp hb with rfl | hb
      · exact Nat.le_of_succ_le hk
      · exact hv.orders b (List.mem_cons_of_mem _ hb)
    · rw [Pool.toggle_lists, Pool.push, Pool.setList_lists_ne _ _ (by omega)]
      exact hempty j hj (by omega)

theorem Rep.pageAcquire_none (h : Rep S s P) (hk : k ≤ pageMaxOrder)
    (hacq : P.acquire pageMaxOrder k = none) : s.pageAcquire k = (pageListNull, s) := by
  have hfind := acquireFind_eq h.toRepLists (g := pageMaxOrder - k) (k := k) (by omega)
  unfold Pool.acquire at hacq
  unfold PhysMem.pageAcquire
  split at hacq
  · rename_i hnone
    rw [hfind, hnone]
  · rename_i i hsome
    split at hacq
    · rename_i hl
      exact absurd hl (Pool.findOrder_some hsome).2.2.1
    · cases hacq

/-- `Page_Acquire` is the buddy system's acquire. -/
theorem Rep.pageAcquire (h : Rep S s P) (hv : Valid P out) (hS : Covers S P out)
    (hk : k ≤ pageMaxOrder) (hacq : P.acquire pageMaxOrder k = some (p, P')) :
    (s.pageAcquire k).1 = pageNode p ∧ Rep S (s.pageAcquire k).2 P' := by
  obtain ⟨i, n, l, hki, hi, hl, hempty, rfl, rfl⟩ := Pool.acquire_some hacq hk
  have hfind : s.acquireFind (pageMaxOrder - k) k = some i := by
    rw [acquireFind_eq h.toRepLists (by omega)]
    exact Pool.findOrder_eq_some hki (by omega) (by simp [hl]) hempty
  have hhead := h.toRepLists.head_eq hi hl
  have haddr : physAddr (s.pageLists i) = n * 2 ^ i * 2 ^ 12 := by
    rw [hhead, blockNode, physAddr_pageNode (free_lt hv hi (by simp [hl]))]
  have htake := h.take hv hS hi hl
  unfold PhysMem.pageAcquire
  rw [hfind]
  simp only [haddr]
  refine ⟨hhead, ?_⟩
  rcases Nat.eq_or_lt_of_le hki with rfl | hlt
  · rw [Nat.sub_self]
    exact htake
  · obtain ⟨d, hd⟩ : ∃ d, i - k = d + 1 := ⟨i - k - 1, by omega⟩
    obtain rfl : i = k + d + 1 := by omega
    have htotal : ∀ x, ((P.setList (k + d + 1) l).toggle (k + d + 1) (n / 2)).total pageMaxOrder
        (⟨k + d + 1, n⟩ :: out) x = P.total pageMaxOrder out x :=
      fun x => Pool.total_take hi hl _ x
    rw [hd, PhysMem.acquireLoop, Nat.add_sub_cancel]
    rw [← Pool.blockOf_mul] at htotal
    have hv' : Valid ((P.setList (k + d + 1) l).toggle (k + d + 1) (n / 2))
        (blockOf (k + d + 1) (n * 2 ^ (k + d + 1)) :: out) := by
      refine hv.congr htotal (fun b hb => ?_)
      rcases List.mem_cons.mp hb with rfl | hb
      · exact hi
      · exact hv.orders b hb
    refine htake.acquireLoop hv' (hS.congr htotal) (Nat.dvd_mul_left _ _) (fun j hj hj' => ?_)
      (by omega)
    · rw [Pool.toggle_lists, Pool.setList_lists_ne _ _ (by omega)]
      exact hempty j hj hj'

end acquire

section release

variable {s : PhysMem} {P P' : Pool} {out : List Block} {S : Nat → Prop} {k n p i : Nat}

/-- The first loop of `Page_Release` makes the bits of the merged pool, and stops at
    the order the merging reaches. -/
theorem releaseToggle_spec (hbits : RepBits s P) {g : Nat} (hk : k + g ≤ pageMaxOrder) :
    (releaseToggle (p * 2 ^ 12) g k s).2 = (Pool.mergeUp p g k P).1 ∧
    RepBits (releaseToggle (p * 2 ^ 12) g k s).1 (Pool.mergeUp p g k P).2 ∧
    (releaseToggle (p * 2 ^ 12) g k s).1.nodes = s.nodes ∧
    (releaseToggle (p * 2 ^ 12) g k s).1.pageLists = s.pageLists ∧
    (releaseToggle (p * 2 ^ 12) g k s).1.written = s.written := by
  induction g generalizing k s P with
  | zero =>
    exact ⟨rfl, (hbits.toggle (x := p) (k := k) (fun _ _ => rfl)).congr rfl, rfl, rfl, rfl⟩
  | succ g ih =>
    have htoggle : RepBits (s.pageMapToggleBit (p * 2 ^ 12) k) (P.toggle k (p / 2 ^ (k + 1))) :=
      hbits.toggle (fun _ _ => rfl)
    have hset : (s.pageMapToggleBit (p * 2 ^ 12) k).pageMapIsBitSet (p * 2 ^ 12) k
        = !P.bits k (p / 2 ^ (k + 1)) := by
      rw [pageMapIsBitSet_eq, page_pair, htoggle k (by omega), Pool.toggle_bits_self]
    unfold releaseToggle Pool.mergeUp
    by_cases hbit : P.bits k (p / 2 ^ (k + 1)) = true
    · have hrest : RepBits (s.pageMapToggleBit (p * 2 ^ 12) k)
          ((P.remove k (buddy (p / 2 ^ k))).toggle k (p / 2 ^ (k + 1))) := htoggle.congr rfl
      simp only [hset, hbit, Bool.not_true, Bool.false_eq_true, if_false, if_true]
      exact ih hrest (by omega)
    · simp only [hset, hbit, Bool.not_false, if_true]
      exact ⟨rfl, htoggle.congr rfl, rfl, rfl, rfl⟩

/-- The second loop and the final insertion make the lists of the merged pool,
    provided each `PAGE_BUDDY` is the address of the other half. -/
theorem RepLists.releaseUnlink (h : RepLists S s P) {g : Nat}
    (hv : Valid P (blockOf k p :: out)) (hS : Covers S P (blockOf k p :: out))
    (hk : k + g ≤ pageMaxOrder) (hfree : P.MergesFree p k g)
    (hbuddy : ∀ j, k ≤ j → j < (Pool.mergeUp p g k P).1 →
      kernAddr (pageBuddy (p * 2 ^ 12) j) = blockNode j (buddy (p / 2 ^ j))) :
    RepLists S
      ((PhysMem.releaseUnlink (p * 2 ^ 12) ((Pool.mergeUp p g k P).1 - k) k s).pushNode
        (Pool.mergeUp p g k P).1
        (blockNode (Pool.mergeUp p g k P).1 (p / 2 ^ (Pool.mergeUp p g k P).1)))
      (Pool.mergeUp p g k P).2 := by
  induction g generalizing k s P with
  | zero =>
    unfold Pool.mergeUp
    rw [Nat.sub_self]
    exact ⟨(h.push hv hS).isList, (h.push hv hS).written⟩
  | succ g ih =>
    unfold Pool.mergeUp at hbuddy ⊢
    split_ifs at hbuddy ⊢ with hbit
    · obtain ⟨hin, hrest⟩ := hfree.step hbit
      have hle := Pool.le_mergeUp_order (p := p) (k := k + 1)
        (P := (P.remove k (buddy (p / 2 ^ k))).toggle k (p / 2 ^ (k + 1))) g
      have hun := h.unlink hv hS (by omega) hin
      have htotal : ∀ x, ((P.remove k (buddy (p / 2 ^ k))).toggle k (p / 2 ^ (k + 1))).total
          pageMaxOrder (blockOf (k + 1) p :: out) x
            = P.total pageMaxOrder (blockOf k p :: out) x :=
        fun x => Pool.total_merge (by omega) hin _ x
      obtain ⟨e, he⟩ : ∃ e, (Pool.mergeUp p g (k + 1)
          ((P.remove k (buddy (p / 2 ^ k))).toggle k (p / 2 ^ (k + 1)))).1 - k = e + 1 :=
        ⟨_, (Nat.sub_add_cancel (by omega)).symm⟩
      rw [he, PhysMem.releaseUnlink, hbuddy k le_rfl (by omega)]
      have hrec := ih (s := s.unlinkBuddy k (blockNode k (buddy (p / 2 ^ k))))
        (P := (P.remove k (buddy (p / 2 ^ k))).toggle k (p / 2 ^ (k + 1)))
        ⟨hun.isList, hun.written⟩
        (hv.congr htotal (fun b hb => ?_)) (hS.congr htotal) (by omega) hrest
        (fun j hj hj' => hbuddy j (by omega) hj')
      · rwa [show e = (Pool.mergeUp p g (k + 1)
          ((P.remove k (buddy (p / 2 ^ k))).toggle k (p / 2 ^ (k + 1)))).1 - (k + 1) by omega]
      · rcases List.mem_cons.mp hb with rfl | hb
        · exact (show k + 1 ≤ pageMaxOrder by omega)
        · exact hv.orders b (List.mem_cons_of_mem _ hb)
    · rw [Nat.sub_self]
      exact ⟨(h.push hv hS).isList, (h.push hv hS).written⟩

/-- `PAGE_BUDDY` of the `n`-th block of an order. -/
theorem pageBuddy_mul (hk : k ≤ pageMaxOrder) (hlt : n * 2 ^ (12 + k) < 2 ^ 32) :
    pageBuddy (n * 2 ^ (12 + k)) k = buddy n * 2 ^ (12 + k) := by
  have hk10 : k ≤ 10 := hk
  have hpos : 0 < 2 ^ (12 + k) := Nat.two_pow_pos (12 + k)
  have hhalf : 1 <<< (kernelPageSizeInBits + k) = 2 ^ (12 + k) := Nat.one_shiftLeft _
  have hpair : 1 <<< (kernelPageSizeInBits + 1 + k) = 2 * 2 ^ (12 + k) := by
    rw [Nat.one_shiftLeft, kernelPageSizeInBits, ← Nat.pow_succ']
    congr 1
    omega
  have heven : n * 2 ^ (12 + k) % (2 * 2 ^ (12 + k)) = 0 ↔ n % 2 = 0 := by
    rw [Nat.mul_mod_mul_right, Nat.mul_eq_zero]
    omega
  -- the other half is below 4 GB as well, so that nothing wraps
  have hother : buddy n * 2 ^ (12 + k) < 2 ^ 32 := by
    have hdvd : 2 ^ (12 + k + 1) ∣ 2 ^ 32 := Nat.pow_dvd_pow 2 (by omega)
    have hbuddy := buddy_mul_lt hdvd hlt
    rwa [Nat.mul_div_cancel _ hpos] at hbuddy
  rw [pageBuddy, hhalf, hpair]
  simp only [heven]
  unfold buddy at hother ⊢
  split
  · next h0 =>
    rw [if_pos h0, Nat.add_mul, Nat.one_mul] at hother
    rw [Nat.add_mul, Nat.one_mul]
    exact Nat.mod_eq_of_lt hother
  · next h1 =>
    have hle : 2 ^ (12 + k) ≤ n * 2 ^ (12 + k) := Nat.le_mul_of_pos_left _ (by omega)
    rw [Nat.sub_mul, Nat.one_mul]
    unfold w32
    omega

/-- `PAGE_BUDDY` of an aligned block is the address of the other half. -/
theorem kernAddr_pageBuddy (hp : 2 ^ k ∣ p) (hk : k ≤ pageMaxOrder) (hlt : p < numPages) :
    kernAddr (pageBuddy (p * 2 ^ 12) k) = blockNode k (buddy (p / 2 ^ k)) := by
  obtain ⟨m, rfl⟩ := hp
  have haddr : 2 ^ k * m * 2 ^ 12 = m * 2 ^ (12 + k) := by
    rw [Nat.pow_add, Nat.mul_comm (2 ^ k) m, Nat.mul_assoc, Nat.mul_comm (2 ^ k)]
  have hlt' : m * 2 ^ (12 + k) < 2 ^ 32 := by
    rw [← haddr]
    unfold numPages at hlt
    omega
  rw [haddr, pageBuddy_mul hk hlt', Nat.mul_div_cancel_left _ (Nat.two_pow_pos k), blockNode,
    pageNode, Nat.mul_assoc, Nat.pow_add, Nat.mul_comm (2 ^ 12)]

/-- `Page_Release` is the buddy system's release as long as each `PAGE_BUDDY` it
    asks for is the address of the other half, and that half is free. -/
theorem Rep.pageRelease (h : Rep S s P) (hv : Valid P (blockOf k p :: out))
    (hS : Covers S P (blockOf k p :: out)) (hfree : P.MergesFree p k (pageMaxOrder - k))
    (hlt : p < numPages)
    (hbuddy : ∀ j, k ≤ j → j < (Pool.mergeUp p (pageMaxOrder - k) k P).1 →
      kernAddr (pageBuddy (p * 2 ^ 12) j) = blockNode j (buddy (p / 2 ^ j))) :
    Rep S (s.pageRelease (pageNode p) k) (P.release pageMaxOrder k p) := by
  have hk : k ≤ pageMaxOrder := hv.orders _ List.mem_cons_self
  obtain ⟨hi, hbits, hnodes, hheads, hwritten⟩ := releaseToggle_spec (p := p) h.bits
    (g := pageMaxOrder - k) (k := k) (by omega)
  unfold PhysMem.pageRelease
  rw [if_neg (pageNode_ne_null p), physAddr_pageNode hlt]
  generalize hr : releaseToggle (p * 2 ^ 12) (pageMaxOrder - k) k s = r at *
  obtain ⟨s', i⟩ := r
  simp only at hi hbits hnodes hheads hwritten ⊢
  have hlists : RepLists S s' P :=
    ⟨fun j hj => by rw [hnodes, hheads]; exact h.isList j hj, by rw [hwritten]; exact h.written⟩
  have hres := hlists.releaseUnlink hv hS (by omega) hfree hbuddy
  simp only [kernAddr_round, hr, hi]
  refine ⟨hres, fun j hj q => ?_⟩
  rw [Pool.release, ← hbits j hj q]
  unfold mapBit
  rw [pushNode_pageMaps, releaseUnlink_pageMaps]

end release

end PhysMem

end Avos
