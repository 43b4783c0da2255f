import Avos.Memory.Boot
import Avos.Memory.Safety

/-! # What One Call Does to a Well-Formed State

  `Page_Acquire` and `Page_MapMemoryChunk` from any well-formed state: that it stays well
  formed, and what becomes of the free memory.
-/

open Links Buddy

namespace Buddy

variable {top M : Nat} {P : Pool} {out : List Block} {b : Block}

/-- A block in hand may be forgotten. -/
theorem Pool.Sound.of_hand (h : P.Sound top M (b :: out)) : P.Sound top M out := by
  have hle : ∀ x, P.total top out x ≤ P.total top (b :: out) x := by
    intro x
    unfold Pool.total
    rw [load_cons]
    omega
  refine ⟨⟨fun x => (hle x).trans (h.total_le x), fun x hx => ?_, fun c hc => ?_⟩, h.bitsOk⟩
  · exact h.bounded x (lt_of_lt_of_le hx (hle x))
  · exact h.orders c (List.mem_cons_of_mem _ hc)

end Buddy

namespace Avos

namespace PhysMem

/-! ## Section 1: Acquiring a Block -/

section acquire

variable {s : PhysMem} {free : Nat → List Nat} {P P' : Pool} {k p i n : Nat}

/-- An address aligned to a block stays so in the higher half. -/
theorem two_pow_dvd_blockNode (hk : k ≤ pageMaxOrder) : 2 ^ (12 + k) ∣ blockNode k n := by
  have h31 : 2 ^ (12 + k) ∣ 2 ^ 31 := Nat.pow_dvd_pow 2 (by unfold pageMaxOrder at hk; omega)
  have h32 : 2 ^ (12 + k) ∣ 2 ^ 32 := h31.trans (Nat.pow_dvd_pow 2 (by decide))
  rw [blockNode, pageNode, kernAddr, w32, Nat.dvd_mod_iff h32]
  refine Nat.dvd_add ?_ h31
  rw [Nat.mul_assoc, ← Nat.pow_add, Nat.add_comm k 12]
  exact Nat.dvd_mul_left _ _

/-- The pages of the block acquired were free, and all others stay as they were. -/
theorem memory_acquire (h : P.Sound pageMaxOrder windowPages [])
    (hacq : P.acquire pageMaxOrder k = some (p, P')) (hk : k ≤ pageMaxOrder) :
    {x | (blockOf k p).Contains x} ⊆ memory (blocks P.lists []) ∧
      memory (blocks P'.lists []) =
        memory (blocks P.lists []) \ {x | (blockOf k p).Contains x} := by
  have htotal : ∀ x, P'.total pageMaxOrder [] x + (if (blockOf k p).Contains x then 1 else 0) =
      P.total pageMaxOrder [] x := by
    intro x
    have hkeep : P'.total pageMaxOrder [blockOf k p] x = P.total pageMaxOrder [] x :=
      Pool.total_acquire hacq hk x
    rw [← hkeep]
    unfold Pool.total
    rw [load_cons]
    omega
  refine ⟨fun x hx => ?_, Set.ext fun x => ?_⟩
  · have hin : (blockOf k p).Contains x := hx
    rw [mem_memory_blocks, ← htotal, if_pos hin]
    omega
  · have hle := h.total_le x
    have hdiff : x ∈ memory (blocks P.lists []) \ {x | (blockOf k p).Contains x} ↔
        x ∈ memory (blocks P.lists []) ∧ ¬(blockOf k p).Contains x := Iff.rfl
    rw [hdiff, mem_memory_blocks, mem_memory_blocks]
    rw [← htotal] at hle ⊢
    split_ifs at hle ⊢ with hx
    · simp only [hx, not_true_eq_false, and_false, iff_false]
      omega
    · simp only [hx, not_false_eq_true, and_true, Nat.add_zero]

/-- From any well-formed state, `Page_Acquire` fails exactly when no list from the order on has
    a block, and then it changes nothing. Otherwise it hands out the lower part of the first
    block of the first such list, the rest of the free memory stays free, and the state is
    well formed again. -/
theorem pageAcquire_wellFormed (h : s.WellFormed free []) (hk : k ≤ pageMaxOrder) :
    ((s.pageAcquire k).1 = pageListNull ↔
      ∀ i, k ≤ i → i ≤ pageMaxOrder → s.pageLists i = pageListNull) ∧
    ((s.pageAcquire k).1 = pageListNull → (s.pageAcquire k).2 = s) ∧
    ((s.pageAcquire k).1 ≠ pageListNull →
      2 ^ (12 + k) ∣ (s.pageAcquire k).1 ∧
      ∃ b : Block, b.order = k ∧ (s.pageAcquire k).1 = blockNode k b.number ∧
        (∃ i n l, k ≤ i ∧ i ≤ pageMaxOrder ∧ free i = n :: l ∧
          (∀ j, k ≤ j → j < i → free j = []) ∧ b.page = (⟨i, n⟩ : Block).page) ∧
        {x | b.Contains x} ⊆ memory (blocks free []) ∧
        ∃ free', (s.pageAcquire k).2.WellFormed free' [] ∧
          memory (blocks free' []) = memory (blocks free []) \ {x | b.Contains x}) := by
  have hrep := h.rep
  have hempty : (∀ i, k ≤ i → i ≤ pageMaxOrder → s.pageLists i = pageListNull) ↔
      ∀ i, k ≤ i → i ≤ pageMaxOrder → free i = [] :=
    forall_congr' fun i => imp_congr_right fun _ => forall_congr' fun hi =>
      hrep.toRepLists.head_eq_null_iff hi
  have hfails : (s.pool free).acquire pageMaxOrder k = none ↔
      ∀ i, k ≤ i → i ≤ pageMaxOrder → free i = [] := Pool.acquire_none_iff hk
  rw [hempty, ← hfails]
  rcases hacq : (s.pool free).acquire pageMaxOrder k with _ | ⟨p, P'⟩
  · have hnone := hrep.pageAcquire_none hk hacq
    rw [hnone]
    exact ⟨iff_of_true rfl rfl, fun _ => rfl, fun hne => absurd rfl hne⟩
  · have hv : Valid (s.pool free) [] := h.sound.toValid.mono windowPages_le
    obtain ⟨hpage, hrep'⟩ := hrep.pageAcquire hv (fun _ _ => trivial) hk hacq
    obtain ⟨i, n, l, hki, hi, hl, hbefore, hp, -⟩ := Pool.acquire_some hacq hk
    have hdvd := Pool.aligned_of_acquire hacq hk
    have hnode : (s.pageAcquire k).1 = blockNode k (p / 2 ^ k) := by
      rw [hpage, Arena.pageNode_of_dvd hdvd]
    have hne : (s.pageAcquire k).1 ≠ pageListNull := by
      rw [hnode]
      exact blockNode_ne_null _ _
    obtain ⟨hsub, hmem⟩ := memory_acquire h.sound hacq hk
    have hsound := (h.sound.acquire hacq hk).of_hand
    refine ⟨iff_of_false hne (by simp), fun hnull => absurd hnull hne, fun _ => ⟨?_, ?_⟩⟩
    · rw [hnode]
      exact two_pow_dvd_blockNode hk
    · refine ⟨blockOf k p, rfl, hnode, ⟨i, n, l, hki, hi, hl, hbefore, ?_⟩, hsub, P'.lists,
        .of_rep hrep' hsound, hmem⟩
      rw [Block.page, blockOf_order, blockOf_number, Nat.div_mul_cancel hdvd, hp]
      rfl

/-- Two of eight pages. -/
theorem pageAcquire_wellFormed_eightPages :
    (eightPages.mem.pageAcquire 1).1 ≠ pageListNull ∧
    ((eightPages.mem.pageAcquire 1).1 = pageListNull ↔
      ∀ i, 1 ≤ i → i ≤ pageMaxOrder → eightPages.mem.pageLists i = pageListNull) := by
  obtain ⟨free, out, hheld, hwf, -⟩ := eightPages_wellFormed
  obtain rfl : out = [] := List.map_eq_nil_iff.mp hheld.symm
  have h := pageAcquire_wellFormed hwf (k := 1) (by decide)
  exact ⟨by decide, h.1⟩

end acquire

/-! ## Section 2: Listing Blocks One After the Other -/

/-- A block goes to the front of its list, and the bit of its pair is set. -/
def listBlock (s : PhysMem) (b : Block) : PhysMem :=
  (s.pushNode b.order (blockNode b.order b.number)).pageMapSetBit (b.page * 2 ^ 12) b.order

/-- The block in front of the numbers of its order. -/
def addBlock (free : Nat → List Nat) (b : Block) : Nat → List Nat :=
  Function.update free b.order (b.number :: free b.order)

/-- The two halves of a block of the next order. -/
def Buddies (b c : Block) : Prop :=
  b.order = c.order ∧ b.order < pageMaxOrder ∧ buddy b.number = c.number

/-- The blocks share no page and are not to be merged. -/
def Clear (b c : Block) : Prop := (∀ x, ¬(b.Contains x ∧ c.Contains x)) ∧ ¬Buddies b c

section listing

variable {s : PhysMem} {free : Nat → List Nat} {P P' : Pool} {b c : Block} {bs : List Block}
  {k n x : Nat}

theorem mem_blocks : c ∈ blocks free [] ↔ c.order ≤ pageMaxOrder ∧ c.number ∈ free c.order := by
  simp only [blocks, Pool.blocks, List.append_nil, List.mem_flatMap, List.mem_range, List.mem_map]
  constructor
  · rintro ⟨k, hk, n, hn, rfl⟩
    exact ⟨Nat.lt_succ_iff.mp hk, hn⟩
  · rintro ⟨hk, hn⟩
    exact ⟨c.order, Nat.lt_succ_of_le hk, c.number, hn, rfl⟩

theorem mem_blocks_addBlock (hb : b.order ≤ pageMaxOrder) :
    c ∈ blocks (addBlock free b) [] ↔ c = b ∨ c ∈ blocks free [] := by
  rw [mem_blocks, mem_blocks, addBlock]
  by_cases hk : c.order = b.order
  · rw [hk, Function.update_self, List.mem_cons]
    have heq : c = b ↔ c.number = b.number :=
      ⟨fun h => h ▸ rfl, fun h => by cases b; cases c; simp_all⟩
    rw [heq]
    simp [hb]
  · rw [Function.update_of_ne hk]
    have hne : c ≠ b := fun h => hk (h ▸ rfl)
    simp [hne]

/-- The invariant reads the bits below the top order only. -/
theorem sound_congr {out : List Block} (h : P.Sound pageMaxOrder windowPages out)
    (hlists : P'.lists = P.lists)
    (hbits : ∀ k, k < pageMaxOrder → ∀ q, P'.bits k q = P.bits k q) :
    P'.Sound pageMaxOrder windowPages out := by
  refine ⟨h.toValid.congr (fun x => ?_) h.orders, fun k hk q hq => ?_⟩
  · rw [Pool.total, Pool.total, Pool.freeLoad, Pool.freeLoad, hlists]
  · have hpair := h.bitsOk k hk q hq
    rw [Pool.PairOk] at hpair ⊢
    rw [hbits k hk, hlists]
    exact hpair

/-- A block that is clear of all free blocks may be taken for one in hand. -/
theorem WellFormed.hand (h : s.WellFormed free []) (hb : b.order ≤ pageMaxOrder)
    (hwin : ∀ x, b.Contains x → x < windowPages) (hclear : ∀ c ∈ blocks free [], Clear c b) :
    (s.pool free).Sound pageMaxOrder windowPages [b] := by
  have htotal : ∀ x, (s.pool free).total pageMaxOrder [b] x =
      (s.pool free).total pageMaxOrder [] x + if b.Contains x then 1 else 0 := by
    intro x
    unfold Pool.total
    rw [load_cons]
    omega
  have hzero : ∀ x, b.Contains x → (s.pool free).total pageMaxOrder [] x = 0 := by
    intro x hx
    by_contra hpos
    obtain ⟨c, hc, hcx⟩ := (mem_memory_blocks (P := s.pool free) x).mpr (Nat.pos_of_ne_zero hpos)
    exact (hclear c hc).1 x ⟨hcx, hx⟩
  refine ⟨⟨fun x => ?_, fun x hx => ?_, fun c hc => ?_⟩, h.sound.bitsOk⟩
  · rw [htotal]
    split_ifs with hx
    · rw [hzero x hx]
    · rw [Nat.add_zero]
      exact h.sound.total_le x
  · rw [htotal] at hx
    split_ifs at hx with hbx
    · exact hwin x hbx
    · rw [Nat.add_zero] at hx
      exact h.sound.bounded x hx
  · rw [List.mem_singleton.mp hc]
    exact hb

/-- The bit of the pair of such a block is clear. -/
theorem WellFormed.bit_hand (h : s.WellFormed free [])
    (hwin : ∀ x, b.Contains x → x < windowPages) (hclear : ∀ c ∈ blocks free [], Clear c b)
    (hb : b.order < pageMaxOrder) : s.mapBit b.order (b.number / 2) = false := by
  have hself : b.number ∉ free b.order := by
    intro hmem
    exact (hclear b (mem_blocks.mpr ⟨hb.le, hmem⟩)).1 b.page ⟨b.contains_page, b.contains_page⟩
  have hother : buddy b.number ∉ free b.order := by
    intro hmem
    exact (hclear ⟨b.order, buddy b.number⟩ (mem_blocks.mpr ⟨hb.le, hmem⟩)).2
      ⟨rfl, hb, buddy_buddy _⟩
  have hin : b.number / 2 * 2 ^ (b.order + 1) < windowPages := by
    refine lt_of_le_of_lt ?_ (hwin b.page b.contains_page)
    rw [Block.page, pow_succ, Nat.mul_comm (2 ^ b.order) 2, ← Nat.mul_assoc]
    exact Nat.mul_le_mul_right _ (Nat.div_mul_le_self _ _)
  have hbit := h.bits b.order hb (b.number / 2) hin
  rw [Bool.eq_false_iff, Ne, hbit]
  unfold buddy at hother
  rintro (⟨hm, -⟩ | ⟨hm, -⟩)
  · split_ifs at hother with heven
    · exact hself (by rwa [show 2 * (b.number / 2) = b.number by omega] at hm)
    · exact hother (by rwa [show 2 * (b.number / 2) = b.number - 1 by omega] at hm)
  · split_ifs at hother with heven
    · exact hother (by rwa [show 2 * (b.number / 2) + 1 = b.number + 1 by omega] at hm)
    · exact hself (by rwa [show 2 * (b.number / 2) + 1 = b.number by omega] at hm)

/-- One block. -/
theorem WellFormed.listBlock (h : s.WellFormed free []) (hb : b.order ≤ pageMaxOrder)
    (hwin : ∀ x, b.Contains x → x < windowPages) (hclear : ∀ c ∈ blocks free [], Clear c b) :
    (s.listBlock b).WellFormed (addBlock free b) [] := by
  have hnum : b.page / 2 ^ b.order = b.number := b.contains_page
  have hpair : b.page / 2 ^ (b.order + 1) = b.number / 2 := by rw [div_two_pow_succ, hnum]
  have hhand := h.hand hb hwin hclear
  have hbit := h.bit_hand hwin hclear
  rw [← blockOf_page b] at hhand
  have hv := hhand.toValid.mono windowPages_le
  have hput := hhand.put fun hk => by rw [hpair]; exact hbit hk
  have hlists := h.rep.toRepLists.push hv fun _ _ => trivial
  rw [hnum] at hlists hput
  rw [hpair] at hput
  have hpool : ((s.listBlock b).pool (addBlock free b)).Sound pageMaxOrder windowPages [] := by
    refine sound_congr hput rfl fun k hk q => ?_
    -- the bit was clear, so setting it is toggling it
    show (s.listBlock b).mapBit k q = _
    rw [PhysMem.listBlock, mapBit_set, page_pair, hpair]
    have hpush : (s.pushNode b.order (blockNode b.order b.number)).mapBit k q = s.mapBit k q := by
      rw [mapBit, mapBit, pushNode_pageMaps]
    rw [hpush]
    by_cases hq : k = b.order ∧ q = b.number / 2
    · obtain ⟨rfl, rfl⟩ := hq
      rw [if_pos ⟨rfl, rfl⟩, Pool.toggle_bits_self]
      show true = !s.mapBit b.order (b.number / 2)
      rw [hbit hk]
      rfl
    · rw [if_neg hq, Pool.toggle_bits_ne _ hq]
      rfl
  have hrep : Rep (fun _ => True) (s.listBlock b) ((s.listBlock b).pool (addBlock free b)) :=
    ⟨⟨hlists.isList, fun _ _ => trivial⟩, fun _ _ _ => rfl⟩
  exact .of_rep hrep hpool

/-- Blocks that are clear of the free ones and of one another, one after the other. -/
theorem WellFormed.listBlocks (h : s.WellFormed free [])
    (horders : ∀ b ∈ bs, b.order ≤ pageMaxOrder)
    (hwin : ∀ b ∈ bs, ∀ x, b.Contains x → x < windowPages)
    (hfree : ∀ b ∈ bs, ∀ c ∈ blocks free [], Clear c b) (hbs : bs.Pairwise Clear) :
    (bs.foldl PhysMem.listBlock s).WellFormed (bs.foldl addBlock free) [] := by
  induction bs generalizing s free with
  | nil => exact h
  | cons b bs ih =>
    obtain ⟨hb, hbs⟩ := List.pairwise_cons.mp hbs
    have hself := List.mem_cons_self (a := b) (l := bs)
    have hnext := h.listBlock (horders b hself) (hwin b hself) (hfree b hself)
    refine ih hnext (fun c hc => horders c (List.mem_cons_of_mem _ hc))
      (fun c hc => hwin c (List.mem_cons_of_mem _ hc)) (fun c hc d hd => ?_) hbs
    rcases (mem_blocks_addBlock (horders b hself)).mp hd with rfl | hd
    · exact hb c hc
    · exact hfree c (List.mem_cons_of_mem _ hc) d hd

/-- The numbers of the blocks of one order, the last one first. -/
def numbers (bs : List Block) (k : Nat) : List Nat :=
  ((bs.filter fun b => b.order = k).map Block.number).reverse

theorem foldl_addBlock : bs.foldl addBlock free = fun k => numbers bs k ++ free k := by
  induction bs generalizing free with
  | nil => rfl
  | cons b bs ih =>
    rw [List.foldl_cons, ih]
    funext k
    rw [addBlock, numbers, numbers, List.filter_cons]
    by_cases hk : b.order = k
    · subst hk
      simp
    · simp [hk, Function.update_of_ne (Ne.symm hk)]

theorem mem_numbers : n ∈ numbers bs k ↔ (⟨k, n⟩ : Block) ∈ bs := by
  simp only [numbers, List.mem_reverse, List.mem_map, List.mem_filter, decide_eq_true_eq]
  constructor
  · rintro ⟨b, ⟨hb, rfl⟩, rfl⟩
    exact hb
  · intro hmem
    exact ⟨_, ⟨hmem, rfl⟩, rfl⟩

end listing

/-! ## Section 3: The Blocks of a Chunk -/

/-- The `n` blocks of order `k` from number `m` on, the last one first. -/
def centralBlocks (k m : Nat) : Nat → List Block
  | 0 => []
  | n + 1 => ⟨k, m + n⟩ :: centralBlocks k m n

/-- The blocks that `Page_MapMemoryChunk` lists for the `n` pages from page `b` on, in its
    order. The first argument bounds the depth of the recursion. -/
def chunkBlocks : Nat → Nat → Nat → List Block
  | 0, _, _ => []
  | f + 1, b, n =>
      if n = 0 then []
      else
        let k := chunkOrder (n * 2 ^ 12)
        chunkBlocks f (floorPage k (b + n)) (b + n - floorPage k (b + n)) ++
          (centralBlocks k ((b + 2 ^ k - 1) / 2 ^ k)
            ((floorPage k (b + n) - ceilPage k b) / 2 ^ k) ++
          chunkBlocks f b (ceilPage k b - b))

/-- The blocks fill the pages from `b` up to `e`, from the top down, and no two of them are to
    be merged. -/
structure Tiles (bs : List Block) (b e : Nat) : Prop where
  orders : ∀ c ∈ bs, c.order ≤ pageMaxOrder
  within : ∀ c ∈ bs, b ≤ c.page ∧ c.page + 2 ^ c.order ≤ e
  cover : ∀ x, b ≤ x → x < e → ∃ c ∈ bs, c.Contains x
  falling : bs.Pairwise fun c d => d.page + 2 ^ d.order ≤ c.page
  noBuddies : bs.Pairwise fun c d => ¬Buddies c d

section tiles

variable {bs cs : List Block} {b c e f k m n x : Nat} {x y : Block} {s : PhysMem}

theorem contains_iff {c : Block} {x : Nat} :
    c.Contains x ↔ c.page ≤ x ∧ x < c.page + 2 ^ c.order := by
  have hpos := Nat.two_pow_pos c.order
  rw [Block.Contains, Block.page, Nat.div_eq_iff hpos]
  omega

theorem Tiles.nil : Tiles [] b b where
  orders := by simp
  within := by simp
  cover x hx hx' := by omega
  falling := .nil
  noBuddies := .nil

/-- The upper blocks are listed first. -/
theorem Tiles.append (h₁ : Tiles bs c e) (h₂ : Tiles cs b c) (hbc : b ≤ c) (hce : c ≤ e)
    (hapart : ∀ x ∈ bs, ∀ y ∈ cs, ¬Buddies x y) : Tiles (bs ++ cs) b e where
  orders x hx := (List.mem_append.mp hx).elim (h₁.orders x) (h₂.orders x)
  within x hx := by
    rcases List.mem_append.mp hx with hx | hx
    · have := h₁.within x hx
      omega
    · have := h₂.within x hx
      omega
  cover x hx hx' := by
    by_cases hxc : x < c
    · obtain ⟨y, hy, hyx⟩ := h₂.cover x hx hxc
      exact ⟨y, List.mem_append_right _ hy, hyx⟩
    · obtain ⟨y, hy, hyx⟩ := h₁.cover x (by omega) hx'
      exact ⟨y, List.mem_append_left _ hy, hyx⟩
  falling := by
    refine List.pairwise_append.mpr ⟨h₁.falling, h₂.falling, fun x hx y hy => ?_⟩
    have hlow := (h₁.within x hx).1
    have hhigh := (h₂.within y hy).2
    omega
  noBuddies := List.pairwise_append.mpr ⟨h₁.noBuddies, h₂.noBuddies, hapart⟩

/-- Buddies are on the same side of a boundary of larger blocks. -/
theorem not_buddies_of_boundary (hdvd : 2 ^ k ∣ c) (hk : x.order < k) (hx : c ≤ x.page)
    (hy : y.page + 2 ^ y.order ≤ c) : ¬Buddies x y := by
  rintro ⟨horder, -, hbuddy⟩
  have hpos := Nat.two_pow_pos x.order
  rw [Block.page] at hx hy
  rw [← horder, ← Nat.succ_mul, Nat.succ_eq_add_one] at hy
  -- the lower one is the even one, so the boundary between them is an odd multiple
  have hle : y.number + 1 ≤ x.number := Nat.le_of_mul_le_mul_right (hy.trans hx) hpos
  have hsucc : y.number + 1 = x.number ∧ x.number % 2 = 1 := by
    unfold buddy at hbuddy
    split_ifs at hbuddy <;> omega
  rw [hsucc.1] at hy
  obtain rfl : x.number * 2 ^ x.order = c := Nat.le_antisymm hy hx
  have hodd : 2 * 2 ^ x.order ∣ x.number * 2 ^ x.order := by
    rw [Nat.mul_comm 2, ← pow_succ]
    exact (Nat.pow_dvd_pow 2 hk).trans hdvd
  have := Nat.dvd_of_mul_dvd_mul_right hpos hodd
  omega

theorem tiles_centralBlocks (hk : k ≤ pageMaxOrder) (hone : k = pageMaxOrder ∨ n ≤ 1) :
    Tiles (centralBlocks k m n) (m * 2 ^ k) ((m + n) * 2 ^ k) := by
  induction n with
  | zero => exact Tiles.nil
  | succ n ih =>
    have hpos := Nat.two_pow_pos k
    have hrest := ih (hone.imp_right fun h => by omega)
    have hsum : (m + (n + 1)) * 2 ^ k = (m + n) * 2 ^ k + 2 ^ k := by
      rw [← Nat.add_assoc, Nat.succ_mul]
    have hfirst : Tiles [⟨k, m + n⟩] ((m + n) * 2 ^ k) ((m + (n + 1)) * 2 ^ k) := by
      refine ⟨by simpa using hk, ?_, fun x hx hx' => ⟨⟨k, m + n⟩, List.mem_singleton_self _, ?_⟩,
        List.pairwise_singleton _ _, List.pairwise_singleton _ _⟩
      · intro c hc
        rw [List.mem_singleton.mp hc, hsum]
        exact ⟨Nat.le_refl _, Nat.le_refl _⟩
      · rw [hsum] at hx'
        exact contains_iff.mpr ⟨hx, hx'⟩
    refine hfirst.append hrest (Nat.mul_le_mul_right _ (Nat.le_add_right m n)) (by omega) ?_
    intro x hx y hy hbuddies
    rw [List.mem_singleton.mp hx] at hbuddies
    rcases hone with htop | hn
    · exact absurd hbuddies.2.1 (by simp [htop])
    · obtain rfl : n = 0 := by omega
      cases hy

theorem order_of_mem_centralBlocks {c : Block} (hc : c ∈ centralBlocks k m n) : c.order = k := by
  induction n with
  | zero => cases hc
  | succ n ih =>
    rcases List.mem_cons.mp hc with rfl | hc
    · rfl
    · exact ih hc

/-- The block size of `n` pages: it fits, and the next one does not unless it is the largest. -/
theorem chunkOrder_pages (hn : 0 < n) (hk : k = chunkOrder (n * 2 ^ 12)) :
    k ≤ pageMaxOrder ∧ 2 ^ k ≤ n ∧ (k = pageMaxOrder ∨ n < 2 ^ (k + 1)) := by
  have hk10 : k ≤ pageMaxOrder := hk ▸ chunkOrder_le _
  refine ⟨hk10, Nat.le_of_mul_le_mul_right (hk ▸ chunkOrder_fits (n * 2 ^ 12) (by omega))
    (by decide), ?_⟩
  by_contra hlarger
  have hlt : k < pageMaxOrder := by omega
  have hnext := le_chunkOrder (n * 2 ^ 12) (i := k + 1) hlt
    (Nat.mul_le_mul_right _ (by omega))
  omega

/-- The block size is below the bound on the skims of the next depth. -/
theorem block_le_depth (hdepth : n < 2 ^ (f + 1) ∨ 11 ≤ f + 1) (hk : k ≤ pageMaxOrder)
    (hfit : 2 ^ k ≤ n) : 2 ^ k ≤ 2 ^ f := by
  refine Nat.pow_le_pow_right (by decide) ?_
  rcases hdepth with hlt | hge
  · exact Nat.lt_succ_iff.mp ((Nat.pow_lt_pow_iff_right (by decide)).mp (lt_of_le_of_lt hfit hlt))
  · exact hk.trans (by unfold pageMaxOrder; omega)

/-- The central blocks end where the top skim begins. -/
theorem central_end (hfit : 2 ^ k ≤ n) :
    ((b + 2 ^ k - 1) / 2 ^ k + (floorPage k (b + n) - ceilPage k b) / 2 ^ k) * 2 ^ k
      = floorPage k (b + n) := by
  have hpos := Nat.two_pow_pos k
  have hcross := ceilPage_le_floorPage (b := b) hfit
  unfold floorPage ceilPage at *
  rw [← Nat.sub_mul, Nat.mul_div_cancel _ hpos, Nat.add_sub_cancel' (Nat.le_of_mul_le_mul_right
    hcross hpos)]

/-- Induction on the depth: a chunk of fewer than `2 ^ f` pages leaves skims of fewer than
    `2 ^ (f - 1)`. -/
theorem tiles_chunkBlocks (hdepth : n < 2 ^ f ∨ 11 ≤ f) :
    Tiles (chunkBlocks f b n) b (b + n) := by
  induction f generalizing b n with
  | zero =>
    obtain rfl : n = 0 := by omega
    exact Tiles.nil
  | succ f ih =>
    rw [chunkBlocks]
    split_ifs with hzero
    · rw [hzero]
      exact Tiles.nil
    obtain ⟨k, hk⟩ : ∃ k, k = chunkOrder (n * 2 ^ 12) := ⟨_, rfl⟩
    rw [← hk]
    obtain ⟨hk10, hfit, hlarge⟩ := chunkOrder_pages (Nat.pos_of_ne_zero hzero) hk
    have hskim := block_le_depth hdepth hk10 hfit
    have hpos := Nat.two_pow_pos k
    have hceil := ceilPage_bounds k b
    have hfloor := floorPage_bounds k (b + n)
    have hcross := ceilPage_le_floorPage (b := b) hfit
    have htop := ih (b := floorPage k (b + n)) (n := b + n - floorPage k (b + n)) (.inl (by omega))
    rw [Nat.add_sub_cancel' hfloor.1] at htop
    have hlow := ih (b := b) (n := ceilPage k b - b) (.inl (by omega))
    rw [Nat.add_sub_cancel' hceil.1] at hlow
    have hcount : (floorPage k (b + n) - ceilPage k b) / 2 ^ k ≤ n / 2 ^ k :=
      Nat.div_le_div_right (by omega)
    have hmid := tiles_centralBlocks (m := (b + 2 ^ k - 1) / 2 ^ k)
      (n := (floorPage k (b + n) - ceilPage k b) / 2 ^ k) hk10 (hlarge.imp_right fun hlt => by
        have : n / 2 ^ k < 2 := (Nat.div_lt_iff_lt_mul hpos).mpr (by rwa [pow_succ'] at hlt)
        omega)
    have hend := central_end (b := b) hfit
    rw [hend] at hmid
    -- the skims are too small for a block of the central order
    have hsmall : ∀ {bs : List Block} {l r : Nat}, Tiles bs l r → r < l + 2 ^ k →
        ∀ c ∈ bs, c.order < k := by
      intro bs l r h hlt c hc
      have hin := h.within c hc
      exact (Nat.pow_lt_pow_iff_right (by decide)).mp (show 2 ^ c.order < 2 ^ k by omega)
    have htop' := hsmall htop (by omega)
    have hlow' := hsmall hlow (by omega)
    refine htop.append (hmid.append hlow hceil.1 hcross ?_) (by omega) hfloor.1 ?_
    · intro x hx y hy hbuddies
      have := hlow' y hy
      rw [← hbuddies.1, order_of_mem_centralBlocks hx] at this
      omega
    · intro x hx y hy
      rcases List.mem_append.mp hy with hy | hy
      · intro hbuddies
        have := htop' x hx
        rw [hbuddies.1, order_of_mem_centralBlocks hy] at this
        omega
      · exact not_buddies_of_boundary (Nat.dvd_mul_left _ _) (htop' x hx) (htop.within x hx).1
          ((hlow.within y hy).2.trans hcross)

/-- The loop over the central blocks lists them. -/
theorem mapBlocks_eq (hlt : (m + n) * 2 ^ k ≤ numPages) :
    mapBlocks (m * 2 ^ k * 2 ^ 12) k n s = (centralBlocks k m n).foldl listBlock s := by
  induction n generalizing s with
  | zero => rfl
  | succ n ih =>
    have hpos := Nat.two_pow_pos k
    have hsum : (m + (n + 1)) * 2 ^ k = (m + n) * 2 ^ k + 2 ^ k := by
      rw [← Nat.add_assoc, Nat.succ_mul]
    have hptr : w32 (m * 2 ^ k * 2 ^ 12 + n * pageSizeAtOrder k) = (m + n) * 2 ^ k * 2 ^ 12 := by
      rw [pageSizeAtOrder_eq, ← Nat.mul_assoc, ← Nat.add_mul, ← Nat.add_mul]
      unfold w32
      unfold numPages at hlt
      omega
    rw [mapBlocks, hptr]
    exact ih (by omega)

/-- What a call does to a chunk inside the window: it lists the blocks of the chunk. -/
theorem pageMapMemoryChunk_eq (hdepth : n < 2 ^ f ∨ 11 ≤ f) (hlow : 0x100 ≤ b)
    (hwin : b + n ≤ windowPages) :
    pageMapMemoryChunk (f + 1) (b * 2 ^ 12) (n * 2 ^ 12) s =
      some ((chunkBlocks f b n).foldl listBlock s) := by
  induction f generalizing b n s with
  | zero =>
    obtain rfl : n = 0 := by omega
    exact pageMapMemoryChunk_dropped (.inl rfl)
  | succ f ih =>
    rw [chunkBlocks]
    split_ifs with hzero
    · exact pageMapMemoryChunk_dropped (.inl (by rw [hzero, Nat.zero_mul]))
    have hwinPages : windowPages = 0x70000 := by decide
    have hnum : numPages = 2 ^ 20 := rfl
    have hclip : w32 (if w64 (b * 2 ^ 12 + n * 2 ^ 12) > 0x100000000 then 0x100000000 - b * 2 ^ 12
        else n * 2 ^ 12) = n * 2 ^ 12 := by
      unfold w32 w64
      rw [if_neg (by omega)]
      omega
    obtain ⟨k, hk⟩ : ∃ k, k = chunkOrder (n * 2 ^ 12) := ⟨_, rfl⟩
    obtain ⟨hk10, hfit, -⟩ := chunkOrder_pages (Nat.pos_of_ne_zero hzero) hk
    have hskim := block_le_depth hdepth hk10 hfit
    have hpos := Nat.two_pow_pos k
    have hceil := ceilPage_bounds k b
    have hfloor := floorPage_bounds k (b + n)
    have hcross := ceilPage_le_floorPage (b := b) hfit
    have hend := central_end (b := b) hfit
    rw [pageMapMemoryChunk_succ (by omega) hlow (by omega) (by omega) (by omega) hclip hk,
      if_neg (by omega), ih (.inl (by omega)) (by omega) (by omega), Option.bind_some,
      ih (.inl (by omega)) hlow (by omega), ← hk, List.foldl_append, List.foldl_append]
    rw [ceilPage, mapBlocks_eq (by rw [← ceilPage, hend]; omega)]

end tiles

/-! ## Section 4: Mapping a Chunk -/

section mapChunk

variable {s : PhysMem} {free : Nat → List Nat} {bs : List Block} {b e base size : Nat}

/-- Blocks that come from the top down are listed in ascending order. -/
theorem Tiles.ascending (h : Tiles bs b e) {k : Nat}
    (hfree : (free k).Pairwise (· < ·) ∧ ∀ n ∈ free k, e ≤ n * 2 ^ k) :
    (numbers bs k ++ free k).Pairwise (· < ·) := by
  have hpos := Nat.two_pow_pos k
  refine List.pairwise_append.mpr ⟨?_, hfree.1, fun m hm n hn => ?_⟩
  · rw [numbers, List.pairwise_reverse, List.pairwise_map]
    refine (h.falling.filter _).imp_of_mem fun {c d} hc hd hle => ?_
    obtain rfl : c.order = k := by simpa using (List.mem_filter.mp hc).2
    have hd : d.order = c.order := by simpa using (List.mem_filter.mp hd).2
    rw [Block.page, Block.page, hd, ← Nat.succ_mul] at hle
    exact Nat.le_of_mul_le_mul_right hle hpos
  · have hin := (h.within _ (mem_numbers.mp hm)).2
    have hle := hfree.2 n hn
    rw [Block.page, ← Nat.succ_mul] at hin
    exact Nat.le_of_mul_le_mul_right (hin.trans hle) hpos

/-- The blocks of a chunk, as the blocks of the lists that they are put on. -/
theorem Tiles.memory_numbers (h : Tiles bs b e) :
    memory (blocks (numbers bs) []) = {x | b ≤ x ∧ x < e} := by
  ext x
  constructor
  · rintro ⟨c, hc, hx⟩
    have hin := h.within c (mem_numbers.mp (mem_blocks.mp hc).2)
    have hx := contains_iff.mp hx
    exact ⟨by omega, by omega⟩
  · rintro ⟨hx, hx'⟩
    obtain ⟨c, hc, hcx⟩ := h.cover x hx hx'
    exact ⟨c, mem_blocks.mpr ⟨h.orders c hc, mem_numbers.mpr hc⟩, hcx⟩

/-- Adding to the lists leaves what is added disjoint. -/
theorem apart_left {added : Nat → List Nat}
    (h : Apart (blocks (fun k => added k ++ free k) [])) : Apart (blocks added []) := by
  rw [apart_iff_load_le_one] at h ⊢
  refine fun x => le_trans ?_ (h x)
  rw [blocks, blocks, Pool.load_blocks, Pool.load_blocks]
  refine Nat.add_le_add_right (Finset.sum_le_sum fun k _ => ?_) _
  rw [List.count_append]
  exact Nat.le_add_right _ _

/-- A chunk of whole pages in the window, away from the free memory of a well-formed state. The
    call comes to its end and the state is well formed again; what it adds tiles the chunk,
    with no two blocks left to be merged, and in ascending order where the rest is. -/
theorem pageMapMemoryChunk_wellFormed (h : s.WellFormed free [])
    (haligned : 2 ^ 12 ∣ base ∧ 2 ^ 12 ∣ size) (hpos : 0 < size) (hlow : 0x100000 ≤ base)
    (hhigh : base + size ≤ 0x70000000)
    (hclear : ∀ x ∈ memory (blocks free []),
      x * 2 ^ 12 + 2 ^ 12 < base ∨ base + size < x * 2 ^ 12) :
    ∃ s' added, pageMapMemoryChunk chunkDepth base size s = some s' ∧
      s'.WellFormed (fun k => added k ++ free k) [] ∧
      (∀ k, pageMaxOrder < k → added k = []) ∧
      Apart (blocks added []) ∧
      memory (blocks added []) = {x | base ≤ x * 2 ^ 12 ∧ x * 2 ^ 12 < base + size} ∧
      (∀ k, k < pageMaxOrder → ∀ q, ¬(2 * q ∈ added k ∧ 2 * q + 1 ∈ added k)) ∧
      ((∀ k, k ≤ pageMaxOrder → (free k).Pairwise (· < ·) ∧
          ∀ n ∈ free k, base + size ≤ n * 2 ^ k * 2 ^ 12) →
        ∀ k, k ≤ pageMaxOrder → (added k ++ free k).Pairwise (· < ·)) := by
  obtain ⟨⟨b, rfl⟩, n, rfl⟩ := haligned
  rw [Nat.mul_comm (2 ^ 12) b, Nat.mul_comm (2 ^ 12) n] at *
  have hwin : windowPages = 0x70000 := by decide
  have htiles := tiles_chunkBlocks (f := 11) (b := b) (n := n) (.inr (Nat.le_refl 11))
  have hcall := pageMapMemoryChunk_eq (f := 11) (b := b) (n := n) (s := s) (.inr (Nat.le_refl 11))
    (by omega) (by omega)
  generalize chunkBlocks 11 b n = bs at htiles hcall
  -- a free block is neither in the chunk nor next to it
  have hfree : ∀ c ∈ bs, ∀ d ∈ blocks free [], Clear d c := by
    intro c hc d hd
    have hin := htiles.within c hc
    have haway : ∀ x, d.Contains x → x + 1 < b ∨ b + n < x := fun x hx => by
      have := hclear x ⟨d, hd, hx⟩
      omega
    refine ⟨fun x hx => ?_, fun hbuddies => ?_⟩
    · obtain ⟨hdx, hcx⟩ := hx
      have := haway x hdx
      have := contains_iff.mp hcx
      omega
    · obtain ⟨horder, -, hbuddy⟩ := hbuddies
      have hfirst := haway d.page d.contains_page
      have hpow := Nat.two_pow_pos d.order
      have hlast := haway (d.page + (2 ^ d.order - 1)) (contains_iff.mpr ⟨by omega, by omega⟩)
      -- the two are next to each other
      have hnext : d.page + 2 ^ d.order = c.page ∨ c.page + 2 ^ c.order = d.page := by
        rw [Block.page, Block.page, ← horder, ← hbuddy, ← Nat.succ_mul, ← Nat.succ_mul]
        unfold buddy
        split_ifs with heven
        · exact .inl rfl
        · refine .inr (congrArg (· * 2 ^ d.order) ?_)
          omega
      rw [← horder] at hin hnext
      generalize 2 ^ d.order = width at *
      omega
  have hbs : bs.Pairwise Clear := by
    refine (htiles.falling.and htiles.noBuddies).imp fun {c d} hcd => ⟨fun x hx => ?_, hcd.2⟩
    have hle := hcd.1
    have hc := contains_iff.mp hx.1
    have hd := contains_iff.mp hx.2
    omega
  have hwf := h.listBlocks htiles.orders (fun c hc x hx => by
    have hin := htiles.within c hc
    have hx := contains_iff.mp hx
    omega) hfree hbs
  rw [foldl_addBlock] at hwf
  refine ⟨_, numbers bs, hcall, hwf, fun k hk => ?_, apart_left hwf.apart, ?_, ?_,
    fun hasc k hk => ?_⟩
  · refine List.eq_nil_iff_forall_not_mem.mpr fun m hm => ?_
    have := htiles.orders _ (mem_numbers.mp hm)
    dsimp only at this
    omega
  · rw [htiles.memory_numbers]
    ext x
    show b ≤ x ∧ x < b + n ↔ b * 2 ^ 12 ≤ x * 2 ^ 12 ∧ x * 2 ^ 12 < b * 2 ^ 12 + n * 2 ^ 12
    omega
  · rintro k hk q ⟨hq, hq'⟩
    exact hwf.notBoth k hk q ⟨List.mem_append_left _ hq, List.mem_append_left _ hq'⟩
  · refine htiles.ascending ⟨(hasc k hk).1, fun m hm => ?_⟩
    have := (hasc k hk).2 m hm
    omega

/-- Three pages above eight that are free. -/
theorem pageMapMemoryChunk_wellFormed_eightPages :
    ∃ s' free', pageMapMemoryChunk chunkDepth 0x109000 0x3000 eightPages.mem = some s' ∧
      s'.WellFormed free' [] := by
  obtain ⟨free, out, hheld, hwf, hmem⟩ := eightPages_wellFormed
  obtain rfl : out = [] := List.map_eq_nil_iff.mp hheld.symm
  have haligned : 2 ^ 12 ∣ 0x109000 ∧ 2 ^ 12 ∣ 0x3000 := ⟨by decide, by decide⟩
  obtain ⟨s', added, hcall, hwf', -⟩ := pageMapMemoryChunk_wellFormed hwf haligned (by decide)
    (by decide) (by decide) fun x hx => by
      rw [hmem] at hx
      have hx : x / 2 ^ 3 = 0x20 := hx
      omega
  exact ⟨s', _, hcall, hwf'⟩

end mapChunk

end PhysMem

end Avos
