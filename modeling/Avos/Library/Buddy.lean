import Mathlib.Algebra.Order.BigOperators.Group.Finset
import Mathlib.Data.Finset.Range
import Mathlib.Tactic.Common

/-! # The Binary Buddy System

  Memory is a line of unit pages `0, 1, 2, …`. A block of order `k` is one of
  the aligned runs of `2 ^ k` pages; it is named by its order and its number, so
  that a misaligned block cannot be written down. The block of order `k + 1`
  with number `n` is the union of the two buddies `2 * n` and `2 * n + 1` of
  order `k`.

  A `Pool` keeps one list of free blocks per order `0, …, top` and one bit per
  pair of buddies. `acquire` takes the first free block of the smallest
  sufficient order and splits it down; `release` merges upwards for as long as
  the bit of the pair is set.

  Section 1 counts how many blocks contain a page: blocks are pairwise disjoint
  when that load is at most one, and every edit of the pool keeps the load.
  Section 2 is the pool, Section 3 the effect of one split, merge, take and put,
  Section 4 the two operations, Section 5 the law that a release undoes the
  acquire before it.
-/

namespace Buddy

/-! ## Section 1: Blocks -/

/-- An aligned run of `2 ^ order` pages. -/
structure Block where
  order : Nat
  number : Nat
  deriving DecidableEq, Repr

/-- Page `x` lies in block `b`. -/
def Block.Contains (b : Block) (x : Nat) : Prop := x / 2 ^ b.order = b.number

instance (b : Block) (x : Nat) : Decidable (b.Contains x) :=
  inferInstanceAs (Decidable (_ = _))

/-- The first page of a block. -/
def Block.page (b : Block) : Nat := b.number * 2 ^ b.order

theorem Block.contains_page (b : Block) : b.Contains b.page := by
  exact Nat.mul_div_cancel _ (Nat.two_pow_pos _)

/-- The number of the other half of a pair. -/
def buddy (n : Nat) : Nat := if n % 2 = 0 then n + 1 else n - 1

theorem buddy_buddy (n : Nat) : buddy (buddy n) = n := by
  unfold buddy; split <;> split <;> omega

theorem buddy_div_two (n : Nat) : buddy n / 2 = n / 2 := by
  unfold buddy; split <;> omega

/-- A memory of whole pairs holds the other half of each block it holds. -/
theorem buddy_mul_lt {p k M : Nat} (hM : 2 ^ (k + 1) ∣ M) (hp : p < M) :
    buddy (p / 2 ^ k) * 2 ^ k < M := by
  obtain ⟨c, rfl⟩ := hM
  rw [show 2 ^ (k + 1) * c = (2 * c) * 2 ^ k by
    rw [pow_succ, Nat.mul_assoc, Nat.mul_comm (2 ^ k)]] at *
  have hlt : p / 2 ^ k < 2 * c := (Nat.div_lt_iff_lt_mul (Nat.two_pow_pos k)).mpr hp
  refine Nat.mul_lt_mul_of_pos_right ?_ (Nat.two_pow_pos k)
  generalize p / 2 ^ k = q at hlt ⊢
  unfold buddy
  split_ifs <;> omega

/-- The blocks of a list are pairwise disjoint. -/
def Apart (bs : List Block) : Prop :=
  bs.Pairwise (fun b c => ∀ x, ¬ (b.Contains x ∧ c.Contains x))

/-- The pages that some block of the list contains. -/
def memory (bs : List Block) : Set Nat := {x | ∃ b ∈ bs, b.Contains x}

/-- How many blocks of the list contain page `x`. -/
def load (bs : List Block) (x : Nat) : Nat := bs.countP (fun b => b.Contains x)

@[simp] theorem load_nil (x : Nat) : load [] x = 0 := rfl

theorem load_cons (b : Block) (bs : List Block) (x : Nat) :
    load (b :: bs) x = load bs x + if b.Contains x then 1 else 0 := by
  simp [load, List.countP_cons]

theorem load_append (bs cs : List Block) (x : Nat) :
    load (bs ++ cs) x = load bs x + load cs x := by
  simp [load]

theorem load_perm {bs cs : List Block} (h : bs.Perm cs) (x : Nat) : load bs x = load cs x :=
  h.countP_eq _

theorem mem_memory_iff (bs : List Block) (x : Nat) : x ∈ memory bs ↔ 0 < load bs x := by
  simp [memory, load, List.countP_pos_iff]

theorem load_pos_of_mem {bs : List Block} {b : Block} {x : Nat} (hb : b ∈ bs)
    (hx : b.Contains x) : 0 < load bs x :=
  (mem_memory_iff bs x).mp ⟨b, hb, hx⟩

/-- Blocks are pairwise disjoint exactly when no page lies in two of them. -/
theorem apart_iff_load_le_one (bs : List Block) : Apart bs ↔ ∀ x, load bs x ≤ 1 := by
  induction bs with
  | nil => simp [Apart]
  | cons b bs ih =>
    have hsplit : Apart (b :: bs) ↔
        (∀ c ∈ bs, ∀ x, ¬ (b.Contains x ∧ c.Contains x)) ∧ Apart bs := List.pairwise_cons
    rw [hsplit, ih]
    constructor
    · rintro ⟨hb, hbs⟩ x
      rw [load_cons]
      by_cases hx : b.Contains x
      · have hzero : load bs x = 0 := by
          by_contra hpos
          obtain ⟨c, hc, hcx⟩ := (mem_memory_iff bs x).mpr (Nat.pos_of_ne_zero hpos)
          exact hb c hc x ⟨hx, hcx⟩
        simp [hx, hzero]
      · simpa [hx] using hbs x
    · intro h
      refine ⟨fun c hc x hx => ?_, fun x => ?_⟩
      · have hpos := load_pos_of_mem hc hx.2
        have hle := h x
        rw [load_cons, if_pos hx.1] at hle
        omega
      · have hle := h x
        rw [load_cons] at hle
        omega

/-! ## Section 2: Pools -/

/-- Free blocks by order, and one bit for each pair of buddies of each order. -/
structure Pool where
  lists : Nat → List Nat
  bits : Nat → Nat → Bool

namespace Pool

@[ext] theorem ext' {P Q : Pool} (hl : P.lists = Q.lists) (hb : P.bits = Q.bits) : P = Q := by
  cases P; cases Q; simp_all

/-- Replace the list of order `k`. -/
def setList (P : Pool) (k : Nat) (l : List Nat) : Pool :=
  { P with lists := Function.update P.lists k l }

/-- Put block `n` at the front of the list of order `k`. -/
def push (P : Pool) (k n : Nat) : Pool := P.setList k (n :: P.lists k)

/-- Take block `n` out of the list of order `k`. -/
def remove (P : Pool) (k n : Nat) : Pool := P.setList k ((P.lists k).erase n)

/-- Toggle the bit of pair `q` of order `k`. -/
def toggle (P : Pool) (k q : Nat) : Pool :=
  { P with bits := fun k' q' => if k' = k ∧ q' = q then !P.bits k' q' else P.bits k' q' }

@[simp] theorem setList_lists_self (P : Pool) (k : Nat) (l : List Nat) :
    (P.setList k l).lists k = l := by simp [setList]

theorem setList_lists_ne (P : Pool) {k j : Nat} (l : List Nat) (h : j ≠ k) :
    (P.setList k l).lists j = P.lists j := by simp [setList, h]

@[simp] theorem setList_bits (P : Pool) (k : Nat) (l : List Nat) :
    (P.setList k l).bits = P.bits := rfl

@[simp] theorem toggle_lists (P : Pool) (k q : Nat) : (P.toggle k q).lists = P.lists := rfl

@[simp] theorem toggle_bits_self (P : Pool) (k q : Nat) :
    (P.toggle k q).bits k q = !P.bits k q := by simp [toggle]

theorem toggle_bits_ne (P : Pool) {k q k' q' : Nat} (h : ¬ (k' = k ∧ q' = q)) :
    (P.toggle k q).bits k' q' = P.bits k' q' := by simp [toggle, h]

@[simp] theorem push_bits (P : Pool) (k n : Nat) : (P.push k n).bits = P.bits := rfl

@[simp] theorem remove_bits (P : Pool) (k n : Nat) : (P.remove k n).bits = P.bits := rfl

@[simp] theorem toggle_toggle (P : Pool) (k q : Nat) : (P.toggle k q).toggle k q = P := by
  ext1
  · rfl
  · funext k' q'
    by_cases h : k' = k ∧ q' = q <;> simp [toggle, h]

/-- The free blocks, then the ones handed out. -/
def blocks (top : Nat) (P : Pool) (out : List Block) : List Block :=
  (List.range (top + 1)).flatMap (fun k => (P.lists k).map (Block.mk k)) ++ out

/-- How many free blocks contain page `x`. -/
def freeLoad (top : Nat) (P : Pool) (x : Nat) : Nat :=
  ∑ k ∈ Finset.range (top + 1), (P.lists k).count (x / 2 ^ k)

theorem load_map_mk (k : Nat) (l : List Nat) (x : Nat) :
    load (l.map (Block.mk k)) x = l.count (x / 2 ^ k) := by
  induction l with
  | nil => rfl
  | cons n l ih =>
    rw [List.map_cons, load_cons, ih, List.count_cons]
    by_cases h : n = x / 2 ^ k
    · simp [Block.Contains, h]
    · simp [Block.Contains, h, Ne.symm h]

theorem load_blocks (top : Nat) (P : Pool) (out : List Block) (x : Nat) :
    load (P.blocks top out) x = P.freeLoad top x + load out x := by
  rw [blocks, load_append]
  congr 1
  unfold freeLoad
  induction top with
  | zero => simp [load_map_mk]
  | succ top ih =>
    rw [List.range_succ, List.flatMap_append, load_append, ih, Finset.sum_range_succ _ (top + 1)]
    simp [load_map_mk]

theorem freeLoad_toggle (top : Nat) (P : Pool) (k q x : Nat) :
    (P.toggle k q).freeLoad top x = P.freeLoad top x := rfl

theorem freeLoad_setList {top : Nat} (P : Pool) {k : Nat} (hk : k ≤ top) (l : List Nat) (x : Nat) :
    (P.setList k l).freeLoad top x + (P.lists k).count (x / 2 ^ k)
      = P.freeLoad top x + l.count (x / 2 ^ k) := by
  have hmem : k ∈ Finset.range (top + 1) := Finset.mem_range.mpr (by omega)
  have hrest : ∑ j ∈ (Finset.range (top + 1)).erase k, ((P.setList k l).lists j).count (x / 2 ^ j)
      = ∑ j ∈ (Finset.range (top + 1)).erase k, (P.lists j).count (x / 2 ^ j) := by
    refine Finset.sum_congr rfl (fun j hj => ?_)
    rw [P.setList_lists_ne l (Finset.ne_of_mem_erase hj)]
  unfold freeLoad
  rw [← Finset.add_sum_erase _ _ hmem, ← Finset.add_sum_erase _ _ hmem, hrest, setList_lists_self]
  omega

theorem freeLoad_push {top : Nat} (P : Pool) {k : Nat} (hk : k ≤ top) (n x : Nat) :
    (P.push k n).freeLoad top x = P.freeLoad top x + if x / 2 ^ k = n then 1 else 0 := by
  have h := P.freeLoad_setList hk (n :: P.lists k) x
  rw [List.count_cons] at h
  simp only [beq_iff_eq, eq_comm (a := n)] at h
  unfold push
  omega

theorem freeLoad_remove {top : Nat} (P : Pool) {k : Nat} (hk : k ≤ top) {n : Nat}
    (hn : n ∈ P.lists k) (x : Nat) :
    (P.remove k n).freeLoad top x + (if x / 2 ^ k = n then 1 else 0) = P.freeLoad top x := by
  have h := P.freeLoad_setList hk ((P.lists k).erase n) x
  have hcount := (List.perm_cons_erase hn).count_eq (x / 2 ^ k)
  rw [List.count_cons] at hcount
  simp only [beq_iff_eq, eq_comm (a := n)] at hcount
  unfold remove
  omega

theorem exists_of_freeLoad_pos {top : Nat} {P : Pool} {x : Nat} (h : 0 < P.freeLoad top x) :
    ∃ k, k ≤ top ∧ x / 2 ^ k ∈ P.lists k := by
  obtain ⟨k, hk, hpos⟩ := Finset.sum_pos_iff.mp h
  exact ⟨k, Nat.lt_succ_iff.mp (Finset.mem_range.mp hk), List.count_pos_iff.mp hpos⟩

theorem count_le_freeLoad {top : Nat} (P : Pool) {k : Nat} (hk : k ≤ top) (x : Nat) :
    (P.lists k).count (x / 2 ^ k) ≤ P.freeLoad top x :=
  Finset.single_le_sum_of_canonicallyOrdered (f := fun k => (P.lists k).count (x / 2 ^ k))
    (Finset.mem_range.mpr (by omega))

end Pool

/-! ## Section 3: One split, merge, take or put

  A block that is being split or merged is held in hand: it stands at the front
  of the blocks handed out. The block in hand is `⟨k, p / 2 ^ k⟩`, the block of
  order `k` that contains page `p`. -/

theorem div_two_pow_succ (x k : Nat) : x / 2 ^ (k + 1) = x / 2 ^ k / 2 := by
  rw [pow_succ, Nat.div_div_eq_div_mul]

/-- The block of order `k` that contains page `p`. -/
def blockOf (k p : Nat) : Block := ⟨k, p / 2 ^ k⟩

@[simp] theorem blockOf_order (k p : Nat) : (blockOf k p).order = k := rfl

@[simp] theorem blockOf_number (k p : Nat) : (blockOf k p).number = p / 2 ^ k := rfl

theorem blockOf_contains (k p x : Nat) : (blockOf k p).Contains x ↔ x / 2 ^ k = p / 2 ^ k := Iff.rfl

theorem blockOf_page (b : Block) : blockOf b.order b.page = b := by
  cases b
  simp [blockOf, Block.page, Nat.mul_div_cancel _ (Nat.two_pow_pos _)]

namespace Pool

variable {top M : Nat}

/-- How many blocks, free or handed out, contain page `x`. -/
def total (top : Nat) (P : Pool) (out : List Block) (x : Nat) : Nat :=
  P.freeLoad top x + load out x

/-- The blocks, free and handed out, are pairwise disjoint runs of the pages
    below `M`, of order at most `top`. -/
structure Valid (top M : Nat) (P : Pool) (out : List Block) : Prop where
  total_le : ∀ x, P.total top out x ≤ 1
  bounded : ∀ x, 0 < P.total top out x → x < M
  orders : ∀ b ∈ out, b.order ≤ top

/-- The bit of a pair is set exactly when one of the two buddies is free, and
    they are not both free. -/
def PairOk (P : Pool) (k q : Nat) : Prop :=
  (P.bits k q = true ↔ Xor (2 * q ∈ P.lists k) (2 * q + 1 ∈ P.lists k)) ∧
  ¬ (2 * q ∈ P.lists k ∧ 2 * q + 1 ∈ P.lists k)

/-- Every pair below the top order that lies in the memory is in order. -/
def BitsOk (top M : Nat) (P : Pool) : Prop :=
  ∀ k, k < top → ∀ q, q * 2 ^ (k + 1) < M → P.PairOk k q

/-- The invariant of the buddy system. -/
structure Sound (top M : Nat) (P : Pool) (out : List Block) : Prop extends
    Valid top M P out where
  bitsOk : P.BitsOk top M

theorem Valid.congr {P P' : Pool} {out out' : List Block} (h : P.Valid top M out)
    (htotal : ∀ x, P'.total top out' x = P.total top out x)
    (horders : ∀ b ∈ out', b.order ≤ top) : P'.Valid top M out' where
  total_le x := htotal x ▸ h.total_le x
  bounded x hx := h.bounded x (htotal x ▸ hx)
  orders := horders

theorem Valid.mono {P : Pool} {out : List Block} {M' : Nat} (h : P.Valid top M out)
    (hM : M ≤ M') : P.Valid top M' out :=
  ⟨h.total_le, fun x hx => lt_of_lt_of_le (h.bounded x hx) hM, h.orders⟩

theorem total_perm {P : Pool} {out out' : List Block} (h : out.Perm out') (x : Nat) :
    P.total top out x = P.total top out' x := by
  unfold total; rw [load_perm h]

theorem Valid.perm {P : Pool} {out out' : List Block} (h : P.Valid top M out)
    (hp : out.Perm out') : P.Valid top M out' :=
  h.congr (fun x => (total_perm hp x).symm) (fun b hb => h.orders b (hp.mem_iff.mpr hb))

theorem Sound.perm {P : Pool} {out out' : List Block} (h : P.Sound top M out)
    (hp : out.Perm out') : P.Sound top M out' :=
  ⟨h.toValid.perm hp, h.bitsOk⟩

section facts

variable {P : Pool} {out : List Block} {b : Block} {k p x : Nat}

/-- A free block contains no page of a block in hand. -/
theorem Valid.not_mem_of_hand (h : P.Valid top M (b :: out)) (hk : k ≤ top)
    (hx : b.Contains x) : x / 2 ^ k ∉ P.lists k := by
  intro hmem
  have hle := h.total_le x
  have hcount := P.count_le_freeLoad hk x
  have hpos : 0 < (P.lists k).count (x / 2 ^ k) := List.count_pos_iff.mpr hmem
  unfold total at hle
  rw [load_cons, if_pos hx] at hle
  omega

theorem Valid.hand_lt (h : P.Valid top M (b :: out)) (hx : b.Contains x) : x < M := by
  apply h.bounded
  unfold total
  rw [load_cons, if_pos hx]
  omega

theorem Valid.free_lt (h : P.Valid top M out) (hk : k ≤ top) (hx : x / 2 ^ k ∈ P.lists k) :
    x < M := by
  apply h.bounded
  have hcount := P.count_le_freeLoad hk x
  have hpos : 0 < (P.lists k).count (x / 2 ^ k) := List.count_pos_iff.mpr hx
  unfold total
  omega

theorem Valid.nodup (h : P.Valid top M out) (hk : k ≤ top) : (P.lists k).Nodup := by
  rw [List.nodup_iff_count_le_one]
  intro n
  have hle := h.total_le (n * 2 ^ k)
  have hcount := P.count_le_freeLoad hk (n * 2 ^ k)
  rw [Nat.mul_div_cancel _ (Nat.two_pow_pos k)] at hcount
  unfold total at hle
  omega

/-- Free blocks of different lists share no page. -/
theorem Valid.lists_disjoint (h : P.Valid top M out) {j : Nat} (hk : k ≤ top) (hj : j ≤ top)
    (hkj : k ≠ j) (hx : x / 2 ^ k ∈ P.lists k) : x / 2 ^ j ∉ P.lists j := by
  intro hx'
  have hle := h.total_le x
  have hpair := Finset.add_le_sum (f := fun i => (P.lists i).count (x / 2 ^ i))
    (s := Finset.range (top + 1)) (fun _ _ => Nat.zero_le _)
    (Finset.mem_range.mpr (by omega)) (Finset.mem_range.mpr (by omega)) hkj
  have h1 : 0 < (P.lists k).count (x / 2 ^ k) := List.count_pos_iff.mpr hx
  have h2 : 0 < (P.lists j).count (x / 2 ^ j) := List.count_pos_iff.mpr hx'
  unfold total freeLoad at hle
  omega

end facts

/-! ### Loads -/

section loads

variable {P : Pool} {out : List Block} {k n p : Nat} {l : List Nat}

theorem total_take (hk : k ≤ top) (hl : P.lists k = n :: l) (q x : Nat) :
    ((P.setList k l).toggle k q).total top (⟨k, n⟩ :: out) x = P.total top out x := by
  have h := P.freeLoad_setList hk l x
  rw [hl, List.count_cons] at h
  unfold total
  rw [freeLoad_toggle, load_cons]
  by_cases hx : x / 2 ^ k = n
  · simp only [Block.Contains, hx, beq_self_eq_true, if_true] at h ⊢
    omega
  · simp only [Block.Contains, hx, beq_iff_eq, Ne.symm hx, if_false] at h ⊢
    omega

theorem total_put (hk : k ≤ top) (q x : Nat) :
    ((P.push k (p / 2 ^ k)).toggle k q).total top out x
      = P.total top (blockOf k p :: out) x := by
  unfold total
  rw [freeLoad_toggle, P.freeLoad_push hk, load_cons]
  simp only [blockOf_contains]
  omega

theorem total_split (hk : k + 1 ≤ top) (hp : 2 ^ (k + 1) ∣ p) (q x : Nat) :
    ((P.push k (p / 2 ^ k + 1)).toggle k q).total top (blockOf k p :: out) x
      = P.total top (blockOf (k + 1) p :: out) x := by
  obtain ⟨m, rfl⟩ := hp
  have heven : 2 ^ (k + 1) * m / 2 ^ k = 2 * m := by
    rw [pow_succ, Nat.mul_assoc, Nat.mul_div_cancel_left _ (Nat.two_pow_pos k)]
  unfold total
  rw [freeLoad_toggle, P.freeLoad_push (by omega), load_cons, load_cons]
  simp only [blockOf_contains, div_two_pow_succ, heven]
  split_ifs <;> omega

theorem total_merge (hk : k + 1 ≤ top) (hb : buddy (p / 2 ^ k) ∈ P.lists k) (q x : Nat) :
    ((P.remove k (buddy (p / 2 ^ k))).toggle k q).total top (blockOf (k + 1) p :: out) x
      = P.total top (blockOf k p :: out) x := by
  have h : _ = P.freeLoad top x := P.freeLoad_remove (by omega) hb x
  unfold total
  rw [freeLoad_toggle, load_cons, load_cons]
  simp only [blockOf_contains, div_two_pow_succ]
  generalize x / 2 ^ k = y at *
  generalize p / 2 ^ k = m at *
  unfold buddy at h ⊢
  split_ifs at h ⊢ <;> omega

end loads

/-! ### Bits -/

section bits

variable {P P' : Pool} {out : List Block} {k p : Nat} {l : List Nat}

/-- An edit of one pair keeps all other pairs in order. -/
theorem BitsOk.edit {r : Nat} (h : P.BitsOk top M)
    (hlists : ∀ j, j ≠ k → P'.lists j = P.lists j)
    (hother : ∀ n, n / 2 ≠ r → (n ∈ P'.lists k ↔ n ∈ P.lists k))
    (hbits : ∀ j q, ¬ (j = k ∧ q = r) → P'.bits j q = P.bits j q)
    (hpair : k < top → r * 2 ^ (k + 1) < M → P'.PairOk k r) : P'.BitsOk top M := by
  intro j hj q hq
  by_cases hjk : j = k
  · subst hjk
    by_cases hr : q = r
    · subst hr
      exact hpair hj hq
    · have h0 := hother (2 * q) (by omega)
      have h1 := hother (2 * q + 1) (by omega)
      unfold PairOk
      rw [hbits j q (fun hc => hr hc.2), h0, h1]
      exact h j hj q hq
  · unfold PairOk
    rw [hbits j q (fun hc => hjk hc.1), hlists j hjk]
    exact h j hj q hq

theorem PairOk.bit_false (h : P.PairOk k (p / 2 ^ (k + 1)))
    (h0 : 2 * (p / 2 ^ (k + 1)) ∉ P.lists k) (h1 : 2 * (p / 2 ^ (k + 1)) + 1 ∉ P.lists k) :
    P.bits k (p / 2 ^ (k + 1)) = false := by
  rw [Bool.eq_false_iff]
  intro hbit
  rcases h.1.mp hbit with ⟨hm, _⟩ | ⟨hm, _⟩
  · exact h0 hm
  · exact h1 hm

/-- Neither half of a block in hand is free, so the bit of the pair is clear. -/
theorem Sound.halves_of_hand (h : P.Sound top M (blockOf (k + 1) p :: out)) (hk : k + 1 ≤ top)
    (hp : 2 ^ (k + 1) ∣ p) :
    p / 2 ^ k = 2 * (p / 2 ^ (k + 1)) ∧ p / 2 ^ k ∉ P.lists k ∧ p / 2 ^ k + 1 ∉ P.lists k ∧
      P.bits k (p / 2 ^ (k + 1)) = false := by
  obtain ⟨m, rfl⟩ := hp
  have hpos : 0 < 2 ^ k := Nat.two_pow_pos k
  have heven : 2 ^ (k + 1) * m / 2 ^ k = 2 * m := by
    rw [pow_succ, Nat.mul_assoc, Nat.mul_div_cancel_left _ hpos]
  have hhalf : 2 ^ (k + 1) * m / 2 ^ (k + 1) = m := Nat.mul_div_cancel_left _ (Nat.two_pow_pos _)
  have hupper : (2 * m + 1) * 2 ^ k / 2 ^ k = 2 * m + 1 := Nat.mul_div_cancel _ hpos
  have h0 : 2 * m ∉ P.lists k := by
    have := h.toValid.not_mem_of_hand (k := k) (x := 2 ^ (k + 1) * m) (by omega) rfl
    rwa [heven] at this
  have h1 : 2 * m + 1 ∉ P.lists k := by
    have hx : (blockOf (k + 1) (2 ^ (k + 1) * m)).Contains ((2 * m + 1) * 2 ^ k) := by
      rw [blockOf_contains, div_two_pow_succ, hupper, hhalf]; omega
    have := h.toValid.not_mem_of_hand (k := k) (by omega) hx
    rwa [hupper] at this
  have hin : m * 2 ^ (k + 1) < M := by
    have := h.toValid.hand_lt (x := 2 ^ (k + 1) * m) rfl
    rwa [Nat.mul_comm] at this
  have hbit := (h.bitsOk k (by omega) (2 ^ (k + 1) * m / 2 ^ (k + 1))
    (by rwa [hhalf])).bit_false (by rwa [hhalf]) (by rwa [hhalf])
  rw [heven, hhalf] at *
  exact ⟨rfl, h0, h1, hbit⟩

/-- The buddy of a block in hand is free when the bit of their pair is set. -/
theorem Sound.buddy_free (h : P.Sound top M (blockOf k p :: out)) (hk : k < top)
    (hbit : P.bits k (p / 2 ^ (k + 1)) = true) : buddy (p / 2 ^ k) ∈ P.lists k := by
  have hnot : p / 2 ^ k ∉ P.lists k := h.toValid.not_mem_of_hand (by omega) rfl
  have hin : p / 2 ^ (k + 1) * 2 ^ (k + 1) < M :=
    lt_of_le_of_lt (Nat.div_mul_le_self _ _) (h.toValid.hand_lt rfl)
  have hxor := (h.bitsOk k hk _ hin).1.mp hbit
  rw [div_two_pow_succ] at hxor
  unfold buddy
  split_ifs with heven
  · have heq : 2 * (p / 2 ^ k / 2) = p / 2 ^ k := by omega
    rw [heq] at hxor
    rcases hxor with ⟨hm, _⟩ | ⟨hm, _⟩
    · exact absurd hm hnot
    · exact hm
  · have heq : 2 * (p / 2 ^ k / 2) + 1 = p / 2 ^ k := by omega
    rw [heq] at hxor
    rcases hxor with ⟨hm, _⟩ | ⟨hm, _⟩
    · rwa [show p / 2 ^ k - 1 = 2 * (p / 2 ^ k / 2) by omega]
    · exact absurd hm hnot

/-- The bit of the pair of a free block is set. -/
theorem Sound.bit_of_free {n : Nat} (h : P.Sound top M out) (hk : k < top)
    (hn : n ∈ P.lists k) : P.bits k (n / 2) = true := by
  have hin : n / 2 * 2 ^ (k + 1) < M := by
    have hx : n * 2 ^ k < M :=
      h.toValid.free_lt hk.le (by rwa [Nat.mul_div_cancel _ (Nat.two_pow_pos k)])
    calc n / 2 * 2 ^ (k + 1) = n / 2 * 2 * 2 ^ k := by
          rw [pow_succ, Nat.mul_comm (2 ^ k) 2, Nat.mul_assoc]
      _ ≤ n * 2 ^ k := Nat.mul_le_mul_right _ (Nat.div_mul_le_self n 2)
      _ < M := hx
  obtain ⟨hxor, hboth⟩ := h.bitsOk k hk _ hin
  rcases Nat.mod_two_eq_zero_or_one n with hmod | hmod
  · have heq : 2 * (n / 2) = n := by omega
    rw [heq] at hxor hboth
    exact hxor.mpr (.inl ⟨hn, fun hm => hboth ⟨hn, hm⟩⟩)
  · have heq : 2 * (n / 2) + 1 = n := by omega
    rw [heq] at hxor hboth
    exact hxor.mpr (.inr ⟨hn, fun hm => hboth ⟨hm, hn⟩⟩)

end bits

/-! ### The four edits keep the invariant -/

section edits

variable {P : Pool} {out : List Block} {k n p : Nat} {l : List Nat}

theorem Sound.take (h : P.Sound top M out) (hk : k ≤ top) (hl : P.lists k = n :: l) :
    ((P.setList k l).toggle k (n / 2)).Sound top M (⟨k, n⟩ :: out) := by
  have hnd : n ∉ l := by
    have := h.toValid.nodup hk
    rw [hl] at this
    exact (List.nodup_cons.mp this).1
  refine ⟨h.toValid.congr (total_take hk hl _) ?_, ?_⟩
  · intro b hb
    rcases List.mem_cons.mp hb with rfl | hb
    · exact hk
    · exact h.orders b hb
  · refine h.bitsOk.edit (k := k) (r := n / 2) (fun j hj => P.setList_lists_ne l hj) ?_
      (fun j q hq => (P.setList k l).toggle_bits_ne hq) ?_
    · intro m hm
      have hne : m ≠ n := fun heq => hm (by rw [heq])
      simp [hl, hne]
    · intro htop hin
      obtain ⟨hxor, hboth⟩ := h.bitsOk k htop _ hin
      rw [hl] at hxor hboth
      -- `n` was the free one of its pair; now neither is
      have hnone : 2 * (n / 2) ∉ l ∧ 2 * (n / 2) + 1 ∉ l ∧ P.bits k (n / 2) = true := by
        rcases Nat.mod_two_eq_zero_or_one n with hn | hn
        · have heq : 2 * (n / 2) = n := by omega
          rw [heq] at hxor hboth ⊢
          have h1 : n + 1 ∉ n :: l := fun hm => hboth ⟨by simp, hm⟩
          exact ⟨hnd, fun hm => h1 (List.mem_cons_of_mem _ hm), hxor.mpr (.inl ⟨by simp, h1⟩)⟩
        · have heq : 2 * (n / 2) + 1 = n := by omega
          rw [heq] at hxor hboth ⊢
          have h0 : 2 * (n / 2) ∉ n :: l := fun hm => hboth ⟨hm, by simp⟩
          exact ⟨fun hm => h0 (List.mem_cons_of_mem _ hm), hnd, hxor.mpr (.inr ⟨by simp, h0⟩)⟩
      unfold PairOk
      simp [hnone]

theorem Sound.split (h : P.Sound top M (blockOf (k + 1) p :: out)) (hk : k + 1 ≤ top)
    (hp : 2 ^ (k + 1) ∣ p) :
    ((P.push k (p / 2 ^ k + 1)).toggle k (p / 2 ^ (k + 1))).Sound top M
      (blockOf k p :: out) := by
  obtain ⟨heven, h0, h1, hbit⟩ := h.halves_of_hand hk hp
  refine ⟨h.toValid.congr (total_split hk hp _) ?_, ?_⟩
  · intro b hb
    rcases List.mem_cons.mp hb with rfl | hb
    · exact Nat.le_of_succ_le hk
    · exact h.orders b (List.mem_cons_of_mem _ hb)
  · refine h.bitsOk.edit (k := k) (r := p / 2 ^ (k + 1)) (fun j hj => P.setList_lists_ne _ hj) ?_
      (fun j q hq => (P.push k _).toggle_bits_ne hq) ?_
    · intro m hm
      have hne : m ≠ p / 2 ^ k + 1 := by rw [heven]; omega
      simp [push, hne]
    · intro _ _
      rw [heven] at h0 h1
      unfold PairOk
      simp [push, heven, h0, h1, hbit, xor_def]

theorem Sound.merge (h : P.Sound top M (blockOf k p :: out)) (hk : k + 1 ≤ top)
    (hbit : P.bits k (p / 2 ^ (k + 1)) = true) :
    ((P.remove k (buddy (p / 2 ^ k))).toggle k (p / 2 ^ (k + 1))).Sound top M
      (blockOf (k + 1) p :: out) := by
  have hfree := h.buddy_free hk hbit
  have hnot : p / 2 ^ k ∉ P.lists k := h.toValid.not_mem_of_hand (by omega) rfl
  have hnd := h.toValid.nodup (k := k) (by omega)
  refine ⟨h.toValid.congr (total_merge hk hfree _) ?_, ?_⟩
  · intro b hb
    rcases List.mem_cons.mp hb with rfl | hb
    · exact hk
    · exact h.orders b (List.mem_cons_of_mem _ hb)
  · refine h.bitsOk.edit (k := k) (r := p / 2 ^ (k + 1)) (fun j hj => P.setList_lists_ne _ hj) ?_
      (fun j q hq => (P.remove k _).toggle_bits_ne hq) ?_
    · intro m hm
      have hne : m ≠ buddy (p / 2 ^ k) := by
        intro heq
        rw [heq, buddy_div_two, div_two_pow_succ] at hm
        exact hm rfl
      simp [remove, List.mem_erase_of_ne hne]
    · intro _ _
      have hgone : buddy (p / 2 ^ k) ∉ (P.lists k).erase (buddy (p / 2 ^ k)) :=
        hnd.not_mem_erase
      have hnot' : p / 2 ^ k ∉ (P.lists k).erase (buddy (p / 2 ^ k)) :=
        fun hm => hnot (List.mem_of_mem_erase hm)
      have hpair : 2 * (p / 2 ^ (k + 1)) ∉ (P.lists k).erase (buddy (p / 2 ^ k)) ∧
          2 * (p / 2 ^ (k + 1)) + 1 ∉ (P.lists k).erase (buddy (p / 2 ^ k)) := by
        rw [div_two_pow_succ]
        generalize (P.lists k).erase (buddy (p / 2 ^ k)) = l at hgone hnot'
        generalize p / 2 ^ k = m at hgone hnot' ⊢
        unfold buddy at hgone
        split_ifs at hgone with heven
        · rw [show 2 * (m / 2) = m by omega]
          exact ⟨hnot', hgone⟩
        · rw [show 2 * (m / 2) + 1 = m by omega, show 2 * (m / 2) = m - 1 by omega]
          exact ⟨hgone, hnot'⟩
      unfold PairOk
      simp [remove, hpair, hbit]

theorem Sound.put (h : P.Sound top M (blockOf k p :: out))
    (hbit : k < top → P.bits k (p / 2 ^ (k + 1)) = false) :
    ((P.push k (p / 2 ^ k)).toggle k (p / 2 ^ (k + 1))).Sound top M out := by
  have hk : k ≤ top := h.orders _ List.mem_cons_self
  have hnot : p / 2 ^ k ∉ P.lists k := h.toValid.not_mem_of_hand hk rfl
  refine ⟨h.toValid.congr (total_put hk _) (fun b hb => h.orders b (List.mem_cons_of_mem _ hb)), ?_⟩
  refine h.bitsOk.edit (k := k) (r := p / 2 ^ (k + 1)) (fun j hj => P.setList_lists_ne _ hj) ?_
    (fun j q hq => (P.push k _).toggle_bits_ne hq) ?_
  · intro m hm
    have hne : m ≠ p / 2 ^ k := fun heq => hm (by rw [heq, div_two_pow_succ])
    simp [push, hne]
  · intro htop hin
    have hclear := hbit htop
    obtain ⟨hxor, hboth⟩ := h.bitsOk k htop _ hin
    rw [hclear] at hxor
    -- the bit was clear, so neither of the pair was free
    have hnone : 2 * (p / 2 ^ (k + 1)) ∉ P.lists k ∧ 2 * (p / 2 ^ (k + 1)) + 1 ∉ P.lists k := by
      constructor
      · intro hm
        exact absurd (hxor.mpr (.inl ⟨hm, fun hm' => hboth ⟨hm, hm'⟩⟩)) (by simp)
      · intro hm
        exact absurd (hxor.mpr (.inr ⟨hm, fun hm' => hboth ⟨hm', hm⟩⟩)) (by simp)
    obtain ⟨hn0, hn1⟩ := hnone
    unfold PairOk
    simp only [toggle_lists, toggle_bits_self, push, setList_lists_self, List.mem_cons, hn0, hn1,
      or_false, setList_bits, hclear]
    rw [div_two_pow_succ]
    generalize p / 2 ^ k = m
    rw [xor_def]
    simp only [Bool.not_false, true_iff]
    omega

end edits

/-! ## Section 4: Acquire and release -/

/-- The smallest order, from `k` on, with a free block. The first argument is
    how many further orders there are. -/
def findOrder (P : Pool) : Nat → Nat → Option Nat
  | 0, k => if P.lists k = [] then none else some k
  | g + 1, k => if P.lists k = [] then P.findOrder g (k + 1) else some k

/-- Split the block of order `k + d` at page `p` down to order `k`: the upper
    halves become free. -/
def splitDown (p k : Nat) : Nat → Pool → Pool
  | 0, P => P
  | d + 1, P =>
      splitDown p k d ((P.push (k + d) (p / 2 ^ (k + d) + 1)).toggle (k + d) (p / 2 ^ (k + d + 1)))

/-- The first page of a block of order `k`, and the pool without it. -/
def acquire (top : Nat) (P : Pool) (k : Nat) : Option (Nat × Pool) :=
  match P.findOrder (top - k) k with
  | none => none
  | some i =>
    match P.lists i with
    | [] => none
    | n :: l => some (n * 2 ^ i, splitDown (n * 2 ^ i) k (i - k) ((P.setList i l).toggle i (n / 2)))

/-- Merge the block of order `k` at page `p` upwards while the bit of its pair
    is set, and put the result on the list of the order reached. The first
    number is how many further orders there are. -/
def mergeUp (p : Nat) : Nat → Nat → Pool → Nat × Pool
  | 0, k, P => (k, (P.push k (p / 2 ^ k)).toggle k (p / 2 ^ (k + 1)))
  | g + 1, k, P =>
      if P.bits k (p / 2 ^ (k + 1)) then
        mergeUp p g (k + 1) ((P.remove k (buddy (p / 2 ^ k))).toggle k (p / 2 ^ (k + 1)))
      else (k, (P.push k (p / 2 ^ k)).toggle k (p / 2 ^ (k + 1)))

/-- The pool with the block of order `k` at page `p` given back. -/
def release (top : Nat) (P : Pool) (k p : Nat) : Pool := (mergeUp p (top - k) k P).2

section operations

variable {P : Pool} {out : List Block} {k p i : Nat}

theorem findOrder_some {g : Nat} (h : P.findOrder g k = some i) :
    k ≤ i ∧ i ≤ k + g ∧ P.lists i ≠ [] ∧ ∀ j, k ≤ j → j < i → P.lists j = [] := by
  induction g generalizing k with
  | zero =>
    unfold findOrder at h
    split_ifs at h with hk
    obtain rfl : k = i := by simpa using h
    exact ⟨le_rfl, le_rfl, hk, fun j _ _ => by omega⟩
  | succ g ih =>
    unfold findOrder at h
    split_ifs at h with hk
    · obtain ⟨h1, h2, h3, h4⟩ := ih h
      refine ⟨by omega, by omega, h3, fun j hj hji => ?_⟩
      rcases Nat.eq_or_lt_of_le hj with rfl | hlt
      · exact hk
      · exact h4 j hlt hji
    · obtain rfl : k = i := by simpa using h
      exact ⟨le_rfl, by omega, hk, fun j _ _ => by omega⟩

theorem findOrder_none {g : Nat} (h : P.findOrder g k = none) :
    ∀ j, k ≤ j → j ≤ k + g → P.lists j = [] := by
  induction g generalizing k with
  | zero =>
    unfold findOrder at h
    split_ifs at h with hk
    intro j hj hj'
    rwa [show j = k by omega]
  | succ g ih =>
    unfold findOrder at h
    split_ifs at h with hk
    intro j hj hj'
    rcases Nat.eq_or_lt_of_le hj with rfl | hlt
    · exact hk
    · exact ih h j hlt (by omega)

theorem total_splitDown {d : Nat} (hk : k + d ≤ top) (hp : 2 ^ (k + d) ∣ p) (x : Nat) :
    (splitDown p k d P).total top (blockOf k p :: out) x
      = P.total top (blockOf (k + d) p :: out) x := by
  induction d generalizing P with
  | zero => rfl
  | succ d ih =>
    rw [splitDown, ih (by omega) ((Nat.pow_dvd_pow 2 (by omega)).trans hp)]
    exact total_split hk hp _ x

theorem Sound.splitDown {d : Nat} (h : P.Sound top M (blockOf (k + d) p :: out))
    (hk : k + d ≤ top) (hp : 2 ^ (k + d) ∣ p) :
    (Pool.splitDown p k d P).Sound top M (blockOf k p :: out) := by
  induction d generalizing P with
  | zero => exact h
  | succ d ih =>
    exact ih (h.split hk hp) (by omega) ((Nat.pow_dvd_pow 2 (by omega)).trans hp)

/-- What an acquire that succeeds did: it took the first block of list `i`. -/
theorem acquire_some {P' : Pool} (h : P.acquire top k = some (p, P')) (hk : k ≤ top) :
    ∃ i n l, k ≤ i ∧ i ≤ top ∧ P.lists i = n :: l ∧ (∀ j, k ≤ j → j < i → P.lists j = []) ∧
      p = n * 2 ^ i ∧ P' = Pool.splitDown p k (i - k) ((P.setList i l).toggle i (n / 2)) := by
  unfold acquire at h
  split at h
  · cases h
  · rename_i i hfind
    obtain ⟨h1, h2, _, h4⟩ := findOrder_some hfind
    split at h
    · cases h
    · rename_i n l hl
      obtain ⟨rfl, rfl⟩ : n * 2 ^ i = p ∧ _ = P' := by simpa using h
      exact ⟨i, n, l, h1, by omega, hl, h4, rfl, rfl⟩

theorem findOrder_eq_some {g : Nat} (hki : k ≤ i) (hi : i ≤ k + g) (hne : P.lists i ≠ [])
    (hempty : ∀ j, k ≤ j → j < i → P.lists j = []) : P.findOrder g k = some i := by
  induction g generalizing k with
  | zero =>
    obtain rfl : k = i := by omega
    rw [findOrder, if_neg hne]
  | succ g ih =>
    rw [findOrder]
    rcases Nat.eq_or_lt_of_le hki with rfl | hlt
    · rw [if_neg hne]
    · rw [if_pos (hempty k le_rfl hlt)]
      exact ih hlt (by omega) (fun j hj hj' => hempty j (by omega) hj')

theorem acquire_none_iff (hk : k ≤ top) :
    P.acquire top k = none ↔ ∀ j, k ≤ j → j ≤ top → P.lists j = [] := by
  unfold acquire
  split
  · rename_i hfind
    simp only [true_iff]
    exact fun j hj hj' => findOrder_none hfind j hj (by omega)
  · rename_i i hfind
    obtain ⟨h1, h2, h3, _⟩ := findOrder_some hfind
    split
    · rename_i hl
      exact absurd hl h3
    · simp only [reduceCtorEq, false_iff, not_forall]
      exact ⟨i, h1, by omega, h3⟩

theorem aligned_of_acquire {P' : Pool} (h : P.acquire top k = some (p, P')) (hk : k ≤ top) :
    2 ^ k ∣ p := by
  obtain ⟨i, n, l, hki, _, _, _, rfl, _⟩ := acquire_some h hk
  exact (Nat.pow_dvd_pow 2 hki).mul_left n

theorem blockOf_mul (i n : Nat) : blockOf i (n * 2 ^ i) = ⟨i, n⟩ := by
  simp [blockOf, Nat.mul_div_cancel _ (Nat.two_pow_pos _)]

theorem total_acquire {P' : Pool} (h : P.acquire top k = some (p, P')) (hk : k ≤ top) (x : Nat) :
    P'.total top (blockOf k p :: out) x = P.total top out x := by
  obtain ⟨i, n, l, hki, hi, hl, _, rfl, rfl⟩ := acquire_some h hk
  have hkd : k + (i - k) = i := by omega
  rw [total_splitDown (by omega) (by rw [hkd]; exact Nat.dvd_mul_left _ _), hkd, blockOf_mul,
    total_take hi hl]

theorem Valid.acquire {P' : Pool} (h : P.Valid top M out) (hacq : P.acquire top k = some (p, P'))
    (hk : k ≤ top) : P'.Valid top M (blockOf k p :: out) := by
  refine h.congr (total_acquire hacq hk) (fun b hb => ?_)
  rcases List.mem_cons.mp hb with rfl | hb
  · exact hk
  · exact h.orders b hb

theorem Sound.acquire {P' : Pool} (h : P.Sound top M out) (hacq : P.acquire top k = some (p, P'))
    (hk : k ≤ top) : P'.Sound top M (blockOf k p :: out) := by
  obtain ⟨i, n, l, hki, hi, hl, _, rfl, rfl⟩ := acquire_some hacq hk
  have hkd : k + (i - k) = i := by omega
  refine Sound.splitDown (P := (P.setList i l).toggle i (n / 2)) ?_ (by omega)
    (by rw [hkd]; exact Nat.dvd_mul_left _ _)
  rw [hkd, blockOf_mul]
  exact h.take hi hl

/-- Every buddy that a release of the block of order `k` at page `p` would merge
    with, going by the bits, is free. -/
def MergesFree (P : Pool) (p k g : Nat) : Prop :=
  ∀ j, k ≤ j → j < k + g → (∀ t, k ≤ t → t ≤ j → P.bits t (p / 2 ^ (t + 1)) = true) →
    buddy (p / 2 ^ j) ∈ P.lists j

theorem MergesFree.step {g : Nat} (h : P.MergesFree p k (g + 1))
    (hbit : P.bits k (p / 2 ^ (k + 1)) = true) :
    buddy (p / 2 ^ k) ∈ P.lists k ∧
      ((P.remove k (buddy (p / 2 ^ k))).toggle k (p / 2 ^ (k + 1))).MergesFree p (k + 1) g := by
  refine ⟨h k le_rfl (by omega) (fun t ht ht' => ?_), fun j hj hj' hset => ?_⟩
  · rwa [show t = k by omega]
  · have hlist : ((P.remove k (buddy (p / 2 ^ k))).toggle k (p / 2 ^ (k + 1))).lists j
        = P.lists j := P.setList_lists_ne _ (by omega)
    rw [hlist]
    refine h j (by omega) (by omega) (fun t ht ht' => ?_)
    rcases Nat.eq_or_lt_of_le ht with rfl | hlt
    · exact hbit
    · have := hset t (by omega) ht'
      rwa [toggle_bits_ne _ (by omega), remove_bits] at this

theorem total_mergeUp {g : Nat} (hk : k + g ≤ top) (h : P.MergesFree p k g) (x : Nat) :
    (mergeUp p g k P).2.total top out x = P.total top (blockOf k p :: out) x := by
  induction g generalizing k P with
  | zero => exact total_put (by omega) _ x
  | succ g ih =>
    unfold mergeUp
    split_ifs with hbit
    · obtain ⟨hfree, hrest⟩ := h.step hbit
      rw [ih (by omega) hrest]
      exact total_merge (by omega) hfree _ x
    · exact total_put (by omega) _ x

theorem Sound.mergeUp {g : Nat} (h : P.Sound top M (blockOf k p :: out)) (hk : k + g = top) :
    (Pool.mergeUp p g k P).2.Sound top M out := by
  induction g generalizing k P with
  | zero => exact h.put (fun htop => by omega)
  | succ g ih =>
    unfold Pool.mergeUp
    split_ifs with hbit
    · exact ih (h.merge (by omega) hbit) (by omega)
    · exact h.put (fun _ => by simpa using hbit)

/-- A sound pool merges with free buddies only. -/
theorem Sound.mergesFree {g : Nat} (h : P.Sound top M (blockOf k p :: out)) (hk : k + g = top) :
    P.MergesFree p k g := by
  induction g generalizing k P with
  | zero => exact fun j _ _ _ => by omega
  | succ g ih =>
    intro j hj hj' hset
    have hbit := hset k le_rfl hj
    rcases Nat.eq_or_lt_of_le hj with rfl | hlt
    · exact h.buddy_free (by omega) hbit
    · have hrest := ih (h.merge (by omega) hbit) (by omega) j hlt (by omega) (fun t ht ht' => by
        rw [toggle_bits_ne _ (by omega), remove_bits]
        exact hset t (by omega) ht')
      rwa [toggle_lists, remove, setList_lists_ne _ _ (by omega)] at hrest

/-- The order reached is at least the order of the block given back. -/
theorem le_mergeUp_order (g : Nat) : k ≤ (mergeUp p g k P).1 ∧ (mergeUp p g k P).1 ≤ k + g := by
  induction g generalizing k P with
  | zero => exact ⟨le_rfl, le_rfl⟩
  | succ g ih =>
    unfold mergeUp
    split_ifs with hbit
    · obtain ⟨h1, h2⟩ := ih (k := k + 1)
        (P := (P.remove k (buddy (p / 2 ^ k))).toggle k (p / 2 ^ (k + 1)))
      exact ⟨by omega, by omega⟩
    · exact ⟨le_rfl, by omega⟩

/-- The bits below the order reached were all set. -/
theorem bits_of_lt_mergeUp_order {g j : Nat} (hj : k ≤ j) (hlt : j < (mergeUp p g k P).1) :
    P.bits j (p / 2 ^ (j + 1)) = true := by
  induction g generalizing k P with
  | zero => exact absurd hlt (by simp only [mergeUp]; omega)
  | succ g ih =>
    unfold mergeUp at hlt
    split_ifs at hlt with hbit
    · rcases Nat.eq_or_lt_of_le hj with rfl | hkj
      · exact hbit
      · have := ih hkj hlt
        rwa [toggle_bits_ne _ (by omega), remove_bits] at this
    · exact absurd hlt (by simp only; omega)

theorem Valid.release (h : P.Valid top M (blockOf k p :: out))
    (hfree : P.MergesFree p k (top - k)) : (P.release top k p).Valid top M out := by
  have hk : k ≤ top := h.orders _ List.mem_cons_self
  refine h.congr (fun x => ?_) (fun b hb => h.orders b (List.mem_cons_of_mem _ hb))
  exact total_mergeUp (by omega) hfree x

theorem Sound.release (h : P.Sound top M (blockOf k p :: out)) :
    (P.release top k p).Sound top M out := by
  have hk : k ≤ top := h.orders _ List.mem_cons_self
  exact h.mergeUp (by omega)

/-! ## Section 5: A release undoes the acquire before it -/

/-- Merging what was split puts the pool back, and goes on from the order where
    the splitting began. -/
theorem mergeUp_splitDown {d g : Nat} (h : P.Sound top M (blockOf (k + d) p :: out))
    (hk : k + d ≤ top) (hp : 2 ^ (k + d) ∣ p) :
    Pool.mergeUp p (g + d) k (Pool.splitDown p k d P) = Pool.mergeUp p g (k + d) P := by
  induction d generalizing P g with
  | zero => rfl
  | succ d ih =>
    obtain ⟨heven, h0, h1, hbit⟩ := h.halves_of_hand (k := k + d) (by omega) hp
    have hbuddy : buddy (p / 2 ^ (k + d)) = p / 2 ^ (k + d) + 1 := by
      unfold buddy; rw [if_pos (by omega)]
    rw [Pool.splitDown, show g + (d + 1) = (g + 1) + d by omega,
      ih (h.split (k := k + d) (by omega) hp) (by omega)
        ((Nat.pow_dvd_pow 2 (by omega)).trans hp)]
    rw [Pool.mergeUp, if_pos (by simp [hbit]), hbuddy]
    congr 1
    ext1
    · simp [remove, push, setList]
    · funext j q
      by_cases hjq : j = k + d ∧ q = p / 2 ^ (k + d + 1) <;> simp [toggle, hjq]

/-- A release merges up to the order of the block the acquire before it took from
    its list, and no further. -/
theorem mergeUp_acquire {P' : Pool} (h : P.Sound top M out)
    (hacq : P.acquire top k = some (p, P')) (hk : k ≤ top) :
    ∃ i, 2 ^ i ∣ p ∧ Pool.mergeUp p (top - k) k P' = (i, P) := by
  obtain ⟨i, n, l, hki, hi, hl, _, rfl, rfl⟩ := acquire_some hacq hk
  refine ⟨i, Nat.dvd_mul_left _ _, ?_⟩
  have htake := h.take hi hl
  have hkd : k + (i - k) = i := by omega
  have hnum : n * 2 ^ i / 2 ^ i = n := Nat.mul_div_cancel _ (Nat.two_pow_pos _)
  have htake' : ((P.setList i l).toggle i (n / 2)).Sound top M
      (blockOf (k + (i - k)) (n * 2 ^ i) :: out) := by
    rw [hkd, blockOf_mul]
    exact htake
  rw [show top - k = (top - i) + (i - k) by omega,
    mergeUp_splitDown htake' (by omega) (by rw [hkd]; exact Nat.dvd_mul_left _ _), hkd]
  -- the bit at order `i` is clear after the take, so the merging stops there
  have hput : ((((P.setList i l).toggle i (n / 2)).push i n).toggle i (n / 2)) = P := by
    ext1
    · simp [push, setList, ← hl]
    · funext j q
      by_cases hjq : j = i ∧ q = n / 2 <;> simp [toggle, hjq]
  rcases Nat.eq_or_lt_of_le hi with rfl | hlt
  · rw [Nat.sub_self, Pool.mergeUp]
    simpa [hnum, div_two_pow_succ] using hput
  · have hset : P.bits i (n / 2) = true := h.bit_of_free hlt (by simp [hl])
    obtain ⟨g, hg⟩ : ∃ g, top - i = g + 1 := ⟨top - i - 1, by omega⟩
    rw [hg, Pool.mergeUp, if_neg]
    · simpa [hnum, div_two_pow_succ] using hput
    · simp [hnum, div_two_pow_succ, hset]

/-- `Nest P₀ out₀ P out`: acquires, each made in a sound pool, lead from the first pool
    to the second, in the order in which their blocks stand in front of `out₀`. -/
inductive Nest (top M : Nat) (P₀ : Pool) (out₀ : List Block) : Pool → List Block → Prop where
  | base : Nest top M P₀ out₀ P₀ out₀
  | acquire : ∀ {Q P : Pool} {out : List Block} {k p : Nat}, Nest top M P₀ out₀ Q out →
      Q.Sound top M out → k ≤ top → Q.acquire top k = some (p, P) →
      Nest top M P₀ out₀ P (blockOf k p :: out)

theorem Nest.length_le {P₀ : Pool} {out₀ : List Block} (h : Nest top M P₀ out₀ P out) :
    out₀.length ≤ out.length := by
  induction h with
  | base => exact le_rfl
  | acquire _ _ _ _ ih => exact ih.trans (by simp)

/-- When nothing is left to release, the pool is the one at the start. -/
theorem Nest.eq_of_length {P₀ : Pool} {out₀ : List Block} (h : Nest top M P₀ out₀ P out)
    (hlen : out.length = out₀.length) : P = P₀ := by
  cases h with
  | base => rfl
  | acquire hnest _ _ _ =>
    have := hnest.length_le
    rw [List.length_cons] at hlen
    omega

end operations

end Pool

end Buddy
