import Mathlib.Data.BitVec
import Mathlib.Logic.Function.Basic
import Mathlib.Tactic.Common

/-! # Byte-Addressed Memory

  The memory of a 32-bit machine, one byte at each address, read and written in
  bytes, 16-bit and 32-bit words, least significant byte first. Addresses wrap.

  `InBytes a n x` says that `x` is one of the `n` bytes from `a` on. Every store
  changes the bytes it covers only, and two accesses are independent when neither
  starts inside the other.
-/

namespace ByteMemory

/-- A byte at every address. -/
abbrev Memory := BitVec 32 → BitVec 8

/-- The address `x` is one of the `n` bytes from `a` on. -/
def InBytes (a : BitVec 32) (n : Nat) (x : BitVec 32) : Prop := (x - a).toNat < n

instance (a : BitVec 32) (n : Nat) (x : BitVec 32) : Decidable (InBytes a n x) :=
  inferInstanceAs (Decidable (_ < _))

/-- The two ranges have no byte in common. -/
def Apart (a : BitVec 32) (n : Nat) (b : BitVec 32) (k : Nat) : Prop :=
  ∀ x, InBytes a n x → ¬InBytes b k x

section ranges

variable {a b x : BitVec 32} {n k : Nat}

theorem inBytes_iff : InBytes a n x ↔ (x - a).toNat < n := Iff.rfl

theorem inBytes_self (hn : 0 < n) : InBytes a n a := by
  simpa [InBytes] using hn

theorem InBytes.mono (h : InBytes a n x) (hnk : n ≤ k) : InBytes a k x :=
  Nat.lt_of_lt_of_le h hnk

/-- The byte at an offset. -/
theorem inBytes_add {i : Nat} (hi : i < n) (hn : n ≤ 2 ^ 32) :
    InBytes a n (a + BitVec.ofNat 32 i) := by
  rw [InBytes, BitVec.add_comm, BitVec.add_sub_cancel, BitVec.toNat_ofNat,
    Nat.mod_eq_of_lt (by omega)]
  exact hi

/-- Every address of a range is at an offset. -/
theorem InBytes.exists_offset (h : InBytes a n x) : ∃ i, i < n ∧ x = a + BitVec.ofNat 32 i := by
  refine ⟨(x - a).toNat, h, ?_⟩
  rw [BitVec.ofNat_toNat, BitVec.setWidth_eq]
  bv_omega

/-- A part of a range. -/
theorem InBytes.of_add {i : Nat} (h : InBytes (a + BitVec.ofNat 32 i) n x) (hi : i + n ≤ k)
    (hk : k ≤ 2 ^ 32) : InBytes a k x := by
  obtain ⟨j, hj, rfl⟩ := h.exists_offset
  rw [BitVec.add_assoc, ← BitVec.ofNat_add]
  exact inBytes_add (by omega) hk

theorem next_add_ofNat {i : Nat} : a + 1 + BitVec.ofNat 32 i = a + BitVec.ofNat 32 (i + 1) := by
  rw [Nat.add_comm, BitVec.ofNat_add, ← BitVec.add_assoc]
  rfl

/-- The bytes behind the first one. -/
theorem InBytes.of_next (h : InBytes (a + 1) n x) (hn : n + 1 ≤ 2 ^ 32) : InBytes a (n + 1) x := by
  have hadd : InBytes (a + BitVec.ofNat 32 1) n x := h
  exact hadd.of_add (by omega) hn

theorem toNat_add_ofNat {i : Nat} (h : a.toNat + i < 2 ^ 32) :
    (a + BitVec.ofNat 32 i).toNat = a.toNat + i := by
  rw [BitVec.toNat_add, BitVec.toNat_ofNat]
  omega

/-- The distance between two offsets of one address. -/
theorem add_ofNat_sub_add_ofNat {i j : Nat} (hij : i ≤ j) :
    a + BitVec.ofNat 32 j - (a + BitVec.ofNat 32 i) = BitVec.ofNat 32 (j - i) := by
  obtain ⟨d, rfl⟩ := Nat.exists_eq_add_of_le hij
  rw [BitVec.ofNat_add, ← BitVec.add_assoc, BitVec.add_comm _ (BitVec.ofNat 32 d),
    BitVec.add_sub_cancel, Nat.add_sub_cancel_left]

/-- Membership, when the range and the address are given by offsets. -/
theorem inBytes_add_iff {i j : Nat} (hi : i + n ≤ 2 ^ 32) (hj : j < 2 ^ 32) :
    InBytes (a + BitVec.ofNat 32 i) n (a + BitVec.ofNat 32 j) ↔ i ≤ j ∧ j < i + n := by
  rw [InBytes]
  by_cases hn : n = 0
  · omega
  by_cases hij : i ≤ j
  · rw [add_ofNat_sub_add_ofNat hij, BitVec.toNat_ofNat, Nat.mod_eq_of_lt (by omega)]
    omega
  · -- the distance wraps, and is longer than the range
    have hd : (a + BitVec.ofNat 32 i - (a + BitVec.ofNat 32 j)).toNat = i - j := by
      rw [add_ofNat_sub_add_ofNat (by omega), BitVec.toNat_ofNat, Nat.mod_eq_of_lt (by omega)]
    have hneg : a + BitVec.ofNat 32 j - (a + BitVec.ofNat 32 i) =
        -(a + BitVec.ofNat 32 i - (a + BitVec.ofNat 32 j)) := by
      rw [BitVec.neg_sub, BitVec.sub_eq_add_neg]
      exact BitVec.add_comm _ _
    rw [hneg, BitVec.toNat_neg, hd, Nat.mod_eq_of_lt (by omega)]
    omega

/-- A range is made of its first bytes and of those behind them. -/
theorem inBytes_append (h : n + k ≤ 2 ^ 32) :
    InBytes a (n + k) x ↔ InBytes a n x ∨ InBytes (a + BitVec.ofNat 32 n) k x := by
  constructor
  · intro hx
    obtain ⟨i, hi, rfl⟩ := hx.exists_offset
    rcases Nat.lt_or_ge i n with hlt | hge
    · exact .inl (inBytes_add hlt (by omega))
    · exact .inr ((inBytes_add_iff h (by omega)).mpr ⟨hge, hi⟩)
  · rintro (hx | hx)
    · exact hx.mono (Nat.le_add_right n k)
    · exact hx.of_add (Nat.le_refl _) h

theorem add_ofNat_ne {i j : Nat} (hij : i ≠ j) (hi : i < 2 ^ 32) (hj : j < 2 ^ 32) :
    a + BitVec.ofNat 32 i ≠ a + BitVec.ofNat 32 j := by
  intro h
  have := congrArg BitVec.toNat ((BitVec.add_right_inj a).mp h)
  rw [BitVec.toNat_ofNat, BitVec.toNat_ofNat, Nat.mod_eq_of_lt hi, Nat.mod_eq_of_lt hj] at this
  exact hij this

theorem Apart.symm (h : Apart a n b k) : Apart b k a n := fun x hb ha => h x ha hb

/-- Two ranges at offsets of one address. -/
theorem apart_add {i j : Nat} (hij : i + n ≤ j) (hj : j + k ≤ 2 ^ 32) :
    Apart (a + BitVec.ofNat 32 i) n (a + BitVec.ofNat 32 j) k := by
  intro x hi hj'
  obtain ⟨p, hp, rfl⟩ := hi.exists_offset
  obtain ⟨q, hq, heq⟩ := hj'.exists_offset
  rw [BitVec.add_assoc, BitVec.add_assoc, ← BitVec.ofNat_add, ← BitVec.ofNat_add] at heq
  exact add_ofNat_ne (by omega) (by omega) (by omega) heq

/-- Clearing the low bits of a word rounds it down. -/
theorem toNat_and_not_lowBits {w k : Nat} {a : BitVec w} :
    (a &&& ~~~BitVec.ofNat w (2 ^ k - 1)).toNat = a.toNat / 2 ^ k * 2 ^ k := by
  have hshift : a &&& ~~~BitVec.ofNat w (2 ^ k - 1) = (a >>> k) <<< k := by
    refine BitVec.eq_of_getLsbD_eq fun i hi => ?_
    rw [BitVec.getLsbD_and, BitVec.getLsbD_not, BitVec.getLsbD_ofNat, Nat.testBit_two_pow_sub_one,
      BitVec.getLsbD_shiftLeft, BitVec.getLsbD_ushiftRight]
    by_cases h : i < k
    · simp [h]
    · have h' : k + (i - k) = i := by omega
      simp [h, hi, h']
  have hle : a.toNat / 2 ^ k * 2 ^ k ≤ a.toNat := Nat.div_mul_le_self _ _
  rw [hshift, BitVec.toNat_shiftLeft, BitVec.toNat_ushiftRight, Nat.shiftRight_eq_div_pow,
    Nat.shiftLeft_eq, Nat.mod_eq_of_lt (Nat.lt_of_le_of_lt hle a.isLt)]

end ranges

/-! ## Section 1: Loads and Stores -/

/-- The 16-bit word at `a`. -/
def load16 (m : Memory) (a : BitVec 32) : BitVec 16 := m (a + 1) ++ m a

/-- The 32-bit word at `a`. -/
def load32 (m : Memory) (a : BitVec 32) : BitVec 32 := m (a + 3) ++ m (a + 2) ++ m (a + 1) ++ m a

/-- Write a byte. -/
def store8 (m : Memory) (a : BitVec 32) (v : BitVec 8) : Memory := Function.update m a v

/-- Write a 16-bit word. -/
def store16 (m : Memory) (a : BitVec 32) (v : BitVec 16) : Memory :=
  store8 (store8 m a (v.extractLsb' 0 8)) (a + 1) (v.extractLsb' 8 8)

/-- Write a 32-bit word. -/
def store32 (m : Memory) (a : BitVec 32) (v : BitVec 32) : Memory :=
  store8 (store8 (store8 (store8 m a (v.extractLsb' 0 8)) (a + 1) (v.extractLsb' 8 8))
    (a + 2) (v.extractLsb' 16 8)) (a + 3) (v.extractLsb' 24 8)

section accesses

variable {m m' : Memory} {a b x : BitVec 32}

@[simp] theorem store8_self {v : BitVec 8} : store8 m a v a = v := by simp [store8]

@[simp] theorem store8_ne {v : BitVec 8} (h : x ≠ a) : store8 m a v x = m x := by
  simp [store8, h]

/-- A store leaves the bytes it does not cover. -/
theorem store16_frame {v : BitVec 16} (h : ¬InBytes a 2 x) : store16 m a v x = m x := by
  rw [InBytes] at h
  rw [store16, store8_ne (by bv_omega), store8_ne (by bv_omega)]

theorem store32_frame {v : BitVec 32} (h : ¬InBytes a 4 x) : store32 m a v x = m x := by
  rw [InBytes] at h
  rw [store32, store8_ne (by bv_omega), store8_ne (by bv_omega), store8_ne (by bv_omega),
    store8_ne (by bv_omega)]

/-- The bytes that a store leaves behind. -/
theorem store32_apply {v : BitVec 32} {i : Nat} (hi : i < 4) :
    store32 m a v (a + BitVec.ofNat 32 i) = v.extractLsb' (8 * i) 8 := by
  rw [store32]
  obtain rfl | rfl | rfl | rfl : i = 0 ∨ i = 1 ∨ i = 2 ∨ i = 3 := by omega
  · rw [store8_ne (by bv_omega), store8_ne (by bv_omega), store8_ne (by bv_omega),
      BitVec.add_zero]
    exact store8_self
  · rw [store8_ne (by bv_omega), store8_ne (by bv_omega)]
    exact store8_self
  · rw [store8_ne (by bv_omega)]
    exact store8_self
  · exact store8_self

/-- A load reads the bytes it covers only. -/
theorem load16_congr (h : ∀ x, InBytes a 2 x → m x = m' x) : load16 m a = load16 m' a := by
  simp only [load16]
  rw [h a (by simp [InBytes]), h (a + 1) (by simp only [InBytes]; bv_omega)]

theorem load32_congr (h : ∀ x, InBytes a 4 x → m x = m' x) : load32 m a = load32 m' a := by
  simp only [load32]
  rw [h a (by simp [InBytes]), h (a + 1) (by simp only [InBytes]; bv_omega),
    h (a + 2) (by simp only [InBytes]; bv_omega), h (a + 3) (by simp only [InBytes]; bv_omega)]

/-- A load inside a range on which two memories agree. -/
theorem load32_congr_of_add {k i : Nat} (h : ∀ x, InBytes a k x → m x = m' x) (hi : i + 4 ≤ k)
    (hk : k ≤ 2 ^ 32) :
    load32 m (a + BitVec.ofNat 32 i) = load32 m' (a + BitVec.ofNat 32 i) :=
  load32_congr fun x hx => h x (hx.of_add hi hk)

/-- A 16-bit word is made of its two bytes. -/
theorem bytes_append (v : BitVec 16) : v.extractLsb' 8 8 ++ v.extractLsb' 0 8 = v := by
  ext i hi
  simp only [BitVec.getElem_append, BitVec.getElem_extractLsb', Nat.zero_add]
  split
  · exact BitVec.getLsbD_eq_getElem hi
  · rw [← BitVec.getLsbD_eq_getElem hi, show 8 + (i - 8) = i by omega]

/-- A 64-bit word is made of its two halves. -/
theorem halves_append (v : BitVec 64) : v.extractLsb' 32 32 ++ v.setWidth 32 = v := by
  refine BitVec.eq_of_getLsbD_eq fun i hi => ?_
  rw [BitVec.getLsbD_append, BitVec.getLsbD_extractLsb', BitVec.getLsbD_setWidth]
  split
  · next h => simp [h]
  · next h => simp [show i - 32 < 32 by omega, show 32 + (i - 32) = i by omega]

@[simp] theorem load16_store16 {v : BitVec 16} : load16 (store16 m a v) a = v := by
  rw [load16, store16, store8_self, store8_ne (by bv_omega), store8_self]
  exact bytes_append v

@[simp] theorem load32_store32 {v : BitVec 32} : load32 (store32 m a v) a = v := by
  rw [load32, store32]
  rw [store8_self, store8_ne (by bv_omega), store8_self,
    store8_ne (by bv_omega), store8_ne (by bv_omega), store8_self,
    store8_ne (by bv_omega), store8_ne (by bv_omega), store8_ne (by bv_omega), store8_self]
  ext i hi
  simp only [BitVec.getElem_append, BitVec.getElem_extractLsb', Nat.zero_add]
  split
  · exact BitVec.getLsbD_eq_getElem hi
  split
  · rw [← BitVec.getLsbD_eq_getElem hi, show 8 + (i - 8) = i by omega]
  split
  · rw [← BitVec.getLsbD_eq_getElem hi, show 16 + (i - 8 - 8) = i by omega]
  · rw [← BitVec.getLsbD_eq_getElem hi, show 24 + (i - 8 - 8 - 8) = i by omega]

/-- Accesses to ranges apart do not see each other. -/
theorem load32_store32_of_apart {v : BitVec 32} (h : Apart a 4 b 4) :
    load32 (store32 m b v) a = load32 m a :=
  load32_congr fun x hx => store32_frame (h x hx)

theorem load16_store16_of_apart {v : BitVec 16} (h : Apart a 2 b 2) :
    load16 (store16 m b v) a = load16 m a :=
  load16_congr fun x hx => store16_frame (h x hx)

end accesses

/-! ## Section 2: Changes Inside a Range -/

/-- The memories `m` and `m'` are the same outside the `n` bytes from `a` on. -/
def OnlyIn (a : BitVec 32) (n : Nat) (m m' : Memory) : Prop := ∀ x, ¬InBytes a n x → m' x = m x

/-- Write bytes one after the other. -/
def storeBytes (m : Memory) (a : BitVec 32) : List (BitVec 8) → Memory
  | [] => m
  | b :: l => storeBytes (store8 m a b) (a + 1) l

/-- The 64-bit word at `a`. -/
def load64 (m : Memory) (a : BitVec 32) : BitVec 64 := load32 m (a + 4) ++ load32 m a

/-- Write a 64-bit word. -/
def store64 (m : Memory) (a : BitVec 32) (v : BitVec 64) : Memory :=
  store32 (store32 m a (v.extractLsb' 0 32)) (a + 4) (v.extractLsb' 32 32)

section changes

variable {m m' m'' : Memory} {a b : BitVec 32} {n k i : Nat}

theorem OnlyIn.refl : OnlyIn a n m m := fun _ _ => rfl

theorem OnlyIn.trans (h : OnlyIn a n m m') (h' : OnlyIn a n m' m'') : OnlyIn a n m m'' :=
  fun x hx => (h' x hx).trans (h x hx)

theorem OnlyIn.mono (h : OnlyIn a n m m') (hnk : n ≤ k) : OnlyIn a k m m' :=
  fun x hx => h x fun hx' => hx (hx'.mono hnk)

/-- A change inside a part of a range. -/
theorem OnlyIn.of_add (h : OnlyIn (a + BitVec.ofNat 32 i) k m m') (hi : i + k ≤ n)
    (hn : n ≤ 2 ^ 32) : OnlyIn a n m m' :=
  fun x hx => h x fun hx' => hx (hx'.of_add hi hn)

/-- A change inside a part of a range, both given by offsets. -/
theorem OnlyIn.of_offsets {j : Nat} (h : OnlyIn (a + BitVec.ofNat 32 j) k m m') (hij : i ≤ j)
    (hj : j + k ≤ i + n) (hn : n ≤ 2 ^ 32) : OnlyIn (a + BitVec.ofNat 32 i) n m m' := by
  refine OnlyIn.of_add (i := j - i) (k := k) ?_ (by omega) hn
  rwa [BitVec.add_assoc, ← BitVec.ofNat_add, Nat.add_sub_cancel' hij]

theorem onlyIn_store8 {v : BitVec 8} : OnlyIn a 1 m (store8 m a v) := by
  intro x hx
  refine store8_ne ?_
  rintro rfl
  exact hx (inBytes_self (by decide))

theorem onlyIn_store16 {v : BitVec 16} : OnlyIn a 2 m (store16 m a v) :=
  fun _ hx => store16_frame hx

theorem onlyIn_store32 {v : BitVec 32} : OnlyIn a 4 m (store32 m a v) :=
  fun _ hx => store32_frame hx

theorem onlyIn_store64 {v : BitVec 64} : OnlyIn a 8 m (store64 m a v) := by
  have h : OnlyIn (a + BitVec.ofNat 32 4) 4 _ (store64 m a v) := onlyIn_store32
  exact (onlyIn_store32.mono (by decide)).trans (h.of_add (by decide) (by decide))

theorem onlyIn_storeBytes {l : List (BitVec 8)} (hl : l.length ≤ 2 ^ 32) :
    OnlyIn a l.length m (storeBytes m a l) := by
  induction l generalizing m a with
  | nil => exact .refl
  | cons b l ih =>
    rw [List.length_cons] at hl ⊢
    have hrest : OnlyIn (a + BitVec.ofNat 32 1) l.length (store8 m a b)
        (storeBytes m a (b :: l)) := ih (by omega)
    exact (onlyIn_store8.mono (by omega)).trans (hrest.of_add (by omega) hl)

/-- A store hides what was changed under it. -/
theorem OnlyIn.store32_eq {v : BitVec 32} (h : OnlyIn a 4 m m') :
    store32 m' a v = store32 m a v := by
  funext x
  by_cases hx : InBytes a 4 x
  · obtain ⟨i, hi, rfl⟩ := hx.exists_offset
    rw [store32_apply hi, store32_apply hi]
  · rw [store32_frame hx, store32_frame hx]
    exact h x hx

/-- A byte and a word apart may be stored in any order. -/
theorem store8_store32_comm {v : BitVec 32} {c : BitVec 8} (h : ¬InBytes a 4 b) :
    store8 (store32 m a v) b c = store32 (store8 m b c) a v := by
  funext x
  by_cases hx : InBytes a 4 x
  · have hne : x ≠ b := by
      rintro rfl
      exact h hx
    obtain ⟨i, hi, rfl⟩ := hx.exists_offset
    rw [store8_ne hne, store32_apply hi, store32_apply hi]
  · rw [store32_frame hx]
    unfold store8
    by_cases hxb : x = b
    · rw [hxb, Function.update_self, Function.update_self]
    · rw [Function.update_of_ne hxb, Function.update_of_ne hxb, store32_frame hx]

/-- What is apart from the change is read as before. -/
theorem OnlyIn.load32_eq (h : OnlyIn a n m m') (hb : Apart b 4 a n) :
    load32 m' b = load32 m b :=
  load32_congr fun x hx => h x (hb x hx)

/-- A byte beside the change, both given by offsets. -/
theorem OnlyIn.eq_add {j : Nat} (h : OnlyIn (a + BitVec.ofNat 32 i) n m m')
    (hj : j < i ∨ i + n ≤ j) (hi : i + n ≤ 2 ^ 32) (hj' : j < 2 ^ 32) :
    m' (a + BitVec.ofNat 32 j) = m (a + BitVec.ofNat 32 j) := by
  refine h _ fun hx => ?_
  have := (inBytes_add_iff hi hj').mp hx
  omega

/-- The bytes of a range beside the change, both given by offsets. -/
theorem OnlyIn.eq_beside {j : Nat} (h : OnlyIn (a + BitVec.ofNat 32 i) n m m')
    (hj : j + k ≤ i ∨ i + n ≤ j) (hj' : j + k ≤ 2 ^ 32) (hi : i + n ≤ 2 ^ 32) :
    ∀ x, InBytes (a + BitVec.ofNat 32 j) k x → m' x = m x := by
  intro x hx
  refine h x fun hx' => ?_
  rcases hj with hj | hj
  · exact apart_add hj hi x hx hx'
  · exact apart_add hj hj' x hx' hx

/-- A load beside the change, both given by offsets. -/
theorem OnlyIn.load32_add {j : Nat} (h : OnlyIn (a + BitVec.ofNat 32 i) n m m')
    (hj : j + 4 ≤ i ∨ i + n ≤ j) (hi : i + n ≤ 2 ^ 32) (hj' : j + 4 ≤ 2 ^ 32) :
    load32 m' (a + BitVec.ofNat 32 j) = load32 m (a + BitVec.ofNat 32 j) := by
  refine h.load32_eq ?_
  rcases hj with hj | hj
  · exact apart_add hj hi
  · exact (apart_add hj hj').symm

theorem storeBytes_append {l l' : List (BitVec 8)} :
    storeBytes m a (l ++ l') = storeBytes (storeBytes m a l) (a + BitVec.ofNat 32 l.length) l' := by
  induction l generalizing m a with
  | nil =>
    show storeBytes m a l' = storeBytes m (a + 0#32) l'
    rw [BitVec.add_zero]
  | cons b l ih =>
    rw [List.cons_append, storeBytes, ih, storeBytes, List.length_cons, Nat.add_comm,
      BitVec.ofNat_add, ← BitVec.add_assoc]
    rfl

/-- The bytes written are read back. -/
theorem storeBytes_add {l : List (BitVec 8)} (hl : l.length ≤ 2 ^ 32) (hi : i < l.length) :
    storeBytes m a l (a + BitVec.ofNat 32 i) = l.getD i 0 := by
  induction l generalizing m a i with
  | nil => exact absurd hi (Nat.not_lt_zero i)
  | cons b l ih =>
    rw [List.length_cons] at hl hi
    cases i with
    | zero =>
      have hrest : OnlyIn (a + BitVec.ofNat 32 1) l.length (store8 m a b)
          (storeBytes m a (b :: l)) := onlyIn_storeBytes (by omega)
      rw [hrest.eq_add (by omega) (by omega) (by omega), BitVec.add_zero, store8_self]
      rfl
    | succ i =>
      have hnext : a + BitVec.ofNat 32 (i + 1) = a + 1 + BitVec.ofNat 32 i := by
        rw [Nat.add_comm, BitVec.ofNat_add, ← BitVec.add_assoc]
        rfl
      have hi' : i < l.length := by omega
      rw [hnext]
      exact ih (by omega) hi'

/-! ### 64-bit words -/

theorem load64_congr (h : ∀ x, InBytes a 8 x → m x = m' x) : load64 m a = load64 m' a := by
  have hlow : load32 m a = load32 m' a := load32_congr fun x hx => h x (hx.mono (by decide))
  have hhigh : load32 m (a + 4) = load32 m' (a + 4) :=
    load32_congr_of_add (i := 4) h (by decide) (by decide)
  rw [load64, load64, hlow, hhigh]

@[simp] theorem load64_store64 {v : BitVec 64} : load64 (store64 m a v) a = v := by
  have hlow : load32 (store64 m a v) a = v.extractLsb' 0 32 := by
    have hapart : Apart a 4 (a + BitVec.ofNat 32 4) 4 := by
      simpa using apart_add (a := a) (i := 0) (j := 4) (n := 4) (k := 4) (by decide) (by decide)
    rw [store64]
    exact (load32_store32_of_apart hapart).trans load32_store32
  have hhigh : load32 (store64 m a v) (a + 4) = v.extractLsb' 32 32 := load32_store32
  rw [load64, hlow, hhigh]
  ext i hi
  simp only [BitVec.getElem_append, BitVec.getElem_extractLsb', Nat.zero_add]
  split
  · exact BitVec.getLsbD_eq_getElem hi
  · rw [← BitVec.getLsbD_eq_getElem hi, show 32 + (i - 32) = i by omega]

/-- A word that was copied from `d` bytes further on. -/
theorem load32_shift {d : BitVec 32} (h : ∀ x, InBytes a 4 x → m' x = m (x + d)) :
    load32 m' a = load32 m (a + d) := by
  have hbyte : ∀ i : Nat, i < 4 → m' (a + BitVec.ofNat 32 i) = m (a + d + BitVec.ofNat 32 i) := by
    intro i hi
    rw [h _ (inBytes_add hi (by decide)), BitVec.add_assoc, BitVec.add_assoc,
      BitVec.add_comm (BitVec.ofNat 32 i)]
  have h0 : m' a = m (a + d) := h a (inBytes_self (by decide))
  rw [load32, load32, h0]
  exact congrArg (· ++ m (a + d)) (congrArg₂ (· ++ ·) (congrArg₂ (· ++ ·) (hbyte 3 (by decide))
    (hbyte 2 (by decide))) (hbyte 1 (by decide)))

theorem load64_shift {d : BitVec 32} (h : ∀ x, InBytes a 8 x → m' x = m (x + d)) :
    load64 m' a = load64 m (a + d) := by
  have hlow : load32 m' a = load32 m (a + d) := load32_shift fun x hx => h x (hx.mono (by decide))
  have hhigh : load32 m' (a + 4) = load32 m (a + 4 + d) :=
    load32_shift fun x hx => h x (hx.of_add (i := 4) (by decide) (by decide))
  rw [load64, load64, hlow, hhigh, BitVec.add_assoc, BitVec.add_comm 4, ← BitVec.add_assoc]

/-- A load beside the change, both given by offsets. -/
theorem OnlyIn.load64_add {j : Nat} (h : OnlyIn (a + BitVec.ofNat 32 i) n m m')
    (hj : j + 8 ≤ i ∨ i + n ≤ j) (hi : i + n ≤ 2 ^ 32) (hj' : j + 8 ≤ 2 ^ 32) :
    load64 m' (a + BitVec.ofNat 32 j) = load64 m (a + BitVec.ofNat 32 j) := by
  refine load64_congr fun x hx => h x ?_
  rcases hj with hj | hj
  · exact apart_add hj hi x hx
  · exact (apart_add hj hj').symm x hx

end changes

end ByteMemory
