import Avos.Library.ByteMemory

/-! # Looking for a Byte

  `memchr` of `kernel/clib/src/string.c`. It goes through the buffer with a pointer to `char` and
  compares what it reads with `(unsigned char)value`; both are promoted to `int` before that.
  Plain `char` is signed on this target, so a byte from 0x80 on is promoted to a negative number,
  and is equal to no `unsigned char`.

  The addresses that the loop reads are recorded beside its result.
-/

open ByteMemory

namespace Avos

/-! ## Section 1: Model -/

/-- `pointer[i] == (unsigned char)value`: the sides are promoted from `char` and from
    `unsigned char`. -/
def charEquals (c : BitVec 8) (value : BitVec 32) : Bool :=
  c.signExtend 32 == (value.setWidth 8).setWidth 32

/-- The loop of `memchr` from `pointer` on, for the given number of bytes: what it returns, and
    the addresses it reads. -/
def memchrLoop (m : Memory) (value : BitVec 32) :
    BitVec 32 → Nat → BitVec 32 × List (BitVec 32)
  | _, 0 => (0, [])
  | pointer, n + 1 =>
      if charEquals (m pointer) value then (pointer, [pointer])
      else
        let (result, reads) := memchrLoop m value (pointer + 1) n
        (result, pointer :: reads)

/-- `memchr`, with the addresses it reads. -/
def memchr (m : Memory) (ptr : BitVec 32) (value : BitVec 32) (nbytes : BitVec 32) :
    BitVec 32 × List (BitVec 32) :=
  memchrLoop m value ptr nbytes.toNat

/-! ## Section 2: What Is Expected -/

/-- Byte `i` is the first of the `n` bytes at `ptr` that equals `c`. -/
structure FirstByte (m : Memory) (ptr : BitVec 32) (c : BitVec 8) (n i : Nat) : Prop where
  lt : i < n
  eq : m (ptr + BitVec.ofNat 32 i) = c
  ne : ∀ j, j < i → m (ptr + BitVec.ofNat 32 j) ≠ c

/-- The address of the first byte that equals `(unsigned char)value`, a null pointer if and only
    if there is none, and no byte read beyond the one found or beyond `nbytes`. -/
structure FindsByte (m : Memory) (ptr value nbytes : BitVec 32)
    (out : BitVec 32 × List (BitVec 32)) : Prop where
  found : ∀ i, FirstByte m ptr (value.setWidth 8) nbytes.toNat i →
    out.1 = ptr + BitVec.ofNat 32 i ∧ ∀ a ∈ out.2, InBytes ptr (i + 1) a
  null : out.1 = 0 ↔ ∀ i, i < nbytes.toNat → m (ptr + BitVec.ofNat 32 i) ≠ value.setWidth 8
  within : ∀ a ∈ out.2, InBytes ptr nbytes.toNat a

section spec

variable {m : Memory} {ptr value nbytes : BitVec 32} {c : BitVec 8} {n i : Nat}

/-- There is a first one among the bytes that are equal. -/
theorem exists_firstByte (hi : i < n) (heq : m (ptr + BitVec.ofNat 32 i) = c) :
    ∃ k, FirstByte m ptr c n k := by
  induction i using Nat.strong_induction_on with
  | _ i ih =>
    by_cases hbefore : ∃ j, j < i ∧ m (ptr + BitVec.ofNat 32 j) = c
    · obtain ⟨j, hj, hjeq⟩ := hbefore
      exact ih j hj (by omega) hjeq
    · refine ⟨i, hi, heq, fun j hj hjeq => hbefore ⟨j, hj, hjeq⟩⟩

/-- There is only one first byte. -/
theorem FirstByte.unique {k : Nat} (h : FirstByte m ptr c n i) (hk : FirstByte m ptr c n k) :
    i = k := by
  rcases Nat.lt_trichotomy i k with hlt | heq | hgt
  · exact absurd h.eq (hk.ne i hlt)
  · exact heq
  · exact absurd hk.eq (h.ne k hgt)

/-! ## Section 3: The Loop -/

/-- The comparison succeeds on an equal byte below 0x80, and on no other one. -/
theorem charEquals_iff :
    charEquals c value = true ↔ c = value.setWidth 8 ∧ (value.setWidth 8).toNat < 0x80 := by
  rw [charEquals, beq_iff_eq]
  generalize value.setWidth 8 = v
  have hlt := v.isLt
  -- the promoted values, as integers
  have hsigned : (c.signExtend 32).toInt = c.toInt := BitVec.toInt_signExtend_of_le (by decide)
  have hunsigned : (v.setWidth 32).toInt = v.toNat := by
    rw [BitVec.toInt_eq_toNat_of_lt] <;> rw [BitVec.toNat_setWidth, Nat.mod_eq_of_lt] <;> omega
  rw [← BitVec.toInt_inj, hsigned, hunsigned, BitVec.toInt_eq_toNat_cond, ← BitVec.toNat_inj]
  split <;> omega

theorem charEquals_eq_false (h : c ≠ value.setWidth 8 ∨ 0x80 ≤ (value.setWidth 8).toNat) :
    charEquals c value = false := by
  rw [← Bool.not_eq_true, charEquals_iff]
  intro hfound
  rcases h with hne | hge
  · exact hne hfound.1
  · omega

/-- Without a byte that the comparison finds, the loop reads them all. -/
theorem memchrLoop_none (hn : n ≤ 2 ^ 32)
    (h : ∀ i, i < n → charEquals (m (ptr + BitVec.ofNat 32 i)) value = false) :
    (memchrLoop m value ptr n).1 = 0 ∧ ∀ a ∈ (memchrLoop m value ptr n).2, InBytes ptr n a := by
  induction n generalizing ptr with
  | zero => simp [memchrLoop]
  | succ n ih =>
    have hhead : charEquals (m ptr) value = false := by simpa using h 0 (Nat.succ_pos n)
    have hrest := @ih (ptr + 1) (by omega) fun i hi => by
      rw [next_add_ofNat]
      exact h (i + 1) (by omega)
    rw [memchrLoop, if_neg (by rw [hhead]; exact Bool.false_ne_true)]
    refine ⟨hrest.1, fun a ha => ?_⟩
    rcases List.mem_cons.mp ha with rfl | ha
    · exact inBytes_self (Nat.succ_pos n)
    · exact (hrest.2 a ha).of_next hn

/-- The loop ends at the first byte that the comparison finds. -/
theorem memchrLoop_some (hn : n ≤ 2 ^ 32) (hi : i < n)
    (heq : charEquals (m (ptr + BitVec.ofNat 32 i)) value = true)
    (hne : ∀ j, j < i → charEquals (m (ptr + BitVec.ofNat 32 j)) value = false) :
    (memchrLoop m value ptr n).1 = ptr + BitVec.ofNat 32 i ∧
      ∀ a ∈ (memchrLoop m value ptr n).2, InBytes ptr (i + 1) a := by
  induction i generalizing ptr n with
  | zero =>
    obtain ⟨n, rfl⟩ := Nat.exists_eq_add_of_le' (show 1 ≤ n by omega)
    rw [BitVec.add_zero] at heq ⊢
    rw [memchrLoop, if_pos heq]
    refine ⟨rfl, fun a ha => ?_⟩
    rw [List.mem_singleton.mp ha]
    exact inBytes_self (Nat.succ_pos 0)
  | succ i ih =>
    obtain ⟨n, rfl⟩ := Nat.exists_eq_add_of_le' (show 1 ≤ n by omega)
    have hhead : charEquals (m ptr) value = false := by simpa using hne 0 (Nat.succ_pos i)
    have hrest := @ih (ptr + 1) n (by omega) (by omega) (by rwa [next_add_ofNat]) fun j hj => by
      rw [next_add_ofNat]
      exact hne (j + 1) (by omega)
    rw [memchrLoop, if_neg (by rw [hhead]; exact Bool.false_ne_true)]
    rw [next_add_ofNat] at hrest
    refine ⟨hrest.1, fun a ha => ?_⟩
    rcases List.mem_cons.mp ha with rfl | ha
    · exact inBytes_self (Nat.succ_pos (i + 1))
    · exact (hrest.2 a ha).of_next (by omega)

/-- `memchr` does what is expected if and only if, whenever a byte of the buffer is equal, it is
    below 0x80, and the first one is not at the null address. -/
theorem memchr_finds_iff :
    FindsByte m ptr value nbytes (memchr m ptr value nbytes) ↔
      ∀ i, FirstByte m ptr (value.setWidth 8) nbytes.toNat i →
        (value.setWidth 8).toNat < 0x80 ∧ ptr + BitVec.ofNat 32 i ≠ 0 := by
  have hn : nbytes.toNat ≤ 2 ^ 32 := Nat.le_of_lt nbytes.isLt
  constructor
  · intro h i hfirst
    have hresult : (memchr m ptr value nbytes).1 ≠ 0 :=
      fun hnull => h.null.mp hnull i hfirst.lt hfirst.eq
    constructor
    · apply Nat.lt_of_not_le
      intro hge
      apply hresult
      exact (memchrLoop_none hn fun j _ => charEquals_eq_false (.inr hge)).1
    · rw [← (h.found i hfirst).1]
      exact hresult
  · intro h
    by_cases hex : ∃ i, i < nbytes.toNat ∧ m (ptr + BitVec.ofNat 32 i) = value.setWidth 8
    · obtain ⟨k, hk, hkeq⟩ := hex
      obtain ⟨i, hfirst⟩ := exists_firstByte hk hkeq
      obtain ⟨hlow, hnotnull⟩ := h i hfirst
      obtain ⟨hresult, hreads⟩ := memchrLoop_some hn hfirst.lt
        (charEquals_iff.mpr ⟨hfirst.eq, hlow⟩)
        fun j hj => charEquals_eq_false (.inl (hfirst.ne j hj))
      refine ⟨fun j hj => ?_, ⟨fun hnull => ?_, fun hnone => ?_⟩, fun a ha => ?_⟩
      · rw [hj.unique hfirst]
        exact ⟨hresult, hreads⟩
      · exact absurd (hresult.symm.trans hnull) hnotnull
      · exact absurd hfirst.eq (hnone i hfirst.lt)
      · exact (hreads a ha).mono hfirst.lt
    · have hnone : ∀ i, i < nbytes.toNat → m (ptr + BitVec.ofNat 32 i) ≠ value.setWidth 8 :=
        fun i hi heq => hex ⟨i, hi, heq⟩
      obtain ⟨hnull, hreads⟩ := memchrLoop_none hn fun i hi =>
        charEquals_eq_false (.inl (hnone i hi))
      refine ⟨fun i hfirst => absurd hfirst.eq (hnone i hfirst.lt),
        ⟨fun _ => hnone, fun _ => hnull⟩, hreads⟩

end spec

/-- A buffer whose only byte is 0x80: it is not found. -/
theorem not_findsByte_0x80 :
    ¬FindsByte (fun _ => 0x80) 0x1000 0x80 1 (memchr (fun _ => 0x80) 0x1000 0x80 1) := by
  intro h
  have hnull : (memchr (fun _ => 0x80) 0x1000 0x80 1).1 = 0 := by decide
  exact h.null.mp hnull 0 (by decide) (by decide)

end Avos
