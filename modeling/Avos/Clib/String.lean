import Avos.Library.ByteMemory

/-! # Moving and Filling Memory

  `memmove` and `memset` of `kernel/clib/src/string.c`; the boot loader has the
  same functions in `bootloader/multiboot/src/string.c`. `memmove` copies upwards
  or downwards, by the order of the two pointers, so that overlapping ranges are
  copied as if through a buffer.
-/

open ByteMemory

namespace Avos

/-- The upward loop of `memmove`: the bytes `0, …, n - 1` in this order. -/
def memmoveUp (m : Memory) (des src : BitVec 32) : Nat → Memory
  | 0 => m
  | n + 1 =>
      let m := memmoveUp m des src n
      store8 m (des + BitVec.ofNat 32 n) (m (src + BitVec.ofNat 32 n))

/-- The downward loop: the bytes `n - 1, …, 0` in this order. -/
def memmoveDown (m : Memory) (des src : BitVec 32) : Nat → Memory
  | 0 => m
  | n + 1 =>
      memmoveDown (store8 m (des + BitVec.ofNat 32 n) (m (src + BitVec.ofNat 32 n))) des src n

/-- `memmove`. -/
def memmove (m : Memory) (des src : BitVec 32) (size : BitVec 32) : Memory :=
  if des < src then memmoveUp m des src size.toNat else memmoveDown m des src size.toNat

/-- `memset`, for the bytes `0, …, n - 1`. -/
def memset (m : Memory) (des : BitVec 32) (c : BitVec 8) : Nat → Memory
  | 0 => m
  | n + 1 => store8 (memset m des c n) (des + BitVec.ofNat 32 n) c

section spec

variable {m : Memory} {des src : BitVec 32} {n : Nat}

/-- What a copy of `n` bytes leaves behind. -/
def copied (m : Memory) (des src : BitVec 32) (n : Nat) : Memory :=
  fun x => if InBytes des n x then m (src + (x - des)) else m x

theorem memmoveUp_eq (hdes : des.toNat + n ≤ 2 ^ 32) (hsrc : src.toNat + n ≤ 2 ^ 32)
    (hlt : des < src) : memmoveUp m des src n = copied m des src n := by
  induction n with
  | zero =>
    funext x
    simp [memmoveUp, copied, InBytes]
  | succ n ih =>
    funext x
    have hlt' := BitVec.lt_def.mp hlt
    rw [memmoveUp, ih (by omega) (by omega)]
    -- the byte that is copied next has not been overwritten
    have hread : ¬InBytes des n (src + BitVec.ofNat 32 n) := by
      rw [InBytes]
      bv_omega
    by_cases hx : x = des + BitVec.ofNat 32 n
    · subst hx
      simp only [store8_self, copied, if_neg hread, if_pos (inBytes_add (Nat.lt_succ_self n)
        (by omega))]
      congr 2
      bv_omega
    · have hin : InBytes des (n + 1) x ↔ InBytes des n x := by
        simp only [InBytes]
        bv_omega
      simp only [store8_ne hx, copied, hin]

theorem memmoveDown_eq (hdes : des.toNat + n ≤ 2 ^ 32) (hsrc : src.toNat + n ≤ 2 ^ 32)
    (hle : ¬des < src) : memmoveDown m des src n = copied m des src n := by
  induction n generalizing m with
  | zero =>
    funext x
    simp [memmoveDown, copied, InBytes]
  | succ n ih =>
    funext x
    have hle' : src.toNat ≤ des.toNat := by
      rw [BitVec.lt_def] at hle
      omega
    rw [memmoveDown, ih (by omega) (by omega)]
    simp only [copied]
    by_cases hx : InBytes des n x
    · -- the bytes still to be copied have not been overwritten
      have hread : src + (x - des) ≠ des + BitVec.ofNat 32 n := by
        rw [InBytes] at hx
        bv_omega
      rw [if_pos hx, store8_ne hread, if_pos (hx.mono (Nat.le_succ n))]
    · rw [if_neg hx]
      by_cases heq : x = des + BitVec.ofNat 32 n
      · subst heq
        rw [store8_self, if_pos (inBytes_add (Nat.lt_succ_self n) (by omega))]
        congr 2
        bv_omega
      · have hout : ¬InBytes des (n + 1) x := by
          simp only [InBytes] at hx ⊢
          bv_omega
        rw [store8_ne heq, if_neg hout]

/-- `memmove` copies the source as it was, whether or not the ranges overlap. -/
theorem memmove_eq (m : Memory) (des src size : BitVec 32)
    (hdes : des.toNat + size.toNat ≤ 2 ^ 32) (hsrc : src.toNat + size.toNat ≤ 2 ^ 32) :
    memmove m des src size = copied m des src size.toNat := by
  rw [memmove]
  split
  · next hlt => exact memmoveUp_eq hdes hsrc hlt
  · next hle => exact memmoveDown_eq hdes hsrc hle

theorem memset_eq {c : BitVec 8} (hn : n ≤ 2 ^ 32) :
    memset m des c n = fun x => if InBytes des n x then c else m x := by
  induction n with
  | zero =>
    funext x
    simp [memset, InBytes]
  | succ n ih =>
    funext x
    rw [memset, ih (by omega)]
    by_cases hx : x = des + BitVec.ofNat 32 n
    · subst hx
      rw [store8_self, if_pos (inBytes_add (Nat.lt_succ_self n) (by omega))]
    · have hin : InBytes des (n + 1) x ↔ InBytes des n x := by
        simp only [InBytes]
        bv_omega
      simp only [store8_ne hx, hin]

/-- The stores of `memmove` and `memset` are to the destination. -/
theorem onlyIn_store8_add {i : Nat} {v : BitVec 8} (hi : i < n) (hn : n ≤ 2 ^ 32) :
    OnlyIn des n m (store8 m (des + BitVec.ofNat 32 i) v) :=
  onlyIn_store8.of_add (by omega) hn

theorem onlyIn_memmoveUp (hn : n ≤ 2 ^ 32) : OnlyIn des n m (memmoveUp m des src n) := by
  induction n with
  | zero => exact .refl
  | succ n ih =>
    exact ((ih (by omega)).mono (Nat.le_succ n)).trans
      (onlyIn_store8_add (Nat.lt_succ_self n) hn)

theorem onlyIn_memmoveDown (hn : n ≤ 2 ^ 32) : OnlyIn des n m (memmoveDown m des src n) := by
  induction n generalizing m with
  | zero => exact .refl
  | succ n ih =>
    exact (onlyIn_store8_add (Nat.lt_succ_self n) hn).trans
      ((ih (by omega)).mono (Nat.le_succ n))

theorem onlyIn_memmove {size : BitVec 32} : OnlyIn des size.toNat m (memmove m des src size) := by
  have hn : size.toNat ≤ 2 ^ 32 := Nat.le_of_lt size.isLt
  rw [memmove]
  split
  · exact onlyIn_memmoveUp hn
  · exact onlyIn_memmoveDown hn

theorem onlyIn_memset {c : BitVec 8} (hn : n ≤ 2 ^ 32) : OnlyIn des n m (memset m des c n) := by
  intro x hx
  rw [memset_eq hn]
  exact if_neg hx

/-- Upwards, a byte is copied if no earlier store has been to its source. -/
theorem memmoveUp_add {i : Nat} (hn : n ≤ 2 ^ 32) (hi : i < n)
    (hsrc : ¬InBytes des i (src + BitVec.ofNat 32 i)) :
    memmoveUp m des src n (des + BitVec.ofNat 32 i) = m (src + BitVec.ofNat 32 i) := by
  induction n with
  | zero => omega
  | succ n ih =>
    rw [memmoveUp]
    by_cases hin : i = n
    · rw [hin] at hsrc ⊢
      rw [store8_self, onlyIn_memmoveUp (by omega) _ hsrc]
    · have hne : des + BitVec.ofNat 32 i ≠ des + BitVec.ofNat 32 n :=
        add_ofNat_ne hin (by omega) (by omega)
      rw [store8_ne hne, ih (by omega) (by omega)]

theorem memmoveDown_add {i : Nat} (hdes : des.toNat + n ≤ 2 ^ 32) (hi : i < n)
    (hle : ¬des < src) :
    memmoveDown m des src n (des + BitVec.ofNat 32 i) = m (src + BitVec.ofNat 32 i) := by
  induction n generalizing m with
  | zero => omega
  | succ n ih =>
    have hle' : src.toNat ≤ des.toNat := by
      rw [BitVec.lt_def] at hle
      omega
    rw [memmoveDown]
    by_cases hin : i = n
    · -- the later stores are to the bytes before this one
      have hout : ¬InBytes des n (des + BitVec.ofNat 32 i) := by
        rw [InBytes]
        bv_omega
      rw [onlyIn_memmoveDown (by omega) _ hout, hin, store8_self]
    · have hne : src + BitVec.ofNat 32 i ≠ des + BitVec.ofNat 32 n := by
        bv_omega
      rw [ih (by omega) (by omega), store8_ne hne]

/-- A byte whose source is not beyond the end of memory is copied, also where other bytes have
    theirs there. -/
theorem memmove_add {size : BitVec 32} {i : Nat} (hdes : des.toNat + size.toNat ≤ 2 ^ 32)
    (hi : i < size.toNat) (hsrc : src.toNat + i < 2 ^ 32) :
    memmove m des src size (des + BitVec.ofNat 32 i) = m (src + BitVec.ofNat 32 i) := by
  rw [memmove]
  split
  · next hlt =>
    have hlt' := BitVec.lt_def.mp hlt
    apply memmoveUp_add (by omega) hi
    rw [InBytes]
    bv_omega
  · next hle => exact memmoveDown_add hdes hi hle

/-- Downwards, a byte is copied if no earlier store has been to a source. -/
theorem memmoveDown_add_of_apart {i : Nat} (hn : n ≤ 2 ^ 32) (hi : i < n)
    (hapart : Apart src n des n) :
    memmoveDown m des src n (des + BitVec.ofNat 32 i) = m (src + BitVec.ofNat 32 i) := by
  induction n generalizing m with
  | zero => omega
  | succ n ih =>
    have hapart' : Apart src n des n :=
      fun x hsrc hdes => hapart x (hsrc.mono (Nat.le_succ n)) (hdes.mono (Nat.le_succ n))
    rw [memmoveDown]
    by_cases hin : i = n
    · have hout : ¬InBytes des n (des + BitVec.ofNat 32 i) := by
        have hiff := inBytes_add_iff (a := des) (i := 0) (j := i) (n := n) (by omega) (by omega)
        rw [BitVec.add_zero] at hiff
        intro hx
        have hlt := (hiff.mp hx).2
        omega
      rw [onlyIn_memmoveDown (by omega) _ hout, hin, store8_self]
    · have hne : src + BitVec.ofNat 32 i ≠ des + BitVec.ofNat 32 n := by
        intro heq
        apply hapart (src + BitVec.ofNat 32 i) (inBytes_add hi hn)
        rw [heq]
        exact inBytes_add (Nat.lt_succ_self n) hn
      rw [ih (by omega) (by omega) hapart', store8_ne hne]

/-- A byte is copied from a source apart from the destination, also where the ranges wrap. -/
theorem memmove_add_of_apart {size : BitVec 32} {i : Nat} (hi : i < size.toNat)
    (hapart : Apart src size.toNat des size.toNat) :
    memmove m des src size (des + BitVec.ofNat 32 i) = m (src + BitVec.ofNat 32 i) := by
  have hn : size.toNat ≤ 2 ^ 32 := Nat.le_of_lt size.isLt
  rw [memmove]
  split
  · apply memmoveUp_add hn hi
    intro hx
    exact hapart _ (inBytes_add hi hn) (hx.mono (Nat.le_of_lt hi))
  · exact memmoveDown_add_of_apart hn hi hapart

/-- `memmove` on ranges that do not wrap: the destination receives the source as it was before
    the call, however the two overlap, and nothing else changes. -/
theorem memmove_moves (m : Memory) (des src size : BitVec 32)
    (hdes : des.toNat + size.toNat ≤ 2 ^ 32) (hsrc : src.toNat + size.toNat ≤ 2 ^ 32) :
    (∀ i, i < size.toNat →
      memmove m des src size (des + BitVec.ofNat 32 i) = m (src + BitVec.ofNat 32 i)) ∧
    OnlyIn des size.toNat m (memmove m des src size) := by
  constructor
  · intro i hi
    exact memmove_add hdes hi (by omega)
  · exact onlyIn_memmove

/-- Three bytes moved up by one: the source is read before it is overwritten. -/
theorem memmove_moves_up :
    (∀ i, i < 3 → memmove (storeBytes (fun _ => 0) 0x100 [1, 2, 3]) 0x101 0x100 3
        (0x101 + BitVec.ofNat 32 i) =
      storeBytes (fun _ => 0) 0x100 [1, 2, 3] (0x100 + BitVec.ofNat 32 i)) ∧
    OnlyIn 0x101 3 (storeBytes (fun _ => 0) 0x100 [1, 2, 3])
      (memmove (storeBytes (fun _ => 0) 0x100 [1, 2, 3]) 0x101 0x100 3) :=
  memmove_moves _ 0x101 0x100 3 (by decide) (by decide)

end spec

end Avos
