import Avos.Memory.Boot

/-! # The Bitmaps of the Buddy Allocator

  One bit of `Page_maps[order]` stands for a pair of buddies of that order. The macros
  `PAGE_MAP_IDX` and `PAGE_MAP_BIT` take an address of either of the two to the bit, and
  `PAGE_BUDDY` goes from the one to the other.

  The block of order `k` with number `n` is at the address `n * 2 ^ (12 + k)`, and its pair has
  the number `n / 2`.
-/

open Buddy

namespace Avos

/-! ## Section 1: The Sizes -/

/-- `Page_maps_size`, as it is written in the source: an entry for each order. -/
def pageMapsSizes : List Nat := [
  (kernelMmapVirtualEnd - kernelMmapVirtualStart) / 0x10000,
  (kernelMmapVirtualEnd - kernelMmapVirtualStart) / 0x20000,
  (kernelMmapVirtualEnd - kernelMmapVirtualStart) / 0x40000,
  (kernelMmapVirtualEnd - kernelMmapVirtualStart) / 0x80000,
  (kernelMmapVirtualEnd - kernelMmapVirtualStart) / 0x100000,
  (kernelMmapVirtualEnd - kernelMmapVirtualStart) / 0x200000,
  (kernelMmapVirtualEnd - kernelMmapVirtualStart) / 0x400000,
  (kernelMmapVirtualEnd - kernelMmapVirtualStart) / 0x800000,
  (kernelMmapVirtualEnd - kernelMmapVirtualStart) / 0x1000000,
  (kernelMmapVirtualEnd - kernelMmapVirtualStart) / 0x2000000,
  (kernelMmapVirtualEnd - kernelMmapVirtualStart) / 0x4000000]

/-- The entries follow one formula, and there is one for each order. -/
theorem pageMapsSizes_eq : pageMapsSizes = (List.range (pageMaxOrder + 1)).map pageMapsSize := by
  decide

theorem getElem?_pageMapsSizes {k : Nat} (hk : k ≤ pageMaxOrder) :
    pageMapsSizes[k]? = some (pageMapsSize k) := by
  rw [pageMapsSizes_eq, List.getElem?_map, List.getElem?_range (Nat.lt_succ_of_le hk)]
  rfl

section addressing

variable {k n a b : Nat}

/-! ## Section 2: Pairs -/

/-- The pair of the block with number `n`. -/
theorem block_pair : n * 2 ^ (12 + k) / 2 ^ (13 + k) = n / 2 := by
  rw [show 13 + k = 1 + (12 + k) by omega, Nat.pow_add 2 1, Nat.pow_one,
    Nat.mul_div_mul_right _ _ (Nat.two_pow_pos (12 + k))]

/-- A byte index and a bit number are those of one pair only. -/
theorem pageMap_eq_iff : pageMapIdx a k = pageMapIdx b k ∧ pageMapBit a k = pageMapBit b k ↔
    a / 2 ^ (13 + k) = b / 2 ^ (13 + k) := by
  rw [PhysMem.pageMapIdx_eq, PhysMem.pageMapIdx_eq, PhysMem.pageMapBit_eq, PhysMem.pageMapBit_eq]
  omega

/-- The members of a pair are the two buddies. -/
theorem div_two_eq_iff {m : Nat} : m / 2 = n / 2 ↔ m = n ∨ m = buddy n := by
  unfold buddy
  split <;> omega

/-- The byte of an address in the window is one of the bitmap's. -/
theorem pageMapIdx_lt_size (hk : k ≤ pageMaxOrder) (ha : n * 2 ^ (12 + k) < 0x70000000) :
    pageMapIdx (n * 2 ^ (12 + k)) k < pageMapsSize k := by
  have haddr : n * 2 ^ (12 + k) = n * 2 ^ k * 2 ^ 12 := by
    rw [Nat.pow_add, Nat.mul_comm (2 ^ 12), Nat.mul_assoc]
  have hwin : windowPages = 0x70000 := by decide
  rw [haddr] at ha ⊢
  exact pageMapIdx_lt (by omega) hk

/-! ## Section 3: The Addressing -/

/-- Two blocks of the window share a bit if and only if they are in one pair, the bit is inside
    the bitmap, and `PAGE_BUDDY` is the other block of the pair. -/
theorem pageMaps_addressing (hk : k ≤ pageMaxOrder) (ha : a < 0x70000000) (hb : b < 0x70000000)
    (hda : 2 ^ (12 + k) ∣ a) (hdb : 2 ^ (12 + k) ∣ b) :
    (pageMapIdx a k = pageMapIdx b k ∧ pageMapBit a k = pageMapBit b k ↔
      a / 2 ^ (13 + k) = b / 2 ^ (13 + k)) ∧
    (∃ size, pageMapsSizes[k]? = some size ∧ pageMapIdx a k < size) ∧
    (a / 2 ^ (13 + k) = b / 2 ^ (13 + k) ↔ b = a ∨ b = pageBuddy a k) ∧
    2 ^ (12 + k) ∣ pageBuddy a k ∧ pageBuddy a k ≠ a ∧ pageBuddy a k < 0x70000000 ∧
    pageBuddy a k / 2 ^ (13 + k) = a / 2 ^ (13 + k) ∧ pageBuddy (pageBuddy a k) k = a := by
  obtain ⟨n, rfl⟩ := exists_eq_mul_left_of_dvd hda
  obtain ⟨m, rfl⟩ := exists_eq_mul_left_of_dvd hdb
  have hpos : 0 < 2 ^ (12 + k) := Nat.two_pow_pos (12 + k)
  have hk10 : k ≤ 10 := hk
  -- the window is made of whole pairs
  have hbelow : buddy n * 2 ^ (12 + k) < 0x70000000 := by
    have hdvd : 2 ^ (12 + k + 1) ∣ 0x70000000 :=
      (Nat.pow_dvd_pow 2 (by omega)).trans (show 2 ^ 23 ∣ 0x70000000 by decide)
    have hbuddy := buddy_mul_lt hdvd ha
    rwa [Nat.mul_div_cancel _ hpos] at hbuddy
  have hne : buddy n ≠ n := by
    unfold buddy
    split <;> omega
  rw [PhysMem.pageBuddy_mul hk (by omega), PhysMem.pageBuddy_mul hk (by omega), buddy_buddy,
    block_pair, block_pair, block_pair, buddy_div_two]
  refine ⟨?_, ⟨_, getElem?_pageMapsSizes hk, pageMapIdx_lt_size hk ha⟩, ?_, Nat.dvd_mul_left _ _,
    ?_, hbelow, rfl, rfl⟩
  · rw [pageMap_eq_iff, block_pair, block_pair]
  · rw [Nat.mul_left_inj (Nat.ne_of_gt hpos), Nat.mul_left_inj (Nat.ne_of_gt hpos), eq_comm]
    exact div_two_eq_iff
  · rwa [Ne, Nat.mul_left_inj (Nat.ne_of_gt hpos)]

end addressing

/-- The last block of the highest order, and the one before it. -/
theorem pageMaps_addressing_last :
    (pageMapIdx 0x6FC00000 10 = pageMapIdx 0x6F800000 10 ∧
      pageMapBit 0x6FC00000 10 = pageMapBit 0x6F800000 10 ↔
        0x6FC00000 / 2 ^ 23 = 0x6F800000 / 2 ^ 23) ∧
    (∃ size, pageMapsSizes[10]? = some size ∧ pageMapIdx 0x6FC00000 10 < size) ∧
    (0x6FC00000 / 2 ^ 23 = 0x6F800000 / 2 ^ 23 ↔
      0x6F800000 = 0x6FC00000 ∨ 0x6F800000 = pageBuddy 0x6FC00000 10) ∧
    2 ^ 22 ∣ pageBuddy 0x6FC00000 10 ∧ pageBuddy 0x6FC00000 10 ≠ 0x6FC00000 ∧
    pageBuddy 0x6FC00000 10 < 0x70000000 ∧
    pageBuddy 0x6FC00000 10 / 2 ^ 23 = 0x6FC00000 / 2 ^ 23 ∧
    pageBuddy (pageBuddy 0x6FC00000 10) 10 = 0x6FC00000 :=
  pageMaps_addressing (k := 10) (a := 0x6FC00000) (b := 0x6F800000) (by decide) (by decide)
    (by decide) (by decide) (by decide)

end Avos
