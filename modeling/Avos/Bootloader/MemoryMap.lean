import Avos.Bootloader.Services
import Avos.Library.Intervals

/-! # The Map of Available Memory

  `Memory_StoreInfo` makes a list of the blocks of available memory from the E820 map. Its
  first loop is a `Sweep` of the available entries: a block begins at the lowest base from the
  end of the block before it on, and grows in one pass over the map (`storeBlocks_sweep`).

  One pass is enough if and only if the entries of a block can be followed in the order of the
  map (`storeInfo_canonical_iff`).
-/

open ByteMemory Intervals

namespace Avos.Multiboot

/-! ## Section 1: The Map and the Blocks -/

/-- The first address of entry `i` of the map. -/
def entryBase (m : Memory) (table : BitVec 32) (i : Nat) : Nat :=
  (load64 m (e820Entry table i)).toNat

/-- The address after entry `i`. -/
def entryEnd (m : Memory) (table : BitVec 32) (i : Nat) : Nat :=
  entryBase m table i + (load64 m (e820Entry table i + 8)).toNat

/-- The entries of available memory. -/
def available (m : Memory) (table : BitVec 32) (n : Nat) : List Nat :=
  (List.range n).filter fun i => IsAvailable m (e820Entry table i)

/-- Those that begin at `t` or above. -/
def remaining (m : Memory) (table : BitVec 32) (n t : Nat) : List Nat :=
  (available m table n).filter (t ≤ entryBase m table ·)

/-- No entry is empty, or goes beyond the address space. -/
structure ValidMap (m : Memory) (table : BitVec 32) (n : Nat) : Prop where
  nonempty : ∀ i < n, entryBase m table i < entryEnd m table i
  fits : ∀ i < n, entryEnd m table i < 2 ^ 64

/-- The list of blocks is written beside the map, and has the room it needs. -/
structure HasRoom (addr table : BitVec 32) (n : Nat) : Prop where
  fits : table.toNat + 24 * n ≤ 2 ^ 32
  room : addr.toNat + (16 * n + 24) < 2 ^ 32
  apart : Apart table (24 * n) addr (16 * n + 24)

/-- The first address of block `i` of a list, and the address after it. -/
def ramBlock (m : Memory) (addr : BitVec 32) (i : Nat) : Nat × Nat :=
  ((load64 m (blockEntry addr i)).toNat,
    (load64 m (blockEntry addr i)).toNat + (load64 m (blockEntry addr i + 8)).toNat)

/-- The first `k` blocks. -/
def ramBlocks (m : Memory) (addr : BitVec 32) (k : Nat) : List (Nat × Nat) :=
  (List.range k).map (ramBlock m addr)

/-- The blocks of a list that ends at `last`. -/
def storedBlocks (m : Memory) (addr last : BitVec 32) : List (Nat × Nat) :=
  ramBlocks m addr ((last - addr).toNat / 16)

section map

variable {m m' : Memory} {table addr : BitVec 32} {n i k : Nat}

theorem available_succ : available m table (n + 1) = available m table n ++
    if IsAvailable m (e820Entry table n) then [n] else [] := by
  rw [available, List.range_succ, List.filter_append]
  by_cases h : IsAvailable m (e820Entry table n)
  · rw [if_pos h, List.filter_cons_of_pos (by simpa using h)]
    rfl
  · rw [if_neg h, List.filter_cons_of_neg (by simpa using h)]
    rfl

theorem mem_available : i ∈ available m table n ↔ i < n ∧ IsAvailable m (e820Entry table i) := by
  rw [available, List.mem_filter, List.mem_range, decide_eq_true_eq]

theorem length_remaining_le {t : Nat} : (remaining m table n t).length ≤ n :=
  calc (remaining m table n t).length
    _ ≤ (available m table n).length := List.length_filter_le _ _
    _ ≤ (List.range n).length := List.length_filter_le _ _
    _ = n := List.length_range

theorem growAll_available {b : Nat} :
    growAll (entryBase m table) (entryEnd m table) b (available m table (n + 1)) =
      if IsAvailable m (e820Entry table n) then
        grow (entryBase m table) (entryEnd m table)
          (growAll (entryBase m table) (entryEnd m table) b (available m table n)) n
      else growAll (entryBase m table) (entryEnd m table) b (available m table n) := by
  rw [available_succ, growAll, List.foldl_append]
  split
  · rfl
  · rfl

/-! ## Section 2: One Block -/

theorem ValidMap.of_succ (h : ValidMap m table (n + 1)) : ValidMap m table n where
  nonempty i hi := h.nonempty i (by omega)
  fits i hi := h.fits i (by omega)

/-- No block ends beyond the address space. -/
theorem ValidMap.growAll_lt (h : ValidMap m table n) {b : Nat} (hb : b < 2 ^ 64) :
    growAll (entryBase m table) (entryEnd m table) b (available m table n) < 2 ^ 64 := by
  induction n with
  | zero => exact hb
  | succ n ih =>
    have hrest := ih h.of_succ
    rw [growAll_available]
    split
    · rw [grow]
      split
      · exact h.fits n (by omega)
      · exact hrest
    · exact hrest

/-- The base that is chosen is the lowest one of those that are left. -/
theorem closestBoundary_spec (h : ValidMap m table n) (address : BitVec 64) :
    (closestBoundary m table address n = ~~~0 ∧
      ∀ i ∈ available m table n, entryBase m table i < address.toNat) ∨
    ∃ i ∈ available m table n, address.toNat ≤ entryBase m table i ∧
      (∀ j ∈ available m table n, address.toNat ≤ entryBase m table j →
        entryBase m table i ≤ entryBase m table j) ∧
      closestBoundary m table address n = load64 m (e820Entry table i) := by
  induction n with
  | zero => exact .inl ⟨rfl, fun i hi => absurd hi List.not_mem_nil⟩
  | succ n ih =>
    have hlimit : (~~~0 : BitVec 64).toNat = 2 ^ 64 - 1 := by decide
    have hbase : entryBase m table n < 2 ^ 64 - 1 := by
      have := h.nonempty n (by omega)
      have := h.fits n (by omega)
      omega
    rw [closestBoundary, available_succ]
    by_cases hn : IsAvailable m (e820Entry table n)
    · rw [if_pos hn]
      rcases ih h.of_succ with ⟨hc, hall⟩ | ⟨i, hi, hle, hmin, hc⟩
      · rw [hc]
        by_cases ha : address ≤ load64 m (e820Entry table n)
        · have hlt : load64 m (e820Entry table n) < ~~~0 := by
            rw [BitVec.lt_def, hlimit]
            exact hbase
          rw [if_pos ⟨hn, ha, hlt⟩]
          refine .inr ⟨n, by simp, BitVec.le_def.mp ha, fun j hj hle => ?_, rfl⟩
          rcases List.mem_append.mp hj with hj | hj
          · exact absurd (hall j hj) (by omega)
          · rw [List.mem_singleton.mp hj]
        · rw [if_neg fun h => ha h.2.1]
          refine .inl ⟨rfl, fun j hj => ?_⟩
          rcases List.mem_append.mp hj with hj | hj
          · exact hall j hj
          · rw [List.mem_singleton.mp hj, entryBase]
            exact BitVec.lt_def.mp (BitVec.not_le.mp ha)
      · rw [hc]
        by_cases ha : address ≤ load64 m (e820Entry table n) ∧
            load64 m (e820Entry table n) < load64 m (e820Entry table i)
        · rw [if_pos ⟨hn, ha⟩]
          refine .inr ⟨n, by simp, BitVec.le_def.mp ha.1, fun j hj hle' => ?_, rfl⟩
          rcases List.mem_append.mp hj with hj | hj
          · exact Nat.le_trans (Nat.le_of_lt (BitVec.lt_def.mp ha.2)) (hmin j hj hle')
          · rw [List.mem_singleton.mp hj]
        · rw [if_neg fun h => ha h.2]
          refine .inr ⟨i, List.mem_append_left _ hi, hle, fun j hj hle' => ?_, rfl⟩
          rcases List.mem_append.mp hj with hj | hj
          · exact hmin j hj hle'
          · rw [List.mem_singleton.mp hj] at hle' ⊢
            exact Nat.le_of_not_lt fun hlt =>
              ha ⟨BitVec.le_def.mpr hle', BitVec.lt_def.mpr hlt⟩
    · rw [if_neg hn, List.append_nil]
      rw [if_neg fun h => hn h.1]
      exact ih h.of_succ

/-- The size of a block is made in one pass. -/
theorem blockSize_spec (h : ValidMap m table n) (address : BitVec 64) :
    address.toNat + (blockSize m table address n).toNat =
      growAll (entryBase m table) (entryEnd m table) address.toNat (available m table n) := by
  induction n with
  | zero => exact Nat.add_zero _
  | succ n ih =>
    have hprev := ih h.of_succ
    have hlt := h.of_succ.growAll_lt address.isLt
    have hfits := h.fits n (by omega)
    rw [growAll_available, blockSize, ← hprev]
    rw [← hprev] at hlt
    have hend : (load64 m (e820Entry table n) + load64 m (e820Entry table n + 8)).toNat =
        entryEnd m table n := by
      rw [BitVec.toNat_add]
      exact Nat.mod_eq_of_lt hfits
    have hblock : (address + blockSize m table address n).toNat =
        address.toNat + (blockSize m table address n).toNat := by
      rw [BitVec.toNat_add, Nat.mod_eq_of_lt hlt]
    by_cases hn : IsAvailable m (e820Entry table n)
    · rw [if_pos hn, grow, ← hend, ← hblock]
      by_cases hgrow : address + blockSize m table address n ≤
          load64 m (e820Entry table n) + load64 m (e820Entry table n + 8) ∧
          load64 m (e820Entry table n) ≤ address + blockSize m table address n
      · rw [if_pos ⟨hn, hgrow⟩, if_pos ⟨BitVec.le_def.mp hgrow.1, BitVec.le_def.mp hgrow.2⟩]
        have := BitVec.le_def.mp hgrow.1
        bv_omega
      · rw [if_neg fun h => hgrow h.2, if_neg fun h => hgrow
          ⟨BitVec.le_def.mpr h.1, BitVec.le_def.mpr h.2⟩, hblock]
    · rw [if_neg hn, if_neg fun h => hn h.1]

/-! ## Section 3: The List of Blocks -/

/-- The map is the same in both memories. -/
def SameMap (table : BitVec 32) (n : Nat) (m m' : Memory) : Prop :=
  ∀ x, InBytes table (24 * n) x → m' x = m x

theorem SameMap.entry (h : SameMap table n m m') (hn : table.toNat + 24 * n ≤ 2 ^ 32) (hi : i < n) :
    load64 m' (e820Entry table i) = load64 m (e820Entry table i) ∧
      load64 m' (e820Entry table i + 8) = load64 m (e820Entry table i + 8) ∧
        (IsAvailable m' (e820Entry table i) ↔ IsAvailable m (e820Entry table i)) := by
  have hentry : ∀ x, InBytes (e820Entry table i) 24 x → m' x = m x :=
    fun x hx => h x (hx.of_add (by omega) (by omega))
  have hsize := load64_congr fun x hx => hentry x (hx.of_add (i := 8) (by decide) (by decide))
  have htype := load32_congr_of_add (i := 16) hentry (by decide) (by decide)
  have hacpi := load32_congr_of_add (i := 20) hentry (by decide) (by decide)
  refine ⟨load64_congr fun x hx => hentry x (hx.mono (by decide)), hsize, ?_⟩
  have htype' : load32 m' (e820Entry table i + 16) = load32 m (e820Entry table i + 16) := htype
  have hacpi' : load32 m' (e820Entry table i + 20) = load32 m (e820Entry table i + 20) := hacpi
  rw [IsAvailable, IsAvailable, htype', hacpi']

theorem SameMap.round (h : SameMap table n m m') (hn : table.toNat + 24 * n ≤ 2 ^ 32)
    (address : BitVec 64) :
    closestBoundary m' table address n = closestBoundary m table address n ∧
      blockSize m' table address n = blockSize m table address n := by
  suffices hk : ∀ k ≤ n, closestBoundary m' table address k = closestBoundary m table address k ∧
      blockSize m' table address k = blockSize m table address k from hk n (Nat.le_refl n)
  intro k hk
  induction k with
  | zero => exact ⟨rfl, rfl⟩
  | succ k ih =>
    obtain ⟨hbase, hsize, havail⟩ := h.entry hn (i := k) (by omega)
    obtain ⟨hclosest, hblock⟩ := ih (by omega)
    simp only [closestBoundary, blockSize, hbase, hsize, havail, hclosest, hblock, and_self]

/-- What a round of the loop writes: the block at `ptr`, and the address of the next one. -/
def storeBlock (m : Memory) (ptr : BitVec 32) (closest size : BitVec 64) : Memory :=
  store64 (store64 (store64 (store64 m ptr closest) (ptr + 8) 0) (ptr + 8) size) (ptr + 16)
    (closest + size)

theorem onlyIn_storeBlock {ptr : BitVec 32} {closest size : BitVec 64} :
    OnlyIn ptr 24 m (storeBlock m ptr closest size) := by
  have hptr : ∀ {m v} (j : Nat), j + 8 ≤ 24 → OnlyIn ptr 24 m
      (store64 m (ptr + BitVec.ofNat 32 j) v) := fun j hj => onlyIn_store64.of_add hj (by decide)
  exact (((onlyIn_store64.mono (by decide)).trans (hptr 8 (by decide))).trans
    (hptr 8 (by decide))).trans (hptr 16 (by decide))

theorem load64_storeBlock {ptr : BitVec 32} {closest size : BitVec 64} :
    load64 (storeBlock m ptr closest size) ptr = closest ∧
      load64 (storeBlock m ptr closest size) (ptr + 8) = size ∧
        load64 (storeBlock m ptr closest size) (ptr + 16) = closest + size := by
  have hbeside : ∀ {m v} (i j : Nat), j + 8 ≤ i → i < 24 → load64 (store64 m
      (ptr + BitVec.ofNat 32 i) v) (ptr + BitVec.ofNat 32 j) =
        load64 m (ptr + BitVec.ofNat 32 j) := fun i j hij hi =>
    onlyIn_store64.load64_add (.inl hij) (by omega) (by omega)
  have hzero : ptr + BitVec.ofNat 32 0 = ptr := BitVec.add_zero _
  have hfirst := fun m v (i : Nat) (hi : 8 ≤ i ∧ i < 24) =>
    hzero ▸ hbeside (m := m) (v := v) i 0 hi.1 hi.2
  refine ⟨?_, ?_, load64_store64⟩
  · exact (hfirst _ _ 16 (by decide)).trans ((hfirst _ _ 8 (by decide)).trans
      ((hfirst _ _ 8 (by decide)).trans load64_store64))
  · exact (hbeside 16 8 (by decide) (by decide)).trans load64_store64

theorem ramBlock_congr (h : load64 m' (blockEntry addr i) = load64 m (blockEntry addr i))
    (h' : load64 m' (blockEntry addr i + 8) = load64 m (blockEntry addr i + 8)) :
    ramBlock m' addr i = ramBlock m addr i := by
  rw [ramBlock, ramBlock, h, h']

theorem blockEntry_add : blockEntry addr i + 8 = addr + BitVec.ofNat 32 (16 * i + 8) := by
  rw [blockEntry, BitVec.add_assoc, BitVec.ofNat_add]
  rfl

theorem blockEntry_succ : blockEntry addr (i + 1) = blockEntry addr i + 16 := by
  rw [blockEntry, blockEntry, Nat.mul_add, BitVec.ofNat_add, ← BitVec.add_assoc]
  rfl

/-- A block beside a change stays as it is. -/
theorem ramBlock_of_onlyIn {c : Nat} (h : OnlyIn (blockEntry addr k) c m m')
    (hi : i < k ∨ 16 * k + c ≤ 16 * i) (hc : 16 * k + c ≤ 2 ^ 32) (hlt : 16 * i + 16 ≤ 2 ^ 32) :
    ramBlock m' addr i = ramBlock m addr i := by
  rw [blockEntry] at h
  refine ramBlock_congr (h.load64_add (by omega) hc (by omega)) ?_
  rw [blockEntry_add]
  exact h.load64_add (by omega) hc (by omega)

/-- The blocks below a change stay as they are. -/
theorem ramBlocks_of_onlyIn {c : Nat} (h : OnlyIn (blockEntry addr k) c m m')
    (hc : 16 * k + c ≤ 2 ^ 32) : ramBlocks m' addr k = ramBlocks m addr k := by
  refine List.map_congr_left fun i hi => ?_
  have hi' := List.mem_range.mp hi
  exact ramBlock_of_onlyIn h (.inl hi') hc (by omega)

theorem ramBlocks_succ : ramBlocks m addr (k + 1) = ramBlocks m addr k ++ [ramBlock m addr k] := by
  rw [ramBlocks, List.range_succ, List.map_append]
  rfl

/-- The loop makes the blocks of a sweep, and a round for each of them. -/
theorem storeBlocks_sweep (hv : ValidMap m table n) (hroom : HasRoom addr table n) :
    ∀ (fuel count : Nat) (m' : Memory), SameMap table n m m' →
      let t := (load64 m' (blockEntry addr count)).toNat
      count + (remaining m table n t).length ≤ n → (remaining m table n t).length < fuel →
        ∃ bs m'', storeBlocks table n addr fuel count m' = some (count + bs.length, m'') ∧
          Sweep (entryBase m table) (entryEnd m table) (available m table n) t bs ∧
            ramBlocks m'' addr (count + bs.length) = ramBlocks m' addr count ++ bs := by
  have hfits := hroom.fits
  have hspace := hroom.room
  intro fuel
  induction fuel with
  | zero => exact fun _ _ _ _ h => absurd h (Nat.not_lt_zero _)
  | succ fuel ih =>
    intro count m' hsame t hcount hfuel
    have hle : (blockEntry addr count).toNat = addr.toNat + 16 * count := by
      rw [blockEntry]
      exact toNat_add_ofNat (by omega)
    rw [storeBlocks, withRoom, if_pos (by omega)]
    dsimp only
    rw [(hsame.round hfits _).1]
    rcases closestBoundary_spec hv (load64 m' (blockEntry addr count)) with
      ⟨hc, hdone⟩ | ⟨i, hi, hti, hmin, hc⟩
    · rw [hc, if_pos rfl]
      exact ⟨[], m', rfl, .done hdone, (List.append_nil _).symm⟩
    · have hin := (mem_available.mp hi).1
      have hne : load64 m (e820Entry table i) ≠ ~~~0 := by
        intro heq
        have hlimit : (~~~0 : BitVec 64).toNat = 2 ^ 64 - 1 := by decide
        have hbase : entryBase m table i = 2 ^ 64 - 1 := (congrArg BitVec.toNat heq).trans hlimit
        have := hv.nonempty i hin
        have := hv.fits i hin
        omega
      have hleft : (remaining m table n (growAll (entryBase m table) (entryEnd m table)
          (entryBase m table i) (available m table n))).length < (remaining m table n t).length :=
        length_left_lt hi hti (lt_growAll hi (hv.nonempty i hin))
      -- the block is written beside the map
      have hbeside : ∀ m₁, OnlyIn (blockEntry addr count) 24 m' m₁ → SameMap table n m m₁ :=
        fun m₁ honly x hx => (honly x fun hx' =>
          hroom.apart x hx (hx'.of_add (by omega) (by omega))).trans (hsame x hx)
      have hcleared : OnlyIn (blockEntry addr count) 24 m' (store64 (store64 m'
          (blockEntry addr count) (load64 m (e820Entry table i))) (blockEntry addr count + 8) 0) :=
        (onlyIn_store64.mono (by decide)).trans
          (onlyIn_store64.of_add (i := 8) (by decide) (by decide))
      rw [hc, if_neg hne, ((hbeside _ hcleared).round hfits _).2]
      have hgrow := blockSize_spec hv (load64 m (e820Entry table i))
      generalize blockSize m table (load64 m (e820Entry table i)) n = size at hgrow ⊢
      have hend := hv.growAll_lt (load64 m (e820Entry table i)).isLt
      have honly : OnlyIn (blockEntry addr count) 24 m'
          (storeBlock m' (blockEntry addr count) (load64 m (e820Entry table i)) size) :=
        onlyIn_storeBlock
      obtain ⟨hblock, hblockSize, hnext⟩ := @load64_storeBlock m' (blockEntry addr count)
        (load64 m (e820Entry table i)) size
      have ht : (load64 (storeBlock m' (blockEntry addr count) (load64 m (e820Entry table i)) size)
          (blockEntry addr (count + 1))).toNat = growAll (entryBase m table) (entryEnd m table)
            (entryBase m table i) (available m table n) := by
        rw [blockEntry_succ, hnext, BitVec.toNat_add, hgrow, Nat.mod_eq_of_lt hend]
        rfl
      obtain ⟨bs, m'', hrun, hsweep, hlist⟩ := ih (count + 1) _ (hbeside _ honly)
        (by rw [ht]; omega) (by rw [ht]; omega)
      rw [ht] at hsweep
      refine ⟨_, m'', ?_, .block hi hti hmin hsweep, ?_⟩
      · rw [List.length_cons, ← Nat.add_assoc, Nat.add_right_comm]
        exact hrun
      · rw [List.length_cons, ← Nat.add_assoc, Nat.add_right_comm, hlist, ramBlocks_succ,
          ramBlocks_of_onlyIn honly (by omega), List.append_assoc, ramBlock, hblock, hblockSize,
          hgrow]
        rfl

theorem ValidMap.lt_of_available (h : ValidMap m table n) :
    ∀ i ∈ available m table n, entryBase m table i < entryEnd m table i :=
  fun i hi => h.nonempty i (mem_available.mp hi).1

/-- There are no more blocks than entries. -/
theorem ValidMap.blocks_le (h : ValidMap m table n) {bs : List (Nat × Nat)}
    (hs : Sweep (entryBase m table) (entryEnd m table) (available m table n) 0 bs) :
    bs.length ≤ n :=
  Nat.le_trans (hs.length_le h.lt_of_available) length_remaining_le

/-- The first loop, from the cleared first block on. -/
theorem storeBlocks_start (hv : ValidMap m table n) (hroom : HasRoom addr table n) {fuel : Nat}
    (hfuel : n < fuel) :
    ∃ bs m', storeBlocks table n addr fuel 0 (store64 (store64 m addr 0) (addr + 8) 0) =
        some (bs.length, m') ∧
      Sweep (entryBase m table) (entryEnd m table) (available m table n) 0 bs ∧
        ramBlocks m' addr bs.length = bs := by
  have hspace := hroom.room
  have honly : OnlyIn addr 16 m (store64 (store64 m addr 0) (addr + 8) 0) :=
    (onlyIn_store64.mono (by decide)).trans (onlyIn_store64.of_add (i := 8) (by decide) (by decide))
  have hsame : SameMap table n m (store64 (store64 m addr 0) (addr + 8) 0) :=
    fun x hx => honly x fun hx' => hroom.apart x hx (hx'.mono (by omega))
  have hstart : blockEntry addr 0 = addr := BitVec.add_zero _
  have hzero : load64 (store64 (store64 m addr 0) (addr + 8) 0) (blockEntry addr 0) = 0 := by
    have hbeside : load64 (store64 (store64 m addr 0) (addr + BitVec.ofNat 32 8) 0)
        (addr + BitVec.ofNat 32 0) = load64 (store64 m addr 0) (addr + BitVec.ofNat 32 0) :=
      onlyIn_store64.load64_add (.inl (by decide)) (by decide) (by decide)
    exact hbeside.trans ((congrArg _ hstart).trans load64_store64)
  have hlength := @length_remaining_le m table n (load64 (store64 (store64 m addr 0) (addr + 8) 0)
    (blockEntry addr 0)).toNat
  obtain ⟨bs, m', hrun, hsweep, hlist⟩ := storeBlocks_sweep hv hroom fuel 0 _ hsame
    (by omega) (by omega)
  rw [Nat.zero_add] at hrun hlist
  rw [hzero] at hsweep
  exact ⟨bs, m', hrun, hsweep, hlist⟩

end map

/-! ## Section 4: What the List Says -/

section results

variable {m m' : Memory} {table addr : BitVec 32} {n k fuel : Nat}

/-- The loop ends, with no more blocks than entries, and each block is made of available memory
    and begins where the one before has ended. -/
theorem storeBlocks_ends (hv : ValidMap m table n) (hroom : HasRoom addr table n) :
    ∃ count m', storeBlocks table n addr (n + 1) 0 (store64 (store64 m addr 0) (addr + 8) 0) =
        some (count, m') ∧ count ≤ n ∧
      (∀ b ∈ ramBlocks m' addr count, b.1 < b.2 ∧ ∀ c, b.1 ≤ c → c < b.2 →
        Covered (entryBase m table) (entryEnd m table) (available m table n) c) ∧
      (ramBlocks m' addr count).Pairwise fun b b' => b.2 ≤ b'.1 := by
  obtain ⟨bs, m', hrun, hsweep, hlist⟩ := storeBlocks_start hv hroom (Nat.lt_succ_self n)
  refine ⟨bs.length, m', hrun, hv.blocks_le hsweep, ?_, ?_⟩
  · rw [hlist]
    exact fun b hb => ⟨hsweep.nonempty hv.lt_of_available b hb,
      fun c hc hc' => hsweep.covered hb hc hc'⟩
  · rw [hlist]
    exact hsweep.ordered

theorem getElem_ramBlocks {i : Nat} (hi : i < (ramBlocks m addr k).length) :
    (ramBlocks m addr k)[i] = ramBlock m addr i := by
  simp only [ramBlocks, List.getElem_map, List.getElem_range]

/-- Where no block is empty there is nothing to remove. -/
theorem removeEmpty_of_nonempty (h : ∀ b ∈ ramBlocks m addr k, b.1 < b.2) :
    ∀ r i, removeEmpty addr r i k m = (k, m) := by
  intro r
  induction r with
  | zero => exact fun _ => rfl
  | succ r ih =>
    intro i
    rw [removeEmpty]
    split
    · rfl
    · next hik =>
      have hblock := h (ramBlock m addr i)
        (List.mem_map.mpr ⟨i, List.mem_range.mpr (by omega), rfl⟩)
      have hsize : load64 m (blockEntry addr i + 8) ≠ 0 := by
        intro hzero
        rw [ramBlock, hzero] at hblock
        exact absurd hblock (Nat.lt_irrefl _)
      rw [if_neg hsize]
      exact ih (i + 1)

theorem storedBlocks_blockEntry (hk : 16 * k < 2 ^ 32) :
    storedBlocks m addr (blockEntry addr k) = ramBlocks m addr k := by
  have hlast : (blockEntry addr k - addr).toNat = 16 * k := by
    rw [blockEntry, BitVec.add_comm, BitVec.add_sub_cancel, BitVec.toNat_ofNat,
      Nat.mod_eq_of_lt hk]
  rw [storedBlocks, hlast, Nat.mul_div_cancel_left k (by decide)]

/-- The list that is not rounded to pages is the sweep of the map. -/
theorem storeInfo_sweep (hv : ValidMap m table n) (hroom : HasRoom addr table n)
    (hfuel : n < fuel) :
    ∃ bs m', storeBlocks table n addr fuel 0 (store64 (store64 m addr 0) (addr + 8) 0) =
        some (bs.length, m') ∧
      Sweep (entryBase m table) (entryEnd m table) (available m table n) 0 bs ∧
      ramBlocks m' addr bs.length = bs ∧
      storeInfo fuel addr false table n m = some (blockEntry addr bs.length, m') ∧
      storedBlocks m' addr (blockEntry addr bs.length) = bs := by
  obtain ⟨bs, m', hrun, hsweep, hlist⟩ := storeBlocks_start hv hroom hfuel
  have hspace := hroom.room
  have hlength := hv.blocks_le hsweep
  have hnonempty : ∀ b ∈ ramBlocks m' addr bs.length, b.1 < b.2 := by
    rw [hlist]
    exact hsweep.nonempty hv.lt_of_available
  have hremove := removeEmpty_of_nonempty hnonempty bs.length 0
  refine ⟨bs, m', hrun, hsweep, hlist, ?_, ?_⟩
  · rw [storeInfo, withRoom, if_pos (by omega), hrun]
    dsimp only
    rw [if_neg (by decide), hremove]
  · rw [storedBlocks_blockEntry (by omega), hlist]

/-- The list is canonical if and only if the entries of each block can be followed in the order
    of the map. -/
theorem storeInfo_canonical_iff (hv : ValidMap m table n) (hroom : HasRoom addr table n)
    (hfuel : n < fuel) :
    ∃ last m', storeInfo fuel addr false table n m = some (last, m') ∧
      (Canonical (entryBase m table) (entryEnd m table) (available m table n)
          (storedBlocks m' addr last) ↔
        ∀ i ∈ available m table n,
          InOrder (entryBase m table) (entryEnd m table) (available m table n) i) := by
  obtain ⟨bs, m', -, hsweep, -, hrun, hlist⟩ := storeInfo_sweep hv hroom hfuel
  refine ⟨blockEntry addr bs.length, m', hrun, ?_⟩
  rw [hlist]
  exact hsweep.canonical_iff hv.lt_of_available fun _ _ => Nat.zero_le _

end results

/-! ## Section 5: A Concrete Map -/

/-- A map in memory: entries of base, size, type and flags. -/
def mapMemory (table : BitVec 32) : List (BitVec 64 × BitVec 64 × BitVec 32 × BitVec 32) → Memory
  | [] => fun _ => 0
  | (base, size, type, acpi3) :: l =>
      let m := mapMemory (table + 24) l
      let m := store64 (store64 m table base) (table + 8) size
      store32 (store32 m (table + 16) type) (table + 20) acpi3

/-- Three overlapping entries, of which the last comes between the others. -/
def unsortedMap : Memory :=
  mapMemory 0x1000 [(0, 0x1000, 1, 1), (0x1800, 0x1800, 1, 1), (0x800, 0x1800, 1, 1)]

theorem validMap_unsortedMap : ValidMap unsortedMap 0x1000 3 :=
  ⟨by decide +kernel, by decide +kernel⟩

theorem hasRoom_unsortedMap : HasRoom 0x2000 0x1000 3 := by
  refine ⟨by decide, by decide, fun x hx hx' => ?_⟩
  rw [InBytes] at hx hx'
  bv_omega

theorem storedBlocks_unsortedMap :
    (storeInfo 4 0x2000 false 0x1000 3 unsortedMap).map
      (fun r => storedBlocks r.2 0x2000 r.1) = some [(0, 0x2000)] := by
  decide +kernel

theorem storeBlocks_ends_unsortedMap : ∃ count m',
    storeBlocks 0x1000 3 0x2000 4 0 (store64 (store64 unsortedMap 0x2000 0) (0x2000 + 8) 0) =
        some (count, m') ∧ count ≤ 3 ∧
      (∀ b ∈ ramBlocks m' 0x2000 count, b.1 < b.2 ∧ ∀ c, b.1 ≤ c → c < b.2 →
        Covered (entryBase unsortedMap 0x1000) (entryEnd unsortedMap 0x1000)
          (available unsortedMap 0x1000 3) c) ∧
      (ramBlocks m' 0x2000 count).Pairwise fun b b' => b.2 ≤ b'.1 :=
  storeBlocks_ends validMap_unsortedMap hasRoom_unsortedMap

theorem storeInfo_canonical_iff_unsortedMap : ∃ last m',
    storeInfo 4 0x2000 false 0x1000 3 unsortedMap = some (last, m') ∧
      (Canonical (entryBase unsortedMap 0x1000) (entryEnd unsortedMap 0x1000)
          (available unsortedMap 0x1000 3) (storedBlocks m' 0x2000 last) ↔
        ∀ i ∈ available unsortedMap 0x1000 3,
          InOrder (entryBase unsortedMap 0x1000) (entryEnd unsortedMap 0x1000)
            (available unsortedMap 0x1000 3) i) :=
  storeInfo_canonical_iff validMap_unsortedMap hasRoom_unsortedMap (by decide)

/-- The memory from `0x2000` on is lost. -/
theorem not_forall_canonical : ¬∀ (m : Memory) (addr table : BitVec 32) (n fuel : Nat),
    ValidMap m table n → HasRoom addr table n → n < fuel →
      ∃ last m', storeInfo fuel addr false table n m = some (last, m') ∧
        Canonical (entryBase m table) (entryEnd m table) (available m table n)
          (storedBlocks m' addr last) := by
  intro h
  obtain ⟨last, m', hrun, hcanonical⟩ := h unsortedMap 0x2000 0x1000 3 4 validMap_unsortedMap
    hasRoom_unsortedMap (by decide)
  have hblocks := storedBlocks_unsortedMap
  rw [hrun, Option.map_some, Option.some.injEq] at hblocks
  have hcovered : Covered (entryBase unsortedMap 0x1000) (entryEnd unsortedMap 0x1000)
      (available unsortedMap 0x1000 3) 0x2000 :=
    ⟨1, by decide +kernel, by decide +kernel, by decide +kernel⟩
  obtain ⟨b, hb, -, hlt⟩ := (hcanonical.union 0x2000).mpr hcovered
  rw [hblocks, List.mem_singleton] at hb
  rw [hb] at hlt
  exact absurd hlt (by decide)

end Avos.Multiboot
