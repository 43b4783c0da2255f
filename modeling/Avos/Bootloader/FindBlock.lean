import Avos.Bootloader.Services
import Avos.Library.Search

/-! # Finding a Place in Memory

  `Memory_AlignAddress` and `Memory_FindBlockAddress` of `bootloader/multiboot/src/memory.c`.
  The loop over the blocks of RAM is a search: a block offers the multiple of the alignment
  next to its own end, and a block around the aligned address ends the search
  (`findBlock_above`, `isGreatest_findLoop`).

  Downwards the search finds the highest place (`findBlockAddress_below`). Upwards a block that
  ends where the range does is not seen to be around the aligned address, and the sums of the
  test can wrap (`findBlockAddress_above_iff`).
-/

open ByteMemory Searches

namespace Avos.Multiboot

/-! ## Section 1: The Functions -/

/-- `MEMORY_32BIT_LIMIT`. -/
def memory32BitLimit : BitVec 32 := 0xFFFFFFFF

/-- `Memory_AlignAddress`. -/
def alignAddress (addr align : BitVec 32) (above : Bool) : BitVec 32 :=
  if align ≤ 1 ∨ addr % align = 0 then addr
  else align * ((if above then 1 else 0) + addr / align)

/-- `struct BootInfo_BlockRAM`. -/
structure BlockRam where
  address : BitVec 64
  size : BitVec 64
deriving DecidableEq

/-- `mmap[i]`. -/
def readBlock (m : Memory) (mmap : BitVec 32) (i : Nat) : BlockRam :=
  ⟨load64 m (blockEntry mmap i), load64 m (blockEntry mmap i + 8)⟩

/-- The blocks `mmap[0], …, mmap[mmap_size - 1]`. -/
def mapBlocks (m : Memory) (mmap mmapSize : BitVec 32) : List BlockRam :=
  (List.range mmapSize.toNat).map (readBlock m mmap)

namespace BlockRam

variable (b : BlockRam)

/-- `mmap_entry_base`. -/
def base : BitVec 32 := b.address.setWidth 32

/-- `mmap_entry_size`. -/
def entrySize : BitVec 32 :=
  if 0xFFFFFFFF < b.address + b.size then (0xFFFFFFFF - b.address).setWidth 32
  else b.size.setWidth 32

/-- `mmap_entry_base + mmap_entry_size`. -/
def entryEnd : BitVec 32 := b.base + b.entrySize

end BlockRam

/-- `shifted_base`. -/
def BlockRam.shiftedBase (above : Bool) (size alignedAddr : BitVec 32) (b : BlockRam) :
    BitVec 32 :=
  if above then b.base
  else if alignedAddr ≤ b.entryEnd - size then alignedAddr
  else b.entryEnd - size

/-- `aligned_base`. -/
def BlockRam.alignedBase (above : Bool) (size align alignedAddr : BitVec 32) (b : BlockRam) :
    BitVec 32 :=
  alignAddress (b.shiftedBase above size alignedAddr) align above

/-- A round of the loop in `Memory_FindBlockAddress`. It may return an address, or it goes on
    with the next `mem`. -/
def findStep (addr : BitVec 32) (above : Bool) (size align alignedAddr mem : BitVec 32)
    (b : BlockRam) : Except (BitVec 32) (BitVec 32) :=
  let alignedBase := b.alignedBase above size align alignedAddr
  if 0xFFFFFFFF ≤ b.address then .ok mem
  else if b.entrySize < size then .ok mem
  else if alignedBase < b.base ∨ b.entryEnd ≤ alignedBase then .ok mem
  else
    let alignedSize := b.entryEnd - alignedBase
    if b.base ≤ alignedAddr ∧ alignedAddr + size < b.entryEnd then .error alignedAddr
    else
      let mem :=
        if above ∧ size ≤ alignedSize ∧ addr ≤ alignedBase ∧ alignedBase < mem then alignedBase
        else mem
      .ok (if ¬above ∧ size ≤ alignedSize ∧ alignedBase < addr ∧ mem < alignedBase then
        alignedBase else mem)

/-- `Memory_FindBlockAddress`. -/
def findBlockAddress (m : Memory) (addr : BitVec 32) (above : Bool)
    (size align mmap mmapSize : BitVec 32) : BitVec 32 :=
  if size = 0 then memory32BitLimit
  else if above ∧ (addr = memory32BitLimit ∨ addr + size < addr) then memory32BitLimit
  else if ¬above ∧ (addr = 0 ∨ addr < size) then memory32BitLimit
  else
    let mem := if above then memory32BitLimit else 0
    let alignedAddr := alignAddress (if above then addr else addr - size) align above
    if mmapSize = 0 ∨ mmap = memoryNullPtr then mem
    else
      match (mapBlocks m mmap mmapSize).foldlM (findStep addr above size align alignedAddr) mem with
      | .error r => r
      | .ok mem => if above ∨ mem ≠ 0 then mem else memory32BitLimit

section frame

variable {m m' : Memory} {addr size align mmap mmapSize : BitVec 32} {above : Bool}

/-- The memory map depends on its own bytes only. -/
theorem mapBlocks_congr (h : ∀ x, InBytes mmap (16 * mmapSize.toNat) x → m' x = m x)
    (hroom : 16 * mmapSize.toNat ≤ 2 ^ 32) :
    mapBlocks m' mmap mmapSize = mapBlocks m mmap mmapSize := by
  apply List.map_congr_left
  intro i hi
  have hi' : i < mmapSize.toNat := List.mem_range.mp hi
  have hword : ∀ k, k + 8 ≤ 16 * mmapSize.toNat →
      load64 m' (mmap + BitVec.ofNat 32 k) = load64 m (mmap + BitVec.ofNat 32 k) := by
    intro k hk
    apply load64_congr
    intro x hx
    exact h x (hx.of_add (by omega) hroom)
  have haddress := hword (16 * i) (by omega)
  have hsize := hword (16 * i + 8) (by omega)
  have hentry : blockEntry mmap i + 8 = mmap + BitVec.ofNat 32 (16 * i + 8) := by
    rw [blockEntry, BitVec.ofNat_add, ← BitVec.add_assoc]
    rfl
  rw [readBlock, readBlock, hentry, hsize, blockEntry, haddress]

theorem findBlockAddress_congr (h : mapBlocks m' mmap mmapSize = mapBlocks m mmap mmapSize) :
    findBlockAddress m' addr above size align mmap mmapSize =
      findBlockAddress m addr above size align mmap mmapSize := by
  rw [findBlockAddress, findBlockAddress, h]

end frame

/-! ## Section 2: One Block -/

section align

variable {a align : BitVec 32} {above : Bool}

theorem dvd_toNat_iff : a % align = 0 ↔ align.toNat ∣ a.toNat := by
  rw [← BitVec.toNat_inj, BitVec.toNat_umod, Nat.dvd_iff_mod_eq_zero]
  rfl

theorem alignAddress_of_dvd (h : align.toNat ∣ a.toNat) : alignAddress a align above = a :=
  if_pos (.inr (dvd_toNat_iff.mpr h))

/-- An alignment of 0 asks for nothing, as one of 1 does. -/
theorem alignAddress_of_le_one (h : align.toNat ≤ 1) : alignAddress a align above = a :=
  if_pos (.inl (BitVec.le_def.mpr h))

theorem alignAddress_of_not_dvd (h : 1 ≤ align.toNat) (ha : ¬align.toNat ∣ a.toNat) :
    alignAddress a align above = align * ((if above then 1 else 0) + a / align) := by
  refine if_neg ?_
  rintro (hle | hmod)
  · have hle' : align.toNat ≤ 1 := BitVec.le_def.mp hle
    have hone : align.toNat = 1 := by omega
    exact ha (hone ▸ Nat.one_dvd _)
  · exact ha (dvd_toNat_iff.mp hmod)

theorem toNat_alignAddress_below (h : 1 ≤ align.toNat) :
    (alignAddress a align false).toNat = floorTo align.toNat a.toNat := by
  by_cases ha : align.toNat ∣ a.toNat
  · rw [alignAddress_of_dvd ha, floorTo, Nat.div_mul_cancel ha]
  · have hle : a.toNat / align.toNat * align.toNat ≤ a.toNat := Nat.div_mul_le_self _ _
    have h0 : (0 : BitVec 32).toNat = 0 := rfl
    rw [alignAddress_of_not_dvd h ha, if_neg Bool.false_ne_true, BitVec.toNat_mul,
      BitVec.toNat_add, BitVec.toNat_udiv, h0, Nat.zero_add, Nat.mul_mod_mod, Nat.mul_comm,
      Nat.mod_eq_of_lt (Nat.lt_of_le_of_lt hle a.isLt)]
    rfl

/-- The multiple above may be beyond the 32-bit address space. -/
theorem toNat_alignAddress_above (h : 1 ≤ align.toNat) :
    (alignAddress a align true).toNat = ceilTo align.toNat a.toNat % 2 ^ 32 := by
  by_cases ha : align.toNat ∣ a.toNat
  · rw [alignAddress_of_dvd ha, ceilTo, if_pos ha, Nat.mod_eq_of_lt a.isLt]
  · have h1 : (1 : BitVec 32).toNat = 1 := rfl
    rw [alignAddress_of_not_dvd h ha, if_pos rfl, ceilTo, if_neg ha, BitVec.toNat_mul,
      BitVec.toNat_add, BitVec.toNat_udiv, h1, Nat.mul_mod_mod, Nat.mul_comm, Nat.add_comm 1]

end align

namespace BlockRam

variable {b : BlockRam} {size a : BitVec 32}

/-- The first address of a block. -/
def lo (b : BlockRam) : Nat := b.address.toNat

/-- The address after the part of a block that is below the limit. -/
def hi (b : BlockRam) : Nat := min (b.address.toNat + b.size.toNat) 0xFFFFFFFF

/-- The block is not empty, and does not go beyond the 64-bit address space. -/
structure Sound (b : BlockRam) : Prop where
  nonempty : 0 < b.size.toNat
  fits : b.address.toNat + b.size.toNat < 2 ^ 64

theorem hi_le (b : BlockRam) : b.hi ≤ 0xFFFFFFFF := Nat.min_le_right _ _

theorem toNat_base (h : b.lo < 0xFFFFFFFF) : b.base.toNat = b.lo := by
  rw [base, BitVec.toNat_setWidth]
  exact Nat.mod_eq_of_lt (Nat.lt_trans h (by decide))

theorem Sound.toNat_entrySize (h : b.Sound) (hlo : b.lo < 0xFFFFFFFF) :
    b.entrySize.toNat = b.hi - b.lo := by
  have hlimit : (0xFFFFFFFF : BitVec 64).toNat = 0xFFFFFFFF := rfl
  have hsum : (b.address + b.size).toNat = b.address.toNat + b.size.toNat := by
    rw [BitVec.toNat_add, Nat.mod_eq_of_lt h.fits]
  rw [lo] at hlo
  rw [hi, lo]
  by_cases hbig : 0xFFFFFFFF < b.address + b.size
  · have hle : b.address ≤ 0xFFFFFFFF := BitVec.le_def.mpr (Nat.le_of_lt hlo)
    have hbig' := BitVec.lt_def.mp hbig
    rw [entrySize, if_pos hbig, BitVec.toNat_setWidth, BitVec.toNat_sub_of_le hle, hlimit,
      Nat.mod_eq_of_lt (by omega)]
    omega
  · have hsmall := BitVec.le_def.mp (BitVec.not_lt.mp hbig)
    rw [entrySize, if_neg hbig, BitVec.toNat_setWidth, Nat.mod_eq_of_lt (by omega)]
    omega

theorem Sound.toNat_entryEnd (h : b.Sound) (hlo : b.lo < b.hi) : b.entryEnd.toNat = b.hi := by
  have hhi := b.hi_le
  rw [entryEnd, BitVec.toNat_add, toNat_base (by omega), h.toNat_entrySize (by omega)]
  omega

/-- The loop goes on with the next block. -/
def Passed (size alignedBase : BitVec 32) (b : BlockRam) : Prop :=
  0xFFFFFFFF ≤ b.address ∨ b.entrySize < size ∨ alignedBase < b.base ∨ b.entryEnd ≤ alignedBase

theorem Sound.not_passed_iff (h : b.Sound) (hsize : 0 < size.toNat) :
    ¬b.Passed size a ↔ b.lo + size.toNat ≤ b.hi ∧ b.lo ≤ a.toNat ∧ a.toNat < b.hi := by
  have hhi := b.hi_le
  have hlimit : (0xFFFFFFFF : BitVec 64).toNat = 0xFFFFFFFF := rfl
  simp only [Passed, not_or, BitVec.lt_def, BitVec.le_def, hlimit]
  constructor
  · rintro ⟨hlo, hes, hbase, hend⟩
    have hlo' : b.lo < 0xFFFFFFFF := Nat.lt_of_not_le hlo
    rw [h.toNat_entrySize hlo'] at hes
    rw [toNat_base hlo'] at hbase
    rw [h.toNat_entryEnd (by omega)] at hend
    omega
  · rintro ⟨hroom, hbase, hend⟩
    have hlo : b.lo < 0xFFFFFFFF := by omega
    rw [h.toNat_entrySize hlo, toNat_base hlo, h.toNat_entryEnd (by omega)]
    exact ⟨Nat.not_le_of_lt hlo, by omega, by omega, by omega⟩

end BlockRam

section step

variable {b : BlockRam} {addr size align alignedAddr mem : BitVec 32} {above : Bool}

theorem findStep_passed (h : b.Passed size (b.alignedBase above size align alignedAddr)) :
    findStep addr above size align alignedAddr mem b = .ok mem := by
  rw [findStep]
  rcases h with h | h | h | h
  · exact if_pos h
  · simp only [if_pos h, ite_self]
  · simp only [if_pos (Or.inl h), ite_self]
  · simp only [if_pos (Or.inr h), ite_self]

theorem findStep_stops (h : ¬b.Passed size (b.alignedBase above size align alignedAddr))
    (hstop : b.base ≤ alignedAddr ∧ alignedAddr + size < b.entryEnd) :
    findStep addr above size align alignedAddr mem b = .error alignedAddr := by
  simp only [BlockRam.Passed, not_or] at h
  simp only [findStep, if_neg h.1, if_neg h.2.1, if_neg (not_or.mpr h.2.2), if_pos hstop]

/-- A block that does not end the search. -/
theorem findStep_offer (h : ¬b.Passed size (b.alignedBase above size align alignedAddr))
    (hstop : ¬(b.base ≤ alignedAddr ∧ alignedAddr + size < b.entryEnd)) :
    findStep addr above size align alignedAddr mem b =
      let alignedBase := b.alignedBase above size align alignedAddr
      .ok (if size ≤ b.entryEnd - alignedBase ∧
          (if above then addr ≤ alignedBase ∧ alignedBase < mem
            else alignedBase < addr ∧ mem < alignedBase) then alignedBase else mem) := by
  simp only [BlockRam.Passed, not_or] at h
  simp only [findStep, if_neg h.1, if_neg h.2.1, if_neg (not_or.mpr h.2.2), if_neg hstop]
  cases above with
  | false => simp only [Bool.false_eq_true, false_and, if_false, not_false_eq_true, true_and]
  | true => simp only [not_true_eq_false, false_and, if_false, true_and, if_true]

end step

/-! ### A concrete map -/

/-- A map of blocks in memory. -/
def ramMemory (mmap : BitVec 32) : List BlockRam → Memory
  | [] => fun _ => 0
  | b :: l => store64 (store64 (ramMemory (mmap + 16) l) mmap b.address) (mmap + 8) b.size

/-- One block of RAM, from 1 MiB to 2 MiB. -/
def oneBlock : Memory := ramMemory 0x1000 [⟨0x100000, 0x100000⟩]

theorem mapBlocks_oneBlock : mapBlocks oneBlock 0x1000 1 = [⟨0x100000, 0x100000⟩] := by
  decide +kernel

theorem sound_oneBlock : ∀ b ∈ mapBlocks oneBlock 0x1000 1, b.Sound := by
  rw [mapBlocks_oneBlock]
  intro b hb
  rw [List.mem_singleton.mp hb]
  exact ⟨by decide, by decide⟩

/-! ## Section 3: The Search Upwards -/

/-- The `size` bytes from `r` on lie in one block of the map, below the limit. -/
def Fits (blocks : List BlockRam) (size r : Nat) : Prop :=
  ∃ b ∈ blocks, b.lo ≤ r ∧ r + size ≤ b.hi

/-- The multiples of the alignment from `addr` on at which `size` bytes fit. -/
def placesAbove (blocks : List BlockRam) (addr size align : Nat) : Set Nat :=
  {r | addr ≤ r ∧ align ∣ r ∧ Fits blocks size r}

/-- The result is the lowest place, and the limit if and only if there is none. -/
structure FindsLowest (places : Set Nat) (v : BitVec 32) : Prop where
  lowest : places.Nonempty → IsLeast places v.toNat
  none_iff : v = memory32BitLimit ↔ ¬places.Nonempty

/-- What the block offers to a search upwards: the first multiple of the alignment, when there
    is room from it on. -/
def BlockRam.offerAbove (addr size align : Nat) (b : BlockRam) : Option Nat :=
  if addr ≤ ceilTo align b.lo ∧ ceilTo align b.lo + size ≤ b.hi then some (ceilTo align b.lo)
  else none

/-- The block ends a search with the aligned address `a`. -/
def BlockRam.Catches (size align a : Nat) (b : BlockRam) : Prop :=
  b.lo + size ≤ b.hi ∧ ceilTo align b.lo < b.hi ∧ b.lo ≤ a ∧ (a + size) % 2 ^ 32 < b.hi

instance (size align a : Nat) : DecidablePred (BlockRam.Catches size align a) :=
  fun _ => inferInstanceAs (Decidable (_ ∧ _))

/-- The test around the aligned address is right for the map. -/
structure TestsWell (blocks : List BlockRam) (addr size align : Nat) : Prop where
  /-- No block catches an aligned address when the range from there on wraps. -/
  noWrap : 2 ^ 32 ≤ ceilTo align addr + size → ceilTo align addr = 0xFFFFFFFF ∨
    ∀ b ∈ blocks, ¬b.Catches size align (ceilTo align addr % 2 ^ 32)
  /-- A block with room there goes on behind it, or has no multiple of the alignment below
      `addr`. -/
  seen : Fits blocks size (ceilTo align addr) → ∃ b ∈ blocks, b.lo ≤ ceilTo align addr ∧
    (ceilTo align addr + size < b.hi ∨
      ceilTo align addr + size = b.hi ∧ addr ≤ ceilTo align b.lo)

section places

variable {b : BlockRam} {blocks : List BlockRam} {addr size align r : Nat} {v : BitVec 32}

theorem mem_offerAbove : r ∈ b.offerAbove addr size align ↔
    r = ceilTo align b.lo ∧ addr ≤ r ∧ r + size ≤ b.hi := by
  unfold BlockRam.offerAbove
  split
  · next h =>
    rw [Option.mem_some_iff]
    constructor
    · intro hr
      subst hr
      exact ⟨rfl, h⟩
    · intro hr
      exact hr.1.symm
  · next h =>
    constructor
    · intro hr
      exact nomatch hr
    · intro hr
      exact absurd (hr.1 ▸ hr.2) h

theorem offerAbove_mem_places (halign : 1 ≤ align) (hb : b ∈ blocks)
    (hr : r ∈ b.offerAbove addr size align) : r ∈ placesAbove blocks addr size align := by
  obtain ⟨heq, hle, hroom⟩ := mem_offerAbove.mp hr
  rw [heq] at hle hroom ⊢
  exact ⟨hle, dvd_ceilTo, b, hb, le_ceilTo halign, hroom⟩

/-- A place is in a block that offers a place before it, or in one with room at the first
    multiple of the alignment. -/
theorem place_cases (halign : 1 ≤ align) (hr : r ∈ placesAbove blocks addr size align) :
    Fits blocks size (ceilTo align addr) ∨
      ∃ b ∈ blocks, ∃ a ∈ b.offerAbove addr size align, a ≤ r := by
  obtain ⟨hle, hdvd, b, hb, hlo, hroom⟩ := hr
  have hfirst : ceilTo align addr ≤ r := ceilTo_le hdvd hle
  have hbase : ceilTo align b.lo ≤ r := ceilTo_le hdvd hlo
  by_cases hoffer : addr ≤ ceilTo align b.lo
  · exact .inr ⟨b, hb, _, mem_offerAbove.mpr ⟨rfl, hoffer, by omega⟩, hbase⟩
  · have hbefore : b.lo ≤ ceilTo align b.lo := le_ceilTo halign
    have hafter : addr ≤ ceilTo align addr := le_ceilTo halign
    exact .inl ⟨b, hb, by omega, by omega⟩

theorem Fits.add_le (h : Fits blocks size r) : r + size ≤ 0xFFFFFFFF := by
  obtain ⟨b, -, -, hroom⟩ := h
  exact Nat.le_trans hroom b.hi_le

theorem catches_iff (hlt : ceilTo align addr + size < 2 ^ 32) :
    b.Catches size align (ceilTo align addr % 2 ^ 32) ↔
      b.lo ≤ ceilTo align addr ∧ ceilTo align addr + size < b.hi := by
  rw [BlockRam.Catches, Nat.mod_eq_of_lt (by omega), Nat.mod_eq_of_lt hlt]
  constructor
  · intro h
    exact h.2.2
  · intro h
    have hbase : ceilTo align b.lo ≤ ceilTo align addr := ceilTo_le dvd_ceilTo h.1
    exact ⟨by omega, by omega, h⟩

/-- What a search upwards may come to. -/
def Outcomes (blocks : List BlockRam) (addr size align : Nat) : Set Nat :=
  {a | a = 0xFFFFFFFF ∨ (∃ b ∈ blocks, a ∈ b.offerAbove addr size align) ∨
    a = ceilTo align addr % 2 ^ 32 ∧
      ∃ b ∈ blocks, b.Catches size align (ceilTo align addr % 2 ^ 32)}

/-- The range from the first multiple of the alignment on wraps: there is no place. -/
theorem findsLowest_iff_of_wrap (halign : 1 ≤ align) (haddr : addr < 2 ^ 32)
    (hbound : align < 2 ^ 32) (hwrap : 2 ^ 32 ≤ ceilTo align addr + size)
    (hleast : IsLeast (Outcomes blocks addr size align) v.toNat) :
    FindsLowest (placesAbove blocks addr size align) v ↔ TestsWell blocks addr size align := by
  have hlt : ceilTo align addr < addr + align := ceilTo_lt halign
  have hnone : ¬(placesAbove blocks addr size align).Nonempty := by
    intro ⟨r, hr⟩
    have hle : ceilTo align addr ≤ r := ceilTo_le hr.2.1 hr.1
    have hroom := hr.2.2.add_le
    omega
  have hfits : ¬Fits blocks size (ceilTo align addr) := by
    intro h
    have hroom := h.add_le
    omega
  have hlimit : v = memory32BitLimit ↔ v.toNat = 0xFFFFFFFF := BitVec.toNat_inj.symm
  constructor
  · intro h
    have hv := hlimit.mp (h.none_iff.mpr hnone)
    refine ⟨fun _ => ?_, fun h => absurd h hfits⟩
    by_cases hc : ∃ b ∈ blocks, b.Catches size align (ceilTo align addr % 2 ^ 32)
    · have hle := hleast.2 (.inr (.inr ⟨rfl, hc⟩))
      exact .inl (by omega)
    · exact .inr fun b hb hbc => hc ⟨b, hb, hbc⟩
  · intro h
    refine ⟨fun hne => absurd hne hnone, fun _ => hnone, fun _ => hlimit.mpr ?_⟩
    rcases hleast.1 with hv | ⟨b, hb, hv⟩ | ⟨hv, b, hb, hc⟩
    · exact hv
    · exact absurd ⟨_, offerAbove_mem_places halign hb hv⟩ hnone
    · rcases h.noWrap hwrap with heq | hno
      · omega
      · exact absurd hc (hno b hb)

theorem findsLowest_iff_of_lt (hsize : 0 < size) (halign : 1 ≤ align)
    (hlt : ceilTo align addr + size < 2 ^ 32)
    (hleast : IsLeast (Outcomes blocks addr size align) v.toNat) :
    FindsLowest (placesAbove blocks addr size align) v ↔ TestsWell blocks addr size align := by
  have hlimit : v = memory32BitLimit ↔ v.toNat = 0xFFFFFFFF := BitVec.toNat_inj.symm
  have hmod : ceilTo align addr % 2 ^ 32 = ceilTo align addr := Nat.mod_eq_of_lt (by omega)
  have hafter : addr ≤ ceilTo align addr := le_ceilTo halign
  -- whatever the search finds but the limit is a place
  have hplace : v.toNat = 0xFFFFFFFF ∨ v.toNat ∈ placesAbove blocks addr size align := by
    rcases hleast.1 with hv | ⟨b, hb, hv⟩ | ⟨hv, b, hb, hc⟩
    · exact .inl hv
    · exact .inr (offerAbove_mem_places halign hb hv)
    · have hc' := (catches_iff hlt).mp hc
      rw [hv, hmod]
      exact .inr ⟨hafter, dvd_ceilTo, b, hb, hc'.1, Nat.le_of_lt hc'.2⟩
  constructor
  · intro h
    refine ⟨fun hwrap => by omega, fun hfits => ?_⟩
    have hmem : ceilTo align addr ∈ placesAbove blocks addr size align :=
      ⟨hafter, dvd_ceilTo, hfits⟩
    have hv := h.lowest ⟨_, hmem⟩
    have heq : v.toNat = ceilTo align addr :=
      Nat.le_antisymm (hv.2 hmem) (ceilTo_le hv.1.2.1 hv.1.1)
    have hroom := hfits.add_le
    rcases hleast.1 with hv | ⟨b, hb, hv⟩ | ⟨-, b, hb, hc⟩
    · omega
    · rw [heq] at hv
      obtain ⟨hbase, -, hend⟩ := mem_offerAbove.mp hv
      have hbefore : b.lo ≤ ceilTo align b.lo := le_ceilTo halign
      exact ⟨b, hb, by omega, by omega⟩
    · have hc' := (catches_iff hlt).mp hc
      exact ⟨b, hb, hc'.1, .inl hc'.2⟩
  · intro h
    have hbefore : ∀ r ∈ placesAbove blocks addr size align, v.toNat ≤ r := by
      intro r hr
      rcases place_cases halign hr with hfits | ⟨b, hb, a, ha, hle⟩
      · have hle : ceilTo align addr ≤ r := ceilTo_le hr.2.1 hr.1
        obtain ⟨b, hb, hlo, hend | ⟨hend, hoffer⟩⟩ := h.seen hfits
        · have hc := (catches_iff hlt).mpr ⟨hlo, hend⟩
          have hv := hleast.2 (.inr (.inr ⟨rfl, b, hb, hc⟩))
          omega
        · have hbase : ceilTo align b.lo = ceilTo align addr :=
            Nat.le_antisymm (ceilTo_le dvd_ceilTo hlo) (ceilTo_le dvd_ceilTo hoffer)
          have ha : ceilTo align addr ∈ b.offerAbove addr size align :=
            mem_offerAbove.mpr ⟨hbase.symm, hafter, Nat.le_of_eq hend⟩
          exact Nat.le_trans (hleast.2 (.inr (.inl ⟨b, hb, ha⟩))) hle
      · exact Nat.le_trans (hleast.2 (.inr (.inl ⟨b, hb, ha⟩))) hle
    constructor
    · intro hne
      refine ⟨?_, hbefore⟩
      obtain ⟨r, hr⟩ := hne
      have hle := hbefore r hr
      have hroom := hr.2.2.add_le
      exact hplace.resolve_left (by omega)
    · rw [hlimit]
      constructor
      · intro hv ⟨r, hr⟩
        have hle := hbefore r hr
        have hroom := hr.2.2.add_le
        omega
      · intro hnone
        exact hplace.resolve_right fun hv => hnone ⟨_, hv⟩

end places

section above

variable {b : BlockRam} {addr size align alignedAddr mem : BitVec 32}

theorem alignedBase_above (halign : 1 ≤ align.toNat) (hlo : b.lo < 0xFFFFFFFF) :
    (b.alignedBase true size align alignedAddr).toNat =
      ceilTo align.toNat b.lo % 2 ^ 32 := by
  rw [BlockRam.alignedBase, toNat_alignAddress_above halign, BlockRam.shiftedBase, if_pos rfl,
    BlockRam.toNat_base hlo]

/-- A multiple that has wrapped is below the block. -/
theorem not_passed_above_iff (h : b.Sound) (hsize : 0 < size.toNat) (halign : 1 ≤ align.toNat) :
    ¬b.Passed size (b.alignedBase true size align alignedAddr) ↔
      b.lo + size.toNat ≤ b.hi ∧ ceilTo align.toNat b.lo < b.hi := by
  have hhi := b.hi_le
  have hle : b.lo ≤ ceilTo align.toNat b.lo := le_ceilTo halign
  have hlt : ceilTo align.toNat b.lo < b.lo + align.toNat := ceilTo_lt halign
  have hbound := align.isLt
  rw [h.not_passed_iff hsize]
  refine and_congr_right fun hroom => ?_
  rw [alignedBase_above halign (by omega)]
  omega

theorem findStep_above_stops (h : b.Sound) (hsize : 0 < size.toNat) (halign : 1 ≤ align.toNat)
    (hc : b.Catches size.toNat align.toNat alignedAddr.toNat) :
    findStep addr true size align alignedAddr mem b = .error alignedAddr := by
  obtain ⟨hroom, hbase, hlo, hend⟩ := hc
  have hhi := b.hi_le
  refine findStep_stops ((not_passed_above_iff h hsize halign).mpr ⟨hroom, hbase⟩) ⟨?_, ?_⟩
  · rw [BitVec.le_def, BlockRam.toNat_base (by omega)]
    exact hlo
  · rw [BitVec.lt_def, BitVec.toNat_add, h.toNat_entryEnd (by omega)]
    exact hend

theorem findStep_above_goes (h : b.Sound) (hsize : 0 < size.toNat) (halign : 1 ≤ align.toNat)
    (hc : ¬b.Catches size.toNat align.toNat alignedAddr.toNat) :
    ∃ r, findStep addr true size align alignedAddr mem b = .ok r ∧
      r.toNat = (b.offerAbove addr.toNat size.toNat align.toNat).elim mem.toNat
        (min mem.toNat) := by
  have hhi := b.hi_le
  have hle : b.lo ≤ ceilTo align.toNat b.lo := le_ceilTo halign
  by_cases hp : b.Passed size (b.alignedBase true size align alignedAddr)
  · have hnone : b.offerAbove addr.toNat size.toNat align.toNat = none := by
      refine if_neg fun hoffer => ?_
      exact (not_passed_above_iff h hsize halign).mpr ⟨by omega, by omega⟩ hp
    exact ⟨mem, findStep_passed hp, by rw [hnone]; rfl⟩
  · obtain ⟨hroom, hbase⟩ := (not_passed_above_iff h hsize halign).mp hp
    have haligned : (b.alignedBase true size align alignedAddr).toNat =
        ceilTo align.toNat b.lo := by
      rw [alignedBase_above halign (by omega)]
      omega
    have hstop : ¬(b.base ≤ alignedAddr ∧ alignedAddr + size < b.entryEnd) := by
      rw [BitVec.le_def, BitVec.lt_def, BitVec.toNat_add, BlockRam.toNat_base (by omega),
        h.toNat_entryEnd (by omega)]
      exact fun hs => hc ⟨hroom, hbase, hs⟩
    refine ⟨_, findStep_offer hp hstop, ?_⟩
    have hsub : (b.entryEnd - b.alignedBase true size align alignedAddr).toNat =
        b.hi - ceilTo align.toNat b.lo := by
      have hend := h.toNat_entryEnd (by omega)
      rw [BitVec.toNat_sub_of_le (BitVec.le_def.mpr (by omega)), hend, haligned]
    simp only [if_true, BitVec.le_def, BitVec.lt_def, hsub, haligned, BlockRam.offerAbove]
    by_cases hoffer : addr.toNat ≤ ceilTo align.toNat b.lo ∧
        ceilTo align.toNat b.lo + size.toNat ≤ b.hi
    · rw [if_pos hoffer]
      by_cases hlt : ceilTo align.toNat b.lo < mem.toNat
      · rw [if_pos ⟨by omega, hoffer.1, hlt⟩, haligned]
        exact (Nat.min_eq_right (Nat.le_of_lt hlt)).symm
      · rw [if_neg fun hs => hlt hs.2.2]
        exact (Nat.min_eq_left (Nat.le_of_not_lt hlt)).symm
    · rw [if_neg hoffer, if_neg fun hs => hoffer ⟨hs.2.1, by omega⟩]
      rfl

/-- The search upwards, from the least multiple of the alignment on. -/
theorem findBlock_above {m : Memory} {mmap mmapSize : BitVec 32}
    (hmap : ∀ b ∈ mapBlocks m mmap mmapSize, b.Sound) (hnull : mmap ≠ memoryNullPtr)
    (hsize : 0 < size.toNat) (halign : 1 ≤ align.toNat)
    (hfits : addr.toNat + size.toNat < 2 ^ 32) :
    (findBlockAddress m addr true size align mmap mmapSize).toNat =
      seek (BlockRam.Catches size.toNat align.toNat (ceilTo align.toNat addr.toNat % 2 ^ 32))
        (BlockRam.offerAbove addr.toNat size.toNat align.toNat)
        (ceilTo align.toNat addr.toNat % 2 ^ 32) (mapBlocks m mmap mmapSize) 0xFFFFFFFF := by
  have h0 : (0 : BitVec 32).toNat = 0 := rfl
  have hlimit : memory32BitLimit.toNat = 0xFFFFFFFF := rfl
  have haligned := toNat_alignAddress_above (a := addr) halign
  have hne : size ≠ 0 := fun h => by
    rw [h] at hsize
    omega
  have habove : ¬((true : Bool) = true ∧ (addr = memory32BitLimit ∨ addr + size < addr)) := by
    rintro ⟨-, h | h⟩
    · rw [h, hlimit] at hfits
      omega
    · rw [BitVec.lt_def, BitVec.toNat_add, Nat.mod_eq_of_lt hfits] at h
      omega
  have hbelow : ¬(¬(true : Bool) = true ∧ (addr = 0 ∨ addr < size)) := fun h => h.1 rfl
  rw [findBlockAddress, if_neg hne, if_neg habove, if_neg hbelow]
  simp only [if_true, hnull, or_false, true_or]
  rw [← haligned, ← hlimit]
  by_cases hzero : mmapSize = 0
  · rw [if_pos hzero, mapBlocks, hzero, h0]
    rfl
  · rw [if_neg hzero, ← foldlM_seek BitVec.toNat
      (fun mem b hb hc => ⟨_, findStep_above_stops (hmap b hb) hsize halign hc, rfl⟩)
      (fun mem b hb hc => findStep_above_goes (hmap b hb) hsize halign hc)]
    split
    · next r hr =>
      rw [hr]
      rfl
    · next r hr =>
      rw [hr]
      rfl

/-- What the search comes to: the limit, an offer, or the aligned address. -/
theorem isLeast_findBlock_above {m : Memory} {mmap mmapSize : BitVec 32}
    (hmap : ∀ b ∈ mapBlocks m mmap mmapSize, b.Sound) (hnull : mmap ≠ memoryNullPtr)
    (hsize : 0 < size.toNat) (halign : 1 ≤ align.toNat)
    (hfits : addr.toNat + size.toNat < 2 ^ 32) :
    IsLeast (Outcomes (mapBlocks m mmap mmapSize) addr.toNat size.toNat align.toNat)
      (findBlockAddress m addr true size align mmap mmapSize).toNat := by
  rw [findBlock_above hmap hnull hsize halign hfits]
  apply isLeast_seek
  · omega
  · intro b hb a ha
    obtain ⟨-, hle, -⟩ := mem_offerAbove.mp ha
    have hbase := ceilTo_le (offerAbove_mem_places halign hb ha).2.1 hle
    exact Nat.le_trans (Nat.mod_le _ _) hbase

/-- An address is found where it is if and only if a block has room from there on, and goes on
    behind it or starts with it. -/
theorem findBlockAddress_here_iff {m : Memory} {mmap mmapSize : BitVec 32}
    (hmap : ∀ b ∈ mapBlocks m mmap mmapSize, b.Sound) (hnull : mmap ≠ memoryNullPtr)
    (hsize : 0 < size.toNat) (hfits : addr.toNat + size.toNat < 2 ^ 32) :
    findBlockAddress m addr true size 1 mmap mmapSize = addr ↔
      ∃ b ∈ mapBlocks m mmap mmapSize, b.lo ≤ addr.toNat ∧ addr.toNat + size.toNat ≤ b.hi ∧
        (addr.toNat + size.toNat < b.hi ∨ b.lo = addr.toNat) := by
  have hone : (1 : BitVec 32).toNat = 1 := rfl
  have hround : ∀ a, ceilTo 1 a = a := fun a => if_pos (Nat.one_dvd a)
  have hmod : addr.toNat % 2 ^ 32 = addr.toNat := Nat.mod_eq_of_lt addr.isLt
  have hleast := isLeast_findBlock_above hmap hnull hsize (Nat.le_of_eq hone.symm) hfits
  rw [hone] at hleast
  rw [← BitVec.toNat_inj]
  constructor
  · intro heq
    rw [heq] at hleast
    rcases hleast.1 with hv | ⟨b, hb, hv⟩ | ⟨-, b, hb, hc⟩
    · omega
    · obtain ⟨hlo, -, hend⟩ := mem_offerAbove.mp hv
      rw [hround] at hlo
      exact ⟨b, hb, by omega, hend, .inr hlo.symm⟩
    · rw [catches_iff (by rw [hround]; exact hfits), hround] at hc
      exact ⟨b, hb, hc.1, Nat.le_of_lt hc.2, .inl hc.2⟩
  · rintro ⟨b, hb, hlo, hend, hroom⟩
    have hmem : addr.toNat ∈ Outcomes (mapBlocks m mmap mmapSize) addr.toNat size.toNat 1 := by
      rcases hroom with hlt | heq
      · refine .inr (.inr ⟨?_, b, hb, ?_⟩)
        · rw [hround, hmod]
        · rw [catches_iff (by rw [hround]; exact hfits), hround]
          exact ⟨hlo, hlt⟩
      · refine .inr (.inl ⟨b, hb, mem_offerAbove.mpr ⟨?_, Nat.le_refl _, hend⟩⟩)
        rw [hround, heq]
    apply Nat.le_antisymm (hleast.2 hmem)
    -- nothing the search comes to is before the address
    rcases hleast.1 with hv | ⟨b, hb, hv⟩ | ⟨hv, -⟩
    · omega
    · exact (mem_offerAbove.mp hv).2.1
    · rw [hv, hround, hmod]

/-- The result is right if and only if the test around the aligned address is. -/
theorem findBlockAddress_above_iff {m : Memory} {mmap mmapSize : BitVec 32}
    (hmap : ∀ b ∈ mapBlocks m mmap mmapSize, b.Sound) (hnull : mmap ≠ memoryNullPtr)
    (hsize : 0 < size.toNat) (halign : 1 ≤ align.toNat)
    (hfits : addr.toNat + size.toNat < 2 ^ 32) :
    FindsLowest (placesAbove (mapBlocks m mmap mmapSize) addr.toNat size.toNat align.toNat)
        (findBlockAddress m addr true size align mmap mmapSize) ↔
      TestsWell (mapBlocks m mmap mmapSize) addr.toNat size.toNat align.toNat := by
  have hleast := isLeast_findBlock_above hmap hnull hsize halign hfits
  rcases Nat.lt_or_ge (ceilTo align.toNat addr.toNat + size.toNat) (2 ^ 32) with hlt | hwrap
  · exact findsLowest_iff_of_lt hsize halign hlt hleast
  · exact findsLowest_iff_of_wrap halign addr.isLt align.isLt hwrap hleast

end above

theorem findBlockAddress_above_iff_oneBlock :
    FindsLowest (placesAbove (mapBlocks oneBlock 0x1000 1) 0x100000 0x2000 0x1000)
        (findBlockAddress oneBlock 0x100000 true 0x2000 0x1000 0x1000 1) ↔
      TestsWell (mapBlocks oneBlock 0x1000 1) 0x100000 0x2000 0x1000 :=
  @findBlockAddress_above_iff 0x100000 0x2000 0x1000 oneBlock 0x1000 1
    sound_oneBlock (by decide) (by decide) (by decide) (by decide)

/-- The upper half of the block is not found. -/
theorem not_forall_findsLowest : ¬∀ (m : Memory) (addr size align mmap mmapSize : BitVec 32),
    (∀ b ∈ mapBlocks m mmap mmapSize, b.Sound) → mmap ≠ memoryNullPtr → 0 < size.toNat →
      1 ≤ align.toNat → addr.toNat + size.toNat < 2 ^ 32 →
        FindsLowest (placesAbove (mapBlocks m mmap mmapSize) addr.toNat size.toNat align.toNat)
          (findBlockAddress m addr true size align mmap mmapSize) := by
  intro h
  have hfinds := h oneBlock 0x180000 0x80000 1 0x1000 1 sound_oneBlock (by decide) (by decide)
    (by decide) (by decide)
  have hresult : findBlockAddress oneBlock 0x180000 true 0x80000 1 0x1000 1 =
      memory32BitLimit := by decide +kernel
  apply hfinds.none_iff.mp hresult
  rw [mapBlocks_oneBlock]
  exact ⟨0x180000, by decide, by decide, _, List.mem_singleton_self _, by decide, by decide⟩

/-! ## Section 4: The Search Downwards -/

/-- The multiples of the alignment from which on `size` bytes fit before `addr`. -/
def placesBelow (blocks : List BlockRam) (addr size align : Nat) : Set Nat :=
  {r | r + size ≤ addr ∧ align ∣ r ∧ Fits blocks size r}

/-- What the block offers to a search downwards from the aligned address `a`. -/
def BlockRam.offerBelow (size align a : Nat) (b : BlockRam) : Option Nat :=
  if b.lo + size ≤ b.hi ∧ b.lo ≤ floorTo align (min a (b.hi - size)) then
    some (floorTo align (min a (b.hi - size)))
  else none

/-- The block goes on before and behind the range at the aligned address `a`. -/
def BlockRam.Surrounds (size align a : Nat) (b : BlockRam) : Prop :=
  (b.offerBelow size align a).isSome ∧ b.lo ≤ a ∧ a + size < b.hi

instance (size align a : Nat) : DecidablePred (BlockRam.Surrounds size align a) :=
  fun _ => inferInstanceAs (Decidable (_ ∧ _))

section placesBelow

variable {b : BlockRam} {blocks : List BlockRam} {addr size align r : Nat}

theorem mem_offerBelow {a : Nat} : r ∈ b.offerBelow size align a ↔
    r = floorTo align (min a (b.hi - size)) ∧ b.lo ≤ r ∧ b.lo + size ≤ b.hi := by
  unfold BlockRam.offerBelow
  split
  · next h =>
    rw [Option.mem_some_iff]
    constructor
    · intro hr
      subst hr
      exact ⟨rfl, h.2, h.1⟩
    · intro hr
      exact hr.1.symm
  · next h =>
    constructor
    · intro hr
      exact nomatch hr
    · intro hr
      exact absurd ⟨hr.2.2, hr.1 ▸ hr.2.1⟩ h

theorem offerBelow_mem_places (hb : b ∈ blocks) (hle : size ≤ addr)
    (hr : r ∈ b.offerBelow size align (floorTo align (addr - size))) :
    r ∈ placesBelow blocks addr size align := by
  obtain ⟨heq, hlo, hroom⟩ := mem_offerBelow.mp hr
  have hdown : r ≤ min (floorTo align (addr - size)) (b.hi - size) := heq ▸ floorTo_le
  have haddr : floorTo align (addr - size) ≤ addr - size := floorTo_le
  exact ⟨by omega, heq ▸ dvd_floorTo, b, hb, hlo, by omega⟩

/-- The block of a place offers one that is not lower. -/
theorem exists_offerBelow (hr : r ∈ placesBelow blocks addr size align) :
    ∃ b ∈ blocks, ∃ a ∈ b.offerBelow size align (floorTo align (addr - size)), r ≤ a := by
  obtain ⟨hle, hdvd, b, hb, hlo, hroom⟩ := hr
  have hfirst : r ≤ floorTo align (addr - size) := le_floorTo hdvd (by omega)
  have hoffer : r ≤ floorTo align (min (floorTo align (addr - size)) (b.hi - size)) :=
    le_floorTo hdvd (by omega)
  exact ⟨b, hb, _, mem_offerBelow.mpr ⟨rfl, by omega, by omega⟩, hoffer⟩

/-- A block around the range at the aligned address has its place there. -/
theorem BlockRam.Surrounds.mem_places (hb : b ∈ blocks) (hle : size ≤ addr)
    (h : b.Surrounds size align (floorTo align (addr - size))) :
    floorTo align (addr - size) ∈ placesBelow blocks addr size align := by
  have haddr : floorTo align (addr - size) ≤ addr - size := floorTo_le
  exact ⟨by omega, dvd_floorTo, b, hb, h.2.1, Nat.le_of_lt h.2.2⟩

end placesBelow

section below

variable {b : BlockRam} {addr size align alignedAddr mem : BitVec 32}

theorem alignedBase_below (h : b.Sound) (halign : 1 ≤ align.toNat) (hsize : 0 < size.toNat)
    (hroom : b.lo + size.toNat ≤ b.hi) :
    (b.alignedBase false size align alignedAddr).toNat =
      floorTo align.toNat (min alignedAddr.toNat (b.hi - size.toNat)) := by
  have hend := h.toNat_entryEnd (by omega)
  have hsub : (b.entryEnd - size).toNat = b.hi - size.toNat := by
    rw [BitVec.toNat_sub_of_le (BitVec.le_def.mpr (by omega)), hend]
  rw [BlockRam.alignedBase, toNat_alignAddress_below halign, BlockRam.shiftedBase,
    if_neg Bool.false_ne_true]
  congr 1
  split
  · next hle =>
    rw [BitVec.le_def, hsub] at hle
    exact (Nat.min_eq_left hle).symm
  · next hle =>
    rw [BitVec.le_def, hsub] at hle
    rw [hsub]
    exact (Nat.min_eq_right (by omega)).symm

theorem not_passed_below_iff (h : b.Sound) (hsize : 0 < size.toNat) (halign : 1 ≤ align.toNat) :
    ¬b.Passed size (b.alignedBase false size align alignedAddr) ↔
      (b.offerBelow size.toNat align.toNat alignedAddr.toNat).isSome := by
  rw [h.not_passed_iff hsize, Option.isSome_iff_exists]
  constructor
  · intro ⟨hroom, hlo, _⟩
    rw [alignedBase_below h halign hsize hroom] at hlo
    exact ⟨_, mem_offerBelow.mpr ⟨rfl, hlo, hroom⟩⟩
  · intro ⟨r, hr⟩
    obtain ⟨rfl, hlo, hroom⟩ := mem_offerBelow.mp hr
    have hdown : floorTo align.toNat (min alignedAddr.toNat (b.hi - size.toNat)) ≤
      min alignedAddr.toNat (b.hi - size.toNat) := floorTo_le
    rw [alignedBase_below h halign hsize hroom]
    exact ⟨hroom, hlo, by omega⟩

theorem stops_below_iff (h : b.Sound) (hlt : alignedAddr.toNat + size.toNat < 2 ^ 32)
    (hroom : b.lo < b.hi) : b.base ≤ alignedAddr ∧ alignedAddr + size < b.entryEnd ↔
      b.lo ≤ alignedAddr.toNat ∧ alignedAddr.toNat + size.toNat < b.hi := by
  have hhi := b.hi_le
  rw [BitVec.le_def, BitVec.lt_def, BitVec.toNat_add, Nat.mod_eq_of_lt hlt,
    BlockRam.toNat_base (by omega), h.toNat_entryEnd hroom]

theorem findStep_below_stops (h : b.Sound) (hsize : 0 < size.toNat) (halign : 1 ≤ align.toNat)
    (hlt : alignedAddr.toNat + size.toNat < 2 ^ 32)
    (hs : b.Surrounds size.toNat align.toNat alignedAddr.toNat) :
    findStep addr false size align alignedAddr mem b = .error alignedAddr := by
  apply findStep_stops
  · exact (not_passed_below_iff h hsize halign).mpr hs.1
  · exact (stops_below_iff h hlt (by have := hs.2; omega)).mpr hs.2

theorem findStep_below_goes (h : b.Sound) (hsize : 0 < size.toNat) (halign : 1 ≤ align.toNat)
    (hlt : alignedAddr.toNat + size.toNat ≤ addr.toNat)
    (hs : ¬b.Surrounds size.toNat align.toNat alignedAddr.toNat) :
    ∃ r, findStep addr false size align alignedAddr mem b = .ok r ∧
      r.toNat = (b.offerBelow size.toNat align.toNat alignedAddr.toNat).elim mem.toNat
        (max mem.toNat) := by
  have haddr := addr.isLt
  by_cases hp : b.Passed size (b.alignedBase false size align alignedAddr)
  · have hnone : b.offerBelow size.toNat align.toNat alignedAddr.toNat = none := by
      rw [← Option.not_isSome_iff_eq_none]
      exact fun hsome => (not_passed_below_iff h hsize halign).mpr hsome hp
    exact ⟨mem, findStep_passed hp, by rw [hnone]; rfl⟩
  · have hsome := (not_passed_below_iff h hsize halign).mp hp
    obtain ⟨r, hr⟩ := Option.isSome_iff_exists.mp hsome
    obtain ⟨hreq, hlo, hroom⟩ := mem_offerBelow.mp hr
    have hbase : (b.alignedBase false size align alignedAddr).toNat = _ :=
      alignedBase_below h halign hsize hroom
    rw [← hreq] at hbase
    have hdown : r ≤ min alignedAddr.toNat (b.hi - size.toNat) := hreq ▸ floorTo_le
    have hend := h.toNat_entryEnd (by omega)
    have hsub : (b.entryEnd - b.alignedBase false size align alignedAddr).toNat = b.hi - r := by
      rw [BitVec.toNat_sub_of_le (BitVec.le_def.mpr (by omega)), hend, hbase]
    have hstop : ¬(b.base ≤ alignedAddr ∧ alignedAddr + size < b.entryEnd) := by
      rw [stops_below_iff h (by omega) (by omega)]
      exact fun hst => hs ⟨hsome, hst⟩
    refine ⟨_, findStep_offer hp hstop, ?_⟩
    simp only [Bool.false_eq_true, if_false, BitVec.le_def, BitVec.lt_def, hsub, hbase, hr,
      Option.elim_some]
    by_cases hmem : mem.toNat < r
    · rw [if_pos ⟨by omega, by omega, hmem⟩, hbase]
      exact (Nat.max_eq_right (Nat.le_of_lt hmem)).symm
    · rw [if_neg fun h => hmem h.2.2]
      exact (Nat.max_eq_left (Nat.le_of_not_lt hmem)).symm

/-- The loop downwards. It is left with the aligned address if a block surrounds it. -/
theorem isGreatest_findLoop {blocks : List BlockRam} (hmap : ∀ b ∈ blocks, b.Sound)
    (hsize : 0 < size.toNat) (halign : 1 ≤ align.toNat)
    (hlt : alignedAddr.toNat + size.toNat ≤ addr.toNat) :
    let step := findStep addr false size align alignedAddr
    let offer := BlockRam.offerBelow size.toNat align.toNat alignedAddr.toNat
    let stops := BlockRam.Surrounds size.toNat align.toNat alignedAddr.toNat
    IsGreatest {a | a = 0 ∨ (∃ b ∈ blocks, a ∈ offer b) ∨
        a = alignedAddr.toNat ∧ ∃ b ∈ blocks, stops b}
      (outcome (blocks.foldlM step 0)).toNat ∧
    ∀ r, blocks.foldlM step 0 = .error r → ∃ b ∈ blocks, stops b := by
  intro step offer stops
  have haddr := addr.isLt
  have hstop : ∀ mem, ∀ b ∈ blocks, stops b → step mem b = .error alignedAddr :=
    fun mem b hb => findStep_below_stops (hmap b hb) hsize halign (by omega)
  have hgoes : ∀ mem, ∀ b ∈ blocks, ¬stops b →
      ∃ r, step mem b = .ok r ∧ r.toNat = (offer b).elim mem.toNat (max mem.toNat) :=
    fun mem b hb => findStep_below_goes (hmap b hb) hsize halign hlt
  refine ⟨?_, fun r hr => foldlM_error (fun mem b hb hs => ?_) hr⟩
  · -- the search is for the least offer in the opposite order
    let dual : BlockRam → Option ℕᵒᵈ := fun b => (offer b).map OrderDual.toDual
    let bound : ℕᵒᵈ := OrderDual.toDual alignedAddr.toNat
    let best : ℕᵒᵈ := OrderDual.toDual (0 : BitVec 32).toNat
    have hseek : OrderDual.toDual (outcome (blocks.foldlM step 0)).toNat =
        seek stops dual bound blocks best := by
      apply foldlM_seek fun v : BitVec 32 => OrderDual.toDual v.toNat
      · intro mem b hb hs
        exact ⟨_, hstop mem b hb hs, rfl⟩
      · intro mem b hb hs
        obtain ⟨r, hr, hval⟩ := hgoes mem b hb hs
        refine ⟨r, hr, ?_⟩
        show OrderDual.toDual r.toNat = ((offer b).map OrderDual.toDual).elim _ _
        rw [hval]
        cases offer b with
        | none => rfl
        | some a => rfl
    have hoffer : ∀ b ∈ blocks, ∀ a ∈ dual b, bound ≤ a := by
      intro b hb a ha
      obtain ⟨r, hr, rfl⟩ := Option.mem_map.mp ha
      have hdown : r ≤ min alignedAddr.toNat (b.hi - size.toNat) :=
        (mem_offerBelow.mp hr).1 ▸ floorTo_le
      exact Nat.le_trans hdown (Nat.min_le_left _ _)
    have hbest : bound ≤ best := Nat.zero_le _
    have hleast : IsLeast _ (seek stops dual bound blocks best) := isLeast_seek hbest hoffer
    rw [← hseek] at hleast
    obtain ⟨hmem, hbound⟩ := hleast
    constructor
    · rcases hmem with h | ⟨b, hb, h⟩ | ⟨h, hs⟩
      · exact .inl h
      · obtain ⟨r, hr, heq⟩ := Option.mem_map.mp h
        have heq' : r = _ := heq
        rw [heq'] at hr
        exact .inr (.inl ⟨b, hb, hr⟩)
      · exact .inr (.inr ⟨h, hs⟩)
    · rintro a (rfl | ⟨b, hb, ha⟩ | ⟨rfl, hs⟩)
      · exact Nat.zero_le _
      · exact hbound (.inr (.inl ⟨b, hb, Option.mem_map.mpr ⟨a, ha, rfl⟩⟩))
      · exact hbound (.inr (.inr ⟨rfl, hs⟩))
  · obtain ⟨r, hr, -⟩ := hgoes mem b hb hs
    exact ⟨r, hr⟩

/-- The result is the highest place. Address 0 is not always found. -/
theorem findBlockAddress_below {m : Memory} {mmap mmapSize : BitVec 32}
    (hmap : ∀ b ∈ mapBlocks m mmap mmapSize, b.Sound) (hnull : mmap ≠ memoryNullPtr)
    (hcount : mmapSize ≠ 0) (hsize : 0 < size.toNat) (halign : 1 ≤ align.toNat)
    (hle : size.toNat ≤ addr.toNat) :
    let places := placesBelow (mapBlocks m mmap mmapSize) addr.toNat size.toNat align.toNat
    let v := findBlockAddress m addr false size align mmap mmapSize
    ((∃ r ∈ places, r ≠ 0) → IsGreatest places v.toNat) ∧
      (v ≠ memory32BitLimit → IsGreatest places v.toNat) := by
  intro places v
  have h0 : (0 : BitVec 32).toNat = 0 := rfl
  have hne : size ≠ 0 := fun h => by
    rw [h] at hsize
    omega
  have habove : ¬((false : Bool) = true ∧ (addr = memory32BitLimit ∨ addr + size < addr)) :=
    fun h => Bool.false_ne_true h.1
  have hbelow : ¬(¬(false : Bool) = true ∧ (addr = 0 ∨ addr < size)) := by
    rintro ⟨-, h | h⟩
    · rw [h] at hle
      omega
    · exact absurd (BitVec.lt_def.mp h) (by omega)
  -- the aligned address
  have haligned : (alignAddress (addr - size) align false).toNat =
      floorTo align.toNat (addr.toNat - size.toNat) := by
    rw [toNat_alignAddress_below halign, BitVec.toNat_sub_of_le (BitVec.le_def.mpr hle)]
  have hdown : floorTo align.toNat (addr.toNat - size.toNat) ≤ addr.toNat - size.toNat :=
    floorTo_le
  have hlt : (alignAddress (addr - size) align false).toNat + size.toNat ≤ addr.toNat := by
    omega
  obtain ⟨hgreatest, herror⟩ := isGreatest_findLoop hmap hsize halign hlt
  rw [haligned] at hgreatest herror
  have hstep : findBlockAddress m addr false size align mmap mmapSize =
      match (mapBlocks m mmap mmapSize).foldlM
        (findStep addr false size align (alignAddress (addr - size) align false)) 0 with
      | .error r => r
      | .ok mem => if mem ≠ 0 then mem else memory32BitLimit := by
    rw [findBlockAddress, if_neg hne, if_neg habove, if_neg hbelow]
    simp only [Bool.false_eq_true, if_false, hcount, hnull, or_self, false_or]
  revert hgreatest herror
  rw [show v = _ from hstep]
  generalize (mapBlocks m mmap mmapSize).foldlM
    (findStep addr false size align (alignAddress (addr - size) align false)) 0 = result
  intro hgreatest herror
  -- no place is above the result of the loop
  have hbound : ∀ r ∈ places, r ≤ (outcome result).toNat := by
    intro r hr
    obtain ⟨b, hb, a, ha, hra⟩ := exists_offerBelow hr
    exact Nat.le_trans hra (hgreatest.2 (.inr (.inl ⟨b, hb, ha⟩)))
  have hplace : ∀ b ∈ mapBlocks m mmap mmapSize, b.Surrounds size.toNat align.toNat
      (floorTo align.toNat (addr.toNat - size.toNat)) →
        floorTo align.toNat (addr.toNat - size.toNat) ∈ places :=
    fun b hb hs => hs.mem_places hb hle
  have hfound : (outcome result).toNat = 0 ∨ (outcome result).toNat ∈ places := by
    rcases hgreatest.1 with h | ⟨b, hb, h⟩ | ⟨h, b, hb, hs⟩
    · exact .inl h
    · exact .inr (offerBelow_mem_places hb hle h)
    · rw [h]
      exact .inr (hplace b hb hs)
  match result with
  | .error r =>
    obtain ⟨b, hb, hs⟩ := herror r rfl
    have hmem := hplace b hb hs
    have hgreatest' : IsGreatest places r.toNat := by
      refine ⟨?_, hbound⟩
      rcases hfound with hzero | hfound
      · have hle' := hbound _ hmem
        rw [hzero, Nat.le_zero] at hle'
        rw [hle'] at hmem
        exact (show r.toNat = 0 from hzero) ▸ hmem
      · exact hfound
    exact ⟨fun _ => hgreatest', fun _ => hgreatest'⟩
  | .ok mem =>
    by_cases hmem : mem = 0
    · have hval : (outcome (.ok mem : Except (BitVec 32) (BitVec 32))).toNat = 0 := by
        rw [hmem]
        rfl
      rw [hval] at hbound
      simp only [hmem, ne_eq, not_true_eq_false, if_false, false_implies, and_true]
      intro ⟨r, hr, hr0⟩
      exact absurd (Nat.le_zero.mp (hbound r hr)) hr0
    · have hval : (outcome (.ok mem : Except (BitVec 32) (BitVec 32))).toNat ≠ 0 :=
        fun h => hmem (BitVec.eq_of_toNat_eq h)
      have hgreatest' : IsGreatest places mem.toNat := ⟨hfound.resolve_left hval, hbound⟩
      simp only [ne_eq, hmem, not_false_eq_true, if_true]
      exact ⟨fun _ => hgreatest', fun _ => hgreatest'⟩

end below

theorem findBlockAddress_below_oneBlock :
    let places := placesBelow (mapBlocks oneBlock 0x1000 1) 0x180000 0x2000 0x1000
    let v := findBlockAddress oneBlock 0x180000 false 0x2000 0x1000 0x1000 1
    ((∃ r ∈ places, r ≠ 0) → IsGreatest places v.toNat) ∧
      (v ≠ memory32BitLimit → IsGreatest places v.toNat) :=
  @findBlockAddress_below 0x180000 0x2000 0x1000 oneBlock 0x1000 1
    sound_oneBlock (by decide) (by decide) (by decide) (by decide) (by decide)

/-! ## Section 5: Any Map

  What is found in a map whose blocks may be empty, or go beyond the address space.
-/

section anyMap

variable {m : Memory} {b : BlockRam} {addr size align mmap mmapSize mem alignedAddr : BitVec 32}
  {above : Bool}

/-- The multiple above is one if it has not wrapped. -/
theorem aligned_above (h : addr ≤ alignAddress addr align true) :
    align.toNat ≤ 1 ∨ align.toNat ∣ (alignAddress addr align true).toNat := by
  rcases Nat.lt_or_ge 1 align.toNat with halign | halign
  · have hlt : ceilTo align.toNat addr.toNat < addr.toNat + align.toNat := ceilTo_lt (by omega)
    have hbound := align.isLt
    rw [BitVec.le_def, toNat_alignAddress_above (by omega)] at h
    rw [toNat_alignAddress_above (by omega), Nat.mod_eq_of_lt (by omega)]
    exact .inr dvd_ceilTo
  · exact .inl halign

/-- A result upwards: the aligned address, or a multiple of the alignment with room from it on. -/
def FoundAbove (addr size align v : BitVec 32) : Prop :=
  v = alignAddress addr align true ∨
    addr ≤ v ∧ (align.toNat ≤ 1 ∨ align.toNat ∣ v.toNat) ∧ v.toNat + size.toNat < 2 ^ 32

/-- A round keeps the address, or comes to the aligned address, or to a place in the block. -/
theorem findStep_cases :
    let v := outcome (findStep addr above size align alignedAddr mem b)
    v = mem ∨ v = alignedAddr ∨ v = b.alignedBase above size align alignedAddr ∧
      b.base ≤ v ∧ v < b.entryEnd ∧ size ≤ b.entryEnd - v ∧ (above → addr ≤ v) := by
  intro v
  by_cases hp : b.Passed size (b.alignedBase above size align alignedAddr)
  · refine .inl ?_
    show outcome _ = mem
    rw [findStep_passed hp]
    rfl
  · by_cases hs : b.base ≤ alignedAddr ∧ alignedAddr + size < b.entryEnd
    · refine .inr (.inl ?_)
      show outcome _ = alignedAddr
      rw [findStep_stops hp hs]
      rfl
    · have hv : v = _ := congrArg outcome (findStep_offer hp hs)
      simp only [BlockRam.Passed, not_or, BitVec.not_lt, BitVec.not_le] at hp
      revert v hp
      generalize b.alignedBase above size align alignedAddr = base
      intro v hv hp
      by_cases hoffer : size ≤ b.entryEnd - base ∧
          (if above then addr ≤ base ∧ base < mem else base < addr ∧ mem < base)
      · have hbase : v = base := hv.trans (if_pos hoffer)
        rw [hbase]
        refine .inr (.inr ⟨rfl, hp.2.2.1, hp.2.2.2, hoffer.1, fun h => ?_⟩)
        have hle := hoffer.2
        rw [if_pos h] at hle
        exact hle.1
      · exact .inl (hv.trans (if_neg hoffer))

theorem findBlockAddress_above_found
    (h : findBlockAddress m addr true size align mmap mmapSize ≠ memory32BitLimit) :
    FoundAbove addr size align (findBlockAddress m addr true size align mmap mmapSize) ∧
      addr.toNat + size.toNat < 2 ^ 32 := by
  have hloop : ∀ blocks : List BlockRam, ∀ v, v = outcome (blocks.foldlM
      (findStep addr true size align (alignAddress addr align true)) memory32BitLimit) →
      v = memory32BitLimit ∨ FoundAbove addr size align v := by
    intro blocks v hv
    rw [hv]
    refine outcome_foldlM (p := fun v => v = memory32BitLimit ∨ FoundAbove addr size align v) ?_ ?_
    · intro mem hmem b hb
      rcases findStep_cases (b := b) with heq | heq | ⟨heq, hbase, hlt, hroom, haddr⟩
      · rw [heq]
        exact hmem
      · exact .inr (.inl heq)
      · refine .inr (.inr ⟨haddr rfl, ?_, ?_⟩)
        · rw [heq] at hbase ⊢
          exact aligned_above hbase
        · have hend := b.entryEnd.isLt
          rw [BitVec.le_def, BitVec.toNat_sub_of_le (BitVec.le_of_lt hlt)] at hroom
          rw [BitVec.lt_def] at hlt
          omega
    · exact .inl rfl
  revert h
  rw [findBlockAddress]
  split
  · exact fun h => absurd rfl h
  split
  · exact fun h => absurd rfl h
  next hwrap =>
  have hfits : addr.toNat + size.toNat < 2 ^ 32 := by
    simp only [true_and, not_or, BitVec.lt_def, BitVec.toNat_add] at hwrap
    have := addr.isLt
    have := size.isLt
    omega
  simp only [not_true_eq_false, false_and, if_false, if_true, true_or]
  split
  · exact fun h => absurd rfl h
  intro h
  refine ⟨?_, hfits⟩
  revert h
  split
  · next r hr =>
    intro h
    exact (hloop _ r (by rw [hr]; rfl)).resolve_left h
  · next r hr =>
    intro h
    exact (hloop _ r (by rw [hr]; rfl)).resolve_left h

end anyMap

end Avos.Multiboot
