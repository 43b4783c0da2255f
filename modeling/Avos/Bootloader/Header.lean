import Avos.Bootloader.Savers
import Avos.Library.Search

/-! # The Header of the Kernel

  `Multiboot_GetHeader` of `bootloader/multiboot/src/multiboot.c`, and the loops over the tags of
  the header it finds.

  The search ends at the first magic number, whether a header follows it or not
  (`getHeader_iff`). The loops go from a tag to the next by the size of the tag, where the
  next tag begins at a multiple of eight bytes (`visitsTags_iff`).
-/

open ByteMemory Walks Searches

namespace Avos.Multiboot

/-! ## Section 1: The Search for the Header -/

/-- The magic number of a header. -/
def headerMagic : BitVec 32 := 0xE85250D6

/-- The loop of `Multiboot_GetHeader`, over `n` words from the word `i` on: the offset of the
    magic number. -/
def findMagic (m : Memory) (start : BitVec 32) : Nat → Nat → Option Nat
  | 0, _ => none
  | n + 1, i =>
      if i % 2 ≠ 0 then findMagic m start n (i + 1)
      else if load32 m (start + BitVec.ofNat 32 (4 * i)) = headerMagic then some (4 * i)
      else findMagic m start n (i + 1)

/-- The tests of `Multiboot_GetHeader` behind the loop. -/
def FieldsValid (m : Memory) (header : BitVec 32) : Prop :=
  16 ≤ headerLength m header ∧
    load32 m (header + 12) + load32 m header + load32 m (header + 4) + headerLength m header = 0

instance (m : Memory) (header : BitVec 32) : Decidable (FieldsValid m header) :=
  inferInstanceAs (Decidable (_ ∧ _))

/-- `Multiboot_GetHeader`. -/
def getHeader (m : Memory) (start size : BitVec 32) : BitVec 32 :=
  match findMagic m start (min (size / 4).toNat 0x2000) 0 with
  | none => 0
  | some o => if FieldsValid m (start + BitVec.ofNat 32 o) then start + BitVec.ofNat 32 o else 0

/-- The magic number is at the offset `o`, where the search looks. -/
structure MagicAt (m : Memory) (start size : BitVec 32) (o : Nat) : Prop where
  aligned : 8 ∣ o
  first : o < 32768
  inside : o + 4 ≤ size.toNat
  magic : load32 m (start + BitVec.ofNat 32 o) = headerMagic

/-- A valid header begins at the offset `o`, with its fields inside of the file. -/
structure ValidAt (m : Memory) (start size : BitVec 32) (o : Nat) : Prop where
  aligned : 8 ∣ o
  first : o < 32768
  inside : o + 16 ≤ size.toNat
  magic : load32 m (start + BitVec.ofNat 32 o) = headerMagic
  fields : FieldsValid m (start + BitVec.ofNat 32 o)

/-- The result is the address of the first valid header, and 0 if and only if there is none. -/
structure FindsHeader (m : Memory) (start size v : BitVec 32) : Prop where
  first : ∀ o, IsLeast {o | ValidAt m start size o} o → v = start + BitVec.ofNat 32 o
  none_iff : v = 0 ↔ ∀ o, ¬ValidAt m start size o

section search

variable {m : Memory} {start size : BitVec 32} {o p : Nat}

theorem ValidAt.magicAt (h : ValidAt m start size o) : MagicAt m start size o :=
  ⟨h.aligned, h.first, Nat.le_trans (Nat.add_le_add_left (by decide) o) h.inside, h.magic⟩

/-- The search stops at the first word with an even number that is the magic one. -/
theorem findMagic_spec : ∀ n i : Nat,
    match findMagic m start n i with
    | none => ∀ j, i ≤ j → j < i + n → j % 2 = 0 →
        load32 m (start + BitVec.ofNat 32 (4 * j)) ≠ headerMagic
    | some o => ∃ k, o = 4 * k ∧ i ≤ k ∧ k < i + n ∧ k % 2 = 0 ∧
        load32 m (start + BitVec.ofNat 32 (4 * k)) = headerMagic ∧
        ∀ j, i ≤ j → j < k → j % 2 = 0 →
          load32 m (start + BitVec.ofNat 32 (4 * j)) ≠ headerMagic := by
  intro n
  induction n with
  | zero =>
    intro i j hi hj
    omega
  | succ n ih =>
    intro i
    rw [findMagic]
    by_cases hodd : i % 2 ≠ 0
    · rw [if_pos hodd]
      specialize ih (i + 1)
      cases hfind : findMagic m start n (i + 1) with
      | none =>
        rw [hfind] at ih
        intro j hi hj heven
        have hne : i ≠ j := fun h => hodd (h ▸ heven)
        exact ih j (by omega) (by omega) heven
      | some o =>
        rw [hfind] at ih
        obtain ⟨k, hk, hle, hlt, heven, hmagic, hbefore⟩ := ih
        refine ⟨k, hk, by omega, by omega, heven, hmagic, fun j hi hj hj2 => ?_⟩
        have hne : i ≠ j := fun h => hodd (h ▸ hj2)
        exact hbefore j (by omega) hj hj2
    · rw [if_neg hodd]
      by_cases hmagic : load32 m (start + BitVec.ofNat 32 (4 * i)) = headerMagic
      · rw [if_pos hmagic]
        exact ⟨i, rfl, by omega, by omega, not_not.mp hodd, hmagic, by omega⟩
      · rw [if_neg hmagic]
        specialize ih (i + 1)
        cases hfind : findMagic m start n (i + 1) with
        | none =>
          rw [hfind] at ih
          intro j hi hj heven
          rcases Nat.eq_or_lt_of_le hi with rfl | hi
          · exact hmagic
          · exact ih j hi (by omega) heven
        | some o =>
          rw [hfind] at ih
          obtain ⟨k, hk, hle, hlt, heven, hmagic', hbefore⟩ := ih
          refine ⟨k, hk, by omega, by omega, heven, hmagic', fun j hi hj hj2 => ?_⟩
          rcases Nat.eq_or_lt_of_le hi with rfl | hi
          · exact hmagic
          · exact hbefore j hi hj hj2

theorem magicAt_iff : MagicAt m start size o ↔ ∃ k, o = 4 * k ∧
    k < min (size / 4).toNat 0x2000 ∧ k % 2 = 0 ∧
      load32 m (start + BitVec.ofNat 32 (4 * k)) = headerMagic := by
  have hquarter : (size / 4).toNat = size.toNat / 4 := BitVec.toNat_udiv
  rw [hquarter]
  constructor
  · intro h
    obtain ⟨k, rfl⟩ := h.aligned
    have hfirst := h.first
    have hinside := h.inside
    have heq : 8 * k = 4 * (2 * k) := by omega
    exact ⟨2 * k, heq, by omega, by omega, heq ▸ h.magic⟩
  · rintro ⟨k, rfl, hk, heven, hmagic⟩
    exact ⟨by omega, by omega, by omega, hmagic⟩

/-- The search finds the first magic number. -/
theorem findMagic_cases :
    (findMagic m start (min (size / 4).toNat 0x2000) 0 = none ∧ ∀ o, ¬MagicAt m start size o) ∨
    ∃ p, findMagic m start (min (size / 4).toNat 0x2000) 0 = some p ∧
      IsLeast {o | MagicAt m start size o} p := by
  have hspec := @findMagic_spec m start (min (size / 4).toNat 0x2000) 0
  cases hfind : findMagic m start (min (size / 4).toNat 0x2000) 0 with
  | none =>
    rw [hfind] at hspec
    refine .inl ⟨rfl, fun o ho => ?_⟩
    obtain ⟨k, -, hk, heven, hmagic⟩ := magicAt_iff.mp ho
    exact hspec k (Nat.zero_le k) (by omega) heven hmagic
  | some p =>
    rw [hfind] at hspec
    obtain ⟨k, rfl, -, hk, heven, hmagic, hbefore⟩ := hspec
    refine .inr ⟨_, rfl, magicAt_iff.mpr ⟨k, rfl, by omega, heven, hmagic⟩, fun o ho => ?_⟩
    obtain ⟨j, rfl, -, hj, hmagic'⟩ := magicAt_iff.mp ho
    by_contra hlt
    exact hbefore j (Nat.zero_le j) (by omega) hj hmagic'

/-- The result is right if and only if the first magic number tells whether there is a valid
    header. -/
theorem getHeader_iff : FindsHeader m start size (getHeader m start size) ↔
    ∀ p, IsLeast {o | MagicAt m start size o} p →
      (FieldsValid m (start + BitVec.ofNat 32 p) ∧ start + BitVec.ofNat 32 p ≠ 0 ↔
        ∃ o, ValidAt m start size o) := by
  rcases findMagic_cases (m := m) with
    ⟨hfind, hnone⟩ | ⟨p, hfind, hp⟩
  · have hvalid : ∀ o, ¬ValidAt m start size o := fun o ho => hnone o ho.magicAt
    rw [getHeader, hfind]
    refine iff_of_true ⟨fun o ho => absurd ho.1 (hvalid o), iff_of_true rfl hvalid⟩ ?_
    exact fun p hp => absurd hp.1 (hnone p)
  · -- the only candidate is `p`
    have hone : (∀ q, IsLeast {o | MagicAt m start size o} q →
        (FieldsValid m (start + BitVec.ofNat 32 q) ∧ start + BitVec.ofNat 32 q ≠ 0 ↔
          ∃ o, ValidAt m start size o)) ↔
        (FieldsValid m (start + BitVec.ofNat 32 p) ∧ start + BitVec.ofNat 32 p ≠ 0 ↔
          ∃ o, ValidAt m start size o) := by
      constructor
      · intro h
        exact h p hp
      · intro h q hq
        rw [hq.unique hp]
        exact h
    rw [hone, getHeader, hfind]
    dsimp only
    by_cases hfields : FieldsValid m (start + BitVec.ofNat 32 p)
    · rw [if_pos hfields, and_iff_right hfields]
      constructor
      · intro h
        rw [Ne, h.none_iff, not_forall_not]
      · intro h
        have hvalid : ∀ o, ValidAt m start size o → IsLeast {o | ValidAt m start size o} p := by
          intro o ho
          have hle : p ≤ o := hp.2 ho.magicAt
          have hinside := ho.inside
          exact ⟨⟨hp.1.aligned, hp.1.first, by omega, hp.1.magic, hfields⟩,
            fun q hq => hp.2 (ValidAt.magicAt hq)⟩
        refine ⟨fun o ho => ?_, ?_⟩
        · rw [ho.unique (hvalid o ho.1)]
        · rw [← not_exists, ← h, not_not]
    · rw [if_neg hfields]
      have hfalse : ¬(FieldsValid m (start + BitVec.ofNat 32 p) ∧
          start + BitVec.ofNat 32 p ≠ 0) := fun h => hfields h.1
      rw [iff_false_left hfalse, not_exists]
      constructor
      · intro h
        exact h.none_iff.mp rfl
      · intro h
        exact ⟨fun o ho => absurd ho.1 (h o), iff_of_true rfl h⟩

/-- A header at the start of the file is found. -/
theorem getHeader_first (hsize : 4 ≤ size.toNat) (hmagic : load32 m start = headerMagic)
    (hfields : FieldsValid m start) : getHeader m start size = start := by
  have hquarter : (size / 4).toNat = size.toNat / 4 := BitVec.toNat_udiv
  obtain ⟨n, hn⟩ : ∃ n, min (size / 4).toNat 0x2000 = n + 1 :=
    Nat.exists_eq_succ_of_ne_zero (by omega)
  have hzero : start + BitVec.ofNat 32 (4 * 0) = start := BitVec.add_zero start
  have hfind : findMagic m start (n + 1) 0 = some 0 := by
    rw [findMagic, if_neg (by decide), hzero, if_pos hmagic]
  have hstart : start + BitVec.ofNat 32 0 = start := BitVec.add_zero start
  rw [getHeader, hn, hfind]
  dsimp only
  rw [hstart, if_pos hfields]

end search

/-- These bytes at an address, in a memory. -/
def bytesAt (a : BitVec 32) (l : List (BitVec 8)) (m : Memory) : Memory :=
  fun x => (l[(x - a).toNat]?).getD (m x)

theorem hasBytes_bytesAt {m : Memory} {a : BitVec 32} {l : List (BitVec 8)}
    (hl : l.length ≤ 2 ^ 32) : HasBytes (bytesAt a l m) a l := by
  intro i hi
  have hoffset : (a + BitVec.ofNat 32 i - a).toNat = i := by
    bv_omega
  rw [bytesAt, hoffset, List.getElem?_eq_getElem hi, List.getD_eq_getElem l 0 hi]
  rfl

/-- A magic number with nothing behind it, and a header 16 bytes further. -/
def twoMagics : Memory :=
  bytesAt 0x100000
    [0xD6, 0x50, 0x52, 0xE8, 0, 0, 0, 0, 0, 0, 0, 0, 0, 0, 0, 0,
      0xD6, 0x50, 0x52, 0xE8, 0, 0, 0, 0, 0x10, 0, 0, 0, 0x1A, 0xAF, 0xAD, 0x17] fun _ => 0

/-- The header behind the first magic number is not found. -/
theorem not_forall_findsHeader : ¬∀ (m : Memory) (start size : BitVec 32),
    FindsHeader m start size (getHeader m start size) := by
  intro h
  have hfinds := h twoMagics 0x100000 32
  have hresult : getHeader twoMagics 0x100000 32 = 0 := by decide +kernel
  refine hfinds.none_iff.mp hresult 16 ⟨by decide, by decide, by decide, ?_, ?_⟩
  · decide +kernel
  · decide +kernel

/-! ## Section 2: Conforming Headers

  Every tag begins at the next multiple of eight bytes behind the tag before it.
-/

/-- A tag of a header. The contents come after its type, flags and size. -/
structure HeaderTag where
  type : BitVec 16
  flags : BitVec 16
  body : List (BitVec 8)
deriving DecidableEq

namespace HeaderTag

/-- The size of the tag, as the tag has it. -/
def size (t : HeaderTag) : Nat := 8 + t.body.length

/-- The distance to the next tag. -/
def padded (t : HeaderTag) : Nat := ceilTo 8 t.size

/-- The tag that ends a header. -/
def terminator : HeaderTag := ⟨0, 0, []⟩

end HeaderTag

/-- The tag is in memory at `a`. -/
structure HeaderTagAt (m : Memory) (a : BitVec 32) (t : HeaderTag) : Prop where
  type : headerTagType m a = t.type
  flags : load16 m (a + 2) = t.flags
  size : headerTagSize m a = BitVec.ofNat 32 t.size
  body : HasBytes m (a + 8) t.body

/-- The tags are in memory from `a` on. -/
def HeaderTagsAt (m : Memory) : BitVec 32 → List HeaderTag → Prop
  | _, [] => True
  | a, t :: ts => HeaderTagAt m a t ∧ HeaderTagsAt m (a + BitVec.ofNat 32 t.padded) ts

/-- The bytes that the tags take up. -/
def headerTagBytes : List HeaderTag → Nat
  | [] => 0
  | t :: ts => t.padded + headerTagBytes ts

/-- Where the tags are, from `a` on. -/
def headerTagAddrs : BitVec 32 → List HeaderTag → List (BitVec 32)
  | _, [] => []
  | a, t :: ts => a :: headerTagAddrs (a + BitVec.ofNat 32 t.padded) ts

/-- A header with these tags before the one that ends it. It does not go beyond the address
    space. -/
structure HeaderAt (m : Memory) (header : BitVec 32) (tags : List HeaderTag) : Prop where
  magic : load32 m header = headerMagic
  fields : FieldsValid m header
  tagsAt : HeaderTagsAt m (header + 16) (tags ++ [.terminator])
  length : (headerLength m header).toNat = 16 + headerTagBytes (tags ++ [.terminator])
  room : header.toNat + (headerLength m header).toNat < 2 ^ 32

instance (m : Memory) (a : BitVec 32) (t : HeaderTag) : Decidable (HeaderTagAt m a t) :=
  decidable_of_iff (headerTagType m a = t.type ∧ load16 m (a + 2) = t.flags ∧
      headerTagSize m a = BitVec.ofNat 32 t.size ∧ HasBytes m (a + 8) t.body)
    ⟨fun h => ⟨h.1, h.2.1, h.2.2.1, h.2.2.2⟩, fun h => ⟨h.type, h.flags, h.size, h.body⟩⟩

instance decidableHeaderTagsAt (m : Memory) :
    ∀ (a : BitVec 32) (tags : List HeaderTag), Decidable (HeaderTagsAt m a tags)
  | _, [] => isTrue trivial
  | a, t :: ts =>
      have := decidableHeaderTagsAt m (a + BitVec.ofNat 32 t.padded) ts
      inferInstanceAs (Decidable (_ ∧ _))

instance (m : Memory) (header : BitVec 32) (tags : List HeaderTag) :
    Decidable (HeaderAt m header tags) :=
  decidable_of_iff (load32 m header = headerMagic ∧ FieldsValid m header ∧
      HeaderTagsAt m (header + 16) (tags ++ [.terminator]) ∧
      (headerLength m header).toNat = 16 + headerTagBytes (tags ++ [.terminator]) ∧
      header.toNat + (headerLength m header).toNat < 2 ^ 32)
    ⟨fun h => ⟨h.1, h.2.1, h.2.2.1, h.2.2.2.1, h.2.2.2.2⟩,
      fun h => ⟨h.magic, h.fields, h.tagsAt, h.length, h.room⟩⟩

/-- The tag that makes `Multiboot_LoadKernel` leave its loop. -/
def IsEntryAddress (m : Memory) (tag : BitVec 32) : Prop := headerTagType m tag = 3

instance (m : Memory) : DecidablePred (IsEntryAddress m) :=
  fun _ => inferInstanceAs (Decidable (_ = _))

/-- The loops over the tags visit exactly the tags, in order: the loop of `Multiboot_SaveInfo`
    and the other savers, and that of `Multiboot_LoadKernel`, which may leave the end out. -/
structure VisitsTags (m : Memory) (header : BitVec 32) (tags : List HeaderTag) : Prop where
  saveInfo : Walk (InHeader m header) (nextHeaderTag m) (header + 16)
    (headerTagAddrs (header + 16) (tags ++ [.terminator]))
  loadKernel : ∃ l, StopWalk (InHeader m header) (nextHeaderTag m) (IsEntryAddress m)
      (header + 16) l ∧ (l = headerTagAddrs (header + 16) tags ∨
        l = headerTagAddrs (header + 16) (tags ++ [.terminator]))

/-! ## Section 3: The Walks -/

section walks

variable {m : Memory} {header a : BitVec 32} {tags ts : List HeaderTag} {t : HeaderTag} {i : Nat}

namespace HeaderTag

theorem le_padded : t.size ≤ t.padded := le_ceilTo (by decide)

theorem padded_eq_iff : t.padded = t.size ↔ 8 ∣ t.size := by
  constructor
  · intro h
    rw [← h]
    exact dvd_ceilTo
  · intro h
    exact if_pos h

end HeaderTag

/-- A tag depends on its own bytes only. -/
theorem HeaderTagAt.congr {m' : Memory} (h : HeaderTagAt m a t) (ht : t.size ≤ 2 ^ 32)
    (hsame : ∀ x, InBytes a t.size x → m' x = m x) : HeaderTagAt m' a t := by
  have hsize : t.size = 8 + t.body.length := rfl
  have hword : ∀ i, i + 2 ≤ t.size →
      load16 m' (a + BitVec.ofNat 32 i) = load16 m (a + BitVec.ofNat 32 i) :=
    fun i hi => load16_congr fun x hx => hsame x (hx.of_add hi ht)
  have htype := hword 0 (by omega)
  rw [BitVec.add_zero] at htype
  have hlength : load32 m' (a + BitVec.ofNat 32 4) = load32 m (a + BitVec.ofNat 32 4) :=
    load32_congr_of_add hsame (by omega) ht
  refine ⟨htype.trans h.type, (hword 2 (by omega)).trans h.flags, hlength.trans h.size, ?_⟩
  apply h.body.of_eq
  intro i hi
  apply hsame
  have haddr : a + 8 + BitVec.ofNat 32 i = a + BitVec.ofNat 32 (8 + i) := by
    rw [BitVec.ofNat_add, ← BitVec.add_assoc]
    rfl
  rw [haddr]
  exact inBytes_add (by omega) ht

theorem HeaderTagsAt.congr {m' : Memory} (h : HeaderTagsAt m a ts)
    (hts : headerTagBytes ts ≤ 2 ^ 32)
    (hsame : ∀ x, InBytes a (headerTagBytes ts) x → m' x = m x) : HeaderTagsAt m' a ts := by
  induction ts generalizing a with
  | nil => trivial
  | cons t ts ih =>
    have hle := t.le_padded
    rw [headerTagBytes] at hts hsame
    refine ⟨h.1.congr (by omega) (fun x hx => hsame x (hx.mono (by omega))), ?_⟩
    exact ih h.2 (by omega) fun x hx => hsame x (hx.of_add (Nat.le_refl _) hts)

/-- A header depends on its own bytes only. -/
theorem HeaderAt.congr {m' : Memory} (h : HeaderAt m header tags)
    (hsame : ∀ x, InBytes header (headerLength m header).toNat x → m' x = m x) :
    HeaderAt m' header tags := by
  have hlength := h.length
  have hbound := (headerLength m header).isLt
  have hload : ∀ i, i + 4 ≤ 16 →
      load32 m' (header + BitVec.ofNat 32 i) = load32 m (header + BitVec.ofNat 32 i) :=
    fun i hi => load32_congr_of_add hsame (by omega) (by omega)
  have hmagic := hload 0 (by decide)
  rw [BitVec.add_zero] at hmagic
  have harchitecture : load32 m' (header + 4) = load32 m (header + 4) := hload 4 (by decide)
  have hlength' : headerLength m' header = headerLength m header := hload 8 (by decide)
  have hchecksum : load32 m' (header + 12) = load32 m (header + 12) := hload 12 (by decide)
  refine ⟨hmagic.trans h.magic, ?_, ?_, ?_, ?_⟩
  · rw [FieldsValid, hlength', hchecksum, hmagic, harchitecture]
    exact h.fields
  · apply h.tagsAt.congr (by omega)
    intro x hx
    exact hsame x (InBytes.of_add (i := 16) hx (by omega) (by omega))
  · rw [hlength']
    exact hlength
  · rw [hlength']
    exact h.room

/-- The loop is inside of the header at a tag, and behind the last one it is not. -/
theorem inHeader_iff (h : HeaderAt m header tags) (hle : i ≤ (headerLength m header).toNat) :
    InHeader m header (header + BitVec.ofNat 32 i) ↔ i < (headerLength m header).toNat := by
  have hroom := h.room
  have hlast : (header + headerLength m header).toNat =
      header.toNat + (headerLength m header).toNat := by
    rw [BitVec.toNat_add, Nat.mod_eq_of_lt hroom]
  rw [InHeader, BitVec.lt_def, hlast, toNat_add_ofNat (by omega)]
  omega

theorem nextHeaderTag_eq_iff (h : HeaderTagAt m a t) (ht : t.padded < 2 ^ 32) :
    nextHeaderTag m a = a + BitVec.ofNat 32 t.padded ↔ 8 ∣ t.size := by
  have hle := t.le_padded
  rw [nextHeaderTag, h.size, BitVec.add_right_inj, ← BitVec.toNat_inj, BitVec.toNat_ofNat,
    BitVec.toNat_ofNat, Nat.mod_eq_of_lt (by omega), Nat.mod_eq_of_lt ht, eq_comm]
  exact HeaderTag.padded_eq_iff

/-- The tags from `i` on are the last of the header. -/
structure TagsFrom (m : Memory) (header : BitVec 32) (i : Nat) (ts : List HeaderTag) : Prop where
  tagsAt : HeaderTagsAt m (header + BitVec.ofNat 32 i) (ts ++ [.terminator])
  length : i + headerTagBytes (ts ++ [.terminator]) = (headerLength m header).toNat

theorem HeaderAt.tagsFrom (h : HeaderAt m header tags) : TagsFrom m header 16 tags :=
  ⟨h.tagsAt, h.length.symm⟩

theorem TagsFrom.tail (h : TagsFrom m header i (t :: ts)) :
    TagsFrom m header (i + t.padded) ts := by
  have hlength := h.length
  rw [List.cons_append, headerTagBytes] at hlength
  refine ⟨?_, by omega⟩
  rw [BitVec.ofNat_add, ← BitVec.add_assoc]
  exact h.tagsAt.2

/-- The loop goes on at the first of the tags that are left. -/
theorem TagsFrom.inHeader (h : HeaderAt m header tags) (hfrom : TagsFrom m header i ts) :
    InHeader m header (header + BitVec.ofNat 32 i) := by
  have hlength := hfrom.length
  have hbytes : 8 ≤ headerTagBytes (ts ++ [.terminator]) := by
    cases ts with
    | nil => exact Nat.le_refl 8
    | cons t ts =>
      have hle := t.le_padded
      rw [List.cons_append, headerTagBytes]
      exact Nat.le_trans (Nat.le_trans (Nat.le_add_right 8 _) hle) (Nat.le_add_right _ _)
  have hbound := (headerLength m header).isLt
  exact (inHeader_iff h (by omega)).mpr (by omega)

/-- Behind the tag that ends the header the loop ends. -/
theorem TagsFrom.last (h : HeaderAt m header tags) (hfrom : TagsFrom m header i []) :
    ¬InHeader m header (nextHeaderTag m (header + BitVec.ofNat 32 i)) := by
  have hlength : i + 8 = (headerLength m header).toNat := hfrom.length
  have hpadded : HeaderTag.terminator.padded = 8 := rfl
  rw [(nextHeaderTag_eq_iff hfrom.tagsAt.1 (by decide)).mpr (by decide), BitVec.add_assoc,
    ← BitVec.ofNat_add, hpadded, inHeader_iff h (Nat.le_of_eq hlength)]
  omega

theorem TagsFrom.padded_lt (h : TagsFrom m header i (t :: ts)) : t.padded < 2 ^ 32 := by
  have hlength := h.length
  have hbound := (headerLength m header).isLt
  rw [List.cons_append, headerTagBytes] at hlength
  omega

theorem exists_headerTagAddrs :
    ∃ l, headerTagAddrs a (ts ++ [.terminator]) = a :: l := by
  cases ts with
  | nil => exact ⟨[], rfl⟩
  | cons t ts => exact ⟨_, rfl⟩

/-- The loop without a break, from a tag on. -/
theorem walk_tags_iff (h : HeaderAt m header tags) (hfrom : TagsFrom m header i ts) :
    Walk (InHeader m header) (nextHeaderTag m) (header + BitVec.ofNat 32 i)
      (headerTagAddrs (header + BitVec.ofNat 32 i) (ts ++ [.terminator])) ↔
        ∀ t ∈ ts, 8 ∣ t.size := by
  induction ts generalizing i with
  | nil =>
    refine iff_of_true ?_ fun t ht => absurd ht List.not_mem_nil
    exact walk_cons.mpr ⟨rfl, hfrom.inHeader h, walk_nil.mpr (hfrom.last h)⟩
  | cons t ts ih =>
    have hnext := nextHeaderTag_eq_iff hfrom.tagsAt.1 hfrom.padded_lt
    have haddr : header + BitVec.ofNat 32 i + BitVec.ofNat 32 t.padded =
        header + BitVec.ofNat 32 (i + t.padded) := by
      rw [BitVec.ofNat_add, ← BitVec.add_assoc]
    specialize ih hfrom.tail
    rw [List.forall_mem_cons, List.cons_append, headerTagAddrs, walk_cons, ← ih, haddr, ← hnext,
      haddr]
    constructor
    · rintro ⟨-, -, hw⟩
      -- the loop comes to the next tag only if no padding is skipped
      obtain ⟨l, hl⟩ := exists_headerTagAddrs (a := header + BitVec.ofNat 32 (i + t.padded))
      have hstart : header + BitVec.ofNat 32 (i + t.padded) =
          nextHeaderTag m (header + BitVec.ofNat 32 i) := by
        rw [hl] at hw
        exact (walk_cons.mp hw).1
      rw [← hstart] at hw
      exact ⟨hstart.symm, hw⟩
    · rintro ⟨hstart, hw⟩
      rw [hstart]
      exact ⟨rfl, hfrom.inHeader h, hw⟩

/-- The loop that a tag of the entry address ends. -/
theorem stopWalk_tags_iff (h : HeaderAt m header tags) (hfrom : TagsFrom m header i ts)
    (hsizes : ∀ t ∈ ts, 8 ∣ t.size) :
    (∃ l, StopWalk (InHeader m header) (nextHeaderTag m) (IsEntryAddress m)
        (header + BitVec.ofNat 32 i) l ∧
      (l = headerTagAddrs (header + BitVec.ofNat 32 i) ts ∨
        l = headerTagAddrs (header + BitVec.ofNat 32 i) (ts ++ [.terminator]))) ↔
      ∀ t ∈ ts.dropLast, t.type ≠ 3 := by
  induction ts generalizing i with
  | nil =>
    have hgoes : ¬IsEntryAddress m (header + BitVec.ofNat 32 i) := by
      rw [IsEntryAddress, hfrom.tagsAt.1.type]
      decide
    refine iff_of_true ⟨[_], ?_, .inr rfl⟩ fun t ht => absurd ht List.not_mem_nil
    exact ⟨rfl, hfrom.inHeader h, .inr ⟨hgoes, hfrom.last h⟩⟩
  | cons t ts ih =>
    obtain ⟨hsize, hsizes⟩ := List.forall_mem_cons.mp hsizes
    have hnext : nextHeaderTag m (header + BitVec.ofNat 32 i) =
        header + BitVec.ofNat 32 (i + t.padded) := by
      rw [(nextHeaderTag_eq_iff hfrom.tagsAt.1 hfrom.padded_lt).mpr hsize, BitVec.ofNat_add,
        ← BitVec.add_assoc]
    have haddr : header + BitVec.ofNat 32 i + BitVec.ofNat 32 t.padded =
        header + BitVec.ofNat 32 (i + t.padded) := by
      rw [BitVec.ofNat_add, ← BitVec.add_assoc]
    have htype := hfrom.tagsAt.1.type
    specialize ih hfrom.tail hsizes
    by_cases hstop : t.type = 3
    · -- the loop is left here, with all tags visited if this is the last one
      have hentry : IsEntryAddress m (header + BitVec.ofNat 32 i) := htype.trans hstop
      cases ts with
      | nil =>
        refine iff_of_true ⟨[_], ⟨rfl, hfrom.inHeader h, .inl ⟨hentry, rfl⟩⟩, .inl rfl⟩ ?_
        exact fun t ht => absurd ht List.not_mem_nil
      | cons t' ts =>
        refine iff_of_false ?_ fun hall => hall t List.mem_cons_self hstop
        rintro ⟨l, hl, hall⟩
        cases l with
        | nil => exact hl (hfrom.inHeader h)
        | cons c l =>
          obtain ⟨-, rfl⟩ := hl.2.2.resolve_right fun hgoes => hgoes.1 hentry
          rcases hall with hall | hall
          · exact nomatch (List.cons.inj hall).2
          · exact nomatch (List.cons.inj hall).2
    · have hgoes : ¬IsEntryAddress m (header + BitVec.ofNat 32 i) :=
        fun hentry => hstop (htype.symm.trans hentry)
      have hdrop : (∀ t' ∈ (t :: ts).dropLast, t'.type ≠ 3) ↔ ∀ t' ∈ ts.dropLast, t'.type ≠ 3 := by
        cases ts with
        | nil => exact Iff.rfl
        | cons t' ts =>
          rw [List.dropLast_cons_of_ne_nil (List.cons_ne_nil _ _), List.forall_mem_cons]
          exact and_iff_right hstop
      rw [hdrop, ← ih, List.cons_append, headerTagAddrs, headerTagAddrs, haddr]
      constructor
      · rintro ⟨l, hl, hall⟩
        cases l with
        | nil => exact absurd (hfrom.inHeader h) hl
        | cons c l =>
          obtain ⟨-, hw⟩ := hl.2.2.resolve_left fun hs => hgoes hs.1
          rw [hnext] at hw
          exact ⟨l, hw, hall.imp (fun h => (List.cons.inj h).2) fun h => (List.cons.inj h).2⟩
      · rintro ⟨l, hw, hall⟩
        refine ⟨_ :: l, ⟨rfl, hfrom.inHeader h, .inr ⟨hgoes, hnext ▸ hw⟩⟩, ?_⟩
        exact hall.imp (congrArg _) (congrArg _)

/-- The tags are visited if and only if no tag needs padding, and no tag comes after that of the
    entry address. -/
theorem visitsTags_iff (h : HeaderAt m header tags) : VisitsTags m header tags ↔
    (∀ t ∈ tags, 8 ∣ t.size) ∧ ∀ t ∈ tags.dropLast, t.type ≠ 3 := by
  have hwalk := walk_tags_iff h h.tagsFrom
  constructor
  · intro hv
    have hsizes := hwalk.mp hv.saveInfo
    exact ⟨hsizes, (stopWalk_tags_iff h h.tagsFrom hsizes).mp hv.loadKernel⟩
  · rintro ⟨hsizes, hentry⟩
    exact ⟨hwalk.mpr hsizes, (stopWalk_tags_iff h h.tagsFrom hsizes).mpr hentry⟩

end walks

/-! ### A header with a tag of 12 bytes -/

/-- The bytes of a word. -/
def wordBytes (v : BitVec 32) : List (BitVec 8) :=
  [v.extractLsb' 0 8, v.extractLsb' 8 8, v.extractLsb' 16 8, v.extractLsb' 24 8]

/-- The bytes of a tag, with the padding behind it. -/
def HeaderTag.bytes (t : HeaderTag) : List (BitVec 8) :=
  [t.type.extractLsb' 0 8, t.type.extractLsb' 8 8, t.flags.extractLsb' 0 8,
    t.flags.extractLsb' 8 8] ++ wordBytes (BitVec.ofNat 32 t.size) ++ t.body ++
    List.replicate (t.padded - t.size) 0

/-- The bytes of a header with these tags. -/
def headerBytes (tags : List HeaderTag) : List (BitVec 8) :=
  let length := BitVec.ofNat 32 (16 + headerTagBytes (tags ++ [.terminator]))
  wordBytes headerMagic ++ wordBytes 0 ++ wordBytes length ++
    wordBytes (-(headerMagic + length)) ++ (tags ++ [HeaderTag.terminator]).flatMap HeaderTag.bytes

/-- The console flags, and the request to align modules. -/
def consoleTags : List HeaderTag := [⟨4, 0, [3, 0, 0, 0]⟩, ⟨6, 0, []⟩]

/-- A header with these tags. -/
def consoleHeader : Memory := bytesAt 0x100000 (headerBytes consoleTags) fun _ => 0

theorem headerAt_consoleHeader : HeaderAt consoleHeader 0x100000 consoleTags := by
  decide +kernel

theorem visitsTags_iff_consoleHeader : VisitsTags consoleHeader 0x100000 consoleTags ↔
    (∀ t ∈ consoleTags, 8 ∣ t.size) ∧ ∀ t ∈ consoleTags.dropLast, t.type ≠ 3 :=
  visitsTags_iff headerAt_consoleHeader

/-- The padding behind the console flags is taken for a tag. -/
theorem not_forall_visitsTags : ¬∀ (m : Memory) (header : BitVec 32) (tags : List HeaderTag),
    HeaderAt m header tags → VisitsTags m header tags := by
  intro h
  have hwalk := (h _ _ _ headerAt_consoleHeader).saveInfo
  have hnext := (walk_cons.mp (walk_cons.mp hwalk).2.2).1
  exact absurd hnext (by decide +kernel)

end Avos.Multiboot
