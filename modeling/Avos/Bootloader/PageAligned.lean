import Avos.Bootloader.MemoryMap
import Mathlib.Data.List.Chain

/-! # The Blocks in Whole Pages

  With `page_align`, `Memory_StoreInfo` rounds every block to whole pages, and a block without
  one becomes empty. The loop that then removes the empty blocks passes over the block that
  moves into the place of a removed one (`dropSkipping`).

  So the list is the right one if and only if no two blocks without a whole page follow each
  other (`storeInfo_pageAligned_iff`).
-/

open ByteMemory Intervals

namespace Avos.Multiboot

/-! ## Section 1: Whole Pages -/

/-- The block without the parts of pages at its ends. -/
def wholePages (b : Nat × Nat) : Nat × Nat :=
  ((b.1 + 0xFFF) / 0x1000 * 0x1000, b.2 / 0x1000 * 0x1000)

/-- The page at `p` lies in the block. -/
def PageIn (p : Nat) (b : Nat × Nat) : Prop := p % 0x1000 = 0 ∧ b.1 ≤ p ∧ p + 0x1000 ≤ b.2

/-- There is a whole page in the block. -/
def HasPage (b : Nat × Nat) : Prop := ∃ p, PageIn p b

theorem hasPage_iff {b : Nat × Nat} : HasPage b ↔ (wholePages b).1 < (wholePages b).2 := by
  constructor
  · rintro ⟨p, hp, hle, hge⟩
    simp only [wholePages]
    omega
  · intro h
    simp only [wholePages] at h
    refine ⟨(wholePages b).1, ?_, ?_, ?_⟩ <;> simp only [wholePages] <;> omega

instance : DecidablePred HasPage := fun _ => decidable_of_iff _ hasPage_iff.symm

/-- The list `a` is what is left of the blocks `u` in whole pages. -/
structure IsPageAligned (u a : List (Nat × Nat)) : Prop where
  shrunk : a = (u.filter HasPage).map wholePages
  whole : ∀ b ∈ a, b.1 < b.2 ∧ b.1 % 0x1000 = 0 ∧ b.2 % 0x1000 = 0
  pages : ∀ p, (∃ b ∈ a, PageIn p b) ↔ ∃ b ∈ u, PageIn p b

/-- What the code makes of a block. -/
def alignedBlock (b : Nat × Nat) : Nat × Nat :=
  if (wholePages b).1 < (wholePages b).2 then wholePages b else (0, 0)

/-- A block of size 0. -/
def IsEmptyBlock (b : Nat × Nat) : Prop := b.1 = b.2

instance : DecidablePred IsEmptyBlock := fun b => inferInstanceAs (Decidable (b.1 = b.2))

/-- Removing in place while going on by one place each time: what moves into the place of a
    removed element is passed over. -/
def dropSkipping {α : Type*} (p : α → Prop) [DecidablePred p] : List α → List α
  | [] => []
  | [b] => if p b then [] else [b]
  | b :: c :: l => if p b then c :: dropSkipping p l else b :: dropSkipping p (c :: l)

section lists

variable {α : Type*} {p : α → Prop} [DecidablePred p] {l : List α}

/-- Nothing is passed over that is to be removed when no two such elements follow each other. -/
theorem dropSkipping_eq_filter (h : l.IsChain fun b c => ¬p b ∨ ¬p c) :
    dropSkipping p l = l.filter (¬p ·) := by
  fun_induction dropSkipping p l with
  | case1 => rfl
  | case2 b hb => simp [hb]
  | case3 b hb => simp [hb]
  | case4 b c l hb ih =>
    have hc : ¬p c := (List.isChain_cons_cons.mp h).1.resolve_left (not_not.mpr hb)
    rw [ih (List.isChain_cons_cons.mp h).2.tail]
    simp [hb, hc]
  | case5 b c l hb ih =>
    rw [ih (List.isChain_cons_cons.mp h).2]
    simp [hb]

/-- Of two such elements that follow each other one is left. -/
theorem isChain_of_dropSkipping (h : ∀ b ∈ dropSkipping p l, ¬p b) :
    l.IsChain fun b c => ¬p b ∨ ¬p c := by
  fun_induction dropSkipping p l with
  | case1 => exact .nil
  | case2 b hb => exact .singleton b
  | case3 b hb => exact .singleton b
  | case4 b c l hb ih =>
    have hc : ¬p c := h c List.mem_cons_self
    have hrest := ih fun b hb => h b (List.mem_cons_of_mem _ hb)
    refine List.isChain_cons_cons.mpr ⟨.inr hc, ?_⟩
    cases l with
    | nil => exact .singleton c
    | cons d l => exact List.isChain_cons_cons.mpr ⟨.inl hc, hrest⟩
  | case5 b c l hb ih =>
    exact List.isChain_cons_cons.mpr ⟨.inl hb, ih fun b hb => h b (List.mem_cons_of_mem _ hb)⟩

theorem dropSkipping_cons_of_neg {b : α} (h : ¬p b) :
    dropSkipping p (b :: l) = b :: dropSkipping p l := by
  cases l with
  | nil => simp only [dropSkipping, if_neg h]
  | cons c l => rw [dropSkipping, if_neg h]

end lists

section pages

variable {b : Nat × Nat} {u : List (Nat × Nat)} {p : Nat}

/-- The pages of a block are those of its whole pages. -/
theorem pageIn_wholePages : PageIn p (wholePages b) ↔ PageIn p b := by
  simp only [PageIn, wholePages]
  omega

theorem alignedBlock_of_hasPage (h : HasPage b) : alignedBlock b = wholePages b :=
  if_pos (hasPage_iff.mp h)

/-- A block is empty after the rounding when it has no whole page. -/
theorem alignedBlock_empty_iff : IsEmptyBlock (alignedBlock b) ↔ ¬HasPage b := by
  rw [hasPage_iff, IsEmptyBlock, alignedBlock]
  split
  · omega
  · next h => simp only [h, not_false_eq_true]

theorem isPageAligned_filter : IsPageAligned u ((u.filter HasPage).map wholePages) where
  shrunk := rfl
  whole b hb := by
    obtain ⟨c, hc, rfl⟩ := List.mem_map.mp hb
    have hpage := hasPage_iff.mp (of_decide_eq_true (List.mem_filter.mp hc).2)
    refine ⟨hpage, ?_, ?_⟩ <;> simp only [wholePages] <;> omega
  pages p := by
    constructor
    · rintro ⟨b, hb, hp⟩
      obtain ⟨c, hc, rfl⟩ := List.mem_map.mp hb
      exact ⟨c, (List.mem_filter.mp hc).1, pageIn_wholePages.mp hp⟩
    · rintro ⟨b, hb, hp⟩
      refine ⟨wholePages b, List.mem_map_of_mem (List.mem_filter.mpr ⟨hb, ?_⟩),
        pageIn_wholePages.mpr hp⟩
      exact decide_eq_true ⟨p, hp⟩

/-- The rounded blocks, after the removing loop. -/
theorem isPageAligned_dropSkipping_iff :
    IsPageAligned u (dropSkipping IsEmptyBlock (u.map alignedBlock)) ↔
      u.IsChain fun b b' => HasPage b ∨ HasPage b' := by
  have hchain : (u.map alignedBlock).IsChain (fun b b' => ¬IsEmptyBlock b ∨ ¬IsEmptyBlock b') ↔
      u.IsChain fun b b' => HasPage b ∨ HasPage b' := by
    simp only [List.isChain_map, alignedBlock_empty_iff, not_not]
  rw [← hchain]
  constructor
  · intro h
    exact isChain_of_dropSkipping fun b hb heq => absurd (h.whole b hb).1 (heq ▸ lt_irrefl _)
  · intro h
    have hfilter : (u.map alignedBlock).filter (¬IsEmptyBlock ·) =
        (u.filter HasPage).map wholePages := by
      rw [List.filter_map]
      have hkeep : u.filter ((fun b => decide ¬IsEmptyBlock b) ∘ alignedBlock) =
          u.filter HasPage := by
        refine List.filter_congr fun b _ => ?_
        simp only [Function.comp_apply, alignedBlock_empty_iff, not_not]
      rw [hkeep]
      exact List.map_congr_left fun b hb =>
        alignedBlock_of_hasPage (of_decide_eq_true (List.mem_filter.mp hb).2)
    rw [dropSkipping_eq_filter h, hfilter]
    exact isPageAligned_filter

end pages

/-! ## Section 2: The Loops -/

section loops

variable {m : Memory} {addr : BitVec 32} {n i j k : Nat}

/-- What comes after a removed block moves down by one place. -/
theorem ramBlock_memmove (hi : i < k) (hk : addr.toNat + 16 * k ≤ 2 ^ 32) (hj : j < k - 1) :
    ramBlock (memmove m (blockEntry addr i) (blockEntry addr (i + 1))
      (BitVec.ofNat 32 ((k - i - 1) * 16))) addr j =
      ramBlock m addr (if j < i then j else j + 1) := by
  have hsize : (BitVec.ofNat 32 ((k - i - 1) * 16)).toNat = (k - i - 1) * 16 := by
    rw [BitVec.toNat_ofNat, Nat.mod_eq_of_lt (by omega)]
  have hdes : (blockEntry addr i).toNat = addr.toNat + 16 * i := toNat_add_ofNat (by omega)
  by_cases hji : j < i
  · rw [if_pos hji]
    refine ramBlock_of_onlyIn (k := i) (c := (k - i - 1) * 16) ?_ (.inl hji) (by omega) (by omega)
    have honly := @onlyIn_memmove m (blockEntry addr i) (blockEntry addr (i + 1))
      (BitVec.ofNat 32 ((k - i - 1) * 16))
    rwa [hsize] at honly
  · rw [if_neg hji]
    have hsrc : (blockEntry addr (i + 1)).toNat = addr.toNat + 16 * (i + 1) :=
      toNat_add_ofNat (by omega)
    rw [memmove_eq _ _ _ _ (by omega) (by omega), hsize, blockEntry_succ]
    have hcopied : ∀ x, InBytes (blockEntry addr j) 16 x →
        copied m (blockEntry addr i) (blockEntry addr i + 16) ((k - i - 1) * 16) x =
          m (x + 16) := by
      intro x hx
      obtain ⟨d, hd, rfl⟩ := hx.exists_offset
      have hin : InBytes (blockEntry addr i) ((k - i - 1) * 16)
          (blockEntry addr j + BitVec.ofNat 32 d) := by
        rw [blockEntry, blockEntry, BitVec.add_assoc, ← BitVec.ofNat_add, inBytes_add_iff
          (by omega) (by omega)]
        omega
      rw [copied, if_pos hin]
      congr 1
      bv_omega
    rw [ramBlock, ramBlock, blockEntry_succ]
    have hsize' := load64_shift (a := blockEntry addr j + 8) (d := 16) fun x hx =>
      hcopied x (hx.of_add (i := 8) (by decide) (by decide))
    have haddress := load64_shift (a := blockEntry addr j) (d := 16) fun x hx =>
      hcopied x (hx.mono (by decide))
    rw [haddress, hsize', BitVec.add_assoc, BitVec.add_comm 8, ← BitVec.add_assoc]

theorem ramBlocks_memmove (hi : i < k) (hk : addr.toNat + 16 * k ≤ 2 ^ 32) :
    ramBlocks (memmove m (blockEntry addr i) (blockEntry addr (i + 1))
      (BitVec.ofNat 32 ((k - i - 1) * 16))) addr (k - 1) = (ramBlocks m addr k).eraseIdx i := by
  have hlength : ∀ m c, (ramBlocks m addr c).length = c := fun m c => by
    rw [ramBlocks, List.length_map, List.length_range]
  refine List.ext_getElem ?_ fun j hj hj' => ?_
  · rw [List.length_eraseIdx_of_lt (by rw [hlength]; exact hi), hlength, hlength]
  · rw [hlength] at hj
    rw [getElem_ramBlocks, ramBlock_memmove hi hk hj, List.getElem_eraseIdx]
    split
    · rw [getElem_ramBlocks]
    · rw [getElem_ramBlocks]

/-- The loop removes empty blocks, but passes over what moves into their place. -/
theorem removeEmpty_eq : ∀ (r i k : Nat) (m : Memory), k ≤ i + r →
    addr.toNat + 16 * k ≤ 2 ^ 32 → (removeEmpty addr r i k m).1 ≤ k ∧
      ramBlocks (removeEmpty addr r i k m).2 addr (removeEmpty addr r i k m).1 =
        (ramBlocks m addr k).take i ++
          dropSkipping IsEmptyBlock ((ramBlocks m addr k).drop i) := by
  intro r
  induction r with
  | zero =>
    intro i k m hk _
    have hlength : (ramBlocks m addr k).length ≤ i := by
      rw [ramBlocks, List.length_map, List.length_range]
      exact hk
    rw [removeEmpty, List.take_of_length_le hlength, List.drop_eq_nil_of_le hlength, dropSkipping,
      List.append_nil]
    exact ⟨Nat.le_refl k, rfl⟩
  | succ r ih =>
    intro i k m hk hroom
    have hlength : (ramBlocks m addr k).length = k := by
      rw [ramBlocks, List.length_map, List.length_range]
    rw [removeEmpty]
    split
    · next hki =>
      rw [List.take_of_length_le (by omega), List.drop_eq_nil_of_le (by omega), dropSkipping,
        List.append_nil]
      exact ⟨Nat.le_refl k, rfl⟩
    next hki =>
    have hi : i < (ramBlocks m addr k).length := by omega
    have hcons : (ramBlocks m addr k).drop i =
        ramBlock m addr i :: (ramBlocks m addr k).drop (i + 1) := by
      rw [List.drop_eq_getElem_cons hi, getElem_ramBlocks]
    split
    · next hzero =>
      obtain ⟨hle, hlist⟩ := ih (i + 1) (k - 1) (memmove m (blockEntry addr i)
        (blockEntry addr (i + 1)) (BitVec.ofNat 32 ((k - i - 1) * 16))) (by omega) (by omega)
      have hempty : IsEmptyBlock (ramBlock m addr i) := by
        rw [IsEmptyBlock, ramBlock, hzero]
        rfl
      rw [hlist, ramBlocks_memmove (by omega) hroom, List.eraseIdx_eq_take_drop_succ, hcons]
      have htake : ((ramBlocks m addr k).take i).length = i := by
        rw [List.length_take]
        omega
      refine ⟨by omega, ?_⟩
      cases (ramBlocks m addr k).drop (i + 1) with
      | nil =>
        rw [List.append_nil, List.take_of_length_le (by omega), List.drop_eq_nil_of_le (by omega),
          dropSkipping, dropSkipping, if_pos hempty]
      | cons b l =>
        -- the block `b` is at place `i` now, and the loop goes on after it
        rw [List.take_append, List.drop_append, htake, List.take_of_length_le (by omega),
          List.drop_eq_nil_of_le (by omega), Nat.add_sub_cancel_left, dropSkipping, if_pos hempty,
          List.append_assoc]
        rfl
    · next hzero =>
      obtain ⟨hle, hlist⟩ := ih (i + 1) k m (by omega) hroom
      have hne : ¬IsEmptyBlock (ramBlock m addr i) := by
        intro heq
        rw [IsEmptyBlock, ramBlock] at heq
        refine hzero (BitVec.eq_of_toNat_eq ?_)
        have h0 : (0 : BitVec 64).toNat = 0 := rfl
        omega
      refine ⟨hle, ?_⟩
      rw [hlist, List.take_add_one, List.getElem?_eq_getElem hi, getElem_ramBlocks, hcons,
        dropSkipping_cons_of_neg hne, List.append_assoc]
      rfl

/-- The first page boundary of a block at `a`. -/
def roundUp (a : BitVec 64) : BitVec 64 :=
  if a &&& ~~~0xFFF < a then (a &&& ~~~0xFFF) + 0x1000 else a &&& ~~~0xFFF

theorem toNat_roundDown (a : BitVec 64) :
    (a &&& ~~~0xFFF).toNat = a.toNat / 0x1000 * 0x1000 := toNat_and_not_lowBits (k := 12)

theorem toNat_roundUp {a : BitVec 64} (h : a.toNat + 0x1000 < 2 ^ 64) :
    (roundUp a).toNat = (a.toNat + 0xFFF) / 0x1000 * 0x1000 := by
  have hdown := toNat_roundDown a
  by_cases hlt : a &&& ~~~0xFFF < a
  · have hle := BitVec.lt_def.mp hlt
    have h1000 : (0x1000 : BitVec 64).toNat = 0x1000 := rfl
    rw [roundUp, if_pos hlt, BitVec.toNat_add, hdown, h1000]
    rw [hdown] at hle
    omega
  · have hle := BitVec.le_def.mp (BitVec.not_lt.mp hlt)
    rw [roundUp, if_neg hlt, hdown]
    rw [hdown] at hle
    omega

/-- Write the block at `ptr`, from `low` to `high`. -/
def storeRounded (m : Memory) (ptr : BitVec 32) (low high : BitVec 64) : Memory :=
  store64 (store64 m ptr (if low < high then low else 0)) (ptr + 8)
    (if low < high then high - low else 0)

theorem pageAlignBlocks_succ : pageAlignBlocks addr m (n + 1) =
    storeRounded (pageAlignBlocks addr m n) (blockEntry addr n)
      (roundUp (load64 (pageAlignBlocks addr m n) (blockEntry addr n)))
      ((load64 (pageAlignBlocks addr m n) (blockEntry addr n) +
        load64 (pageAlignBlocks addr m n) (blockEntry addr n + 8)) &&& ~~~0xFFF) := rfl

theorem onlyIn_storeRounded {ptr : BitVec 32} {low high : BitVec 64} :
    OnlyIn ptr 16 m (storeRounded m ptr low high) :=
  OnlyIn.trans (onlyIn_store64.mono (by decide))
    (onlyIn_store64.of_add (i := 8) (by decide) (by decide))

theorem ramBlock_storeRounded {low high : BitVec 64} :
    ramBlock (storeRounded m (blockEntry addr i) low high) addr i =
      if low.toNat < high.toNat then (low.toNat, high.toNat) else (0, 0) := by
  have hbeside : ∀ (m : Memory) (v : BitVec 64),
      load64 (store64 m (blockEntry addr i + BitVec.ofNat 32 8) v)
        (blockEntry addr i + BitVec.ofNat 32 0) =
      load64 m (blockEntry addr i + BitVec.ofNat 32 0) :=
    fun m v => onlyIn_store64.load64_add (.inl (by decide)) (by decide) (by decide)
  have hzero : blockEntry addr i + BitVec.ofNat 32 0 = blockEntry addr i := BitVec.add_zero _
  rw [hzero] at hbeside
  have hfirst : ∀ (m : Memory) (v w : BitVec 64), load64 (store64 (store64 m (blockEntry addr i) v)
      (blockEntry addr i + 8) w) (blockEntry addr i) = v :=
    fun m v w => (hbeside _ w).trans load64_store64
  rw [ramBlock, storeRounded, hfirst, load64_store64]
  by_cases hlt : low < high
  · have := BitVec.lt_def.mp hlt
    rw [if_pos hlt, if_pos hlt, if_pos this, BitVec.toNat_sub_of_le (BitVec.le_of_lt hlt)]
    congr 1
    omega
  · rw [if_neg hlt, if_neg hlt, if_neg (mt BitVec.lt_def.mpr hlt)]
    rfl

/-- A round of the loop. -/
theorem ramBlock_rounded (hfits : (ramBlock m addr i).2 + 0x1000 < 2 ^ 64) :
    ramBlock (storeRounded m (blockEntry addr i) (roundUp (load64 m (blockEntry addr i)))
        ((load64 m (blockEntry addr i) + load64 m (blockEntry addr i + 8)) &&& ~~~0xFFF)) addr i =
      alignedBlock (ramBlock m addr i) := by
  rw [ramBlock_storeRounded, alignedBlock, wholePages]
  rw [ramBlock] at hfits ⊢
  generalize load64 m (blockEntry addr i) = a at hfits ⊢
  generalize load64 m (blockEntry addr i + 8) = size at hfits ⊢
  dsimp only at hfits ⊢
  rw [toNat_roundUp (by omega), toNat_roundDown, BitVec.toNat_add, Nat.mod_eq_of_lt (by omega)]

/-- The loop rounds every block. -/
theorem ramBlock_pageAlignBlocks (hroom : addr.toNat + 16 * k ≤ 2 ^ 32) :
    ∀ n ≤ k, (∀ i < n, (ramBlock m addr i).2 + 0x1000 < 2 ^ 64) → ∀ i < k,
      ramBlock (pageAlignBlocks addr m n) addr i =
        if i < n then alignedBlock (ramBlock m addr i) else ramBlock m addr i := by
  intro n
  induction n with
  | zero => exact fun _ _ i _ => (if_neg (Nat.not_lt_zero i)).symm
  | succ n ih =>
    intro hn hfits i hi
    have hrec := ih (by omega) fun i hi => hfits i (by omega)
    rw [pageAlignBlocks_succ]
    by_cases hin : i = n
    · subst hin
      have hsame := hrec i hi
      rw [if_neg (Nat.lt_irrefl i)] at hsame
      rw [ramBlock_rounded (by rw [hsame]; exact hfits i (by omega)), hsame,
        if_pos (Nat.lt_succ_self i)]
    · rw [ramBlock_of_onlyIn (k := n) (c := 16) onlyIn_storeRounded (by omega) (by omega)
        (by omega), hrec i hi]
      split
      · rw [if_pos (by omega)]
      · rw [if_neg (by omega)]

theorem ramBlocks_pageAlignBlocks (hroom : addr.toNat + 16 * k ≤ 2 ^ 32)
    (hfits : ∀ b ∈ ramBlocks m addr k, b.2 + 0x1000 < 2 ^ 64) :
    ramBlocks (pageAlignBlocks addr m k) addr k = (ramBlocks m addr k).map alignedBlock := by
  rw [ramBlocks, ramBlocks, List.map_map]
  refine List.map_congr_left fun i hi => ?_
  have hi' := List.mem_range.mp hi
  rw [ramBlock_pageAlignBlocks hroom k (Nat.le_refl k) (fun i hi => hfits _ (List.mem_map.mpr
    ⟨i, List.mem_range.mpr hi, rfl⟩)) i hi', if_pos hi']
  rfl

end loops

/-! ## Section 3: The List in Whole Pages -/

section aligned

variable {m : Memory} {table addr : BitVec 32} {n fuel : Nat}

/-- There is room to round every block up. -/
theorem ValidMap.blocks_fit (hv : ValidMap m table n)
    (hpage : ∀ i < n, entryEnd m table i + 0x1000 < 2 ^ 64) {bs : List (Nat × Nat)}
    (h : Sweep (entryBase m table) (entryEnd m table) (available m table n) 0 bs) :
    ∀ b ∈ bs, b.2 + 0x1000 < 2 ^ 64 := by
  intro b hb
  have hlt := h.nonempty hv.lt_of_available b hb
  -- the last address of the block lies in an entry
  obtain ⟨i, hi, -, hend⟩ := h.covered hb (c := b.2 - 1) (by omega) (by omega)
  have := hpage i (mem_available.mp hi).1
  omega

/-- The list in whole pages is the right one if and only if no two blocks without a whole page
    follow each other. -/
theorem storeInfo_pageAligned_iff (hv : ValidMap m table n)
    (hpage : ∀ i < n, entryEnd m table i + 0x1000 < 2 ^ 64) (hroom : HasRoom addr table n)
    (hfuel : n < fuel) :
    ∃ u last m' last' m'',
      Sweep (entryBase m table) (entryEnd m table) (available m table n) 0 u ∧
      storeInfo fuel addr false table n m = some (last, m') ∧ storedBlocks m' addr last = u ∧
      storeInfo fuel addr true table n m = some (last', m'') ∧
      (IsPageAligned u (storedBlocks m'' addr last') ↔
        u.IsChain fun b b' => HasPage b ∨ HasPage b') := by
  obtain ⟨u, m', hblocks, hsweep, hlist, hrun, hstored⟩ := storeInfo_sweep hv hroom hfuel
  have hspace := hroom.room
  have hlength := hv.blocks_le hsweep
  have hfit : addr.toNat + 16 * u.length ≤ 2 ^ 32 := by omega
  have hends : ∀ b ∈ ramBlocks m' addr u.length, b.2 + 0x1000 < 2 ^ 64 := by
    rw [hlist]
    exact hv.blocks_fit hpage hsweep
  have halign := ramBlocks_pageAlignBlocks hfit hends
  obtain ⟨hle, haligned⟩ := removeEmpty_eq u.length 0 u.length
    (pageAlignBlocks addr m' u.length) (by omega) hfit
  rw [halign, hlist, List.take_zero, List.nil_append, List.drop_zero] at haligned
  refine ⟨u, blockEntry addr u.length, m', blockEntry addr
    (removeEmpty addr u.length 0 u.length (pageAlignBlocks addr m' u.length)).1,
    (removeEmpty addr u.length 0 u.length (pageAlignBlocks addr m' u.length)).2, hsweep, hrun,
    hstored, ?_, ?_⟩
  · rw [storeInfo, withRoom, if_pos (by omega), hblocks]
    rfl
  · rw [storedBlocks_blockEntry (by omega), haligned]
    exact isPageAligned_dropSkipping_iff

end aligned

/-! ## Section 4: A Concrete Map -/

/-- Two entries of less than a page. -/
def smallMap : Memory := mapMemory 0x1000 [(0x1000, 0x100, 1, 1), (0x3000, 0x100, 1, 1)]

theorem validMap_smallMap : ValidMap smallMap 0x1000 2 := ⟨by decide +kernel, by decide +kernel⟩

theorem hasRoom_smallMap : HasRoom 0x2000 0x1000 2 := by
  refine ⟨by decide, by decide, fun x hx hx' => ?_⟩
  rw [InBytes] at hx hx'
  bv_omega

theorem storedBlocks_smallMap :
    (storeInfo 3 0x2000 true 0x1000 2 smallMap).map
      (fun r => storedBlocks r.2 0x2000 r.1) = some [(0, 0)] := by
  decide +kernel

theorem storeInfo_pageAligned_iff_smallMap : ∃ u last m' last' m'',
    Sweep (entryBase smallMap 0x1000) (entryEnd smallMap 0x1000) (available smallMap 0x1000 2) 0
      u ∧
    storeInfo 3 0x2000 false 0x1000 2 smallMap = some (last, m') ∧
    storedBlocks m' 0x2000 last = u ∧
    storeInfo 3 0x2000 true 0x1000 2 smallMap = some (last', m'') ∧
    (IsPageAligned u (storedBlocks m'' 0x2000 last') ↔
      u.IsChain fun b b' => HasPage b ∨ HasPage b') :=
  storeInfo_pageAligned_iff validMap_smallMap (by decide +kernel) hasRoom_smallMap (by decide)

/-- An empty block stays in the list. -/
theorem not_forall_pageAligned : ¬∀ (m : Memory) (addr table : BitVec 32) (n fuel : Nat),
    ValidMap m table n → (∀ i < n, entryEnd m table i + 0x1000 < 2 ^ 64) →
      HasRoom addr table n → n < fuel →
        ∃ last m' last' m'', storeInfo fuel addr false table n m = some (last, m') ∧
          storeInfo fuel addr true table n m = some (last', m'') ∧
          IsPageAligned (storedBlocks m' addr last) (storedBlocks m'' addr last') := by
  intro h
  obtain ⟨last, m', last', m'', -, hrun, haligned⟩ := h smallMap 0x2000 0x1000 2 3
    validMap_smallMap (by decide +kernel) hasRoom_smallMap (by decide)
  have hblocks := storedBlocks_smallMap
  rw [hrun, Option.map_some, Option.some.injEq] at hblocks
  have hempty := (haligned.whole (0, 0) (by rw [hblocks]; exact List.mem_singleton_self _)).1
  exact absurd hempty (by decide)

end Avos.Multiboot
