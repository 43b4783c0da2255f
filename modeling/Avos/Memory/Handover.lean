import Avos.Bootloader.Outcomes
import Avos.Bootloader.PageAligned
import Avos.Memory.Boot

/-! # From the Map of the Machine to the Free Lists

  The boot loader asks the BIOS for the map of memory, makes a list of the blocks of available
  memory from it, and leaves both in the information record. The kernel reads that list from
  the record, and makes the free lists of its allocator from it.

  Both ends are put together here: what is on the free lists is the available memory of the
  map, in whole pages of the window that the kernel can address (`bootMemory_exact`). The list
  may hold empty blocks that the boot loader has passed over; the kernel drops them.
-/

open ByteMemory Walks Intervals

namespace Avos

open Multiboot

/-! ## Section 1: The Record as the Kernel Reads It -/

/-- `mmap_nentries`, of the tag at `tag`. -/
def mmapEntries (m : Memory) (tag : BitVec 32) : Nat :=
  if load32 m (tag + 8) = 0 then 0 else ((load32 m (tag + 4) - 16) / load32 m (tag + 8)).toNat

/-- `mmap[i]`: its address and its size. -/
def mmapEntry (m : Memory) (mmap : BitVec 32) (i : Nat) : Nat × Nat :=
  ((load64 m (mmap + BitVec.ofNat 32 (16 * i))).toNat,
    (load64 m (mmap + BitVec.ofNat 32 (16 * i) + 8)).toNat)

/-- The loop over the tags in `Page_BuddyMaps_Initialize`, with what it leaves in
    `mmap_nentries` and `mmap`. -/
def ramInfoLoop (fuel : Nat) (m : Memory) (mbi : BitVec 32) :
    Option (Except Empty (Option (Nat × BitVec 32))) :=
  whileLoop (fun tag => load32 m tag ≠ 0) (nextKernelTag m)
    (fun tag found => .ok
      (if load32 m tag = 99 then some (mmapEntries m tag, tag + 16) else found)) fuel (mbi + 8) none

namespace PhysMem

/-- `Page_BuddyMaps_Initialize` with the record at `mbi`, up to the initialisation of the
    lock. -/
def pageBuddyMapsInitializeFrom (fuel : Nat) (m : Memory) (mbi : BitVec 32) (s : PhysMem) :
    Option PhysMem :=
  match ramInfoLoop fuel m mbi with
  | some (.ok none) => some s.clearMaps
  | some (.ok (some (nentries, mmap))) =>
      if mmap = 0 ∨ nentries = 0 then some s.clearMaps
      else mapEntries (mmapEntry m mmap) nentries s.clearMaps
  | none => none

end PhysMem

/-- The tags of a record, as far as the kernel reads them. -/
def bootTag (m : Memory) (tag : BitVec 32) : MultibootTag :=
  if load32 m tag = 99 then
    .ramInfoPageAligned (load32 m (tag + 4)).toNat (load32 m (tag + 8)).toNat
      (mmapEntry m (tag + 16))
  else .other

section read

variable {m : Memory} {mbi a : BitVec 32} {l : List MbiTag} {fuel : Nat}

/-- The number of entries, on words and on numbers. -/
theorem mmapEntries_eq (tag : BitVec 32) : mmapEntries m tag =
    if (load32 m (tag + 8)).toNat = 0 then 0
    else w32 ((load32 m (tag + 4)).toNat + 2 ^ 32 - 16) / (load32 m (tag + 8)).toNat := by
  have h16 : (16 : BitVec 32).toNat = 16 := rfl
  have hzero : load32 m (tag + 8) = 0 ↔ (load32 m (tag + 8)).toNat = 0 :=
    (BitVec.toNat_eq (y := 0)).trans (Iff.of_eq rfl)
  have hsum : 2 ^ 32 - 16 + (load32 m (tag + 4)).toNat =
      (load32 m (tag + 4)).toNat + 2 ^ 32 - 16 := by omega
  rw [mmapEntries, BitVec.toNat_udiv, BitVec.toNat_sub, h16, w32, hsum]
  simp only [hzero]

/-- What the loop makes of tags. -/
theorem foldlM_ramInfo (tags : List (BitVec 32)) (found : Option (Nat × BitVec 32)) :
    ∃ found', tags.foldlM (fun found tag => (.ok (if load32 m tag = 99 then
        some (mmapEntries m tag, tag + 16) else found) : Except Empty _)) found = .ok found' ∧
      (found'.map fun p => (p.1, mmapEntry m p.2)) =
        (lastRamInfo (tags.map (bootTag m))).or (found.map fun p => (p.1, mmapEntry m p.2)) ∧
      ∀ p ∈ found', p ∈ found ∨ ∃ tag ∈ tags, p.2 = tag + 16 := by
  induction tags generalizing found with
  | nil => exact ⟨found, rfl, rfl, fun p hp => .inl hp⟩
  | cons tag tags ih =>
    obtain ⟨found', hrun, hfound, hmem⟩ := ih (if load32 m tag = 99 then
      some (mmapEntries m tag, tag + 16) else found)
    refine ⟨found', hrun, hfound.trans ?_, fun p hp => ?_⟩
    · rw [List.map_cons, bootTag]
      by_cases htype : load32 m tag = 99
      · rw [if_pos htype, if_pos htype, lastRamInfo, ← mmapEntries_eq]
        cases lastRamInfo (tags.map (bootTag m)) <;> rfl
      · rw [if_neg htype, if_neg htype, lastRamInfo]
    · rcases hmem p hp with hp | ⟨tag', htag', hp⟩
      · split at hp
        · obtain rfl := Option.some.inj hp
          exact .inr ⟨tag, List.mem_cons_self, rfl⟩
        · exact .inl hp
      · exact .inr ⟨tag', List.mem_cons_of_mem _ htag', hp⟩

/-- The entries of a tag do not begin at address 0. -/
theorem IsRecord.entries_ne (h : IsRecord m mbi l) {tag : BitVec 32}
    (htag : tag ∈ tagAddrs (mbi + 8) l) : tag + 16 ≠ 0 := by
  obtain ⟨l₁, t, l₂, rfl, rfl⟩ := mem_tagAddrs htag
  have hfits := h.fits
  have hge := t.size_ge
  have h8 : (8 : BitVec 32).toNat = 8 := rfl
  have h16 : (16 : BitVec 32).toNat = 16 := rfl
  have h0 : (0 : BitVec 32).toNat = 0 := rfl
  rw [tagBytes_append, tagBytes_cons] at hfits
  intro hzero
  have hnat := congrArg BitVec.toNat hzero
  rw [BitVec.toNat_add, BitVec.toNat_add, BitVec.toNat_add, BitVec.toNat_ofNat, h8, h16, h0]
    at hnat
  omega

/-- On a record the kernel's initialisation is the one on its tags. -/
theorem pageBuddyMapsInitializeFrom_eq (h : IsRecord m mbi l)
    (hfuel : (tagAddrs (mbi + 8) l).length < fuel) (s : PhysMem) :
    s.pageBuddyMapsInitializeFrom fuel m mbi =
      s.pageBuddyMapsInitialize ((tagAddrs (mbi + 8) l).map (bootTag m)) := by
  obtain ⟨found, hrun, hfound, hmem⟩ := foldlM_ramInfo (m := m) (tagAddrs (mbi + 8) l) none
  rw [PhysMem.pageBuddyMapsInitializeFrom, ramInfoLoop, whileLoop_of_walk h.kernelWalk hfuel, hrun,
    PhysMem.pageBuddyMapsInitialize]
  rw [Option.map_none, Option.or_none] at hfound
  rw [← hfound]
  cases found with
  | none => rfl
  | some p =>
    obtain ⟨n, mmap⟩ := p
    have hne : mmap ≠ 0 := by
      rcases hmem (n, mmap) rfl with hp | ⟨tag, htag, hp⟩
      · cases hp
      · rw [show mmap = tag + 16 from hp]
        exact IsRecord.entries_ne h htag
    dsimp only [Option.map_some]
    split
    · next hzero =>
      obtain rfl := hzero.resolve_left hne
      rfl
    · rfl

end read

namespace Multiboot

/-! ## Section 2: The Lists That the Boot Loader Leaves -/

/-- The tag `t` at `a` holds the list `bs` of blocks. -/
structure HoldsBlocks (m : Memory) (a : BitVec 32) (t : MbiTag) (bs : List (Nat × Nat)) :
    Prop where
  size_eq : t.size = 16 + 16 * bs.length
  entrySize : load32 m (a + 8) = 16
  blocks : ramBlocks m (16 + a) bs.length = bs

/-- The list that `Memory_StoreInfo` makes of the blocks `u`. -/
def storedList (pageAlign : Bool) (u : List (Nat × Nat)) : List (Nat × Nat) :=
  if pageAlign then dropSkipping IsEmptyBlock (u.map alignedBlock) else u

section holds

variable {β : Type*} {fuel n k : Nat} {mbi a addr table type : BitVec 32} {s s' : Loader β}
  {l l' new : List MbiTag} {t : MbiTag} {m m' : Memory} {bs u : List (Nat × Nat)}
  {pageAlign : Bool}

theorem ramBlocks_congr (h : ∀ x, InBytes addr (16 * k) x → m' x = m x) (hk : 16 * k ≤ 2 ^ 32) :
    ramBlocks m' addr k = ramBlocks m addr k := by
  refine List.map_congr_left fun i hi => ?_
  have hi' := List.mem_range.mp hi
  refine ramBlock_congr (load64_congr fun x hx => h x ?_) (load64_congr fun x hx => h x ?_)
  · exact hx.of_add (by omega) hk
  · rw [blockEntry_add] at hx
    exact hx.of_add (by omega) hk

theorem length_ramBlocks : (ramBlocks m addr k).length = k := by
  rw [ramBlocks, List.length_map, List.length_range]

theorem HoldsBlocks.congr (h : HoldsBlocks m a t bs) (hfits : t.size ≤ 2 ^ 32)
    (hm : ∀ x, InBytes a t.size x → m' x = m x) : HoldsBlocks m' a t bs where
  size_eq := h.size_eq
  entrySize := by
    have hsize := h.size_eq
    rw [← h.entrySize]
    exact load32_congr fun x hx => hm x (InBytes.of_add (i := 8) hx (by omega) hfits)
  blocks := by
    have hsize := h.size_eq
    rw [← h.blocks, h.blocks]
    refine (ramBlocks_congr (fun x hx => hm x ?_) (by omega)).trans h.blocks
    rw [BitVec.add_comm] at hx
    exact InBytes.of_add (i := 16) hx (by omega) hfits

/-- A tag of a record stays as it is when the record gets more tags. -/
theorem Extends.tag_same {r : List MbiTag} (h : Extends mbi (l ++ t :: r) m m' new)
    (hfits : tagBytes (l ++ t :: r) + 4 ≤ 2 ^ 32) :
    ∀ x, InBytes (termAddr mbi l) t.size x → m' x = m x := by
  intro x hx
  have hterm : termAddr mbi l = mbi + 4 + BitVec.ofNat 32 (4 + tagBytes l) := by
    rw [termAddr, BitVec.ofNat_add, BitVec.add_assoc mbi 4, ← BitVec.add_assoc 4,
      ← BitVec.add_assoc mbi]
    rfl
  rw [hterm] at hx
  rw [tagBytes_append, tagBytes_cons] at hfits
  refine h.same x (hx.of_add ?_ ?_)
  · rw [tagBytes_append, tagBytes_cons]
    omega
  · rw [tagBytes_append, tagBytes_cons]
    omega

/-- What `Memory_StoreInfo` makes of a map. -/
theorem storeInfo_blocks (hv : ValidMap m table n)
    (hpage : pageAlign = true → ∀ i < n, entryEnd m table i + 0x1000 < 2 ^ 64)
    (hroom : HasRoom addr table n) (hfuel : n < fuel) :
    ∃ u m', Sweep (entryBase m table) (entryEnd m table) (available m table n) 0 u ∧
      (storedList pageAlign u).length ≤ n ∧
      storeInfo fuel addr pageAlign table n m =
        some (blockEntry addr (storedList pageAlign u).length, m') ∧
      ramBlocks m' addr (storedList pageAlign u).length = storedList pageAlign u := by
  obtain ⟨u, m', hblocks, hsweep, hlist, hrun, -⟩ := storeInfo_sweep hv hroom hfuel
  have hspace := hroom.room
  have hlength := hv.blocks_le hsweep
  cases pageAlign with
  | false => exact ⟨u, m', hsweep, hlength, hrun, hlist⟩
  | true =>
    have hfit : addr.toNat + 16 * u.length ≤ 2 ^ 32 := by omega
    have hends : ∀ b ∈ ramBlocks m' addr u.length, b.2 + 0x1000 < 2 ^ 64 := by
      rw [hlist]
      exact hv.blocks_fit (hpage rfl) hsweep
    have halign := ramBlocks_pageAlignBlocks hfit hends
    obtain ⟨hle, haligned⟩ := removeEmpty_eq u.length 0 u.length
      (pageAlignBlocks addr m' u.length) (by omega) hfit
    rw [halign, hlist, List.take_zero, List.nil_append, List.drop_zero] at haligned
    have hcount : (removeEmpty addr u.length 0 u.length (pageAlignBlocks addr m' u.length)).1 =
        (storedList true u).length := by
      rw [storedList, if_pos rfl, ← haligned, length_ramBlocks]
    refine ⟨u, (removeEmpty addr u.length 0 u.length (pageAlignBlocks addr m' u.length)).2, hsweep,
      by omega, ?_, ?_⟩
    · rw [storeInfo, withRoom, if_pos (by omega), hblocks, ← hcount]
      rfl
    · rw [← hcount, haligned]
      rfl

/-- What `Multiboot_TerminateTag` leaves of the tag itself. -/
theorem terminateTag_tag_same {x : BitVec 32} (h : IsRecord m mbi l)
    (hsize : load32 m' (termAddr mbi l + 4) = BitVec.ofNat 32 t.size)
    (hfits : (termAddr mbi l).toNat + t.size + 8 ≤ 2 ^ 32)
    (hx : InBytes (termAddr mbi l) t.size x) :
    (terminateTag m' mbi (termAddr mbi l)).2 x = m' x := by
  have hge := t.size_ge
  have hrecord := h.fits
  have hterm := toNat_termAddr hrecord
  refine terminateTag_frame ?_ ?_
  · rw [hsize, BitVec.add_comm]
    have hx₀ : InBytes (termAddr mbi l + BitVec.ofNat 32 0) t.size x := by
      rwa [BitVec.add_zero]
    exact fun hx' => apart_add (by omega) (by omega) x hx₀ hx'
  · rw [termAddr_eq] at hx
    have hzero : mbi + BitVec.ofNat 32 0 = mbi := BitVec.add_zero mbi
    rw [← hzero]
    exact fun hx' => apart_add (by omega) (by omega) x hx' hx

theorem onlyIn_writeMap {size entrySize : BitVec 32} :
    OnlyIn a 16 m (writeMap m a type size entrySize) :=
  (((onlyIn_store32_add (i := 4) (by decide) (by decide)).trans
    (onlyIn_store32.mono (by decide))).trans
    (onlyIn_store32_add (i := 8) (by decide) (by decide))).trans
    (onlyIn_store32_add (i := 12) (by decide) (by decide))

theorem load32_writeMap {size entrySize : BitVec 32} :
    load32 (writeMap m a type size entrySize) (a + 8) = entrySize :=
  (OnlyIn.load32_add (i := 12) (j := 8) onlyIn_store32 (.inl (by decide)) (by decide)
    (by decide)).trans load32_store32

/-- A list of blocks is added to the record. -/
theorem saveBlocks_holds (h : IsRecord s.mem mbi l) (htype : type ≠ 0)
    (hv : ValidMap s.mem table n)
    (hpage : pageAlign = true → ∀ i < n, entryEnd s.mem table i + 0x1000 < 2 ^ 64)
    (hroom : HasRoom (16 + termAddr mbi l) table n) (hfuel : n < fuel)
    (hr : saveBlocks fuel mbi type pageAlign table n s = some (true, s')) :
    ∃ t u, t.type = type ∧ Saves mbi l s.mem s'.mem [t] ∧ (∀ t' ∈ l, t'.type ≠ type) ∧
      Sweep (entryBase s.mem table) (entryEnd s.mem table) (available s.mem table n) 0 u ∧
      HoldsBlocks s'.mem (termAddr mbi l) t (storedList pageAlign u) := by
  rcases saveTag_cases h hr with ⟨hb, -⟩ | ⟨hnew, hw⟩
  · exact nomatch hb
  obtain ⟨hroom', hw⟩ := withRoom_eq_some.mp hw
  obtain ⟨u, m, hsweep, hlength, hrun, hlist⟩ := storeInfo_blocks hv hpage hroom hfuel
  rw [hrun] at hw
  obtain ⟨k, c, hlast, hk, hspace, honly⟩ := storeInfo_spec hrun
  obtain ⟨bs, hbs⟩ : ∃ bs, bs = storedList pageAlign u := ⟨_, rfl⟩
  rw [← hbs] at hw hlength hlist hlast
  have hbelow : (16 + termAddr mbi l).toNat = (termAddr mbi l).toNat + 16 := by
    rw [BitVec.add_comm]
    exact toNat_add_ofNat (i := 16) (by omega)
  have hroom₂ := hroom.room
  rw [hbelow] at hspace hroom₂
  have hcount : bs.length = k := by
    have hnat := congrArg BitVec.toNat hlast
    rw [blockEntry, toNat_add_ofNat (by omega), toNat_add_ofNat (by omega)] at hnat
    omega
  rw [BitVec.add_comm] at honly
  have hmap : OnlyIn (termAddr mbi l) (16 * c + 32) s.mem m :=
    honly.of_add (i := 16) (by omega) (by omega)
  let t : MbiTag := ⟨type, 16 + 16 * bs.length, htype, by omega, by omega⟩
  dsimp only at hw
  rw [blockEntry, ofNat_sub_tag] at hw
  obtain ⟨-, rfl⟩ := Prod.mk.inj (Option.some.inj hw)
  have hf : Filled (termAddr mbi l) type (BitVec.ofNat 32 t.size) (16 * c + 32) s.mem
      (writeMap m (termAddr mbi l) type (BitVec.ofNat 32 t.size) 16) :=
    filled_writeMap hmap (by omega) (by omega)
  have hsize : t.size = 16 + 16 * bs.length := rfl
  have hsaves := (hf.saves h t (by omega) (by omega) hnew).2
  have hkept := fun x => terminateTag_tag_same (x := x) (t := t) h hf.size_eq (by omega)
  refine ⟨t, u, rfl, hsaves, hnew, hsweep, ?_⟩
  rw [← hbs]
  refine HoldsBlocks.congr (m := writeMap m (termAddr mbi l) type (BitVec.ofNat 32 t.size) 16)
    ⟨hsize, load32_writeMap, ?_⟩ (by omega) hkept
  refine (ramBlocks_congr (m := m) (fun x hx => onlyIn_writeMap x fun hx' => ?_)
    (by omega)).trans hlist
  have hx₀ : InBytes (termAddr mbi l + BitVec.ofNat 32 0) 16 x := by
    rwa [BitVec.add_zero]
  rw [BitVec.add_comm] at hx
  exact apart_add (j := 16) (by omega) (by omega) x hx₀ hx

end holds

end Multiboot

/-! ## Section 3: The Entries That the Kernel Drops -/

/-- The entries as the kernel reads them from a list. -/
def listEntry (es : List (Nat × Nat)) (i : Nat) : Nat × Nat := es.getD i (0, 0)

namespace PhysMem

variable {f g : Nat → Nat × Nat} {n : Nat} {es : List (Nat × Nat)} {e : Nat × Nat} {s : PhysMem}

theorem mapEntries_congr (h : ∀ i < n, f i = g i) : mapEntries f n s = mapEntries g n s := by
  induction n generalizing s with
  | zero => rfl
  | succ n ih =>
    rw [mapEntries, mapEntries, h n (Nat.lt_succ_self n)]
    exact Option.bind_congr fun _ _ => ih fun i hi => h i (by omega)

/-- The last entry of a list is mapped first. -/
theorem mapEntries_append : mapEntries (listEntry (es ++ [e])) (es ++ [e]).length s =
    (pageMapMemoryChunk chunkDepth e.1 e.2 s).bind (mapEntries (listEntry es) es.length) := by
  have hlast : listEntry (es ++ [e]) es.length = e := by simp [listEntry]
  rw [List.length_append, List.length_singleton, mapEntries, hlast]
  refine Option.bind_congr fun _ _ => mapEntries_congr fun i hi => ?_
  rw [listEntry, listEntry, List.getD_append _ _ _ _ hi]

/-- Entries of size 0 do not matter. -/
theorem mapEntries_filter : mapEntries (listEntry es) es.length s =
    mapEntries (listEntry (es.filter fun e => 0 < e.2)) (es.filter fun e => 0 < e.2).length s := by
  induction es using List.reverseRecOn generalizing s with
  | nil => rfl
  | append_singleton es e ih =>
    rw [mapEntries_append, List.filter_append]
    by_cases hsize : 0 < e.2
    · rw [List.filter_singleton, decide_eq_true hsize, cond_true, mapEntries_append]
      exact Option.bind_congr fun _ _ => ih
    · have hdrop : pageMapMemoryChunk chunkDepth e.1 e.2 s = some s :=
        pageMapMemoryChunk_dropped (f := 11) (.inl (Nat.eq_zero_of_not_pos hsize))
      rw [List.filter_singleton, decide_eq_false hsize, cond_false, List.append_nil, hdrop,
        Option.bind_some]
      exact ih

/-- What the loop makes of entries that fit the window. -/
theorem mapEntries_covers (hmap : RamMap (listEntry es) es.length) (hfits : ∀ e ∈ es, FitsWindow e)
    (hs : s.Unbooted) :
    ∃ s' free, mapEntries (listEntry es) es.length s.clearMaps = some s' ∧ s'.FreeBlocks free ∧
      (∀ x, RamPage (listEntry es) es.length x ∧ InWindow x → Buddy.load (blocks free []) x = 1) ∧
      (∀ x, ¬(RamPage (listEntry es) es.length x ∧ InWindow x) →
        Buddy.load (blocks free []) x = 0) ∧
      ∀ t ∈ s'.touched, t.1 ≤ pageMaxOrder ∧ t.2 < pageMapsSize t.1 := by
  obtain ⟨s', P', hrun, hlisted⟩ := MapListed.mapEntries hmap (hs.listed fun _ => True)
    fun i _ x _ _ => ⟨noBlocks_freeLoad x, trivial⟩
  have hfree := hlisted.next.freeBlocks
  have hentry : ∀ i < es.length, FitsWindow (listEntry es i) := by
    intro i hi
    rw [listEntry, List.getD_eq_getElem _ _ hi]
    exact hfits _ (List.getElem_mem hi)
  have hmapped : ∀ x, MappedPage (listEntry es) es.length x ↔
      RamPage (listEntry es) es.length x ∧ InWindow x := by
    intro x
    rw [ramPage_iff hmap, inWindow_iff]
    constructor
    · rintro ⟨i, hi, hx⟩
      obtain ⟨hin, hwin⟩ := ((hentry i hi).mapped_iff (hmap.aligned i hi) x).mp hx
      exact ⟨⟨i, hi, hin⟩, hwin⟩
    · rintro ⟨⟨i, hi, hin⟩, hwin⟩
      exact ⟨i, hi, ((hentry i hi).mapped_iff (hmap.aligned i hi) x).mpr ⟨hin, hwin⟩⟩
  refine ⟨s', P'.lists, hrun, hfree, fun x hx => ?_, fun x hx => ?_, fun t ht => ?_⟩
  · rw [hfree.load_eq hfree, hlisted.inside x ((hmapped x).mpr hx)]
  · rw [hfree.load_eq hfree, hlisted.outside x fun hx' => hx ((hmapped x).mp hx'),
      noBlocks_freeLoad]
  · rcases hlisted.touched t ht with ht | ⟨hk, x, hx, heq⟩
    · exact touched_clearMaps hs ht
    · refine ⟨hk, ?_⟩
      rw [heq]
      exact pageMapIdx_lt ((inWindow_iff x).mp ((hmapped x).mp hx).2).2 hk

end PhysMem

/-! ## Section 4: The Entries of a Map -/

namespace Multiboot

/-- A block, as its address and its size. -/
def entryOf (b : Nat × Nat) : Nat × Nat := (b.1, b.2 - b.1)

/-- Every byte of the page `x` is available memory. -/
def AvailablePage (m : Memory) (table : BitVec 32) (n x : Nat) : Prop :=
  ∀ c, x * 2 ^ 12 ≤ c → c < (x + 1) * 2 ^ 12 →
    Covered (entryBase m table) (entryEnd m table) (available m table n) c

/-- The entries that are left of the blocks `u` in whole pages. -/
def wholeEntries (u : List (Nat × Nat)) : List (Nat × Nat) :=
  (u.filter HasPage).map fun b => entryOf (wholePages b)

section lists

variable {α : Type*} {p : α → Prop} [DecidablePred p] {l : List α}

/-- What is passed over are elements that are to be removed. -/
theorem filter_dropSkipping : (dropSkipping p l).filter (¬p ·) = l.filter (¬p ·) := by
  fun_induction dropSkipping p l with
  | case1 => rfl
  | case2 b hb => simp [hb]
  | case3 b hb => rfl
  | case4 b c l hb ih =>
    have hdrop : ¬decide (¬p b) = true := by simpa using hb
    rw [List.filter_cons, ih, List.filter_cons_of_neg (p := fun x => decide (¬p x)) hdrop,
      List.filter_cons]
  | case5 b c l hb ih => rw [List.filter_cons, List.filter_cons, ih]

theorem dropSkipping_subset : dropSkipping p l ⊆ l := by
  fun_induction dropSkipping p l with
  | case1 => exact List.Subset.refl _
  | case2 b hb => exact List.nil_subset _
  | case3 b hb => exact List.Subset.refl _
  | case4 b c l hb ih => exact List.subset_cons_of_subset b (List.cons_subset_cons c ih)
  | case5 b c l hb ih => exact List.cons_subset_cons b ih

end lists

variable {u : List (Nat × Nat)} {m : Memory} {table : BitVec 32} {n x : Nat}

/-- The entries of the list, but for the empty ones. -/
theorem filter_storedList :
    ((storedList true u).map entryOf).filter (fun e => 0 < e.2) = wholeEntries u := by
  have hkeep : ∀ b ∈ dropSkipping IsEmptyBlock (u.map alignedBlock),
      ((fun e : Nat × Nat => decide (0 < e.2)) ∘ entryOf) b = decide (¬IsEmptyBlock b) := by
    intro b hb
    obtain ⟨c, -, rfl⟩ := List.mem_map.mp (dropSkipping_subset hb)
    rw [Function.comp_apply, decide_eq_decide, entryOf, IsEmptyBlock, alignedBlock]
    split
    · omega
    · decide
  have hpage : ∀ b ∈ u, ((fun b => decide (¬IsEmptyBlock b)) ∘ alignedBlock) b =
      decide (HasPage b) := by
    intro b _
    rw [Function.comp_apply, decide_eq_decide, alignedBlock_empty_iff, not_not]
  rw [storedList, if_pos rfl, List.filter_map, List.filter_congr hkeep, filter_dropSkipping,
    List.filter_map, List.filter_congr hpage, List.map_map, wholeEntries]
  refine List.map_congr_left fun b hb => ?_
  rw [Function.comp_apply, alignedBlock_of_hasPage (of_decide_eq_true (List.mem_filter.mp hb).2)]

/-- They are in order. -/
theorem ramMap_wholeEntries (hordered : u.Pairwise fun b b' => b.2 ≤ b'.1)
    (hends : ∀ b ∈ u, b.2 < 2 ^ 64) :
    RamMap (listEntry (wholeEntries u)) (wholeEntries u).length := by
  have hmem : ∀ i < (wholeEntries u).length, ∃ b ∈ u, HasPage b ∧
      listEntry (wholeEntries u) i = entryOf (wholePages b) := by
    intro i hi
    rw [listEntry, List.getD_eq_getElem _ _ hi]
    obtain ⟨b, hb, heq⟩ := List.mem_map.mp (List.getElem_mem hi)
    exact ⟨b, (List.mem_filter.mp hb).1, of_decide_eq_true (List.mem_filter.mp hb).2, heq.symm⟩
  refine ⟨fun i hi => ?_, fun i hi => ?_, fun i j hij hj => ?_⟩
  · obtain ⟨b, -, -, heq⟩ := hmem i hi
    rw [heq, entryOf, wholePages]
    refine ⟨⟨_, Nat.mul_comm _ _⟩, Nat.dvd_sub ⟨_, Nat.mul_comm _ _⟩ ⟨_, Nat.mul_comm _ _⟩⟩
  · obtain ⟨b, hb, hpage, heq⟩ := hmem i hi
    have hlt := hasPage_iff.mp hpage
    have hend := hends b hb
    rw [heq, entryOf]
    simp only [wholePages] at hlt ⊢
    omega
  · have hpairs : (wholeEntries u).Pairwise fun e e' => e.1 + e.2 ≤ e'.1 := by
      refine List.pairwise_map.mpr ((hordered.filter _).imp_of_mem ?_)
      intro b b' hb _ hle
      have hlt := hasPage_iff.mp (of_decide_eq_true (List.mem_filter.mp hb).2)
      simp only [entryOf, wholePages] at hlt ⊢
      omega
    rw [listEntry, listEntry, List.getD_eq_getElem _ _ hj, List.getD_eq_getElem _ _ (by omega)]
    exact List.pairwise_iff_getElem.mp hpairs i j (by omega) hj hij

/-- Their pages are the pages of available memory. -/
theorem ramPage_wholeEntries (hcanonical : Canonical (entryBase m table) (entryEnd m table)
      (available m table n) u) :
    RamPage (listEntry (wholeEntries u)) (wholeEntries u).length x ↔ AvailablePage m table n x := by
  have hpage : RamPage (listEntry (wholeEntries u)) (wholeEntries u).length x ↔
      ∃ b ∈ u, b.1 ≤ x * 2 ^ 12 ∧ (x + 1) * 2 ^ 12 ≤ b.2 := by
    constructor
    · rintro ⟨i, hi, hle, hlt⟩
      rw [listEntry, List.getD_eq_getElem _ _ hi] at hle hlt
      obtain ⟨b, hb, heq⟩ := List.mem_map.mp (List.getElem_mem hi)
      rw [← heq, entryOf, wholePages] at hle hlt
      refine ⟨b, (List.mem_filter.mp hb).1, ?_, ?_⟩
      · dsimp only at hle
        omega
      · simp only [Nat.reducePow] at hle hlt ⊢
        rcases Nat.le_total ((b.1 + 0xFFF) / 0x1000 * 0x1000) (b.2 / 0x1000 * 0x1000) with h | h
        · rw [Nat.add_sub_cancel' h] at hlt
          have hpage : x < b.2 / 0x1000 := Nat.lt_of_mul_lt_mul_right hlt
          exact Nat.le_trans (Nat.mul_le_mul_right 0x1000 hpage) (Nat.div_mul_le_self b.2 0x1000)
        · rw [Nat.sub_eq_zero_of_le h, Nat.add_zero] at hlt
          exact absurd hlt (Nat.not_lt.mpr hle)
    · rintro ⟨b, hb, hle, hge⟩
      have hhas : HasPage b := ⟨x * 2 ^ 12, by omega, hle, by omega⟩
      have hmem : entryOf (wholePages b) ∈ wholeEntries u :=
        List.mem_map_of_mem (List.mem_filter.mpr ⟨hb, decide_eq_true hhas⟩)
      obtain ⟨i, hi, heq⟩ := List.getElem_of_mem hmem
      refine ⟨i, hi, ?_⟩
      rw [listEntry, List.getD_eq_getElem _ _ hi, heq, entryOf, wholePages]
      dsimp only
      omega
  rw [hpage]
  constructor
  · rintro ⟨b, hb, hle, hge⟩ c hc hc'
    exact (hcanonical.union c).mp ⟨b, hb, by omega, by omega⟩
  · intro hcov
    exact hcanonical.block_of_covered (by omega) hcov

/-! ## Section 5: The Whole Boot -/

/-- The number of entries of the map in the tag at `tag`. -/
def e820Num (m : Memory) (tag : BitVec 32) : Nat :=
  ((load32 m (tag + 4) - 16) / load32 m (tag + 8)).toNat

section boot

variable {β : Type*} {B : Bios β} {fuel k : Nat} {mbi : BitVec 32} {s s' : Loader β} {b : Bool}
  {l new : List MbiTag} {m' : Memory}

theorem SameMap.entries (h : SameMap table n m m') (hn : table.toNat + 24 * n ≤ 2 ^ 32) :
    (∀ i < n, entryBase m' table i = entryBase m table i ∧
      entryEnd m' table i = entryEnd m table i) ∧
      available m' table n = available m table n := by
  refine ⟨fun i hi => ?_, List.filter_congr fun i hi => ?_⟩
  · obtain ⟨hbase, hsize, -⟩ := h.entry hn hi
    rw [entryEnd, entryEnd, entryBase, entryBase, hbase, hsize]
    exact ⟨rfl, rfl⟩
  · rw [decide_eq_decide]
    exact (h.entry hn (List.mem_range.mp hi)).2.2

theorem ValidMap.congr (hv : ValidMap m' table n) (h : SameMap table n m m')
    (hn : table.toNat + 24 * n ≤ 2 ^ 32) : ValidMap m table n where
  nonempty i hi := by
    obtain ⟨hbase, hend⟩ := (h.entries hn).1 i hi
    rw [← hbase, ← hend]
    exact hv.nonempty i hi
  fits i hi := by
    rw [← ((h.entries hn).1 i hi).2]
    exact hv.fits i hi

/-- The blocks of the same map are the same. -/
theorem sweep_congr (h : SameMap table n m m') (hn : table.toNat + 24 * n ≤ 2 ^ 32)
    (hs : Sweep (entryBase m table) (entryEnd m table) (available m table n) 0 u) :
    Sweep (entryBase m' table) (entryEnd m' table) (available m' table n) 0 u := by
  obtain ⟨hentry, havail⟩ := h.entries hn
  rw [havail]
  exact hs.congr (fun i hi => (hentry i (mem_available.mp hi).1).1)
    fun i hi => (hentry i (mem_available.mp hi).1).2

/-- The map that `Multiboot_SaveMemoryMaps` saves first, and the two lists behind it. -/
theorem saveMemoryMaps_cases (h : IsRecord s.mem mbi l)
    (hr : saveMemoryMaps B fuel mbi s = some (true, s')) :
    ∃ (t : MbiTag) (n : Nat) (s₁ s₂ : Loader β), t.size = 16 + 24 * n ∧ t.type = 6 ∧
      Saves mbi l s.mem s₁.mem [t] ∧ load32 s₁.mem (termAddr mbi l + 8) = 24 ∧
      saveBlocks fuel mbi 98 false (16 + termAddr mbi l) n s₁ = some (true, s₂) ∧
      saveBlocks fuel mbi 99 true (16 + termAddr mbi l) n s₂ = some (true, s') := by
  rcases saveTag_cases h hr with ⟨hb, -⟩ | ⟨hnew, hw⟩
  · exact nomatch hb
  obtain ⟨hroom, hw⟩ := withRoom_eq_some.mp hw
  split at hw
  · exact nomatch hw
  rename_i last s₁ hstore
  obtain ⟨k, rfl, hroom', honly⟩ := storeE820Info_spec hstore
  have hbelow : (16 + termAddr mbi l).toNat = (termAddr mbi l).toNat + 16 := by
    rw [BitVec.add_comm]
    exact toNat_add_ofNat (i := 16) (by omega)
  rw [hbelow] at hroom'
  dsimp only at hw
  rw [ofNat_sub_tag] at hw
  have hmap : OnlyIn (termAddr mbi l) (24 * k + 40) s.mem s₁.mem := by
    rw [BitVec.add_comm] at honly
    exact honly.of_add (i := 16) (by omega) (by omega)
  let t : MbiTag := ⟨6, 16 + 24 * k, by decide, by omega, by omega⟩
  have hsize : t.size = 16 + 24 * k := rfl
  have hf : Filled (termAddr mbi l) 6 (BitVec.ofNat 32 (16 + 24 * k)) (24 * k + 40) s.mem
      (writeMap s₁.mem (termAddr mbi l) 6 (BitVec.ofNat 32 (16 + 24 * k)) 24) :=
    filled_writeMap hmap (by omega) (by omega)
  have hsaves := (hf.saves h t (by omega) (by omega) hnew).2
  have hkept := fun x => terminateTag_tag_same (x := x) (t := t) h hf.size_eq (by omega)
  generalize terminateTag (writeMap s₁.mem (termAddr mbi l) 6 (BitVec.ofNat 32 (16 + 24 * k)) 24)
    mbi (termAddr mbi l) = terminated at hw hsaves hkept
  have hload : ∀ i, i + 4 ≤ 16 → load32 terminated.2 (termAddr mbi l + BitVec.ofNat 32 i) =
      load32 (writeMap s₁.mem (termAddr mbi l) 6 (BitVec.ofNat 32 (16 + 24 * k)) 24)
        (termAddr mbi l + BitVec.ofNat 32 i) :=
    fun i hi => load32_congr fun x hx => hkept x (hx.of_add (by omega) (by omega))
  have hentry : load32 terminated.2 (termAddr mbi l + 8) = 24 :=
    (hload 8 (by decide)).trans load32_writeMap
  have hnum : load32 terminated.2 (termAddr mbi l + 4) = BitVec.ofNat 32 (16 + 24 * k) :=
    (hload 4 (by decide)).trans hf.size_eq
  have hcount : ((BitVec.ofNat 32 (16 + 24 * k) - 16) / 24).toNat = k := by
    have h16 : (16 : BitVec 32).toNat = 16 := rfl
    have h24 : (24 : BitVec 32).toNat = 24 := rfl
    rw [BitVec.toNat_udiv, BitVec.toNat_sub, BitVec.toNat_ofNat, h16, h24]
    omega
  rw [hnum, hentry, hcount] at hw
  refine ⟨t, k, ⟨terminated.2, s₁.bios⟩, ?_⟩
  split at hw
  · exact nomatch hw
  split at hw
  · exact nomatch hw
  · exact nomatch hw
  · rename_i s₂ hblocks
    exact ⟨s₂, hsize, rfl, hsaves, hentry, hblocks, hw⟩

/-- A tag behind the tags `l`. -/
theorem termAddr_append (t : MbiTag) :
    termAddr mbi (l ++ [t]) = termAddr mbi l + BitVec.ofNat 32 t.size := by
  rw [termAddr, termAddr, tagBytes_append, tagBytes_cons, tagBytes_nil, Nat.add_zero,
    BitVec.ofNat_add, ← BitVec.add_assoc]

/-- The list in a tag behind it. -/
theorem blocks_append (t : MbiTag) :
    16 + termAddr mbi (l ++ [t]) = termAddr mbi l + BitVec.ofNat 32 (t.size + 16) := by
  rw [termAddr_append, BitVec.add_comm, BitVec.add_assoc, BitVec.ofNat_add]
  rfl

/-- A list that begins `i` bytes behind the tag of a map has room beside it. -/
theorem hasRoom_behind {i : Nat} (hi : 16 + 24 * n ≤ i)
    (hroom : a.toNat + (i + 16 * n + 24) < 2 ^ 32) :
    HasRoom (a + BitVec.ofNat 32 i) (16 + a) n where
  fits := by
    rw [BitVec.add_comm, show a + 16 = a + BitVec.ofNat 32 16 from rfl, toNat_add_ofNat (by omega)]
    omega
  room := by
    rw [toNat_add_ofNat (by omega)]
    omega
  apart := by
    rw [BitVec.add_comm]
    exact apart_add (i := 16) (by omega) (by omega)

/-- The last tag that `Multiboot_SaveMemoryMaps` adds holds the blocks of the map in whole
    pages. -/
theorem saveMemoryMaps_holds (h : IsRecord s.mem mbi l)
    (hr : saveMemoryMaps B fuel mbi s = some (true, s'))
    (hn : e820Num s'.mem (termAddr mbi l) = n)
    (hv : ValidMap s'.mem (16 + termAddr mbi l) n)
    (hpage : ∀ i < n, entryEnd s'.mem (16 + termAddr mbi l) i + 0x1000 < 2 ^ 64)
    (hroom : (termAddr mbi l).toNat + (56 * n + 96) < 2 ^ 32) (hfuel : n < fuel) :
    ∃ t₁ t₂ t₃ u, Extends mbi l s.mem s'.mem [t₁, t₂, t₃] ∧ t₃.type = 99 ∧
      (∀ t ∈ l ++ [t₁, t₂], t.type ≠ 99) ∧
      Sweep (entryBase s'.mem (16 + termAddr mbi l)) (entryEnd s'.mem (16 + termAddr mbi l))
        (available s'.mem (16 + termAddr mbi l) n) 0 u ∧
      HoldsBlocks s'.mem (termAddr mbi (l ++ [t₁, t₂])) t₃ (storedList true u) := by
  obtain ⟨t₁, k, s₁, s₂, hsize, htype, hsaves₁, hentry, hblocks₂, hblocks₃⟩ :=
    saveMemoryMaps_cases h hr
  -- what is behind the map leaves it as it is
  obtain ⟨new₂, hsaves₂, -⟩ := (saveBlocks_spec hsaves₁.record (by decide) hblocks₂).saves
    hsaves₁.record
  obtain ⟨new₃, hsaves₃, -⟩ := (saveBlocks_spec hsaves₂.record (by decide) hblocks₃).saves
    hsaves₂.record
  have hlater := hsaves₂.toExtends.trans hsaves₃.toExtends
  have hfits := hsaves₁.record.fits
  rw [tagBytes_append, tagBytes_cons, tagBytes_nil, hsize] at hfits
  have hkept := hlater.tag_same (l := l) (t := t₁) (r := []) (by
    rw [tagBytes_append, tagBytes_cons, tagBytes_nil, hsize]
    omega)
  have hfields : ∀ i, i + 4 ≤ 16 → load32 s'.mem (termAddr mbi l + BitVec.ofNat 32 i) =
      load32 s₁.mem (termAddr mbi l + BitVec.ofNat 32 i) :=
    fun i hi => load32_congr fun x hx => hkept x (hx.of_add (by omega) (by omega))
  obtain ⟨-, hload, -⟩ := (tagsAt_append.mp hsaves₁.record.tags).2
  have hnum : load32 s'.mem (termAddr mbi l + 4) = BitVec.ofNat 32 t₁.size :=
    (hfields 4 (by decide)).trans hload
  have hentry' : load32 s'.mem (termAddr mbi l + 8) = 24 := (hfields 8 (by decide)).trans hentry
  have hk : k = n := by
    have h16 : (16 : BitVec 32).toNat = 16 := rfl
    have h24 : (24 : BitVec 32).toNat = 24 := rfl
    have hsub : (2 ^ 32 - 16 + (16 + 24 * k) % 2 ^ 32) % 2 ^ 32 = 24 * k := by omega
    rwa [e820Num, hnum, hentry', hsize, BitVec.toNat_udiv, BitVec.toNat_sub, BitVec.toNat_ofNat,
      h16, h24, hsub, Nat.mul_div_cancel_left k (by decide)] at hn
  subst hk
  have hbelow : (16 + termAddr mbi l).toNat = (termAddr mbi l).toNat + 16 := by
    rw [BitVec.add_comm]
    exact toNat_add_ofNat (i := 16) (by omega)
  have htable : (16 + termAddr mbi l).toNat + 24 * k ≤ 2 ^ 32 := by omega
  have hsame : ∀ {m}, (∀ x, InBytes (termAddr mbi l) t₁.size x → m x = s₁.mem x) →
      SameMap (16 + termAddr mbi l) k s₁.mem m := by
    intro m hm x hx
    rw [BitVec.add_comm] at hx
    exact hm x (InBytes.of_add (i := 16) hx (by omega) (by omega))
  have hv₁ := hv.congr (hsame hkept) htable
  -- the blocks of the map
  obtain ⟨t₂, u, htype₂, hsaves₂', hnew₂, hsweep, hholds₂⟩ := by
    refine saveBlocks_holds hsaves₁.record (by decide) hv₁ ?_ ?_ hfuel hblocks₂
    · exact fun hp => nomatch hp
    · rw [blocks_append]
      exact hasRoom_behind (by omega) (by omega)
  have hlength := hv₁.blocks_le hsweep
  have hsize₂ := hholds₂.size_eq
  rw [storedList, if_neg (by decide)] at hsize₂
  -- and the same in whole pages
  have hfits₂ := hsaves₂'.record.fits
  rw [tagBytes_append, tagBytes_append, tagBytes_cons, tagBytes_cons, tagBytes_nil, hsize]
    at hfits₂
  have hkept₂ := hsaves₂'.toExtends.tag_same (l := l) (t := t₁) (r := []) (by
    rw [tagBytes_append, tagBytes_cons, tagBytes_nil, hsize]
    omega)
  have hsame₂ := hsame hkept₂
  have hback : SameMap (16 + termAddr mbi l) k s₂.mem s'.mem := fun x hx =>
    (hsame hkept x hx).trans (hsame₂ x hx).symm
  obtain ⟨t₃, u', htype₃, hsaves₃', hnew₃, hsweep', hholds₃⟩ :
      ∃ t u, t.type = 99 ∧ Saves mbi (l ++ [t₁] ++ [t₂]) s₂.mem s'.mem [t] ∧
        (∀ t' ∈ l ++ [t₁] ++ [t₂], t'.type ≠ 99) ∧
        Sweep (entryBase s₂.mem (16 + termAddr mbi l)) (entryEnd s₂.mem (16 + termAddr mbi l))
          (available s₂.mem (16 + termAddr mbi l) k) 0 u ∧
        HoldsBlocks s'.mem (termAddr mbi (l ++ [t₁] ++ [t₂])) t (storedList true u) := by
    refine saveBlocks_holds hsaves₂'.record (by decide) (hv.congr hback htable) (fun _ i hi => ?_)
      ?_ hfuel hblocks₃
    · rw [← ((hback.entries htable).1 i hi).2]
      exact hpage i hi
    · rw [blocks_append, termAddr_append, BitVec.add_assoc, ← BitVec.ofNat_add]
      exact hasRoom_behind (by omega) (by omega)
  rw [List.append_assoc] at hsaves₃' hnew₃ hholds₃
  refine ⟨t₁, t₂, t₃, u', ?_, htype₃, hnew₃, sweep_congr hback htable hsweep', hholds₃⟩
  exact (hsaves₁.toExtends.trans hsaves₂'.toExtends).trans hsaves₃'.toExtends

theorem tagAddrs_append {a : BitVec 32} {l l' : List MbiTag} : tagAddrs a (l ++ l') =
    tagAddrs a l ++ tagAddrs (a + BitVec.ofNat 32 (tagBytes l)) l' := by
  induction l generalizing a with
  | nil => rw [List.nil_append, tagBytes_nil, tagAddrs, BitVec.add_zero, List.nil_append]
  | cons t l ih =>
    rw [List.cons_append, tagAddrs, tagAddrs, ih, tagBytes_cons, BitVec.ofNat_add,
      ← BitVec.add_assoc, List.cons_append]

/-- The types of the tags that follow each other. -/
theorem TagsAt.type_of_mem {a tag : BitVec 32} {l : List MbiTag} (h : TagsAt m a l)
    (htag : tag ∈ tagAddrs a l) : ∃ t ∈ l, load32 m tag = t.type := by
  induction l generalizing a with
  | nil => exact absurd htag List.not_mem_nil
  | cons t l ih =>
    obtain ⟨htype, -, hl⟩ := h
    rcases List.mem_cons.mp htag with rfl | htag
    · exact ⟨t, List.mem_cons_self, htype⟩
    · obtain ⟨t', ht', htype'⟩ := ih hl htag
      exact ⟨t', List.mem_cons_of_mem _ ht', htype'⟩

theorem lastRamInfo_other {tags : List (BitVec 32)} (h : ∀ tag ∈ tags, load32 m tag ≠ 99) :
    lastRamInfo (tags.map (bootTag m)) = none := by
  induction tags with
  | nil => rfl
  | cons tag tags ih =>
    rw [List.map_cons, bootTag, if_neg (h tag List.mem_cons_self), lastRamInfo]
    exact ih fun tag' htag' => h tag' (List.mem_cons_of_mem _ htag')

theorem lastRamInfo_append {tags tags' : List MultibootTag} :
    lastRamInfo (tags ++ tags') = (lastRamInfo tags').or (lastRamInfo tags) := by
  induction tags with
  | nil => rw [List.nil_append, lastRamInfo, Option.or_none]
  | cons tag tags ih =>
    cases tag with
    | other => exact ih
    | ramInfoPageAligned size entrySize mmap =>
      rw [List.cons_append, lastRamInfo, lastRamInfo, ih]
      cases lastRamInfo tags' with
      | none => rfl
      | some found => rfl

/-- The kernel finds the list that the tag `t` holds, when no tag of its type follows. -/
theorem lastRamInfo_holds {t : MbiTag} {bs : List (Nat × Nat)}
    (h : IsRecord m mbi (l ++ t :: new)) (htype : t.type = 99) (hnew : ∀ t' ∈ new, t'.type ≠ 99)
    (hholds : HoldsBlocks m (termAddr mbi l) t bs) :
    lastRamInfo ((tagAddrs (mbi + 8) (l ++ t :: new)).map (bootTag m)) =
      some (bs.length, mmapEntry m (termAddr mbi l + 16)) := by
  obtain ⟨-, htag, hsize, hrest⟩ := tagsAt_append.mp h.tags
  have hfits := h.fits
  have hbytes := hholds.size_eq
  rw [tagBytes_append, tagBytes_cons] at hfits
  have hnone : lastRamInfo ((tagAddrs (mbi + 8 + BitVec.ofNat 32 (tagBytes l) +
      BitVec.ofNat 32 t.size) new).map (bootTag m)) = none := by
    refine lastRamInfo_other fun tag hmem => ?_
    obtain ⟨t', ht', heq⟩ := hrest.type_of_mem hmem
    rw [heq]
    exact hnew t' ht'
  have hnum : w32 (t.size + 2 ^ 32 - 16) / 16 = bs.length := by
    rw [w32]
    omega
  have hsize' : (load32 m (termAddr mbi l + 4)).toNat = t.size := by
    rw [termAddr, hsize, BitVec.toNat_ofNat, Nat.mod_eq_of_lt (by omega)]
  have hentry : (load32 m (termAddr mbi l + 8)).toNat = 16 := by
    rw [hholds.entrySize]
    rfl
  rw [tagAddrs_append, List.map_append, lastRamInfo_append, tagAddrs, List.map_cons, bootTag,
    if_pos (htag.trans htype), lastRamInfo, hnone]
  dsimp only
  rw [← termAddr, hsize', hentry, if_neg (by decide), hnum, Option.some_or]

/-- The entries that the kernel reads from the list. -/
theorem mmapEntry_holds {t : MbiTag} {bs : List (Nat × Nat)} {a : BitVec 32}
    (h : HoldsBlocks m a t bs) {i : Nat} (hi : i < bs.length) :
    mmapEntry m (a + 16) i = listEntry (bs.map entryOf) i := by
  have hblock : bs[i] = ramBlock m (16 + a) i := by
    have heq := congrArg (·[i]?) h.blocks
    rw [List.getElem?_eq_getElem (by rw [length_ramBlocks]; exact hi), List.getElem?_eq_getElem hi,
      getElem_ramBlocks] at heq
    exact (Option.some.inj heq).symm
  rw [listEntry, List.getD_eq_getElem _ _ (by rwa [List.length_map]), List.getElem_map, hblock,
    entryOf, ramBlock, mmapEntry, blockEntry, BitVec.add_comm a]
  simp only [Nat.add_sub_cancel_left]

/-- What the boot asks of the map with `n` entries at `table`. -/
structure BootableMap (m : Memory) (table : BitVec 32) (n : Nat) : Prop
    extends ValidMap m table n where
  /-- There is room to round every entry up to a page. -/
  pages : ∀ i < n, entryEnd m table i + 0x1000 < 2 ^ 64
  /-- The entries of a block can be followed in the order of the map. -/
  inOrder : ∀ i ∈ available m table n,
    InOrder (entryBase m table) (entryEnd m table) (available m table n) i
  /-- The blocks in whole pages fit the window of the kernel. -/
  window : ∀ u, Sweep (entryBase m table) (entryEnd m table) (available m table n) 0 u →
    ∀ b ∈ u, HasPage b → FitsWindow (entryOf (wholePages b))

/-- What the free lists of the kernel hold after the boot: the available memory of the map that
    the BIOS has reported, in whole pages of the window. Between the two ends of the boot the
    record may get other tags. -/
theorem bootMemory_exact {p : PhysMem} (h : IsRecord s.mem mbi l)
    (hr : saveMemoryMaps B fuel mbi s = some (true, s'))
    (hn : e820Num s'.mem (termAddr mbi l) = n)
    (hmap : BootableMap s'.mem (16 + termAddr mbi l) n)
    (hroom : (termAddr mbi l).toNat + (56 * n + 96) < 2 ^ 32) (hfuel : n < fuel)
    (hp : p.Unbooted) :
    ∃ maps, Extends mbi l s.mem s'.mem maps ∧ ∀ m' new k, Extends mbi (l ++ maps) s'.mem m' new →
      (∀ t ∈ new, t.type ≠ 99) → (l ++ maps ++ new).length < k →
        ∃ p' free, p.pageBuddyMapsInitializeFrom k m' mbi = some p' ∧ p'.FreeBlocks free ∧
          (∀ x, AvailablePage s'.mem (16 + termAddr mbi l) n x ∧ InWindow x →
            Buddy.load (PhysMem.blocks free []) x = 1) ∧
          (∀ x, ¬(AvailablePage s'.mem (16 + termAddr mbi l) n x ∧ InWindow x) →
            Buddy.load (PhysMem.blocks free []) x = 0) ∧
          ∀ t ∈ p'.touched, t.1 ≤ pageMaxOrder ∧ t.2 < pageMapsSize t.1 := by
  obtain ⟨t₁, t₂, t₃, u, hext, htype, -, hsweep, hholds⟩ :=
    saveMemoryMaps_holds h hr hn hmap.toValidMap hmap.pages hroom hfuel
  refine ⟨[t₁, t₂, t₃], hext, fun m' new k hlater hnew hk => ?_⟩
  have hlist : l ++ [t₁, t₂, t₃] ++ new = l ++ [t₁, t₂] ++ t₃ :: new := by
    simp only [List.append_assoc, List.cons_append, List.nil_append]
  have hold : l ++ [t₁, t₂, t₃] = l ++ [t₁, t₂] ++ [t₃] := by
    simp only [List.append_assoc, List.cons_append, List.nil_append]
  have hrecord := hlater.record
  rw [hlist] at hrecord hk
  have hfits := hrecord.fits
  rw [tagBytes_append, tagBytes_cons] at hfits
  -- the list is still there
  rw [hold] at hlater
  have hkept := hlater.tag_same (l := l ++ [t₁, t₂]) (t := t₃) (r := []) (by
    rw [tagBytes_append, tagBytes_cons, tagBytes_nil]
    omega)
  have hholds' := hholds.congr (by omega) hkept
  -- its entries are available memory in whole pages
  have hcanonical := (hsweep.canonical_iff hmap.toValidMap.lt_of_available
    fun _ _ => Nat.zero_le _).mpr hmap.inOrder
  have hends := hmap.toValidMap.blocks_fit hmap.pages hsweep
  have hram : RamMap (listEntry (wholeEntries u)) (wholeEntries u).length :=
    ramMap_wholeEntries hsweep.ordered fun b hb => by
      have := hends b hb
      omega
  have hfit : ∀ e ∈ wholeEntries u, FitsWindow e := by
    intro e he
    obtain ⟨b, hb, rfl⟩ := List.mem_map.mp he
    obtain ⟨hb, hpage⟩ := List.mem_filter.mp hb
    exact hmap.window u hsweep b hb (of_decide_eq_true hpage)
  obtain ⟨p', free, hrun, hfree, hin, hout, htouched⟩ := PhysMem.mapEntries_covers hram hfit hp
  refine ⟨p', free, ?_, hfree, fun x hx => hin x ?_, fun x hx => hout x fun hx' => hx ?_, htouched⟩
  · rw [pageBuddyMapsInitializeFrom_eq hrecord (by rwa [length_tagAddrs]),
      PhysMem.pageBuddyMapsInitialize, lastRamInfo_holds hrecord htype hnew hholds']
    dsimp only
    rw [PhysMem.mapEntries_congr fun i hi => mmapEntry_holds hholds' hi,
      ← hrun, ← filter_storedList, ← PhysMem.mapEntries_filter, List.length_map]
  · rwa [ramPage_wholeEntries hcanonical]
  · rwa [ramPage_wholeEntries hcanonical] at hx'

end boot

/-! ### A machine with memory from 1 MB up to 3 MB -/

/-- The BIOS reports one entry, and that there is no other. -/
def threeMbBios : Bios Unit where
  interrupt _ _ r :=
    if r.ebx = 0 then
      ([0, 0, 0x10, 0, 0, 0, 0, 0, 0, 0, 0x20, 0, 0, 0, 0, 0, 1, 0, 0, 0],
        { r with eax := 0x534D4150, ebx := 1, ecx := 20, flags := 0 }, ())
    else ([], { r with flags := 1 }, ())
  keeps_esi _ r _ := by split <;> rfl

/-- A record without a tag. -/
def threeMbLoader : Loader Unit := ⟨(createEmptyMbi (fun _ => 0) 0x1000).2, ()⟩

theorem isRecord_threeMb : IsRecord threeMbLoader.mem 0x1000 [] :=
  (isRecord_createEmptyMbi (by decide) (by decide)).2

theorem run_threeMb : ∃ s', saveMemoryMaps threeMbBios 4 0x1000 threeMbLoader = some (true, s') ∧
    e820Num s'.mem 0x1008 = 1 ∧ entryBase s'.mem 0x1018 0 = 0x100000 ∧
      entryEnd s'.mem 0x1018 0 = 0x300000 ∧ available s'.mem 0x1018 1 = [0] := by
  have hrun : (saveMemoryMaps threeMbBios 4 0x1000 threeMbLoader).map (fun r => decide (r.1 = true ∧
      e820Num r.2.mem 0x1008 = 1 ∧ entryBase r.2.mem 0x1018 0 = 0x100000 ∧
        entryEnd r.2.mem 0x1018 0 = 0x300000 ∧ available r.2.mem 0x1018 1 = [0])) =
          some true := by decide +kernel
  obtain ⟨⟨b, s'⟩, hs', hfacts⟩ := Option.map_eq_some_iff.mp hrun
  obtain ⟨hb, hfacts⟩ := of_decide_eq_true hfacts
  obtain rfl : b = true := hb
  exact ⟨s', hs', hfacts⟩

theorem bootableMap_threeMb {m : Memory} {table : BitVec 32}
    (hbase : entryBase m table 0 = 0x100000) (hend : entryEnd m table 0 = 0x300000)
    (havail : available m table 1 = [0]) :
    BootableMap m table 1 := by
  have hfirst : ∀ i < 1, entryBase m table i = 0x100000 ∧ entryEnd m table i = 0x300000 := by
    intro i hi
    obtain rfl : i = 0 := by omega
    exact ⟨hbase, hend⟩
  refine ⟨⟨fun i hi => ?_, fun i hi => ?_⟩, fun i hi => ?_, fun i hi => ?_, fun u hu b hb _ => ?_⟩
  · rw [(hfirst i hi).1, (hfirst i hi).2]
    decide
  · rw [(hfirst i hi).2]
    decide
  · rw [(hfirst i hi).2]
    decide
  · rw [havail] at hi ⊢
    obtain rfl := List.mem_singleton.mp hi
    refine ⟨0, hi, fun x hx hlt => ?_, Nat.le_refl _, _, .take (Nat.le_refl _) .nil, Nat.le_refl _⟩
    rw [List.mem_singleton.mp hx] at hlt
    exact absurd hlt (Nat.lt_irrefl _)
  · rw [havail] at hu
    obtain ⟨-, x, hx, hlo⟩ := hu.from_mem hb
    rw [List.mem_singleton.mp hx, hbase] at hlo
    have hhi : b.2 = 0x300000 := by
      rw [hu.grown hb, ← hlo, growAll, List.foldl_cons, List.foldl_nil, grow, hbase, hend]
      rfl
    have hblock : b = (0x100000, 0x300000) := Prod.ext hlo.symm hhi
    rw [hblock]
    exact ⟨by decide, fun _ _ hcross => absurd hcross (by decide)⟩

theorem availablePage_threeMb {m : Memory} {table : BitVec 32}
    (hbase : entryBase m table 0 = 0x100000) (hend : entryEnd m table 0 = 0x300000)
    (havail : available m table 1 = [0]) (x : Nat) :
    AvailablePage m table 1 x ∧ InWindow x ↔ 0x100 ≤ x ∧ x < 0x300 := by
  have hwin : windowPages = 0x70000 := by decide
  have hcov : ∀ c, Covered (entryBase m table) (entryEnd m table) (available m table 1) c ↔
      0x100000 ≤ c ∧ c < 0x300000 := by
    intro c
    rw [Covered, havail]
    simp only [List.mem_singleton, exists_eq_left, hbase, hend]
  rw [inWindow_iff, hwin, AvailablePage]
  simp only [hcov]
  constructor
  · rintro ⟨h, -⟩
    have hfirst := h (x * 2 ^ 12) (Nat.le_refl _) (by omega)
    omega
  · rintro ⟨hlow, hhigh⟩
    exact ⟨fun c hc hc' => by omega, by omega⟩

/-- The free lists hold the memory from 1 MB up to 3 MB. -/
theorem bootMemory_exact_threeMb : ∃ (s' : Loader Unit) (k : Nat) (p' : PhysMem)
    (free : Nat → List Nat), saveMemoryMaps threeMbBios 4 0x1000 threeMbLoader = some (true, s') ∧
      unbooted.pageBuddyMapsInitializeFrom k s'.mem 0x1000 = some p' ∧ p'.FreeBlocks free ∧
      (∀ x, 0x100 ≤ x ∧ x < 0x300 → Buddy.load (PhysMem.blocks free []) x = 1) ∧
      ∀ x, ¬(0x100 ≤ x ∧ x < 0x300) → Buddy.load (PhysMem.blocks free []) x = 0 := by
  obtain ⟨s', hrun, hn, hbase, hend, havail⟩ := run_threeMb
  obtain ⟨maps, hext, hboot⟩ := bootMemory_exact isRecord_threeMb hrun hn
    (bootableMap_threeMb hbase hend havail) (by decide) (by decide) unbooted_unbooted
  obtain ⟨p', free, hinit, hfree, hin, hout, -⟩ := hboot s'.mem [] _ (Extends.refl hext.record)
    (fun t ht => absurd ht List.not_mem_nil) (Nat.lt_succ_self _)
  have hpage := availablePage_threeMb hbase hend havail
  exact ⟨s', _, p', free, hrun, hinit, hfree, fun x hx => hin x ((hpage x).mpr hx),
    fun x hx => hout x fun hx' => hx ((hpage x).mp hx')⟩

end Multiboot

end Avos
