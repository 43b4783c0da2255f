import Avos.Memory.Boot
import Avos.Memory.Calls

/-! # The Kernel Image and the Page Allocator

  `linkkern.ld` loads the kernel at 1 MB, and its image ends at
  `__bss_end_addr`. Nothing in `Page_MapMemoryChunk` knows about it: the
  window begins at 1 MB too, so the image is on the free lists as soon as an
  entry of the RAM map begins inside it.

  The image stays out of reach exactly when no entry begins inside it, as long
  as no release unlinks a node that is not on its list. -/

open Links Buddy Transition

namespace Avos

/-- The loaded kernel occupies the physical addresses from `__kernel_load_addr` up to
    `__bss_end_addr`. -/
def InImage (bssEnd addr : Nat) : Prop := windowStart ≤ addr ∧ addr < bssEnd

/-- No node that has been stored to, and no block handed out, overlaps the image. -/
structure ImageSafe (bssEnd : Nat) (a : Arena) : Prop where
  written : ∀ node ∈ a.mem.written, ∀ d, d < 8 → ¬ InImage bssEnd (physAddr node + d)
  held : ∀ h ∈ a.held, ∀ addr, physAddr h.1 ≤ addr → addr < physAddr h.1 + pageSizeAtOrder h.2 →
    ¬ InImage bssEnd addr

/-- The entry is listed, and begins inside the image. -/
def StartsInImage (bssEnd : Nat) (entry : Nat × Nat) : Prop :=
  0 < entry.2 ∧ entry.1 < windowEnd ∧ InImage bssEnd entry.1

/-- Each node that a release unlinks, going by the bits, is on its list. -/
def Call.BuddiesListed (a : Arena) : Call → Prop
  | release ptr k => ∀ j, k ≤ j → j < pageMaxOrder →
      (∀ t, k ≤ t → t ≤ j → a.mem.pageMapIsBitSet (physAddr ptr) t = true) →
      ∃ l, IsList a.mem.nodes pageListNull (a.mem.pageLists j) l ∧
        kernAddr (pageBuddy (physAddr ptr) j) ∈ l
  | _ => True

/-! ## Runs -/

/-- `PAGE_BUDDY` of a misaligned block is misaligned as well. -/
theorem dvd_of_pageBuddy {p j n : Nat} (hj : j ≤ pageMaxOrder)
    (h : kernAddr (pageBuddy (p * 2 ^ 12) j) = blockNode j n) : 2 ^ j ∣ p := by
  have hdvd : 2 ^ j ∣ 2 ^ 20 := Nat.pow_dvd_pow 2 (hj.trans (by decide))
  have hsmall : 2 ^ j ≤ 2 ^ 10 := Nat.pow_le_pow_right (by decide) hj
  have hsize : 1 <<< (kernelPageSizeInBits + j) = 2 ^ j * 2 ^ 12 := by
    rw [Nat.one_shiftLeft, kernelPageSizeInBits, Nat.add_comm, Nat.pow_add]
  unfold pageBuddy blockNode pageNode at h
  rw [hsize] at h
  have hmod : p % 2 ^ 20 = (n * 2 ^ j + 2 ^ 20 - 2 ^ j) % 2 ^ 20 ∨
      p % 2 ^ 20 = (n * 2 ^ j + 2 ^ j) % 2 ^ 20 := by
    unfold kernAddr w32 at h
    split_ifs at h
    · exact .inl (by omega)
    · exact .inr (by omega)
  have hmul : ∀ q, 2 ^ j ∣ q → p % 2 ^ 20 = q % 2 ^ 20 → 2 ^ j ∣ p := fun q hq heq =>
    (Nat.dvd_mod_iff hdvd).mp (heq ▸ (Nat.dvd_mod_iff hdvd).mpr hq)
  rcases hmod with heq | heq
  · refine hmul _ ?_ heq
    exact Nat.dvd_sub (Nat.dvd_add (Nat.dvd_mul_left _ _) hdvd) (Nat.dvd_refl _)
  · exact hmul _ (Nat.dvd_add (Nat.dvd_mul_left _ _) (Nat.dvd_refl _)) heq

namespace Arena

variable {S : Nat → Prop} {a : Arena} {P P' : Pool} {out : List Block} {k p : Nat} {b : Block}

/-- A node on a list whose bit pattern asks for it is the other half of the block. -/
theorem Shows.buddy_listed (h : a.Shows S P out) (hb : b ∈ out)
    (hlisted : (Call.release (handle b).1 (handle b).2).BuddiesListed a) {j : Nat}
    (hj : b.order ≤ j) (hlt : j < pageMaxOrder)
    (hbits : ∀ t, b.order ≤ t → t ≤ j → P.bits t (b.page / 2 ^ (t + 1)) = true) :
    2 ^ j ∣ b.page ∧ buddy (b.page / 2 ^ j) ∈ P.lists j := by
  obtain ⟨l, hl, hmem⟩ := hlisted j hj hlt (fun t ht ht' => by
    rw [physAddr_handle h hb, PhysMem.pageMapIsBitSet_eq, page_pair, h.rep.bits t (by omega)]
    exact hbits t ht ht')
  rw [hl.unique (h.rep.isList j hlt.le), physAddr_handle h hb] at hmem
  obtain ⟨n, hn, heq⟩ := List.mem_map.mp hmem
  have hdvd := dvd_of_pageBuddy hlt.le heq.symm
  refine ⟨hdvd, ?_⟩
  rw [PhysMem.kernAddr_pageBuddy hdvd hlt.le (h.page_lt hb), blockNode, blockNode] at heq
  have hpage := pageNode_inj (PhysMem.free_lt h.valid hlt.le hn) (buddy_mul_lt
    (Nat.pow_dvd_pow 2 (by unfold pageMaxOrder at hlt; omega)) (h.page_lt hb)) heq
  rwa [← Nat.eq_of_mul_eq_mul_right (Nat.two_pow_pos j) hpage]

theorem Shows.exec (h : a.Shows S P out) {c : Call} (hc : c.Allowed a) (hl : c.BuddiesListed a) :
    ∃ P' out', (a.exec c).Shows S P' out' := by
  cases c with
  | acquire k =>
    rcases hacq : P.acquire pageMaxOrder k with _ | ⟨p, P'⟩
    · exact ⟨P, out, (h.acquire_none hc hacq).symm ▸ h⟩
    · exact ⟨P', _, h.acquire_some hc hacq⟩
  | release ptr k =>
    obtain ⟨b, hb, rfl, rfl⟩ := h.block_of_held hc
    have hk : b.order ≤ pageMaxOrder := h.valid.orders b hb
    have hle := (Pool.le_mergeUp_order (p := b.page) (k := b.order) (P := P)
      (pageMaxOrder - b.order)).2
    refine ⟨_, _, h.release hb (fun j hj hlt hset => ?_) (fun j hj hlt => ?_)⟩
    · exact (h.buddy_listed hb hl hj (by omega) hset).2
    · refine (h.buddy_listed hb hl hj (by omega) (fun t ht ht' => ?_)).1
      exact Pool.bits_of_lt_mergeUp_order ht (lt_of_le_of_lt ht' hlt)
  | store ptr k x next prev =>
    obtain ⟨hheld, hx⟩ := hc
    obtain ⟨b, hb, rfl, rfl⟩ := h.block_of_held hheld
    exact ⟨P, out, h.store hb hx next prev⟩

end Arena

/-! ## The image -/

/-- The nodes of the pages that do not overlap the image. -/
def OutsideImage (bssEnd node : Nat) : Prop :=
  ∃ x, x < numPages ∧ ¬ (0x100 ≤ x ∧ x * 2 ^ 12 < bssEnd) ∧ node = pageNode x

theorem not_inImage_of_page {bssEnd x addr : Nat} (hx : ¬ (0x100 ≤ x ∧ x * 2 ^ 12 < bssEnd))
    (hpage : addr / 2 ^ 12 = x) : ¬ InImage bssEnd addr := by
  have hstart : windowStart = 0x100 * 2 ^ 12 := by decide
  rintro ⟨h1, h2⟩
  omega

/-- What stays outside the image is safe. -/
theorem Arena.Shows.imageSafe {a : Arena} {P : Pool} {out : List Block} {bssEnd : Nat}
    (h : a.Shows (OutsideImage bssEnd) P out) : ImageSafe bssEnd a where
  written node hnode d hd := by
    obtain ⟨x, hx, hout, heq⟩ := h.rep.written node hnode
    rw [heq, physAddr_pageNode hx]
    clear heq
    exact not_inImage_of_page hout (by omega)
  held := by
    rintro ⟨ptr, k⟩ hheld addr hle hlt
    obtain ⟨b, hb, rfl, rfl⟩ := h.block_of_held hheld
    simp only [physAddr_handle h hb, PhysMem.pageSizeAtOrder_eq, handle_snd] at hle hlt
    have hpos := Nat.two_pow_pos b.order
    have hin : b.Contains (addr / 2 ^ 12) := by
      unfold Block.Contains Block.page at *
      rw [Nat.div_eq_iff hpos]
      omega
    have hpage := PhysMem.total_pos_of_mem (P := P) hb hin
    obtain ⟨x, hx, hout, heq⟩ := h.covers (addr / 2 ^ 12) hpage
    obtain rfl := pageNode_inj (h.valid.bounded _ hpage) hx heq
    exact not_inImage_of_page hout rfl

/-- A page that is listed lies below 4 GB, in an entry that begins in the window. -/
theorem MappedPage.entry {mmap : Nat → Nat × Nat} {n x : Nat} (h : MappedPage mmap n x) :
    x < numPages ∧ ∃ i, i < n ∧ 0 < (mmap i).2 ∧ 0x100 ≤ (mmap i).1 / 2 ^ 12 ∧
      (mmap i).1 / 2 ^ 12 < windowPages ∧ (mmap i).1 / 2 ^ 12 ≤ x := by
  obtain ⟨i, hi, hb, he⟩ := h
  unfold mappedEnd at he
  simp only at he
  split_ifs at he with hout hin
  · omega
  · exact ⟨by omega, i, hi, by omega⟩
  · generalize PhysMem.chunkOrder _ = k at he
    have hle := (PhysMem.floorPage_bounds k
      (min ((mmap i).1 / 2 ^ 12 + (mmap i).2 / 2 ^ 12) numPages)).1
    exact ⟨by omega, i, hi, by omega⟩

/-- The first page of an entry that begins in the window is listed. -/
theorem mappedPage_first {mmap : Nat → Nat × Nat} {n i : Nat} (hi : i < n)
    (haligned : 2 ^ 12 ∣ (mmap i).2) (hpos : 0 < (mmap i).2)
    (hlow : 0x100 ≤ (mmap i).1 / 2 ^ 12) (hwin : (mmap i).1 / 2 ^ 12 < windowPages) :
    MappedPage mmap n ((mmap i).1 / 2 ^ 12) := by
  have hwin' : windowPages = 0x70000 := by decide
  have hnum : numPages = 2 ^ 20 := rfl
  refine ⟨i, hi, le_rfl, ?_⟩
  obtain ⟨m, hm⟩ := haligned
  unfold mappedEnd
  simp only
  split_ifs with hout hin
  · omega
  · omega
  · have hk := PhysMem.chunkOrder_le
      ((min ((mmap i).1 / 2 ^ 12 + (mmap i).2 / 2 ^ 12) numPages - (mmap i).1 / 2 ^ 12) * 2 ^ 12)
    generalize PhysMem.chunkOrder _ = k at hk ⊢
    have hge := PhysMem.le_floorPage
      (e := min ((mmap i).1 / 2 ^ 12 + (mmap i).2 / 2 ^ 12) numPages)
      (PhysMem.two_pow_dvd_window hk) (by omega)
    omega

section boot

variable {bootInfo : List MultibootTag} {mmap : Nat → Nat × Nat} {n bssEnd : Nat}
  {s booted : PhysMem}

/-- When no entry begins inside the image, the initialisation stays outside. -/
theorem shows_booted (hinfo : lastRamInfo bootInfo = some (n, mmap)) (hmap : RamMap mmap n)
    (hs : PhysMem.Unbooted s) (hrun : s.pageBuddyMapsInitialize bootInfo = some booted)
    (hstart : ∀ i, i < n → ¬ StartsInImage bssEnd (mmap i)) :
    ∃ P, (Arena.mk booted []).Shows (OutsideImage bssEnd) P [] := by
  have hwin : windowPages = 0x70000 := by decide
  have hbegin : windowStart = 0x100 * 2 ^ 12 := by decide
  have hend : windowEnd = 0x70000 * 2 ^ 12 := by decide
  have hS : ∀ x, MappedPage mmap n x → OutsideImage bssEnd (pageNode x) := by
    intro x hmapped
    obtain ⟨hx, i, hi, hpos, hlow, hlt, hle⟩ := hmapped.entry
    refine ⟨x, hx, fun ⟨_, himage⟩ => ?_, rfl⟩
    obtain ⟨b, hb⟩ := (hmap.aligned i hi).1
    exact hstart i hi ⟨hpos, by omega, by omega, by omega⟩
  obtain ⟨s', P', hrun', hlisted⟩ := PhysMem.pageBuddyMapsInitialize_spec
    (S := OutsideImage bssEnd) hs hinfo hmap hS
  obtain rfl : s' = booted := Option.some.inj (hrun'.symm.trans hrun)
  refine ⟨⟨P'.lists, s'.mapBit⟩, rfl, ⟨?_, fun _ _ _ => rfl⟩, ?_, hlisted.next.covers⟩
  · exact ⟨hlisted.next.lists.isList, hlisted.next.lists.written⟩
  · exact hlisted.next.valid.congr (fun _ => rfl) (by simp)

/-- The first page of an entry that begins inside the image is free after the
    initialisation, and the node of its block lies in the image. -/
theorem not_imageSafe_booted (hinfo : lastRamInfo bootInfo = some (n, mmap)) (hmap : RamMap mmap n)
    (hs : PhysMem.Unbooted s) (hrun : s.pageBuddyMapsInitialize bootInfo = some booted) {i : Nat}
    (hi : i < n) (hstart : StartsInImage bssEnd (mmap i)) : ¬ ImageSafe bssEnd ⟨booted, []⟩ := by
  have hwin : windowPages = 0x70000 := by decide
  have hbegin : windowStart = 0x100 * 2 ^ 12 := by decide
  have hend : windowEnd = 0x70000 * 2 ^ 12 := by decide
  intro hsafe
  obtain ⟨s', P', hrun', hlisted⟩ := PhysMem.pageBuddyMapsInitialize_spec
    (S := fun _ => True) hs hinfo hmap (fun _ _ => trivial)
  obtain rfl : s' = booted := Option.some.inj (hrun'.symm.trans hrun)
  obtain ⟨hpos, hbelow, himage⟩ := hstart
  obtain ⟨h1, h2⟩ := himage
  obtain ⟨⟨b, hb⟩, hsize⟩ := hmap.aligned i hi
  have hfirst := mappedPage_first hi hsize hpos (by omega) (by omega)
  obtain ⟨k, hk, hmem⟩ := Pool.exists_of_freeLoad_pos (by rw [hlisted.inside _ hfirst]; decide)
  have hnode := (hlisted.listed k hk _ hmem).resolve_left (by simp [PhysMem.noBlocks])
  -- the block that contains the entry's first page starts at a page `y` that is listed as well
  have hy : MappedPage mmap n ((mmap i).1 / 2 ^ 12 / 2 ^ k * 2 ^ k) := by
    by_contra hnot
    have h0 := hlisted.outside _ hnot
    have hload : 0 < Pool.total pageMaxOrder _ [] _ := PhysMem.total_pos_of_free hk hmem
    rw [PhysMem.noBlocks_freeLoad] at h0
    rw [Pool.total, h0, load_nil] at hload
    omega
  have hle : (mmap i).1 / 2 ^ 12 / 2 ^ k * 2 ^ k ≤ (mmap i).1 / 2 ^ 12 := Nat.div_mul_le_self _ _
  obtain ⟨hlt, j, hj, hentry⟩ := hy.entry
  refine hsafe.written _ hnode 0 (by decide) ?_
  rw [blockNode, physAddr_pageNode hlt]
  exact ⟨by omega, by omega⟩

/-- In every run whose releases unlink only what is on its list, the image is safe: this
    holds if and only if no entry begins inside the image. -/
theorem imageSafe_iff (hinfo : lastRamInfo bootInfo = some (n, mmap)) (hmap : RamMap mmap n)
    (hs : PhysMem.Unbooted s) :
    ∃ booted, s.pageBuddyMapsInitialize bootInfo = some booted ∧
      ((∀ (len : Nat) (states : Nat → Arena) (calls : Nat → Call),
          (pageCalls ⟨booted, []⟩).Run len states calls →
          (∀ i, i < len → (calls i).BuddiesListed (states i)) →
          ∀ i, i ≤ len → ImageSafe bssEnd (states i)) ↔
        ∀ i, i < n → ¬ StartsInImage bssEnd (mmap i)) := by
  obtain ⟨booted, -, hrun, -⟩ := PhysMem.pageBuddyMapsInitialize_spec (S := fun _ => True) hs hinfo
    hmap (fun _ _ => trivial)
  refine ⟨booted, hrun, fun h i hi hstart => ?_, fun hstart len states calls hcalls hlisted => ?_⟩
  · exact not_imageSafe_booted hinfo hmap hs hrun hi hstart
      (h 0 (fun _ => ⟨booted, []⟩) (fun _ => .acquire 0) ⟨rfl, fun i hi => by omega⟩
        (fun i hi => by omega) 0 le_rfl)
  · obtain ⟨P, hshows⟩ := shows_booted hinfo hmap hs hrun hstart
    have hinv := hcalls.invariant_of_guard
      (I := fun a => ∃ P out, a.Shows (OutsideImage bssEnd) P out)
      (G := fun a c => c.BuddiesListed a)
      (by rintro a rfl; exact ⟨P, [], hshows⟩)
      (by rintro a c a' ⟨P, out, ha⟩ hG ⟨hallowed, rfl⟩; exact ha.exec hallowed hG) hlisted
    intro i hi
    obtain ⟨P, out, ha⟩ := hinv i hi
    exact ha.imageSafe

end boot

theorem imageSafe_iff_small :
    ∃ booted, unbooted.pageBuddyMapsInitialize (lowAndHighInfo 0x200000) = some booted ∧
      ((∀ (len : Nat) (states : Nat → Arena) (calls : Nat → Call),
          (pageCalls ⟨booted, []⟩).Run len states calls →
          (∀ i, i < len → (calls i).BuddiesListed (states i)) →
          ∀ i, i ≤ len → ImageSafe 0x101000 (states i)) ↔
        ∀ i, i < 2 → ¬ StartsInImage 0x101000 (lowAndHigh 0x200000 i)) :=
  imageSafe_iff (lastRamInfo_lowAndHigh _)
    (lowAndHigh_gapped (by decide) (by decide) (by decide)).toRamMap unbooted_unbooted

/-- A machine with RAM from 1 MB to 2 MB and a kernel of one page: the first node the
    initialisation writes is the first word of the kernel. -/
theorem not_forall_imageSafe :
    ¬ ∀ (bootInfo : List MultibootTag) (mmap : Nat → Nat × Nat) (n bssEnd : Nat)
      (s booted : PhysMem), lastRamInfo bootInfo = some (n, mmap) → RamMap mmap n →
      (∀ addr, InImage bssEnd addr →
        ∃ i, i < n ∧ (mmap i).1 ≤ addr ∧ addr < (mmap i).1 + (mmap i).2) →
      windowStart + 2 ^ 12 ≤ bssEnd → PhysMem.Unbooted s →
      s.pageBuddyMapsInitialize bootInfo = some booted →
      ∀ (len : Nat) (states : Nat → Arena) (calls : Nat → Call),
        (pageCalls ⟨booted, []⟩).Run len states calls →
        ∀ i, i ≤ len → ImageSafe bssEnd (states i) := by
  intro h
  obtain ⟨booted, hrun⟩ : ∃ booted,
      unbooted.pageBuddyMapsInitialize (lowAndHighInfo 0x200000) = some booted := ⟨_, rfl⟩
  have hsafe := h (lowAndHighInfo 0x200000) _ 2 0x101000 unbooted booted (lastRamInfo_lowAndHigh _)
    (lowAndHigh_gapped (by decide) (by decide) (by decide)).toRamMap
    (fun addr ⟨h1, h2⟩ => ⟨1, by decide, h1, lt_trans h2 (by decide)⟩) (by decide)
    unbooted_unbooted hrun 0 (fun _ => ⟨booted, []⟩) (fun _ => .acquire 0)
    ⟨rfl, fun i hi => by omega⟩ 0 le_rfl
  have hnode : ((unbooted.pageBuddyMapsInitialize (lowAndHighInfo 0x200000)).map
      (fun s => decide (0x80100000 ∈ s.written))) = some true := by decide +kernel
  rw [hrun] at hnode
  exact hsafe.written 0x80100000 (by simpa using hnode) 0 (by decide) ⟨by decide, by decide⟩

end Avos
