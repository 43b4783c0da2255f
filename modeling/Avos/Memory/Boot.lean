import Avos.Memory.Refinement

/-! # From the RAM Map to the Free Lists

  `Page_BuddyMaps_Initialize` clears the bitmaps, takes the RAM map from the
  multiboot information, and hands its entries from the last to the first to
  `Page_MapMemoryChunk`. That function drops what does not begin in the window
  the kernel can address, clips the rest at 4 GB, lists the blocks of the
  largest order that fits, and maps what is left over above and below them
  by calling itself.

  Section 1 has the two functions. Section 2 says what one chunk adds to the
  free lists, Section 3 what a whole map does. -/

open Links Buddy

namespace Avos

/-! ## Section 1: The code -/

/-- Arithmetic on `uint64_t`. -/
def w64 (x : Nat) : Nat := x % 2 ^ 64

namespace PhysMem

/-- The loop that finds `max_order`. -/
def chunkOrder (size : Nat) : Nat :=
  (List.range (pageMaxOrder + 1)).foldl
    (fun maxOrder i => if pageSizeAtOrder i ≤ size then i else maxOrder) 0

/-- The loop that lists the `n` blocks from `base` on, the last one first. -/
def mapBlocks (base order : Nat) : Nat → PhysMem → PhysMem
  | 0, s => s
  | n + 1, s =>
      let pagePtr := w32 (base + n * pageSizeAtOrder order)
      mapBlocks base order n ((s.pushNode order (kernAddr pagePtr)).pageMapSetBit pagePtr order)

/-- `Page_MapMemoryChunk`. The first argument bounds the depth of the recursion. -/
def pageMapMemoryChunk : Nat → Nat → Nat → PhysMem → Option PhysMem
  | 0, _, _, _ => none
  | fuel + 1, chunkBase, chunkSize, s =>
      if chunkSize = 0 then some s
      else if chunkBase < kernelMmapLowmemEnd - kernelHigherHalfOffset then some s
      else if chunkBase ≥ kernelMmapVirtualEnd - kernelHigherHalfOffset then some s
      else
        let base := w32 chunkBase
        let size := w32 (if w64 (chunkBase + chunkSize) > 0x100000000 then 0x100000000 - chunkBase
          else chunkSize)
        let maxOrder := chunkOrder size
        let baseLowskim := base
        let sizeLowskim := if base % pageSizeAtOrder maxOrder = 0 then 0
          else pageSizeAtOrder maxOrder - base % pageSizeAtOrder maxOrder
        -- (base + size) & ~(PAGE_SIZE_AT_ORDER(max_order) - 1)
        let baseTopskim := (w32 (base + size) >>> (12 + maxOrder)) <<< (12 + maxOrder)
        let sizeTopskim := w32 (base + size + 2 ^ 32 - baseTopskim)
        let baseCentral := w32 (baseLowskim + sizeLowskim)
        let sizeCentral := w32 (baseTopskim + 2 ^ 32 - baseCentral)
        (pageMapMemoryChunk fuel baseTopskim sizeTopskim s).bind fun s =>
          pageMapMemoryChunk fuel baseLowskim sizeLowskim
            (mapBlocks baseCentral maxOrder (sizeCentral / pageSizeAtOrder maxOrder) s)

/-- Deep enough for any chunk: the order falls from call to call. -/
def chunkDepth : Nat := 12

end PhysMem

/-- A tag of the multiboot information. Of the page-aligned RAM map this is its size
    in bytes, the size of an entry, and the address and size each entry of
    `mmap` reads as. -/
inductive MultibootTag where
  | ramInfoPageAligned (size entrySize : Nat) (mmap : Nat → Nat × Nat)
  | other

/-- What the walk over the tags leaves in `mmap` and `mmap_nentries`. -/
def lastRamInfo : List MultibootTag → Option (Nat × (Nat → Nat × Nat))
  | [] => none
  | .other :: tags => lastRamInfo tags
  | .ramInfoPageAligned size entrySize mmap :: tags =>
      match lastRamInfo tags with
      | some found => some found
      | none => some (if entrySize = 0 then 0 else w32 (size + 2 ^ 32 - 16) / entrySize, mmap)

namespace PhysMem

/-- `Page_maps[i][j] = 0` for every byte of every map. -/
def clearMaps (s : PhysMem) : PhysMem :=
  { s with
    pageMaps := fun i j => if i ≤ pageMaxOrder ∧ j < pageMapsSize i then 0 else s.pageMaps i j
    touched := (List.range (pageMaxOrder + 1)).flatMap
      (fun i => (List.range (pageMapsSize i)).map (i, ·)) ++ s.touched }

/-- The entries `0, …, n - 1` of the map, the last one first. -/
def mapEntries (mmap : Nat → Nat × Nat) : Nat → PhysMem → Option PhysMem
  | 0, s => some s
  | n + 1, s =>
      (pageMapMemoryChunk chunkDepth (mmap n).1 (mmap n).2 s).bind (mapEntries mmap n)

/-- `Page_BuddyMaps_Initialize`, up to the initialisation of the lock. -/
def pageBuddyMapsInitialize (bootInfo : List MultibootTag) (s : PhysMem) : Option PhysMem :=
  match lastRamInfo bootInfo with
  | none => some s.clearMaps
  | some (nentries, mmap) => mapEntries mmap nentries s.clearMaps

/-! ## Section 2: One chunk -/

section order

variable (size : Nat)

theorem pageSizeAtOrder_eq (k : Nat) : pageSizeAtOrder k = 2 ^ k * 2 ^ 12 := by
  rw [pageSizeAtOrder, kernelPageSizeInBits, Nat.one_shiftLeft, Nat.add_comm, Nat.pow_add]

/-- The loop's result, for any number of rounds: the last order whose size fits. -/
theorem foldl_order (n : Nat) :
    let r := (List.range (n + 1)).foldl
      (fun maxOrder i => if pageSizeAtOrder i ≤ size then i else maxOrder) 0
    r ≤ n ∧ (∀ i, i ≤ n → pageSizeAtOrder i ≤ size → i ≤ r) ∧
      (pageSizeAtOrder 0 ≤ size → pageSizeAtOrder r ≤ size) := by
  induction n with
  | zero =>
    refine ⟨?_, fun i hi _ => by omega, ?_⟩
    · simp
    · intro h0
      simp [h0]
  | succ n ih =>
    obtain ⟨h1, h2, h3⟩ := ih
    rw [List.range_succ, List.foldl_append]
    simp only [List.foldl_cons, List.foldl_nil]
    split_ifs with hfit
    · exact ⟨le_rfl, fun i hi _ => hi, fun _ => hfit⟩
    · refine ⟨by omega, fun i hi hi' => h2 i ?_ hi', h3⟩
      rcases Nat.eq_or_lt_of_le hi with rfl | hlt
      · exact absurd hi' hfit
      · omega

theorem chunkOrder_le : chunkOrder size ≤ pageMaxOrder := (foldl_order size pageMaxOrder).1

theorem le_chunkOrder {i : Nat} (hi : i ≤ pageMaxOrder) (h : 2 ^ i * 2 ^ 12 ≤ size) :
    i ≤ chunkOrder size :=
  (foldl_order size pageMaxOrder).2.1 i hi (by rwa [pageSizeAtOrder_eq])

theorem chunkOrder_fits (h : 2 ^ 12 ≤ size) : 2 ^ chunkOrder size * 2 ^ 12 ≤ size := by
  have := (foldl_order size pageMaxOrder).2.2 (by rwa [pageSizeAtOrder_eq])
  rwa [pageSizeAtOrder_eq] at this

end order

/-- What mapping the pages from `b` up to `e` does: free blocks that contain each of
    these pages once are added to the lists, and only bits of these pages are touched. -/
structure Mapped (S : Nat → Prop) (s s' : PhysMem) (P P' : Pool) (b e : Nat) : Prop where
  lists : RepLists S s' P'
  valid : Valid P' []
  covers : Covers S P' []
  load : ∀ x, P'.freeLoad pageMaxOrder x
    = P.freeLoad pageMaxOrder x + if b ≤ x ∧ x < e then 1 else 0
  listed : ∀ k, k ≤ pageMaxOrder → ∀ n ∈ P'.lists k,
    n ∈ P.lists k ∨ blockNode k n ∈ s'.written
  written : ∀ a ∈ s.written, a ∈ s'.written
  touched : ∀ t ∈ s'.touched, t ∈ s.touched ∨
    t.1 ≤ pageMaxOrder ∧ ∃ x, b ≤ x ∧ x < e ∧ t.2 = pageMapIdx (x * 2 ^ 12) t.1

section mapped

variable {S : Nat → Prop} {s s₁ s₂ : PhysMem} {P P₁ P₂ : Pool} {b c e k m n : Nat}

/-- The state and the pool that a mapping may start from. -/
structure Listed (S : Nat → Prop) (s : PhysMem) (P : Pool) : Prop where
  lists : RepLists S s P
  valid : Valid P []
  covers : Covers S P []

theorem Mapped.next (h : Mapped S s s₁ P P₁ b e) : Listed S s₁ P₁ :=
  ⟨h.lists, h.valid, h.covers⟩

/-- No page from `b` up to `e` is free yet, and all of them are among `S`. -/
def Fresh (S : Nat → Prop) (P : Pool) (b e : Nat) : Prop :=
  ∀ x, b ≤ x → x < e → P.freeLoad pageMaxOrder x = 0 ∧ S (pageNode x)

theorem Mapped.refl (h : Listed S s P) (b : Nat) : Mapped S s s P P b b where
  lists := h.lists
  valid := h.valid
  covers := h.covers
  load x := by rw [if_neg (by omega), Nat.add_zero]
  listed k _ n hn := .inl hn
  written a ha := ha
  touched t ht := .inl ht

/-- The upper pages are mapped first, then those below them. -/
theorem Mapped.append (h₁ : Mapped S s s₁ P P₁ c e) (h₂ : Mapped S s₁ s₂ P₁ P₂ b c)
    (hbc : b ≤ c) (hce : c ≤ e) : Mapped S s s₂ P P₂ b e where
  lists := h₂.lists
  valid := h₂.valid
  covers := h₂.covers
  load x := by
    rw [h₂.load, h₁.load]
    split_ifs <;> omega
  listed k hk n hn := by
    rcases h₂.listed k hk n hn with h | h
    · rcases h₁.listed k hk n h with h | h
      · exact .inl h
      · exact .inr (h₂.written _ h)
    · exact .inr h
  written a ha := h₂.written a (h₁.written a ha)
  touched t ht := by
    rcases h₂.touched t ht with h | ⟨hk, x, hx, hx', heq⟩
    · rcases h₁.touched t h with h | ⟨hk, x, hx, hx', heq⟩
      · exact .inl h
      · exact .inr ⟨hk, x, by omega, hx', heq⟩
    · exact .inr ⟨hk, x, hx, by omega, heq⟩

/-- Mapping leaves the pages outside its range as they were. -/
theorem Fresh.after (h : Fresh S P b e) (hm : Mapped S s s₁ P P₁ c m) (hout : e ≤ c ∨ m ≤ b) :
    Fresh S P₁ b e := by
  intro x hx hx'
  obtain ⟨h0, hS⟩ := h x hx hx'
  rw [hm.load, h0, if_neg (by omega)]
  exact ⟨rfl, hS⟩

theorem Fresh.mono (h : Fresh S P b e) {b' e' : Nat} (hb : b ≤ b') (he : e' ≤ e) :
    Fresh S P b' e' :=
  fun x hx hx' => h x (by omega) (by omega)

/-- One block. -/
theorem Mapped.block (h : Listed S s P) (hk : k ≤ pageMaxOrder)
    (hfresh : Fresh S P (m * 2 ^ k) ((m + 1) * 2 ^ k)) (hlt : (m + 1) * 2 ^ k ≤ numPages) :
    Mapped S s ((s.pushNode k (blockNode k m)).pageMapSetBit (m * 2 ^ k * 2 ^ 12) k) P (P.push k m)
      (m * 2 ^ k) ((m + 1) * 2 ^ k) := by
  have hpos := Nat.two_pow_pos k
  have hnum : m * 2 ^ k / 2 ^ k = m := Nat.mul_div_cancel _ hpos
  have hin : ∀ x, x / 2 ^ k = m ↔ m * 2 ^ k ≤ x ∧ x < (m + 1) * 2 ^ k := by
    intro x
    rw [Nat.div_eq_iff hpos, Nat.add_mul, Nat.one_mul]
    omega
  have htotal : ∀ x, P.total pageMaxOrder [blockOf k (m * 2 ^ k)] x
      = P.total pageMaxOrder [] x + if x / 2 ^ k = m then 1 else 0 := by
    intro x
    unfold Pool.total
    rw [load_cons]
    simp only [blockOf_contains, hnum]
    omega
  have hempty : ∀ x, P.total pageMaxOrder [] x = P.freeLoad pageMaxOrder x := fun x => by
    simp [Pool.total]
  have hv : Valid P [blockOf k (m * 2 ^ k)] := by
    refine ⟨fun x => ?_, fun x hx => ?_, fun b hb => ?_⟩
    · rw [htotal]
      split_ifs with hx
      · rw [hempty, (hfresh x ((hin x).mp hx).1 ((hin x).mp hx).2).1]
      · rw [Nat.add_zero]
        exact h.valid.total_le x
    · rw [htotal] at hx
      split_ifs at hx with hxm
      · exact lt_of_lt_of_le ((hin x).mp hxm).2 hlt
      · rw [Nat.add_zero] at hx
        exact h.valid.bounded x hx
    · rw [List.mem_singleton.mp hb]
      exact hk
  have hS : Covers S P [blockOf k (m * 2 ^ k)] := by
    intro x hx
    rw [htotal] at hx
    split_ifs at hx with hxm
    · exact (hfresh x ((hin x).mp hxm).1 ((hin x).mp hxm).2).2
    · rw [Nat.add_zero] at hx
      exact h.covers x hx
  have hpush : ∀ x, (P.push k m).total pageMaxOrder [] x
      = P.total pageMaxOrder [blockOf k (m * 2 ^ k)] x := by
    intro x
    have hput : ((P.push k (m * 2 ^ k / 2 ^ k)).toggle k 0).total pageMaxOrder [] x =
        P.total pageMaxOrder [blockOf k (m * 2 ^ k)] x := Pool.total_put hk 0 x
    rw [hnum] at hput
    exact hput
  have hlists := h.lists.push hv hS
  rw [hnum] at hlists
  refine ⟨⟨hlists.isList, hlists.written⟩, hv.congr hpush (by simp), hS.congr hpush, fun x => ?_,
    fun j hj n hn => ?_, fun a ha => ?_, fun t ht => ?_⟩
  · have h1 := hpush x
    rw [htotal, hempty] at h1
    simp only [← hin]
    simpa [Pool.total] using h1
  · by_cases hjk : j = k
    · subst hjk
      rcases List.mem_cons.mp (by simpa [Pool.push] using hn) with rfl | hn
      · exact .inr (mem_written_pushNode.mpr (.inl rfl))
      · exact .inl hn
    · rw [Pool.push, Pool.setList_lists_ne _ _ hjk] at hn
      exact .inl hn
  · exact mem_written_pushNode.mpr (.inr (.inr ha))
  · simp only [pageMapSetBit_touched, pushNode_touched, List.mem_cons] at ht
    rcases ht with rfl | ht
    · exact .inr ⟨hk, m * 2 ^ k, le_rfl, by rw [Nat.add_mul]; omega, rfl⟩
    · exact .inl ht

/-- The central blocks. -/
theorem Mapped.blocks (h : Listed S s P) (hk : k ≤ pageMaxOrder)
    (hfresh : Fresh S P (m * 2 ^ k) ((m + n) * 2 ^ k)) (hlt : (m + n) * 2 ^ k ≤ numPages) :
    ∃ P', Mapped S s (mapBlocks (m * 2 ^ k * 2 ^ 12) k n s) P P' (m * 2 ^ k) ((m + n) * 2 ^ k) := by
  induction n generalizing s P with
  | zero => exact ⟨P, Mapped.refl h _⟩
  | succ n ih =>
    have hpos := Nat.two_pow_pos k
    have hsum : (m + (n + 1)) * 2 ^ k = (m + n) * 2 ^ k + 2 ^ k := by
      rw [← Nat.add_assoc, Nat.add_mul, Nat.one_mul]
    have hle : m * 2 ^ k ≤ (m + n) * 2 ^ k := Nat.mul_le_mul_right _ (Nat.le_add_right m n)
    have hptr : w32 (m * 2 ^ k * 2 ^ 12 + n * pageSizeAtOrder k) = (m + n) * 2 ^ k * 2 ^ 12 := by
      rw [pageSizeAtOrder_eq, ← Nat.mul_assoc, ← Nat.add_mul, ← Nat.add_mul]
      unfold w32
      unfold numPages at hlt
      omega
    have hblock := Mapped.block (m := m + n) h hk (hfresh.mono hle (by rw [Nat.add_assoc]))
      (by rwa [Nat.add_assoc])
    obtain ⟨P', hrest⟩ := ih hblock.next
      ((hfresh.mono le_rfl (by omega)).after hblock (.inl le_rfl)) (by omega)
    rw [mapBlocks, hptr]
    exact ⟨P', hblock.append hrest hle (by rw [Nat.add_mul _ 1]; omega)⟩

end mapped

/-! ### The split of a chunk -/

/-- The block size of a chunk divides the window and 4 GB. -/
theorem two_pow_dvd_window {k : Nat} (hk : k ≤ pageMaxOrder) : 2 ^ k ∣ 0x70000 :=
  (Nat.pow_dvd_pow 2 hk).trans (by decide)

section split

variable {b n k : Nat}

/-- `base % size` in pages. -/
theorem mod_block (b k : Nat) : b * 2 ^ 12 % (2 ^ k * 2 ^ 12) = b % 2 ^ k * 2 ^ 12 :=
  Nat.mul_mod_mul_right _ _ _

/-- The page the low skim ends at. -/
def ceilPage (k b : Nat) : Nat := (b + 2 ^ k - 1) / 2 ^ k * 2 ^ k

/-- The page the top skim begins at. -/
def floorPage (k e : Nat) : Nat := e / 2 ^ k * 2 ^ k

theorem ceilPage_bounds (k b : Nat) : b ≤ ceilPage k b ∧ ceilPage k b < b + 2 ^ k := by
  have hpos := Nat.two_pow_pos k
  have hdiv := Nat.div_add_mod (b + 2 ^ k - 1) (2 ^ k)
  have hmod := Nat.mod_lt (b + 2 ^ k - 1) hpos
  rw [Nat.mul_comm] at hdiv
  unfold ceilPage
  omega

theorem floorPage_bounds (k e : Nat) : floorPage k e ≤ e ∧ e < floorPage k e + 2 ^ k := by
  have hpos := Nat.two_pow_pos k
  have hdiv := Nat.div_add_mod e (2 ^ k)
  have hmod := Nat.mod_lt e hpos
  rw [Nat.mul_comm] at hdiv
  unfold floorPage
  omega

/-- The low skim in pages. -/
theorem lowskim_eq (k b : Nat) :
    (if b % 2 ^ k = 0 then 0 else 2 ^ k - b % 2 ^ k) = ceilPage k b - b := by
  have hpos := Nat.two_pow_pos k
  have hmod := Nat.mod_lt b hpos
  have hb := Nat.div_add_mod b (2 ^ k)
  rw [Nat.mul_comm] at hb
  unfold ceilPage
  split_ifs with h0
  · have hdiv : (b + 2 ^ k - 1) / 2 ^ k = b / 2 ^ k := by
      rw [Nat.div_eq_iff hpos]
      omega
    rw [hdiv]
    omega
  · have hdiv : (b + 2 ^ k - 1) / 2 ^ k = b / 2 ^ k + 1 := by
      rw [Nat.div_eq_iff hpos, Nat.add_mul, Nat.one_mul]
      omega
    rw [hdiv, Nat.add_mul, Nat.one_mul]
    omega

/-- The skims do not cross when a block fits. -/
theorem ceilPage_le_floorPage (hfit : 2 ^ k ≤ n) : ceilPage k b ≤ floorPage k (b + n) := by
  unfold ceilPage floorPage
  refine Nat.mul_le_mul_right _ (Nat.div_le_div_right ?_)
  omega

/-- A multiple of the block size that lies at or below a page lies at or below its floor. -/
theorem le_floorPage {e d : Nat} (hd : 2 ^ k ∣ d) (hle : d ≤ e) : d ≤ floorPage k e := by
  unfold floorPage
  obtain ⟨c, rfl⟩ := hd
  rw [Nat.mul_comm]
  exact Nat.mul_le_mul_right _ ((Nat.le_div_iff_mul_le (Nat.two_pow_pos k)).mpr
    (by rwa [Nat.mul_comm]))

theorem ceilPage_le {d : Nat} (hd : 2 ^ k ∣ d) (hle : b ≤ d) : ceilPage k b ≤ d := by
  unfold ceilPage
  obtain ⟨c, rfl⟩ := hd
  have hpos := Nat.two_pow_pos k
  rw [Nat.mul_comm (2 ^ k) c] at *
  refine Nat.mul_le_mul_right _ ?_
  rw [Nat.div_le_iff_le_mul_add_pred hpos, Nat.mul_comm (2 ^ k) c]
  omega

/-- One call on a chunk of `n` pages from page `b` of the window on, where `n` is the
    number of pages left after clipping at 4 GB. -/
theorem pageMapMemoryChunk_succ {f chunkSize : Nat} {s : PhysMem} (hsize : chunkSize ≠ 0)
    (hlow : 0x100 ≤ b) (hwin : b < windowPages) (hn : 0 < n) (hend : b + n ≤ numPages)
    (hclip : w32 (if w64 (b * 2 ^ 12 + chunkSize) > 0x100000000 then 0x100000000 - b * 2 ^ 12
      else chunkSize) = n * 2 ^ 12) (hk : k = chunkOrder (n * 2 ^ 12)) :
    pageMapMemoryChunk (f + 1) (b * 2 ^ 12) chunkSize s =
      (pageMapMemoryChunk f (if b + n = numPages then 0 else floorPage k (b + n) * 2 ^ 12)
        ((b + n - floorPage k (b + n)) * 2 ^ 12) s).bind fun s =>
      pageMapMemoryChunk f (b * 2 ^ 12) ((ceilPage k b - b) * 2 ^ 12)
        (mapBlocks (ceilPage k b * 2 ^ 12) k ((floorPage k (b + n) - ceilPage k b) / 2 ^ k) s) := by
  have hk10 : k ≤ pageMaxOrder := hk ▸ chunkOrder_le _
  have hfit : 2 ^ k ≤ n :=
    Nat.le_of_mul_le_mul_right (hk ▸ chunkOrder_fits (n * 2 ^ 12) (by omega)) (by decide)
  have hwinPages : windowPages = 0x70000 := by decide
  have hceil := ceilPage_bounds k b
  have hceil' : ceilPage k b ≤ windowPages :=
    ceilPage_le (hwinPages ▸ two_pow_dvd_window hk10) (by omega)
  have hfloor := floorPage_bounds k (b + n)
  have hcross := ceilPage_le_floorPage (b := b) hfit
  have hnum : numPages = 2 ^ 20 := rfl
  have hfull : b + n = numPages → floorPage k (b + n) = numPages := fun heq =>
    le_antisymm (heq ▸ hfloor.1)
      (le_floorPage (Nat.pow_dvd_pow 2 (hk10.trans (by decide))) (by omega))
  have hbase : w32 (b * 2 ^ 12) = b * 2 ^ 12 := by
    unfold w32
    omega
  have hlowskim : (if b * 2 ^ 12 % pageSizeAtOrder k = 0 then 0
      else pageSizeAtOrder k - b * 2 ^ 12 % pageSizeAtOrder k) = (ceilPage k b - b) * 2 ^ 12 := by
    rw [pageSizeAtOrder_eq, mod_block, ← lowskim_eq]
    have hiff : b % 2 ^ k * 2 ^ 12 = 0 ↔ b % 2 ^ k = 0 := by omega
    simp only [hiff]
    split_ifs <;> omega
  have htop : (w32 (b * 2 ^ 12 + n * 2 ^ 12) >>> (12 + k)) <<< (12 + k)
      = if b + n = numPages then 0 else floorPage k (b + n) * 2 ^ 12 := by
    rw [Nat.shiftRight_eq_div_pow, Nat.shiftLeft_eq, ← Nat.add_mul]
    split_ifs with heq
    · rw [heq, show w32 (numPages * 2 ^ 12) = 0 by decide, Nat.zero_div, Nat.zero_mul]
    · rw [show w32 ((b + n) * 2 ^ 12) = (b + n) * 2 ^ 12 by unfold w32; omega, page_block,
        floorPage, Nat.add_comm 12 k, Nat.pow_add, Nat.mul_assoc]
  have hcentral : w32 (b * 2 ^ 12 + (ceilPage k b - b) * 2 ^ 12) = ceilPage k b * 2 ^ 12 := by
    unfold w32
    omega
  have hsizeTop : w32 (b * 2 ^ 12 + n * 2 ^ 12 + 2 ^ 32
      - if b + n = numPages then 0 else floorPage k (b + n) * 2 ^ 12)
      = (b + n - floorPage k (b + n)) * 2 ^ 12 := by
    unfold w32
    split_ifs with heq
    · have := hfull heq
      omega
    · omega
  have hsizeCentral : w32 ((if b + n = numPages then 0 else floorPage k (b + n) * 2 ^ 12) + 2 ^ 32
      - ceilPage k b * 2 ^ 12) = (floorPage k (b + n) - ceilPage k b) * 2 ^ 12 := by
    unfold w32
    split_ifs with heq
    · have := hfull heq
      omega
    · omega
  have hcount : (floorPage k (b + n) - ceilPage k b) * 2 ^ 12 / pageSizeAtOrder k
      = (floorPage k (b + n) - ceilPage k b) / 2 ^ k := by
    rw [pageSizeAtOrder_eq, Nat.mul_div_mul_right _ _ (by decide)]
  rw [pageMapMemoryChunk, if_neg hsize, if_neg, if_neg]
  · simp only [hclip, ← hk, hbase, hlowskim, htop, hcentral, hsizeTop, hsizeCentral, hcount]
  · unfold kernelMmapVirtualEnd kernelHigherHalfOffset
    omega
  · unfold kernelMmapLowmemEnd kernelHigherHalfOffset
    omega

end split

/-! ### What one call lists -/

section chunk

variable {S : Nat → Prop} {s s₁ : PhysMem} {P P₁ : Pool} {b e f k n : Nat}

/-- A chunk that is empty or begins outside the window is dropped. -/
theorem pageMapMemoryChunk_dropped {chunkBase chunkSize : Nat}
    (h : chunkSize = 0 ∨ chunkBase < 0x100 * 2 ^ 12 ∨ windowPages * 2 ^ 12 ≤ chunkBase) :
    pageMapMemoryChunk (f + 1) chunkBase chunkSize s = some s := by
  have hwin : windowPages = 0x70000 := by decide
  rw [pageMapMemoryChunk]
  unfold kernelMmapLowmemEnd kernelMmapVirtualEnd kernelHigherHalfOffset
  by_cases hsize : chunkSize = 0
  · rw [if_pos hsize]
  · rw [if_neg hsize]
    by_cases hlow : chunkBase < 0x80100000 - 0x80000000
    · rw [if_pos hlow]
    · rw [if_neg hlow, if_pos (by omega)]

/-- The central blocks go below what the top skim has mapped. -/
theorem Mapped.central (htop : Mapped S s s₁ P P₁ (floorPage k (b + n)) e)
    (hk : k ≤ pageMaxOrder) (hfit : 2 ^ k ≤ n) (he : floorPage k (b + n) ≤ e) (hend : e ≤ numPages)
    (hfresh : Fresh S P b e) :
    ∃ P₂, Mapped S s (mapBlocks (ceilPage k b * 2 ^ 12) k
      ((floorPage k (b + n) - ceilPage k b) / 2 ^ k) s₁) P P₂ (ceilPage k b) e := by
  have hpos := Nat.two_pow_pos k
  have hcross := ceilPage_le_floorPage (b := b) hfit
  have hceil := ceilPage_bounds k b
  have hsum : ((b + 2 ^ k - 1) / 2 ^ k + (floorPage k (b + n) - ceilPage k b) / 2 ^ k) * 2 ^ k
      = floorPage k (b + n) := by
    unfold floorPage ceilPage at *
    rw [← Nat.sub_mul, Nat.mul_div_cancel _ hpos, Nat.add_sub_cancel' (Nat.le_of_mul_le_mul_right
      hcross hpos)]
  have hrange : Fresh S P₁ (ceilPage k b) (floorPage k (b + n)) :=
    (hfresh.mono hceil.1 he).after htop (.inl le_rfl)
  obtain ⟨P₂, hblocks⟩ := Mapped.blocks (m := (b + 2 ^ k - 1) / 2 ^ k) htop.next hk
    (by rw [hsum]; exact hrange) (by rw [hsum]; omega)
  rw [hsum] at hblocks
  exact ⟨P₂, htop.append hblocks hcross he⟩

/-- A chunk inside the window is listed as a whole. Induction on the depth: a chunk of
    fewer than `2 ^ f` pages leaves skims of fewer than `2 ^ (f - 1)`. -/
theorem Mapped.inside (hdepth : n < 2 ^ f ∨ 11 ≤ f) (hlow : 0x100 ≤ b)
    (hwin : b + n ≤ windowPages) (h : Listed S s P) (hfresh : Fresh S P b (b + n)) :
    ∃ s' P', pageMapMemoryChunk (f + 1) (b * 2 ^ 12) (n * 2 ^ 12) s = some s' ∧
      Mapped S s s' P P' b (b + n) := by
  induction f generalizing b n s P with
  | zero =>
    obtain rfl : n = 0 := by omega
    exact ⟨s, P, pageMapMemoryChunk_dropped (.inl rfl), Mapped.refl h b⟩
  | succ f ih =>
    rcases Nat.eq_zero_or_pos n with rfl | hn
    · exact ⟨s, P, pageMapMemoryChunk_dropped (.inl rfl), Mapped.refl h b⟩
    have hwinPages : windowPages = 0x70000 := by decide
    have hnum : numPages = 2 ^ 20 := rfl
    have hclip : w32 (if w64 (b * 2 ^ 12 + n * 2 ^ 12) > 0x100000000 then 0x100000000 - b * 2 ^ 12
        else n * 2 ^ 12) = n * 2 ^ 12 := by
      unfold w32 w64
      rw [if_neg (by omega)]
      omega
    obtain ⟨k, hk⟩ : ∃ k, k = chunkOrder (n * 2 ^ 12) := ⟨_, rfl⟩
    have hk10 : k ≤ pageMaxOrder := hk ▸ chunkOrder_le _
    have hfit : 2 ^ k ≤ n :=
      Nat.le_of_mul_le_mul_right (hk ▸ chunkOrder_fits (n * 2 ^ 12) (by omega)) (by decide)
    have hskim : 2 ^ k ≤ 2 ^ f := by
      refine Nat.pow_le_pow_right (by decide) ?_
      rcases hdepth with hlt | hge
      · exact Nat.lt_succ_iff.mp ((Nat.pow_lt_pow_iff_right (by decide)).mp
          (lt_of_le_of_lt hfit hlt))
      · exact hk10.trans (by unfold pageMaxOrder; omega)
    have hceil := ceilPage_bounds k b
    have hfloor := floorPage_bounds k (b + n)
    have hcross := ceilPage_le_floorPage (b := b) hfit
    obtain ⟨s₁, P₁, htop, hmtop⟩ := ih (b := floorPage k (b + n)) (n := b + n - floorPage k (b + n))
      (.inl (by omega)) (by omega) (by omega) h (hfresh.mono (by omega) (by omega))
    rw [show floorPage k (b + n) + (b + n - floorPage k (b + n)) = b + n by omega] at hmtop
    obtain ⟨P₂, hmid⟩ := hmtop.central hk10 hfit hfloor.1 (by omega) hfresh
    obtain ⟨s₃, P₃, hbot, hmbot⟩ := ih (b := b) (n := ceilPage k b - b)
      (.inl (by omega)) hlow (by omega) hmid.next
      ((hfresh.mono le_rfl (by omega)).after hmid (.inl (by omega)))
    rw [show b + (ceilPage k b - b) = ceilPage k b by omega] at hmbot
    refine ⟨s₃, P₃, ?_, hmid.append hmbot hceil.1 (by omega)⟩
    rw [pageMapMemoryChunk_succ (by omega) hlow (by omega) hn (by omega) hclip hk,
      if_neg (by omega), htop, Option.bind_some, hbot]

/-- A chunk that crosses the end of the window is listed up to the last boundary of
    the block size it begins with. -/
theorem Mapped.crossing {chunkSize : Nat} (hlow : 0x100 ≤ b) (hwin : b < windowPages)
    (hcross : windowPages < b + n) (hend : b + n ≤ numPages)
    (hclip : w32 (if w64 (b * 2 ^ 12 + chunkSize) > 0x100000000 then 0x100000000 - b * 2 ^ 12
      else chunkSize) = n * 2 ^ 12) (hsize : chunkSize ≠ 0) (hk : k = chunkOrder (n * 2 ^ 12))
    (h : Listed S s P) (hfresh : Fresh S P b (floorPage k (b + n))) :
    ∃ s' P', pageMapMemoryChunk chunkDepth (b * 2 ^ 12) chunkSize s = some s' ∧
      Mapped S s s' P P' b (floorPage k (b + n)) := by
  have hwinPages : windowPages = 0x70000 := by decide
  have hk10 : k ≤ pageMaxOrder := hk ▸ chunkOrder_le _
  have hfit : 2 ^ k ≤ n :=
    Nat.le_of_mul_le_mul_right (hk ▸ chunkOrder_fits (n * 2 ^ 12) (by omega)) (by decide)
  have hsmall : 2 ^ k ≤ 2 ^ 10 := Nat.pow_le_pow_right (by decide) hk10
  have hceil := ceilPage_bounds k b
  have hfloor := floorPage_bounds k (b + n)
  have hskims := ceilPage_le_floorPage (b := b) hfit
  have hceil' : ceilPage k b ≤ windowPages :=
    ceilPage_le (hwinPages ▸ two_pow_dvd_window hk10) (by omega)
  have hfloor' : windowPages ≤ floorPage k (b + n) :=
    le_floorPage (hwinPages ▸ two_pow_dvd_window hk10) hcross.le
  -- what lies above the boundary begins outside the window, or is empty
  have htop : pageMapMemoryChunk 11 (if b + n = numPages then 0 else floorPage k (b + n) * 2 ^ 12)
      ((b + n - floorPage k (b + n)) * 2 ^ 12) s = some s := by
    refine pageMapMemoryChunk_dropped (f := 10) ?_
    split_ifs with hfull
    · refine .inl ?_
      have hle : numPages ≤ floorPage k (b + n) :=
        le_floorPage (Nat.pow_dvd_pow 2 (hk10.trans (by decide))) hfull.ge
      omega
    · exact .inr (.inr (Nat.mul_le_mul_right _ hfloor'))
  obtain ⟨P₂, hmid⟩ := (Mapped.refl h (floorPage k (b + n))).central hk10 hfit le_rfl (by omega)
    hfresh
  obtain ⟨s₃, P₃, hbot, hmbot⟩ := Mapped.inside (f := 10) (b := b) (n := ceilPage k b - b)
    (.inl (by omega)) hlow (by omega) hmid.next
    ((hfresh.mono le_rfl (by omega)).after hmid (.inl (by omega)))
  rw [show b + (ceilPage k b - b) = ceilPage k b by omega] at hmbot
  refine ⟨s₃, P₃, ?_, hmid.append hmbot hceil.1 hskims⟩
  rw [chunkDepth, pageMapMemoryChunk_succ (f := 11) hsize hlow hwin (by omega) hend hclip hk, htop,
    Option.bind_some, hbot]

end chunk

end PhysMem

/-! ## Section 3: A whole map -/

/-- The first address of the window, `KERNEL_MMAP_LOWMEM_END` as a physical address. -/
def windowStart : Nat := kernelMmapLowmemEnd - kernelHigherHalfOffset

/-- Where the window ends, `KERNEL_MMAP_VIRTUAL_END` as a physical address. -/
def windowEnd : Nat := kernelMmapVirtualEnd - kernelHigherHalfOffset

/-- The first `n` entries of `mmap` are page aligned, ascending and disjoint. -/
structure RamMap (mmap : Nat → Nat × Nat) (n : Nat) : Prop where
  aligned : ∀ i, i < n → 2 ^ 12 ∣ (mmap i).1 ∧ 2 ^ 12 ∣ (mmap i).2
  bounded : ∀ i, i < n → (mmap i).1 + (mmap i).2 ≤ 2 ^ 64
  ascending : ∀ i j, i < j → j < n → (mmap i).1 + (mmap i).2 ≤ (mmap j).1

/-- The page up to which an entry is listed; its first page when it is dropped. -/
def mappedEnd (entry : Nat × Nat) : Nat :=
  let first := entry.1 / 2 ^ 12
  let last := min (first + entry.2 / 2 ^ 12) numPages
  if entry.2 = 0 ∨ first < 0x100 ∨ windowPages ≤ first then first
  else if last ≤ windowPages then last
  else PhysMem.floorPage (PhysMem.chunkOrder ((last - first) * 2 ^ 12)) last

/-- Page `x` is in the part of some entry that is listed. -/
def MappedPage (mmap : Nat → Nat × Nat) (n x : Nat) : Prop :=
  ∃ i, i < n ∧ (mmap i).1 / 2 ^ 12 ≤ x ∧ x < mappedEnd (mmap i)

theorem MappedPage.succ_iff {mmap : Nat → Nat × Nat} {n x : Nat} :
    MappedPage mmap (n + 1) x ↔
      MappedPage mmap n x ∨ (mmap n).1 / 2 ^ 12 ≤ x ∧ x < mappedEnd (mmap n) := by
  constructor
  · rintro ⟨i, hi, hx⟩
    rcases Nat.eq_or_lt_of_le (Nat.lt_succ_iff.mp hi) with rfl | hlt
    · exact .inr hx
    · exact .inl ⟨i, hlt, hx⟩
  · rintro (⟨i, hi, hx⟩ | hx)
    · exact ⟨i, by omega, hx⟩
    · exact ⟨n, by omega, hx⟩

theorem le_mappedEnd (entry : Nat × Nat) :
    entry.1 / 2 ^ 12 ≤ mappedEnd entry ∧
      mappedEnd entry ≤ entry.1 / 2 ^ 12 + entry.2 / 2 ^ 12 := by
  have hwin : windowPages = 0x70000 := by decide
  have hnum : numPages = 2 ^ 20 := rfl
  unfold mappedEnd
  simp only
  split_ifs with hout hin
  · omega
  · omega
  · have hk := PhysMem.chunkOrder_le
      ((min (entry.1 / 2 ^ 12 + entry.2 / 2 ^ 12) numPages - entry.1 / 2 ^ 12) * 2 ^ 12)
    generalize PhysMem.chunkOrder _ = k at hk ⊢
    have hge := PhysMem.le_floorPage (e := min (entry.1 / 2 ^ 12 + entry.2 / 2 ^ 12) numPages)
      (PhysMem.two_pow_dvd_window hk) (by omega)
    have hle := (PhysMem.floorPage_bounds k
      (min (entry.1 / 2 ^ 12 + entry.2 / 2 ^ 12) numPages)).1
    omega

namespace PhysMem

section entries

variable {S : Nat → Prop} {s s₁ s₂ : PhysMem} {P P₁ P₂ : Pool} {mmap : Nat → Nat × Nat} {n : Nat}

/-- `Page_MapMemoryChunk` on one entry. -/
theorem Mapped.entry {entry : Nat × Nat} (haligned : 2 ^ 12 ∣ entry.1 ∧ 2 ^ 12 ∣ entry.2)
    (hbounded : entry.1 + entry.2 ≤ 2 ^ 64) (h : Listed S s P)
    (hfresh : Fresh S P (entry.1 / 2 ^ 12) (mappedEnd entry)) :
    ∃ s' P', pageMapMemoryChunk chunkDepth entry.1 entry.2 s = some s' ∧
      Mapped S s s' P P' (entry.1 / 2 ^ 12) (mappedEnd entry) := by
  have hwin : windowPages = 0x70000 := by decide
  have hnum : numPages = 2 ^ 20 := rfl
  obtain ⟨base, size⟩ := entry
  obtain ⟨⟨b, rfl⟩, ⟨n, rfl⟩⟩ := haligned
  simp only at hbounded
  simp only [mappedEnd, Nat.mul_div_cancel_left _ (Nat.two_pow_pos 12)] at hfresh ⊢
  rw [Nat.mul_comm _ b, Nat.mul_comm _ n] at *
  split_ifs at hfresh ⊢ with hout hin
  · exact ⟨s, P, pageMapMemoryChunk_dropped (f := 11) (by omega), Mapped.refl h b⟩
  · have hlast : min (b + n) numPages = b + n := by omega
    rw [hlast] at hin hfresh ⊢
    exact Mapped.inside (f := 11) (.inr le_rfl) (by omega) hin h hfresh
  · generalize hm : min (b + n) numPages - b = m at hfresh ⊢
    have hlast : min (b + n) numPages = b + m := by omega
    rw [hlast] at hin hfresh ⊢
    refine Mapped.crossing (by omega) (by omega) (by omega) (by omega) ?_ (by omega) rfl h hfresh
    unfold w32 w64
    split_ifs <;> omega

/-- What the entries `0, …, n - 1` add to the free lists. -/
structure MapListed (S : Nat → Prop) (mmap : Nat → Nat × Nat) (n : Nat) (s s' : PhysMem)
    (P P' : Pool) : Prop where
  next : Listed S s' P'
  inside : ∀ x, MappedPage mmap n x → P'.freeLoad pageMaxOrder x = 1
  outside : ∀ x, ¬ MappedPage mmap n x →
    P'.freeLoad pageMaxOrder x = P.freeLoad pageMaxOrder x
  listed : ∀ k, k ≤ pageMaxOrder → ∀ m ∈ P'.lists k,
    m ∈ P.lists k ∨ blockNode k m ∈ s'.written
  written : ∀ a ∈ s.written, a ∈ s'.written
  touched : ∀ t ∈ s'.touched, t ∈ s.touched ∨
    t.1 ≤ pageMaxOrder ∧ ∃ x, MappedPage mmap n x ∧ t.2 = pageMapIdx (x * 2 ^ 12) t.1

/-- The last entry is mapped first. -/
theorem MapListed.succ (h₁ : Mapped S s s₁ P P₁ ((mmap n).1 / 2 ^ 12) (mappedEnd (mmap n)))
    (h₂ : MapListed S mmap n s₁ s₂ P₁ P₂)
    (hfresh : Fresh S P ((mmap n).1 / 2 ^ 12) (mappedEnd (mmap n))) :
    MapListed S mmap (n + 1) s s₂ P P₂ where
  next := h₂.next
  inside x hx := by
    rcases MappedPage.succ_iff.mp hx with hlow | ⟨hb, he⟩
    · exact h₂.inside x hlow
    · by_cases hlow : MappedPage mmap n x
      · exact h₂.inside x hlow
      · rw [h₂.outside x hlow, h₁.load, (hfresh x hb he).1, if_pos ⟨hb, he⟩]
  outside x hx := by
    rw [MappedPage.succ_iff, not_or] at hx
    rw [h₂.outside x hx.1, h₁.load, if_neg hx.2, Nat.add_zero]
  listed k hk m hm := by
    rcases h₂.listed k hk m hm with h | h
    · rcases h₁.listed k hk m h with h | h
      · exact .inl h
      · exact .inr (h₂.written _ h)
    · exact .inr h
  written a ha := h₂.written a (h₁.written a ha)
  touched t ht := by
    rcases h₂.touched t ht with h | ⟨hk, x, hx, heq⟩
    · rcases h₁.touched t h with h | ⟨hk, x, hx, hx', heq⟩
      · exact .inl h
      · exact .inr ⟨hk, x, MappedPage.succ_iff.mpr (.inr ⟨hx, hx'⟩), heq⟩
    · exact .inr ⟨hk, x, MappedPage.succ_iff.mpr (.inl hx), heq⟩

/-- The loop over the entries. -/
theorem MapListed.mapEntries (hmap : RamMap mmap n) (h : Listed S s P)
    (hfresh : ∀ i, i < n → Fresh S P ((mmap i).1 / 2 ^ 12) (mappedEnd (mmap i))) :
    ∃ s' P', PhysMem.mapEntries mmap n s = some s' ∧ MapListed S mmap n s s' P P' := by
  induction n generalizing s P with
  | zero =>
    exact ⟨s, P, rfl, h, fun x ⟨i, hi, _⟩ => by omega, fun _ _ => rfl, fun _ _ _ hm => .inl hm,
      fun _ ha => ha, fun _ ht => .inl ht⟩
  | succ n ih =>
    obtain ⟨s₁, P₁, hrun, hentry⟩ := Mapped.entry (hmap.aligned n (by omega))
      (hmap.bounded n (by omega)) h (hfresh n (by omega))
    have hrest : ∀ i, i < n → Fresh S P₁ ((mmap i).1 / 2 ^ 12) (mappedEnd (mmap i)) := by
      intro i hi
      have hasc := hmap.ascending i n hi (by omega)
      obtain ⟨⟨b, hb⟩, ⟨m, hm⟩⟩ := hmap.aligned i (by omega)
      obtain ⟨⟨b', hb'⟩, _⟩ := hmap.aligned n (by omega)
      refine (hfresh i (by omega)).after hentry ?_
      have hend := le_mappedEnd (mmap i)
      omega
    obtain ⟨s₂, P₂, hrun', hmapped⟩ := ih
      ⟨fun i hi => hmap.aligned i (by omega), fun i hi => hmap.bounded i (by omega),
        fun i j hij hj => hmap.ascending i j hij (by omega)⟩ hentry.next hrest
    refine ⟨s₂, P₂, ?_, hmapped.succ hentry (hfresh n (by omega))⟩
    rw [PhysMem.mapEntries, hrun, Option.bind_some, hrun']

end entries

/-- The state the allocator is loaded in: the lists are empty. -/
structure Unbooted (s : PhysMem) : Prop where
  pageLists : ∀ k, k ≤ pageMaxOrder → s.pageLists k = pageListNull
  written : s.written = []
  touched : s.touched = []

/-- The pool without a block. -/
def noBlocks : Pool := ⟨fun _ => [], fun _ _ => false⟩

theorem noBlocks_freeLoad (x : Nat) : noBlocks.freeLoad pageMaxOrder x = 0 := by
  simp [Pool.freeLoad, noBlocks]

theorem Unbooted.listed (h : Unbooted s) (S : Nat → Prop) : Listed S s.clearMaps noBlocks := by
  have htotal : ∀ x, noBlocks.total pageMaxOrder [] x = 0 := fun x => by
    rw [Pool.total, noBlocks_freeLoad, load_nil]
  refine ⟨⟨fun k hk => ?_, fun a ha => ?_⟩, ⟨fun x => ?_, fun x hx => ?_, by simp⟩, fun x hx => ?_⟩
  · rw [noBlocks, List.map_nil, isList_nil]
    exact h.pageLists k hk
  · change a ∈ s.written at ha
    simp [h.written] at ha
  · rw [htotal]
    exact Nat.zero_le 1
  · rw [htotal] at hx
    omega
  · rw [htotal] at hx
    omega

/-- The free lists hold the blocks `free`, all of them below 4 GB. -/
structure FreeBlocks (s : PhysMem) (free : Nat → List Nat) : Prop where
  isList : ∀ k, k ≤ pageMaxOrder →
    IsList s.nodes pageListNull (s.pageLists k) ((free k).map (blockNode k))
  below : ∀ k, k ≤ pageMaxOrder → ∀ n ∈ free k, n * 2 ^ k < numPages

theorem eq_of_map_blockNode {k : Nat} {l l' : List Nat}
    (hl : ∀ n ∈ l, n * 2 ^ k < numPages) (hl' : ∀ n ∈ l', n * 2 ^ k < numPages)
    (heq : l.map (blockNode k) = l'.map (blockNode k)) : l = l' := by
  induction l generalizing l' with
  | nil => exact (List.map_eq_nil_iff.mp heq.symm).symm
  | cons n l ih =>
    cases l' with
    | nil => exact absurd heq (by simp)
    | cons n' l' =>
      rw [List.map_cons, List.map_cons, List.cons.injEq] at heq
      obtain ⟨hnode, htail⟩ := heq
      rw [blockNode, blockNode] at hnode
      have hpage := pageNode_inj (hl n (by simp)) (hl' n' (by simp)) hnode
      rw [Nat.eq_of_mul_eq_mul_right (Nat.two_pow_pos k) hpage,
        ih (fun m hm => hl m (by simp [hm])) (fun m hm => hl' m (by simp [hm])) htail]

/-- The lists determine their blocks. -/
theorem FreeBlocks.unique {free free' : Nat → List Nat} (h : FreeBlocks s free)
    (h' : FreeBlocks s free') {k : Nat} (hk : k ≤ pageMaxOrder) : free k = free' k :=
  eq_of_map_blockNode (h.below k hk) (h'.below k hk) ((h.isList k hk).unique (h'.isList k hk))

theorem FreeBlocks.load_eq {free : Nat → List Nat} {P : Pool} (h : FreeBlocks s free)
    (h' : FreeBlocks s P.lists) (x : Nat) :
    load (blocks free []) x = P.freeLoad pageMaxOrder x := by
  rw [blocks, Pool.load_blocks, load_nil, Nat.add_zero]
  refine Finset.sum_congr rfl (fun k hk => ?_)
  exact congrArg (List.count (x / 2 ^ k))
    (h.unique h' (Nat.lt_succ_iff.mp (Finset.mem_range.mp hk)))

theorem Listed.freeBlocks (h : Listed S s P) : FreeBlocks s P.lists :=
  ⟨h.lists.isList, fun _ hk _ hn => free_lt h.valid hk hn⟩

/-- What the initialisation does with a RAM map. -/
theorem pageBuddyMapsInitialize_spec (h : Unbooted s) {bootInfo : List MultibootTag}
    (hinfo : lastRamInfo bootInfo = some (n, mmap)) (hmap : RamMap mmap n)
    (hS : ∀ x, MappedPage mmap n x → S (pageNode x)) :
    ∃ s' P', s.pageBuddyMapsInitialize bootInfo = some s' ∧
      MapListed S mmap n s.clearMaps s' noBlocks P' := by
  rw [pageBuddyMapsInitialize, hinfo]
  exact MapListed.mapEntries hmap (h.listed S)
    (fun i hi x hx hx' => ⟨noBlocks_freeLoad x, hS x ⟨i, hi, hx, hx'⟩⟩)

end PhysMem

/-! ### The window -/

/-- Page `x` lies in an entry. -/
def RamPage (mmap : Nat → Nat × Nat) (n x : Nat) : Prop :=
  ∃ i, i < n ∧ (mmap i).1 ≤ x * 2 ^ 12 ∧ x * 2 ^ 12 < (mmap i).1 + (mmap i).2

/-- Page `x` lies in the window. -/
def InWindow (x : Nat) : Prop := windowStart ≤ x * 2 ^ 12 ∧ x * 2 ^ 12 < windowEnd

/-- The entries are nonempty and separated by gaps. -/
structure GappedMap (mmap : Nat → Nat × Nat) (n : Nat) : Prop extends RamMap mmap n where
  nonempty : ∀ i, i < n → 0 < (mmap i).2
  gaps : ∀ i, i + 1 < n → (mmap i).1 + (mmap i).2 < (mmap (i + 1)).1

/-- The initialisation ends, its free blocks cover each RAM page of the window once and
    no other page, and every byte it touches lies inside its bitmap. -/
def CoversWindow (bootInfo : List MultibootTag) (mmap : Nat → Nat × Nat) (n : Nat)
    (s : PhysMem) : Prop :=
  ∃ s' free, s.pageBuddyMapsInitialize bootInfo = some s' ∧ s'.FreeBlocks free ∧
    (∀ x, RamPage mmap n x → InWindow x → load (PhysMem.blocks free []) x = 1) ∧
    (∀ x, ¬ (RamPage mmap n x ∧ InWindow x) → load (PhysMem.blocks free []) x = 0) ∧
    ∀ t ∈ s'.touched, t.1 ≤ pageMaxOrder ∧ t.2 < pageMapsSize t.1

/-- The entry does not cross the start of the window, and if it crosses the end, what
    lies beyond is shorter than some block size that fits into the entry. -/
def FitsWindow (entry : Nat × Nat) : Prop :=
  ¬ (entry.1 < windowStart ∧ windowStart < entry.1 + entry.2) ∧
  (windowStart ≤ entry.1 → entry.1 < windowEnd → windowEnd < entry.1 + entry.2 →
    ∃ k, k ≤ pageMaxOrder ∧ pageSizeAtOrder k ≤ entry.2 ∧
      entry.1 + entry.2 - windowEnd < pageSizeAtOrder k)

section window

variable {entry : Nat × Nat}

/-- Entries in pages. -/
theorem ramPage_iff {mmap : Nat → Nat × Nat} {n x : Nat} (hmap : RamMap mmap n) :
    RamPage mmap n x ↔
      ∃ i, i < n ∧ (mmap i).1 / 2 ^ 12 ≤ x ∧ x < (mmap i).1 / 2 ^ 12 + (mmap i).2 / 2 ^ 12 := by
  unfold RamPage
  refine exists_congr (fun i => and_congr_right (fun hi => ?_))
  obtain ⟨⟨b, hb⟩, ⟨m, hm⟩⟩ := hmap.aligned i hi
  omega

theorem inWindow_iff (x : Nat) : InWindow x ↔ 0x100 ≤ x ∧ x < windowPages := by
  unfold InWindow windowStart windowEnd windowPages kernelMmapLowmemEnd kernelMmapVirtualEnd
    kernelHigherHalfOffset
  omega

/-- Two entries share no page. -/
theorem RamMap.index_unique {mmap : Nat → Nat × Nat} {n i j x : Nat} (hmap : RamMap mmap n)
    (hi : i < n) (hj : j < n)
    (hxi : (mmap i).1 / 2 ^ 12 ≤ x ∧ x < (mmap i).1 / 2 ^ 12 + (mmap i).2 / 2 ^ 12)
    (hxj : (mmap j).1 / 2 ^ 12 ≤ x ∧ x < (mmap j).1 / 2 ^ 12 + (mmap j).2 / 2 ^ 12) : i = j := by
  have hlt : ∀ i j, i < j → j < n →
      (mmap i).1 / 2 ^ 12 + (mmap i).2 / 2 ^ 12 ≤ (mmap j).1 / 2 ^ 12 := by
    intro i j hij hj
    obtain ⟨⟨b, hb⟩, ⟨m, hm⟩⟩ := hmap.aligned i (by omega)
    obtain ⟨⟨b', hb'⟩, _⟩ := hmap.aligned j hj
    have := hmap.ascending i j hij hj
    omega
  rcases Nat.lt_trichotomy i j with h | h | h
  · have := hlt i j h hj
    omega
  · exact h
  · have := hlt j i h hi
    omega

theorem floorPage_eq {k d e : Nat} (hd : 2 ^ k ∣ d) (hle : d ≤ e) (hlt : e < d + 2 ^ k) :
    PhysMem.floorPage k e = d := by
  have hpos := Nat.two_pow_pos k
  obtain ⟨c, rfl⟩ := hd
  rw [PhysMem.floorPage, Nat.mul_comm (2 ^ k) c, show e / 2 ^ k = c by
    rw [Nat.div_eq_iff hpos, Nat.mul_comm c]; omega]

/-- The listed part of an entry that fits is its part in the window. -/
theorem FitsWindow.mapped_iff (h : FitsWindow entry)
    (haligned : 2 ^ 12 ∣ entry.1 ∧ 2 ^ 12 ∣ entry.2)
    (x : Nat) :
    entry.1 / 2 ^ 12 ≤ x ∧ x < mappedEnd entry ↔
      (entry.1 / 2 ^ 12 ≤ x ∧ x < entry.1 / 2 ^ 12 + entry.2 / 2 ^ 12) ∧
        0x100 ≤ x ∧ x < windowPages := by
  have hwin : windowPages = 0x70000 := by decide
  have hnum : numPages = 2 ^ 20 := rfl
  have hstart : windowStart = 0x100 * 2 ^ 12 := by decide
  have hend : windowEnd = 0x70000 * 2 ^ 12 := by decide
  obtain ⟨base, size⟩ := entry
  obtain ⟨⟨b, rfl⟩, ⟨n, rfl⟩⟩ := haligned
  obtain ⟨hlow, hhigh⟩ := h
  simp only at hlow hhigh
  simp only [mappedEnd, Nat.mul_div_cancel_left _ (Nat.two_pow_pos 12)]
  rw [Nat.mul_comm _ b, Nat.mul_comm _ n] at *
  split_ifs with hout hin
  · omega
  · omega
  · obtain ⟨k, hk, hfit, hover⟩ := hhigh (by omega) (by omega) (by omega)
    rw [PhysMem.pageSizeAtOrder_eq] at hfit hover
    have hsmall : 2 ^ k ≤ 2 ^ 10 := Nat.pow_le_pow_right (by decide) hk
    have hlast : min (b + n) numPages = b + n := by omega
    rw [hlast, Nat.add_sub_cancel_left] at *
    have hle := PhysMem.le_chunkOrder (n * 2 ^ 12) hk hfit
    have hk10 := PhysMem.chunkOrder_le (n * 2 ^ 12)
    have hpow : 2 ^ k ≤ 2 ^ PhysMem.chunkOrder (n * 2 ^ 12) :=
      Nat.pow_le_pow_right (by decide) hle
    have hdvd := PhysMem.two_pow_dvd_window hk10
    generalize PhysMem.chunkOrder (n * 2 ^ 12) = k' at *
    rw [floorPage_eq hdvd (by omega) (by omega)]
    omega

/-- An entry that does not fit leaves out a page of the window or lists the first page
    beyond it. -/
theorem mismatch_of_not_fitsWindow (h : ¬ FitsWindow entry)
    (haligned : 2 ^ 12 ∣ entry.1 ∧ 2 ^ 12 ∣ entry.2) :
    (entry.1 / 2 ^ 12 < 0x100 ∧ 0x100 < entry.1 / 2 ^ 12 + entry.2 / 2 ^ 12 ∧
      mappedEnd entry = entry.1 / 2 ^ 12) ∨
    (entry.1 / 2 ^ 12 ≤ windowPages ∧ windowPages < mappedEnd entry) := by
  have hwin : windowPages = 0x70000 := by decide
  have hnum : numPages = 2 ^ 20 := rfl
  have hstart : windowStart = 0x100 * 2 ^ 12 := by decide
  have hend : windowEnd = 0x70000 * 2 ^ 12 := by decide
  obtain ⟨base, size⟩ := entry
  obtain ⟨⟨b, rfl⟩, ⟨n, rfl⟩⟩ := haligned
  unfold FitsWindow at h
  rw [Classical.not_and_iff_not_or_not, Classical.not_not] at h
  simp only at h
  simp only [mappedEnd, Nat.mul_div_cancel_left _ (Nat.two_pow_pos 12)]
  rw [Nat.mul_comm _ b, Nat.mul_comm _ n] at *
  rcases h with hlow | hhigh
  · rw [if_pos (by omega)]
    omega
  · simp only [Classical.not_imp, not_exists, not_and] at hhigh
    obtain ⟨h1, h2, h3, hover⟩ := hhigh
    refine .inr ⟨by omega, ?_⟩
    rw [if_neg (by omega), if_neg (by omega)]
    generalize hm : min (b + n) numPages - b = m
    have hlast : min (b + n) numPages = b + m := by omega
    have hk10 := PhysMem.chunkOrder_le (m * 2 ^ 12)
    have hfit := PhysMem.chunkOrder_fits (m * 2 ^ 12) (by omega)
    have hsmall : 2 ^ PhysMem.chunkOrder (m * 2 ^ 12) ≤ 2 ^ 10 :=
      Nat.pow_le_pow_right (by decide) hk10
    have hpos := Nat.two_pow_pos (PhysMem.chunkOrder (m * 2 ^ 12))
    have hshort := hover (PhysMem.chunkOrder (m * 2 ^ 12)) hk10
      (by rw [PhysMem.pageSizeAtOrder_eq]; exact hfit.trans (Nat.mul_le_mul_right _ (by omega)))
    rw [PhysMem.pageSizeAtOrder_eq] at hshort
    have hdvd := PhysMem.two_pow_dvd_window hk10
    rw [hlast]
    generalize PhysMem.chunkOrder (m * 2 ^ 12) = k at *
    have hge := PhysMem.le_floorPage (e := b + m) (Nat.dvd_add hdvd (Nat.dvd_refl (2 ^ k)))
      (by omega)
    omega

end window

theorem pageMapsSize_mul :
    ∀ k, k ≤ pageMaxOrder → pageMapsSize k * 2 ^ (4 + k) = 0x70000 := by
  decide

/-- A page of the window has its bit inside the bitmap of every order. -/
theorem pageMapIdx_lt {x k : Nat} (hx : x < windowPages) (hk : k ≤ pageMaxOrder) :
    pageMapIdx (x * 2 ^ 12) k < pageMapsSize k := by
  have hwin : windowPages = 0x70000 := by decide
  have hsize := pageMapsSize_mul k hk
  rw [PhysMem.pageMapIdx_eq, page_pair, Nat.div_div_eq_div_mul,
    Nat.div_lt_iff_lt_mul (Nat.mul_pos (Nat.two_pow_pos _) (by decide))]
  rw [show 2 ^ (k + 1) * 8 = 2 ^ (4 + k) by rw [Nat.pow_add 2 4 k, pow_succ]; omega, hsize]
  omega

theorem touched_clearMaps {s : PhysMem} (h : PhysMem.Unbooted s) {t : Nat × Nat}
    (ht : t ∈ s.clearMaps.touched) : t.1 ≤ pageMaxOrder ∧ t.2 < pageMapsSize t.1 := by
  simp only [PhysMem.clearMaps, h.touched, List.append_nil, List.mem_flatMap, List.mem_range,
    List.mem_map] at ht
  obtain ⟨k, hk, idx, hidx, rfl⟩ := ht
  exact ⟨Nat.lt_succ_iff.mp hk, hidx⟩

/-- The initialisation covers the window's part of the map if and only if every entry
    fits the window. -/
theorem coversWindow_iff {bootInfo : List MultibootTag} {mmap : Nat → Nat × Nat} {n : Nat}
    {s : PhysMem} (hinfo : lastRamInfo bootInfo = some (n, mmap)) (hmap : GappedMap mmap n)
    (hs : PhysMem.Unbooted s) :
    CoversWindow bootInfo mmap n s ↔ ∀ i, i < n → FitsWindow (mmap i) := by
  obtain ⟨s', P', hrun, hlisted⟩ := PhysMem.pageBuddyMapsInitialize_spec
    (S := fun _ => True) hs hinfo hmap.toRamMap (fun _ _ => trivial)
  have hfree := hlisted.next.freeBlocks
  have hzero : ∀ x, ¬ MappedPage mmap n x → P'.freeLoad pageMaxOrder x = 0 := fun x hx => by
    rw [hlisted.outside x hx, PhysMem.noBlocks_freeLoad]
  constructor
  · rintro ⟨s'', free, hrun', hfree', hcover, hnone, -⟩ i hi
    obtain rfl : s' = s'' := Option.some.inj (hrun.symm.trans hrun')
    have hload := hfree'.load_eq hfree
    by_contra hfit
    rcases mismatch_of_not_fitsWindow hfit (hmap.aligned i hi) with
      ⟨hb, he, hdropped⟩ | ⟨hb, he⟩
    · -- page 0x100 is not listed
      have hone := hcover 0x100 ((ramPage_iff hmap.toRamMap).mpr ⟨i, hi, hb.le, he⟩)
        ((inWindow_iff _).mpr ⟨le_rfl, by decide⟩)
      have hmapped : MappedPage mmap n 0x100 := by
        by_contra hnot
        rw [hload, hzero _ hnot] at hone
        omega
      obtain ⟨j, hj, hjb, hje⟩ := hmapped
      have hend := le_mappedEnd (mmap j)
      obtain rfl := hmap.index_unique hi hj ⟨hb.le, he⟩ ⟨hjb, by omega⟩
      omega
    · -- the page after the window is listed
      have h0 := hnone windowPages (fun h => absurd ((inWindow_iff _).mp h.2).2 (by omega))
      rw [hload, hlisted.inside _ ⟨i, hi, hb, he⟩] at h0
      omega
  · intro hfits
    have hmapped : ∀ x, MappedPage mmap n x ↔ RamPage mmap n x ∧ InWindow x := by
      intro x
      rw [ramPage_iff hmap.toRamMap, inWindow_iff]
      constructor
      · rintro ⟨i, hi, hx⟩
        obtain ⟨hin, hwin⟩ := ((hfits i hi).mapped_iff (hmap.aligned i hi) x).mp hx
        exact ⟨⟨i, hi, hin⟩, hwin⟩
      · rintro ⟨⟨i, hi, hin⟩, hwin⟩
        exact ⟨i, hi, ((hfits i hi).mapped_iff (hmap.aligned i hi) x).mpr ⟨hin, hwin⟩⟩
    refine ⟨s', P'.lists, hrun, hfree, fun x hram hwin => ?_, fun x hx => ?_, fun t ht => ?_⟩
    · rw [hfree.load_eq hfree, hlisted.inside x ((hmapped x).mpr ⟨hram, hwin⟩)]
    · rw [hfree.load_eq hfree, hzero x (fun h => hx ((hmapped x).mp h))]
    · rcases hlisted.touched t ht with h | ⟨hk, x, hx, heq⟩
      · exact touched_clearMaps hs h
      · refine ⟨hk, ?_⟩
        rw [heq]
        exact pageMapIdx_lt ((inWindow_iff x).mp ((hmapped x).mp hx).2).2 hk

/-- Memory as the boot loader leaves it. -/
def unbooted : PhysMem where
  pageLists := fun _ => pageListNull
  pageMaps := fun _ _ => 0
  nodes := ⟨fun _ => 0, fun _ => 0⟩
  written := []
  touched := []

theorem unbooted_unbooted : PhysMem.Unbooted unbooted := ⟨fun _ _ => rfl, rfl, rfl⟩

/-- The page-aligned RAM map of a machine: conventional memory, and memory from 1 MB up
    to `top`. -/
def lowAndHigh (top : Nat) : Nat → Nat × Nat
  | 0 => (0, 0x9F000)
  | _ => (0x100000, top - 0x100000)

/-- The multiboot information with that map. -/
def lowAndHighInfo (top : Nat) : List MultibootTag :=
  [.other, .ramInfoPageAligned 48 16 (lowAndHigh top), .other]

theorem lastRamInfo_lowAndHigh (top : Nat) :
    lastRamInfo (lowAndHighInfo top) = some (2, lowAndHigh top) := rfl

theorem lowAndHigh_gapped {top : Nat} (haligned : 2 ^ 12 ∣ top) (hlow : 0x100000 < top)
    (hhigh : top ≤ 2 ^ 64) : GappedMap (lowAndHigh top) 2 := by
  have hentry : ∀ i, i < 2 → lowAndHigh top i = (0, 0x9F000) ∧ i = 0 ∨
      lowAndHigh top i = (0x100000, top - 0x100000) ∧ i = 1 := by
    intro i hi
    obtain rfl | rfl : i = 0 ∨ i = 1 := by omega
    · exact .inl ⟨rfl, rfl⟩
    · exact .inr ⟨rfl, rfl⟩
  refine ⟨⟨fun i hi => ?_, fun i hi => ?_, fun i j hij hj => ?_⟩, fun i hi => ?_, fun i hi => ?_⟩
  · rcases hentry i hi with ⟨heq, -⟩ | ⟨heq, -⟩ <;> rw [heq]
    · exact ⟨by decide, by decide⟩
    · exact ⟨⟨0x100, rfl⟩, Nat.dvd_sub haligned ⟨0x100, rfl⟩⟩
  · rcases hentry i hi with ⟨heq, -⟩ | ⟨heq, -⟩ <;> rw [heq] <;> simp only <;> omega
  · obtain ⟨rfl, rfl⟩ : i = 0 ∧ j = 1 := by omega
    change 0 + 0x9F000 ≤ 0x100000
    decide
  · rcases hentry i hi with ⟨heq, -⟩ | ⟨heq, -⟩ <;> rw [heq] <;> simp only <;> omega
  · obtain rfl : i = 0 := by omega
    change 0 + 0x9F000 < 0x100000
    decide

theorem coversWindow_iff_small :
    CoversWindow (lowAndHighInfo 0x200000) (lowAndHigh 0x200000) 2 unbooted ↔
      ∀ i, i < 2 → FitsWindow (lowAndHigh 0x200000 i) :=
  coversWindow_iff (lastRamInfo_lowAndHigh _)
    (lowAndHigh_gapped (by decide) (by decide) (by decide)) unbooted_unbooted

/-- On a machine with RAM from 1 MB up to 0x7FFE0000 the byte with index 28 of the bitmap
    of order 10 is touched, which has 28 bytes. -/
theorem not_forall_coversWindow :
    ¬ ∀ (bootInfo : List MultibootTag) (mmap : Nat → Nat × Nat) (n : Nat) (s : PhysMem),
      lastRamInfo bootInfo = some (n, mmap) → GappedMap mmap n → PhysMem.Unbooted s →
        CoversWindow bootInfo mmap n s := by
  intro h
  obtain ⟨s', -, hrun, -, -, -, htouched⟩ := h (lowAndHighInfo 0x7FFE0000) _ 2 unbooted
    (lastRamInfo_lowAndHigh _) (lowAndHigh_gapped (by decide) (by decide) (by decide))
    unbooted_unbooted
  have hbyte : ((unbooted.pageBuddyMapsInitialize (lowAndHighInfo 0x7FFE0000)).map
      (fun s => decide ((10, 28) ∈ s.touched))) = some true := by decide +kernel
  rw [hrun] at hbyte
  have hmem : (10, 28) ∈ s'.touched := by simpa using hbyte
  exact absurd (htouched _ hmem).2 (by decide)

end Avos
