import Avos.Bootloader.TagOrder

/-! # Kernels at Fixed Addresses

  An address tag says where the bytes of the kernel file go: the header is to be at one of its
  addresses, and the file is loaded from another one on, or from its start. The range ends with
  the file if no end is given, and memory is cleared up to the end of the bss.

  `Multiboot_LoadKernel` tests the order of the two addresses before it looks whether the second
  is one; it takes the size of the file for what is left of it behind the first byte that is
  loaded; and it asks for as much memory as the file has bytes (`loadKernel_loadedAt`).
-/

open ByteMemory Walks Searches

namespace Avos.Multiboot

/-! ## Section 1: The Address Tag -/

namespace HeaderTag

variable (a : HeaderTag)

-- `struct Multiboot_Header_Tag_Address`
def headerAddr : BitVec 32 := a.fields.headerAddr
def loadAddr : BitVec 32 := a.fields.loadAddr
def loadEndAddr : BitVec 32 := a.fields.loadEndAddr
def bssEndAddr : BitVec 32 := a.fields.bssEndAddr

end HeaderTag

/-- Where a file is to be loaded. -/
structure LoadPlan where
  /-- The address of the first byte. -/
  start : Nat
  /-- The offset of this byte in the file. -/
  offset : Nat
  loadEnd : Nat
  bssEnd : Nat
deriving DecidableEq

/-- What an address tag asks for, where the header is at the offset in the file. -/
def HeaderTag.loadPlan (a : HeaderTag) (fileSize headerOffset : Nat) : LoadPlan :=
  let start := if a.loadAddr = 0xFFFFFFFF then a.headerAddr.toNat - headerOffset
    else a.loadAddr.toNat
  let offset := if a.loadAddr = 0xFFFFFFFF then 0
    else headerOffset - (a.headerAddr.toNat - a.loadAddr.toNat)
  let loadEnd := if a.loadEndAddr = 0 then start + (fileSize - offset) else a.loadEndAddr.toNat
  { start := start
    offset := offset
    loadEnd := loadEnd
    bssEnd := if a.bssEndAddr = 0 then loadEnd else a.bssEndAddr.toNat }

/-- The offset of the header in the file. -/
def headerOffset (m : Memory) (info : KernelInfo) : BitVec 32 :=
  getHeader m info.fileAddr info.fileSize - info.fileAddr

/-- What the address tag asks for, of the file in memory. -/
def loadPlan (m : Memory) (info : KernelInfo) (a : HeaderTag) : LoadPlan :=
  a.loadPlan info.fileSize.toNat (headerOffset m info).toNat

/-- The file in memory has a header with these tags. -/
structure KernelFile (m : Memory) (info : KernelInfo) (tags : List HeaderTag) : Prop where
  header : HeaderAt m (getHeader m info.fileAddr info.fileSize) tags
  wellFormed : ∀ t ∈ tags, t.WellFormed
  noWrap : info.fileAddr.toNat + info.fileSize.toNat < 2 ^ 32
  inFile : (headerOffset m info).toNat +
    (headerLength m (getHeader m info.fileAddr info.fileSize)).toNat ≤ info.fileSize.toNat

/-- The addresses of the tag are in order, and a block of RAM has room for the kernel. -/
structure AddressesFit (m : Memory) (blocks : List BlockRam) (info : KernelInfo) (a : HeaderTag) :
    Prop where
  first : if a.loadAddr = 0xFFFFFFFF then (headerOffset m info).toNat ≤ a.headerAddr.toNat
    else a.loadAddr ≤ a.headerAddr ∧
      a.headerAddr.toNat - a.loadAddr.toNat ≤ (headerOffset m info).toNat
  loadEnd : (loadPlan m info a).start ≤ (loadPlan m info a).loadEnd
  bssEnd : (loadPlan m info a).loadEnd ≤ (loadPlan m info a).bssEnd
  room : ∃ b ∈ blocks, b.lo ≤ (loadPlan m info a).start ∧ (loadPlan m info a).bssEnd ≤ b.hi

/-- The kernel is where the address tag says: the byte of the file at the offset `k` is as far
    from `headerAddr` as it is from the header in the file, and the bss is cleared. -/
structure LoadedAt (m : Memory) (info : KernelInfo) (a : HeaderTag) (m' : Memory) : Prop where
  image : ∀ k, (loadPlan m info a).offset ≤ k → k < info.fileSize.toNat →
    (loadPlan m info a).start + (k - (loadPlan m info a).offset) < (loadPlan m info a).loadEnd →
      m' (a.headerAddr + (BitVec.ofNat 32 k - headerOffset m info)) =
        m (info.fileAddr + BitVec.ofNat 32 k)
  bss : ∀ x : BitVec 32, (loadPlan m info a).loadEnd ≤ x.toNat →
    x.toNat < (loadPlan m info a).bssEnd → m' x = 0

/-- What the relocatable tags of the header set. -/
def headerRelocation (m : Memory) (info : KernelInfo) (tags : List HeaderTag) : Relocation :=
  (visitedTags tags).foldl (fun r t => readRelocatable t.fields r)
    (initialParams m info).relocation

/-- The number of bytes that are moved. -/
def imageBytes (m : Memory) (info : KernelInfo) (a : HeaderTag) : Nat :=
  if a.loadEndAddr = 0 then info.fileSize.toNat
  else (loadPlan m info a).loadEnd - (loadPlan m info a).start

/-- The number of bytes that are cleared behind them. -/
def bssBytes (m : Memory) (info : KernelInfo) (a : HeaderTag) : Nat :=
  if a.bssEndAddr = 0 then 0
  else (loadPlan m info a).bssEnd - ((loadPlan m info a).start + imageBytes m info a)

/-- The tests are right for this kernel. -/
structure TestsAccept (m : Memory) (blocks : List BlockRam) (info : KernelInfo)
    (tags : List HeaderTag) (a : HeaderTag) : Prop where
  inOrder : a.loadAddr ≤ a.headerAddr
  notEmpty : (loadPlan m info a).start < (loadPlan m info a).bssEnd
  bssEnd : a.loadEndAddr = 0 → a.bssEndAddr ≠ 0 →
    (loadPlan m info a).start + info.fileSize.toNat ≤ (loadPlan m info a).bssEnd
  range : (headerRelocation m info tags).reloc → imageBytes m info a + bssBytes m info a ≤
    ((headerRelocation m info tags).endMax - (headerRelocation m info tags).startMin).toNat
  /-- A block has room for the file, and goes on behind it or starts with it. -/
  available : ∃ b ∈ blocks, b.lo ≤ (loadPlan m info a).start ∧
    (loadPlan m info a).start + info.fileSize.toNat ≤ b.hi ∧
      ((loadPlan m info a).start + info.fileSize.toNat < b.hi ∨ b.lo = (loadPlan m info a).start)

/-- Of what is taken for the rest of the file, nothing is left in the bss. -/
structure LoadsWell (m : Memory) (blocks : List BlockRam) (info : KernelInfo)
    (tags : List HeaderTag) (a : HeaderTag) : Prop extends TestsAccept m blocks info tags a where
  /-- As many bytes behind the file as are not loaded of it are zero. -/
  behind : a.loadEndAddr = 0 → a.bssEndAddr ≠ 0 →
    info.fileAddr.toNat + info.fileSize.toNat + (loadPlan m info a).offset ≤ 2 ^ 32 ∧
      ∀ i < (loadPlan m info a).offset,
        m (info.fileAddr + BitVec.ofNat 32 (info.fileSize.toNat + i)) = 0

/-! ## Section 2: The Round for the Tag -/

section round

variable {header : BitVec 32} {f : TagFields} {p q : LoadParams} {a : HeaderTag}
  {tags before behind : List HeaderTag} {i : KernelInfo}

theorem readAddress_ok_iff : readAddress header f p = .ok q ↔
    f.loadAddr ≤ f.headerAddr ∧
      (f.loadEndAddr ≠ 0 → f.start header p.info.fileAddr ≤ f.loadEndAddr) ∧
      (f.bssEndAddr ≠ 0 → f.start header p.info.fileAddr +
        f.imageSize (f.start header p.info.fileAddr) p.info.fileSize ≤ f.bssEndAddr) ∧
      q = { p with
        info := { p.info with
          start := f.start header p.info.fileAddr
          size := f.imageSize (f.start header p.info.fileAddr) p.info.fileSize +
            f.bssSize (f.start header p.info.fileAddr +
              f.imageSize (f.start header p.info.fileAddr) p.info.fileSize)
          bssSize := f.bssSize (f.start header p.info.fileAddr +
            f.imageSize (f.start header p.info.fileAddr) p.info.fileSize) }
        loadStart := f.loadStart header p.info.fileAddr
        loadInfo := true } := by
  unfold readAddress
  dsimp only
  generalize f.start header p.info.fileAddr = start
  generalize f.imageSize start p.info.fileSize = size
  constructor
  · intro h
    split at h
    · exact nomatch h
    next hload =>
    split at h
    · exact nomatch h
    next hend =>
    split at h
    · exact nomatch h
    next hbss =>
    refine ⟨BitVec.not_lt.mp hload, ?_, ?_, (Except.ok.inj h).symm⟩
    · intro hne
      exact BitVec.not_lt.mp fun hlt => hend ⟨hne, hlt⟩
    · intro hne
      exact BitVec.not_lt.mp fun hlt => hbss ⟨hne, hlt⟩
  · rintro ⟨hload, hend, hbss, hq⟩
    rw [if_neg (BitVec.not_lt.mpr hload), if_neg fun h => BitVec.not_lt.mpr (hend h.1) h.2,
      if_neg fun h => BitVec.not_lt.mpr (hbss h.1) h.2, hq]

/-- The loop does what the address tag says, if no tag before it ends the loop. -/
theorem tagRounds_address (hsplit : tags = before ++ a :: behind) (htype : a.type = 2)
    (hbefore : ∀ t ∈ before, t.type ≠ 2 ∧ t.type ≠ 3) (hbehind : ∀ t ∈ behind, t.type ≠ 2)
    (hread : readAddress header a.fields p = .ok q) :
    ∃ r, TagExit.result (tagRounds header tags p) = .ok r ∧ r.info = q.info ∧
      r.loadInfo = true ∧ r.loadStart = q.loadStart ∧ r.relocation =
        (visitedTags tags).foldl (fun s t => readRelocatable t.fields s) p.relocation := by
  let s := before.foldl (fun s t => readRelocatable t.fields s) p.relocation
  have hround : tagRound header a.fields { p with relocation := s } =
      .ok { q with relocation := s } := by
    rw [tagRound_of_address htype, readAddress_relocation, hread]
    rfl
  have hvisited : visitedTags tags = before ++ a :: visitedTags behind := by
    have hgoes : ∀ t ∈ before, decide (t.type ≠ 3) = true :=
      fun t ht => decide_eq_true (hbefore t ht).2
    have hcons : visitedTags (a :: behind) = a :: visitedTags behind := by
      apply List.takeWhile_cons_of_pos
      rw [htype]
      decide
    rw [visitedTags, hsplit, List.takeWhile_append_of_pos hgoes, ← hcons]
    rfl
  have hreloc : readRelocatable a.fields s = s := by
    have hne : ¬a.fields.type = 10 := fun h => absurd (htype.symm.trans h) (by decide)
    exact if_neg hne
  obtain ⟨r, hr, hinfo, hload, hstart, hrelocation⟩ := tagRounds_relocation
    (p := { q with relocation := s }) hbehind
  refine ⟨r, ?_, hinfo, ?_, hstart, ?_⟩
  · rw [hsplit, tagRounds_append hbefore, tagRounds, List.foldlM_cons, hround]
    exact hr
  · have hqload := loadInfo_of_readAddress hread
    exact hload.trans hqload
  · rw [hrelocation, hvisited, List.foldl_append, List.foldl_cons]
    show _ = List.foldl _ (readRelocatable a.fields s) _
    rw [hreloc]

/-- The loop fails where the address tag fails. -/
theorem tagRounds_address_error (hsplit : tags = before ++ a :: behind) (htype : a.type = 2)
    (hbefore : ∀ t ∈ before, t.type ≠ 2 ∧ t.type ≠ 3)
    (hread : readAddress header a.fields p = .error i) :
    TagExit.result (tagRounds header tags p) = .error i := by
  rw [hsplit, tagRounds_append hbefore, tagRounds, List.foldlM_cons, tagRound_of_address htype,
    readAddress_relocation, hread]
  rfl

end round

/-! ## Section 3: Runs -/

/-- What holds when a kernel with an address tag is loaded; `q` are the variables as the tag
    sets them. -/
structure LoadsAddress (m : Memory) (mmap mmapSize : BitVec 32) (info : KernelInfo)
    (tags : List HeaderTag) (a : HeaderTag) (q : LoadParams) : Prop where
  address : readAddress (getHeader m info.fileAddr info.fileSize) a.fields
    (initialParams m info) = .ok q
  notEmpty : q.info.size ≠ 0
  range : (headerRelocation m info tags).reloc → q.info.size ≤
    (headerRelocation m info tags).endMax - (headerRelocation m info tags).startMin
  available : findBlockAddress m q.info.start true q.info.fileSize 1 mmap mmapSize = q.info.start

section runs

variable {m m' : Memory} {mbi mmap mmapSize : BitVec 32} {info : KernelInfo} {a : HeaderTag}
  {tags before behind : List HeaderTag} {fuel : Nat}

theorem loadImage_of_loadInfo {p q : LoadParams} {k : KernelInfo} (h : p.loadInfo = q.loadInfo)
    (hq : q.loadInfo = true) (hstart : p.loadStart = q.loadStart) :
    loadImage m p k = loadImage m q k := by
  rw [loadImage, loadImage, h, hq, if_pos rfl, if_pos rfl, hstart]

/-- The kernel is loaded if and only if the tests accept what the address tag sets. -/
theorem loadKernel_address_iff (hfile : KernelFile m info tags)
    (hsplit : tags = before ++ a :: behind) (htype : a.type = 2)
    (hbefore : ∀ t ∈ before, t.type ≠ 2 ∧ t.type ≠ 3) (hbehind : ∀ t ∈ behind, t.type ≠ 2)
    (hwalk : Walkable tags) (hmap : ramInfo fuel m mbi = some (some (mmap, mmapSize)))
    (hfuel : tags.length + 1 < fuel) :
    (∃ info', loadKernel fuel m mbi info = some (true, info', m')) ↔
      ∃ q, LoadsAddress m mmap mmapSize info tags a q ∧ m' =
        cleanUp (loadImage m q q.info) q.info.start q.info.size q.info.fileAddr
          q.info.fileSize := by
  have htags := readTags_eq (p := initialParams m info) hfile.header hfile.wellFormed hwalk hfuel
  constructor
  · rintro ⟨info', hrun⟩
    obtain ⟨p, k, hloads⟩ := (loadKernel_true hmap).mp hrun
    have hplace := placeKernel_ok.mp hloads.place
    have hp := Option.some.inj (htags.symm.trans hloads.tags)
    cases hread : readAddress (getHeader m info.fileAddr info.fileSize) a.fields
        (initialParams m info) with
    | error i =>
      rw [tagRounds_address_error hsplit htype hbefore hread] at hp
      exact nomatch hp
    | ok q =>
      obtain ⟨r, hr, hinfo, hload, hstart, hreloc⟩ :=
        tagRounds_address hsplit htype hbefore hbehind hread
      obtain rfl := Except.ok.inj (hr.symm.trans hp)
      have hk : k = q.info := by
        have hkstart := hplace.start
        rw [if_neg fun h => h.1 hload] at hkstart
        rw [hplace.info, hkstart, hinfo]
      refine ⟨q, ⟨hread, ?_, ?_, ?_⟩, ?_⟩
      · rw [← hinfo]
        exact hplace.notEmpty
      · intro hr
        have hrange := hplace.range
        rw [hreloc, hinfo] at hrange
        exact hrange hr
      · have havailable := hplace.available
        rw [hinfo, hk] at havailable
        exact havailable
      · rw [hloads.mem, hk]
        congr 1
        exact loadImage_of_loadInfo (hload.trans (loadInfo_of_readAddress hread).symm)
          (loadInfo_of_readAddress hread) hstart
  · rintro ⟨q, hq, hm⟩
    obtain ⟨r, hr, hinfo, hload, hstart, hreloc⟩ :=
      tagRounds_address hsplit htype hbefore hbehind hq.address
    rw [hr] at htags
    refine ⟨_, (loadKernel_true hmap).mpr ⟨r, q.info, htags, ?_, ?_, rfl⟩⟩
    · apply placeKernel_ok.mpr
      refine ⟨?_, ?_, ?_, ?_, ?_⟩
      · rw [hinfo]
      · rw [hinfo]
        exact hq.notEmpty
      · rw [hreloc, hinfo]
        exact hq.range
      · rw [if_neg fun h => h.1 hload, hinfo]
      · rw [hinfo]
        exact hq.available
    · rw [hm]
      congr 1
      exact loadImage_of_loadInfo ((loadInfo_of_readAddress hq.address).trans hload.symm)
        hload hstart.symm

end runs

/-! ## Section 4: The Numbers -/

section numbers

variable {m : Memory} {info : KernelInfo} {a : HeaderTag} {tags : List HeaderTag}
  {blocks : List BlockRam} {q : LoadParams}

theorem KernelFile.offset_lt (h : KernelFile m info tags) :
    (headerOffset m info).toNat < info.fileSize.toNat := by
  have hin := h.inFile
  have hlength := h.header.length
  omega

theorem KernelFile.toNat_header (h : KernelFile m info tags) :
    (getHeader m info.fileAddr info.fileSize).toNat =
      info.fileAddr.toNat + (headerOffset m info).toNat := by
  have hlt := h.offset_lt
  have hwrap := h.noWrap
  have heq : getHeader m info.fileAddr info.fileSize = info.fileAddr + headerOffset m info := by
    rw [headerOffset]
    bv_omega
  rw [heq, BitVec.toNat_add, Nat.mod_eq_of_lt (by omega)]

theorem loadPlan_offset_le : (loadPlan m info a).offset ≤ (headerOffset m info).toNat := by
  show (if _ then _ else _) ≤ _
  split
  · exact Nat.zero_le _
  · exact Nat.sub_le _ _

/-- The address at which the tag has the kernel start. -/
theorem AddressesFit.toNat_start (h : AddressesFit m blocks info a) :
    (a.fields.start (getHeader m info.fileAddr info.fileSize) info.fileAddr).toNat =
      (loadPlan m info a).start := by
  have hfirst := h.first
  rw [TagFields.start]
  show (if a.loadAddr = 0xFFFFFFFF then a.headerAddr - headerOffset m info else a.loadAddr).toNat =
    if a.loadAddr = 0xFFFFFFFF then a.headerAddr.toNat - (headerOffset m info).toNat
    else a.loadAddr.toNat
  split
  · next hall =>
    rw [if_pos hall] at hfirst
    exact BitVec.toNat_sub_of_le hfirst
  · rfl

/-- The first byte that is loaded, in the file. -/
theorem AddressesFit.toNat_loadStart (h : AddressesFit m blocks info a)
    (hfile : KernelFile m info tags) :
    (a.fields.loadStart (getHeader m info.fileAddr info.fileSize) info.fileAddr).toNat =
      info.fileAddr.toNat + (loadPlan m info a).offset := by
  have hfirst := h.first
  have hheader := hfile.toNat_header
  rw [TagFields.loadStart]
  show (if a.loadAddr = 0xFFFFFFFF then info.fileAddr else
      getHeader m info.fileAddr info.fileSize - (a.headerAddr - a.loadAddr)).toNat =
    info.fileAddr.toNat + if a.loadAddr = 0xFFFFFFFF then 0
      else (headerOffset m info).toNat - (a.headerAddr.toNat - a.loadAddr.toNat)
  split
  · rfl
  · next hpart =>
    rw [if_neg hpart] at hfirst
    have hback := BitVec.toNat_sub_of_le hfirst.1
    have hle : a.headerAddr - a.loadAddr ≤ getHeader m info.fileAddr info.fileSize := by
      rw [BitVec.le_def]
      omega
    rw [BitVec.toNat_sub_of_le hle, hback, hheader]
    omega

/-- The byte of the file at `k` goes as far behind the start of the kernel as it is behind the
    first byte that is loaded. -/
theorem AddressesFit.image_addr (h : AddressesFit m blocks info a) {k : Nat}
    (hk : (loadPlan m info a).offset ≤ k) :
    a.headerAddr + (BitVec.ofNat 32 k - headerOffset m info) =
      a.fields.start (getHeader m info.fileAddr info.fileSize) info.fileAddr +
        BitVec.ofNat 32 (k - (loadPlan m info a).offset) := by
  have hfirst := h.first
  have hoffset : (loadPlan m info a).offset = if a.loadAddr = 0xFFFFFFFF then 0
      else (headerOffset m info).toNat - (a.headerAddr.toNat - a.loadAddr.toNat) := rfl
  rw [TagFields.start]
  show _ = (if a.loadAddr = 0xFFFFFFFF then a.headerAddr - headerOffset m info else a.loadAddr) +
    BitVec.ofNat 32 (k - (loadPlan m info a).offset)
  by_cases hall : a.loadAddr = 0xFFFFFFFF
  · rw [if_pos hall, hoffset, if_pos hall, Nat.sub_zero]
    bv_omega
  · rw [if_neg hall] at hfirst hoffset
    rw [if_neg hall]
    bv_omega

/-- The variables have the kernel lie at `start`: a number of bytes are moved there, and a number
    of bytes are cleared behind them. -/
structure Lies (q : LoadParams) (start image bss : Nat) : Prop where
  loadInfo : q.loadInfo = true
  toNat_start : q.info.start.toNat = start
  moved : (q.info.size - q.info.bssSize).toNat = image
  cleared : q.info.bssSize.toNat = bss
  size : q.info.size.toNat = image + bss
  kernelEnd : start + (image + bss) ≤ 0xFFFFFFFF
  fileEnd : q.info.fileAddr.toNat + q.info.fileSize.toNat < 2 ^ 32

theorem loadPlan_loadEnd (h : a.loadEndAddr ≠ 0) :
    (loadPlan m info a).loadEnd = a.loadEndAddr.toNat := if_neg h

theorem loadPlan_bssEnd (h : a.bssEndAddr ≠ 0) :
    (loadPlan m info a).bssEnd = a.bssEndAddr.toNat := if_neg h

/-- The number of bytes to move, if it does not wrap. -/
theorem AddressesFit.toNat_imageSize (h : AddressesFit m blocks info a) {start : BitVec 32}
    (hstart : start.toNat = (loadPlan m info a).start) :
    (a.fields.imageSize start info.fileSize).toNat = imageBytes m info a := by
  have hend := h.loadEnd
  rw [TagFields.imageSize, imageBytes]
  show (if a.loadEndAddr = 0 then info.fileSize else a.loadEndAddr - start).toNat = _
  split
  · rfl
  · next hne =>
    rw [loadPlan_loadEnd hne, ← hstart] at hend ⊢
    exact BitVec.toNat_sub_of_le hend

/-- The end of these bytes. -/
theorem AddressesFit.toNat_imageEnd (h : AddressesFit m blocks info a) {start : BitVec 32}
    (hstart : start.toNat = (loadPlan m info a).start)
    (hroom : (loadPlan m info a).start + info.fileSize.toNat < 2 ^ 32) :
    (start + a.fields.imageSize start info.fileSize).toNat =
      (loadPlan m info a).start + imageBytes m info a := by
  have hlt : (loadPlan m info a).start + imageBytes m info a < 2 ^ 32 := by
    rw [imageBytes]
    split
    · exact hroom
    · next hne =>
      have hend := h.loadEnd
      rw [loadPlan_loadEnd hne] at hend ⊢
      have hbound := a.loadEndAddr.isLt
      omega
  rw [BitVec.toNat_add, hstart, h.toNat_imageSize hstart, Nat.mod_eq_of_lt hlt]

/-- The kernel does not go beyond the limit. -/
theorem AddressesFit.kernelEnd_le (h : AddressesFit m blocks info a)
    (hroom : (loadPlan m info a).start + info.fileSize.toNat ≤ 0xFFFFFFFF) :
    (loadPlan m info a).start + (imageBytes m info a + bssBytes m info a) ≤ 0xFFFFFFFF := by
  have himage : (loadPlan m info a).start + imageBytes m info a ≤ 0xFFFFFFFF := by
    rw [imageBytes]
    split
    · exact hroom
    · next hne =>
      have hend := h.loadEnd
      rw [loadPlan_loadEnd hne] at hend ⊢
      have hbound := a.loadEndAddr.isLt
      omega
  rw [bssBytes]
  split
  · exact himage
  · next hne =>
    rw [loadPlan_bssEnd hne]
    have hbound := a.bssEndAddr.isLt
    omega

/-- The numbers of the loop, if they do not wrap. -/
theorem AddressesFit.lies (h : AddressesFit m blocks info a) (hfile : KernelFile m info tags)
    (hread : readAddress (getHeader m info.fileAddr info.fileSize) a.fields
      (initialParams m info) = .ok q)
    (hroom : (loadPlan m info a).start + info.fileSize.toNat ≤ 0xFFFFFFFF) :
    Lies q (loadPlan m info a).start (imageBytes m info a) (bssBytes m info a) := by
  obtain ⟨-, -, hbss, rfl⟩ := readAddress_ok_iff.mp hread
  have hstart := h.toNat_start
  have himage := h.toNat_imageSize hstart
  let start := a.fields.start (getHeader m info.fileAddr info.fileSize) info.fileAddr
  let image := a.fields.imageSize start info.fileSize
  have hend : (start + image).toNat = (loadPlan m info a).start + imageBytes m info a :=
    h.toNat_imageEnd hstart (by omega)
  have hbss : a.bssEndAddr ≠ 0 → start + image ≤ a.bssEndAddr := hbss
  have hbssSize : (a.fields.bssSize (start + image)).toNat = bssBytes m info a := by
    rw [TagFields.bssSize, bssBytes]
    show (if a.bssEndAddr = 0 then 0 else a.bssEndAddr - (start + image)).toNat = _
    split
    · rfl
    · next hne =>
      rw [BitVec.toNat_sub_of_le (hbss hne), loadPlan_bssEnd hne, hend]
  have hsize : (image + a.fields.bssSize (start + image)).toNat =
      imageBytes m info a + bssBytes m info a := by
    have hle := h.kernelEnd_le hroom
    rw [BitVec.toNat_add, himage, hbssSize, Nat.mod_eq_of_lt (by omega)]
  refine ⟨rfl, hstart, ?_, hbssSize, hsize, h.kernelEnd_le hroom, hfile.noWrap⟩
  show (image + a.fields.bssSize (start + image) - a.fields.bssSize (start + image)).toNat = _
  rw [BitVec.add_sub_cancel]
  exact himage

end numbers

/-! ## Section 5: The Memory -/

section memory

variable {m m' : Memory} {info : KernelInfo} {a : HeaderTag} {blocks : List BlockRam}
  {q : LoadParams} {start image bss i : Nat}

/-- In the range of the kernel, nothing is removed. -/
theorem Lies.cleanUp_apply (h : Lies q start image bss) {x : BitVec 32}
    (hlo : start ≤ x.toNat) (hhi : x.toNat < start + (image + bss)) :
    cleanUp m q.info.start q.info.size q.info.fileAddr q.info.fileSize x = m x := by
  have hend := h.kernelEnd
  have hfile := h.fileEnd
  rw [cleanUp_eq (by rw [h.toNat_start, h.size]; omega) (by omega)]
  apply if_neg
  intro hout
  apply hout.2
  rw [InRange, h.toNat_start, h.size]
  exact ⟨hlo, hhi⟩

/-- The bytes that are cleared, in memory. -/
theorem Lies.loadImage_eq (h : Lies q start image bss) : loadImage m q q.info = fun x =>
    if start + image ≤ x.toNat ∧ x.toNat < start + image + bss then 0
    else memmove m q.info.start q.loadStart (q.info.size - q.info.bssSize) x := by
  have hend := h.kernelEnd
  have hstart : (q.info.start + q.info.size - q.info.bssSize).toNat = start + image := by
    have hsum : q.info.start + q.info.size - q.info.bssSize =
        q.info.start + (q.info.size - q.info.bssSize) := by
      rw [BitVec.sub_eq_add_neg, BitVec.sub_eq_add_neg, BitVec.add_assoc]
    rw [hsum, BitVec.toNat_add, h.toNat_start, h.moved, Nat.mod_eq_of_lt (by omega)]
  rw [loadImage, if_pos h.loadInfo]
  dsimp only
  rw [h.cleared, memset_range (by omega), hstart]

theorem Lies.image_apply (h : Lies q start image bss) (hi : i < image)
    (hsrc : q.loadStart.toNat + i < 2 ^ 32) :
    cleanUp (loadImage m q q.info) q.info.start q.info.size q.info.fileAddr q.info.fileSize
      (q.info.start + BitVec.ofNat 32 i) = m (q.loadStart + BitVec.ofNat 32 i) := by
  have hend := h.kernelEnd
  have hx : (q.info.start + BitVec.ofNat 32 i).toNat = start + i := by
    rw [toNat_add_ofNat (by rw [h.toNat_start]; omega), h.toNat_start]
  rw [h.cleanUp_apply (by omega) (by omega), h.loadImage_eq]
  dsimp only
  rw [if_neg (by omega)]
  exact memmove_add (by rw [h.toNat_start, h.moved]; omega) (by rw [h.moved]; exact hi) hsrc

theorem Lies.bss_apply (h : Lies q start image bss) {x : BitVec 32}
    (hlo : start + image ≤ x.toNat) (hhi : x.toNat < start + (image + bss)) :
    cleanUp (loadImage m q q.info) q.info.start q.info.size q.info.fileAddr q.info.fileSize x =
      0 := by
  rw [h.cleanUp_apply (by omega) hhi, h.loadImage_eq]
  exact if_pos ⟨hlo, by omega⟩

end memory

/-! ## Section 6: Kernels That Are Loaded -/

section loaded

variable {m m' : Memory} {mbi mmap mmapSize : BitVec 32} {info : KernelInfo} {a : HeaderTag}
  {blocks : List BlockRam} {tags before behind : List HeaderTag} {q : LoadParams} {fuel : Nat}

/-- The memory behind a run with these variables. -/
def LoadParams.kernelMemory (q : LoadParams) (m : Memory) : Memory :=
  cleanUp (loadImage m q q.info) q.info.start q.info.size q.info.fileAddr q.info.fileSize

/-- A kernel with no bytes is not loaded. -/
theorem AddressesFit.start_lt (h : AddressesFit m blocks info a) (hfile : KernelFile m info tags)
    (hread : readAddress (getHeader m info.fileAddr info.fileSize) a.fields
      (initialParams m info) = .ok q) (hsize : q.info.size ≠ 0) :
    (loadPlan m info a).start < (loadPlan m info a).bssEnd := by
  by_contra hle
  apply hsize
  have hloadEnd := h.loadEnd
  have hbssEnd := h.bssEnd
  obtain ⟨-, -, -, rfl⟩ := readAddress_ok_iff.mp hread
  let start := a.fields.start (getHeader m info.fileAddr info.fileSize) info.fileAddr
  have hstart : start.toNat = (loadPlan m info a).start := h.toNat_start
  have hzero : a.loadEndAddr ≠ 0 := by
    intro hzero
    have hrest : (loadPlan m info a).loadEnd = (loadPlan m info a).start +
        (info.fileSize.toNat - (loadPlan m info a).offset) := if_pos hzero
    have hlt := hfile.offset_lt
    have hoffset : (loadPlan m info a).offset ≤ _ := loadPlan_offset_le
    omega
  have hend : a.loadEndAddr = start := by
    rw [loadPlan_loadEnd hzero] at hloadEnd hbssEnd
    exact BitVec.eq_of_toNat_eq (by omega)
  have himage : a.fields.imageSize start info.fileSize = 0 := by
    rw [TagFields.imageSize]
    show (if a.loadEndAddr = 0 then info.fileSize else a.loadEndAddr - start) = 0
    rw [if_neg hzero, hend, BitVec.sub_self]
    rfl
  have hbss : a.fields.bssSize start = 0 := by
    rw [TagFields.bssSize]
    show (if a.bssEndAddr = 0 then 0 else a.bssEndAddr - start) = 0
    split
    · rfl
    · next hne =>
      rw [loadPlan_bssEnd hne] at hbssEnd hle
      have heq : a.bssEndAddr = start := BitVec.eq_of_toNat_eq (by omega)
      rw [heq, BitVec.sub_self]
      rfl
  show a.fields.imageSize start info.fileSize +
    a.fields.bssSize (start + a.fields.imageSize start info.fileSize) = 0
  have hsum : start + 0 = start := by bv_omega
  rw [himage, hsum, hbss]
  rfl

/-- The range of the kernel ends with the bss, or with the file. -/
theorem AddressesFit.kernelBytes_pos (h : AddressesFit m blocks info a)
    (hfile : KernelFile m info tags)
    (hlt : (loadPlan m info a).start < (loadPlan m info a).bssEnd) :
    0 < imageBytes m info a + bssBytes m info a := by
  have hoffset := hfile.offset_lt
  have hloadEnd := h.loadEnd
  rw [bssBytes, imageBytes]
  split
  · omega
  · next hne =>
    split
    · next hbss =>
      have heq : (loadPlan m info a).bssEnd = (loadPlan m info a).loadEnd := if_pos hbss
      omega
    · omega

/-- What the round for the tag leaves alone. -/
theorem readAddress_info (hread : readAddress (getHeader m info.fileAddr info.fileSize) a.fields
      (initialParams m info) = .ok q) :
    q.info.fileAddr = info.fileAddr ∧ q.info.fileSize = info.fileSize ∧
      q.info.start =
        a.fields.start (getHeader m info.fileAddr info.fileSize) info.fileAddr ∧
      q.loadStart =
        a.fields.loadStart (getHeader m info.fileAddr info.fileSize) info.fileAddr := by
  obtain ⟨-, -, -, rfl⟩ := readAddress_ok_iff.mp hread
  exact ⟨rfl, rfl, rfl, rfl⟩

/-- The end of the moved bytes is tested against that of the bss. -/
theorem AddressesFit.bssEnd_iff (h : AddressesFit m blocks info a) {start : BitVec 32}
    (hstart : start.toNat = (loadPlan m info a).start)
    (hroom : (loadPlan m info a).start + info.fileSize.toNat < 2 ^ 32) :
    (a.bssEndAddr ≠ 0 → start + a.fields.imageSize start info.fileSize ≤ a.bssEndAddr) ↔
      (a.loadEndAddr = 0 → a.bssEndAddr ≠ 0 →
        (loadPlan m info a).start + info.fileSize.toNat ≤ (loadPlan m info a).bssEnd) := by
  have hend := h.toNat_imageEnd hstart hroom
  have hloadEnd := h.loadEnd
  have hbssEnd := h.bssEnd
  rw [BitVec.le_def, hend, imageBytes]
  by_cases hbss : a.bssEndAddr = 0
  · exact ⟨fun _ _ hne => absurd hbss hne, fun _ hne => absurd hbss hne⟩
  rw [loadPlan_bssEnd hbss] at hbssEnd ⊢
  by_cases hzero : a.loadEndAddr = 0
  · rw [if_pos hzero]
    exact ⟨fun h _ hne => h hne, fun h hne => h hzero hne⟩
  · rw [if_neg hzero]
    exact ⟨fun _ hz => absurd hz hzero, fun _ _ => by omega⟩

/-- The kernel is loaded if and only if the tests are right for it. -/
theorem loadsAddress_iff (hfile : KernelFile m info tags)
    (hfit : AddressesFit m (mapBlocks m mmap mmapSize) info a)
    (hmap : ∀ b ∈ mapBlocks m mmap mmapSize, b.Sound) (hnull : mmap ≠ memoryNullPtr) :
    (∃ q, LoadsAddress m mmap mmapSize info tags a q) ↔
      TestsAccept m (mapBlocks m mmap mmapSize) info tags a := by
  have hfileSize : 0 < info.fileSize.toNat := by
    have hlt := hfile.offset_lt
    omega
  constructor
  · rintro ⟨q, hq⟩
    have hlt := hfit.start_lt hfile hq.address hq.notEmpty
    obtain ⟨-, hsize, hstart, -⟩ := readAddress_info hq.address
    have htoNat := hfit.toNat_start
    rw [← hstart] at htoNat
    have havailable := hq.available
    rw [hsize] at havailable
    have hroom : (loadPlan m info a).start + info.fileSize.toNat < 2 ^ 32 := by
      obtain ⟨b, -, -, hend⟩ := hfit.room
      have hlimit : memory32BitLimit.toNat = 0xFFFFFFFF := rfl
      have hne : q.info.start ≠ memory32BitLimit := by
        intro heq
        rw [heq, hlimit] at htoNat
        have hhi := b.hi_le
        omega
      have hfound := (findBlockAddress_above_found (by rw [havailable]; exact hne)).2
      omega
    obtain ⟨hload, -, hbss, -⟩ := readAddress_ok_iff.mp hq.address
    have hblock := (findBlockAddress_here_iff hmap hnull hfileSize (by omega)).mp havailable
    have hlies := hfit.lies hfile hq.address (by omega)
    refine ⟨hload, hlt, ?_, ?_, ?_⟩
    · exact (hfit.bssEnd_iff hfit.toNat_start hroom).mp hbss
    · intro hreloc
      have hrange := hq.range hreloc
      rw [BitVec.le_def, hlies.size] at hrange
      exact hrange
    · rw [htoNat] at hblock
      exact hblock
  · intro h
    obtain ⟨b, hb, hlo, hend, hedge⟩ := h.available
    have hhi := b.hi_le
    have hstart := hfit.toNat_start
    obtain ⟨q, hread⟩ : ∃ q, readAddress (getHeader m info.fileAddr info.fileSize) a.fields
        (initialParams m info) = .ok q := by
      refine ⟨_, readAddress_ok_iff.mpr ⟨h.inOrder, ?_, ?_, rfl⟩⟩
      · intro hne
        have hloadEnd := hfit.loadEnd
        rw [loadPlan_loadEnd hne, ← hstart] at hloadEnd
        exact hloadEnd
      · exact (hfit.bssEnd_iff hstart (by omega)).mpr h.bssEnd
    obtain ⟨-, hsize, hqstart, -⟩ := readAddress_info hread
    have hlies := hfit.lies hfile hread (by omega)
    refine ⟨q, hread, ?_, ?_, ?_⟩
    · intro hzero
      have hpos := hfit.kernelBytes_pos hfile h.notEmpty
      have htoNat := hlies.size
      rw [hzero] at htoNat
      have h0 : (0 : BitVec 32).toNat = 0 := rfl
      omega
    · intro hreloc
      rw [BitVec.le_def, hlies.size]
      exact h.range hreloc
    · have htoNat := hlies.toNat_start
      rw [hsize]
      apply (findBlockAddress_here_iff hmap hnull hfileSize (by omega)).mpr
      rw [htoNat]
      exact ⟨b, hb, hlo, hend, hedge⟩

/-- A byte of the file, or of the memory behind it, is moved to its place. -/
theorem kernelMemory_image (hfile : KernelFile m info tags)
    (hfit : AddressesFit m blocks info a)
    (hread : readAddress (getHeader m info.fileAddr info.fileSize) a.fields
      (initialParams m info) = .ok q)
    (hroom : (loadPlan m info a).start + info.fileSize.toNat ≤ 0xFFFFFFFF) {k : Nat}
    (hk : (loadPlan m info a).offset ≤ k)
    (hlt : k < (loadPlan m info a).offset + imageBytes m info a)
    (hsrc : info.fileAddr.toNat + k < 2 ^ 32) :
    q.kernelMemory m
        (q.info.start + BitVec.ofNat 32 (k - (loadPlan m info a).offset)) =
      m (info.fileAddr + BitVec.ofNat 32 k) := by
  have hlies := hfit.lies hfile hread hroom
  obtain ⟨-, -, -, hloadStart⟩ := readAddress_info hread
  have htoNat := hfit.toNat_loadStart hfile
  rw [← hloadStart] at htoNat
  rw [LoadParams.kernelMemory, hlies.image_apply (by omega) (by omega)]
  congr 1
  bv_omega

/-- The bss is cleared if and only if the bytes that are moved there were zero. -/
theorem loadedAt_iff (hfile : KernelFile m info tags) (hfit : AddressesFit m blocks info a)
    (hread : readAddress (getHeader m info.fileAddr info.fileSize) a.fields
      (initialParams m info) = .ok q) (htests : TestsAccept m blocks info tags a)
    (hsrc : a.loadEndAddr = 0 → a.bssEndAddr ≠ 0 →
      info.fileAddr.toNat + info.fileSize.toNat + (loadPlan m info a).offset ≤ 2 ^ 32) :
    LoadedAt m info a (q.kernelMemory m) ↔ (a.loadEndAddr = 0 → a.bssEndAddr ≠ 0 →
      ∀ i < (loadPlan m info a).offset,
        m (info.fileAddr + BitVec.ofNat 32 (info.fileSize.toNat + i)) = 0) := by
  obtain ⟨b, -, -, hend, -⟩ := htests.available
  have hroom := Nat.le_trans hend b.hi_le
  have hlies := hfit.lies hfile hread hroom
  have hstart := hlies.toNat_start
  have hoffset := hfile.offset_lt
  have hoffset' : (loadPlan m info a).offset ≤ _ := loadPlan_offset_le
  have hfileEnd := hfile.noWrap
  have hloadEnd := hfit.loadEnd
  have hrest : a.loadEndAddr = 0 → (loadPlan m info a).loadEnd =
      (loadPlan m info a).start + (info.fileSize.toNat - (loadPlan m info a).offset) :=
    fun hzero => if_pos hzero
  have himage : imageBytes m info a = if a.loadEndAddr = 0 then info.fileSize.toNat
      else (loadPlan m info a).loadEnd - (loadPlan m info a).start := rfl
  constructor
  · intro h hzero hbss i hi
    rw [if_pos hzero] at himage
    have hwrap := hsrc hzero hbss
    have hbssEnd := htests.bssEnd hzero hbss
    have hx : (q.info.start + BitVec.ofNat 32
        (info.fileSize.toNat + i - (loadPlan m info a).offset)).toNat =
          (loadPlan m info a).start + (info.fileSize.toNat + i - (loadPlan m info a).offset) := by
      rw [toNat_add_ofNat (by omega), hstart]
    rw [← kernelMemory_image hfile hfit hread hroom (k := info.fileSize.toNat + i) (by omega)
      (by omega) (by omega)]
    apply h.bss
    · rw [hx, hrest hzero]
      omega
    · omega
  · intro h
    constructor
    · intro k hk hlt hin
      obtain ⟨-, -, hqstart, -⟩ := readAddress_info hread
      rw [hfit.image_addr hk, ← hqstart]
      apply kernelMemory_image hfile hfit hread hroom hk ?_ (by omega)
      rw [himage]
      split
      · omega
      · omega
    · intro x hlo hhi
      have hbss : a.bssEndAddr ≠ 0 := by
        intro hzero
        have heq : (loadPlan m info a).bssEnd = (loadPlan m info a).loadEnd := if_pos hzero
        omega
      by_cases hcleared : (loadPlan m info a).start + imageBytes m info a ≤ x.toNat
      · apply hlies.bss_apply hcleared
        rw [bssBytes, if_neg hbss]
        omega
      · -- the rest of the file has been moved to the bss
        have hzero : a.loadEndAddr = 0 := by
          by_contra hne
          rw [if_neg hne] at himage
          omega
        rw [if_pos hzero] at himage
        have hloaded := hrest hzero
        have hwrap := hsrc hzero hbss
        obtain ⟨i, hi⟩ : ∃ i, x.toNat = (loadPlan m info a).loadEnd + i :=
          ⟨_, (Nat.add_sub_of_le hlo).symm⟩
        have hx : x = q.info.start + BitVec.ofNat 32
            (info.fileSize.toNat + i - (loadPlan m info a).offset) := by
          apply BitVec.eq_of_toNat_eq
          rw [toNat_add_ofNat (by omega), hstart]
          omega
        rw [hx, kernelMemory_image hfile hfit hread hroom (by omega) (by omega) (by omega)]
        exact h hzero hbss i (by omega)

/-- The kernel is loaded where its address tag says if the tests are right for it and nothing is
    left in the bss; and only then, unless it is at the end of memory. -/
theorem loadKernel_loadedAt (hfile : KernelFile m info tags)
    (hsplit : tags = before ++ a :: behind) (htype : a.type = 2)
    (honly : ∀ t ∈ before ++ behind, t.type ≠ 2)
    (hfit : AddressesFit m (mapBlocks m mmap mmapSize) info a)
    (hmap : ramInfo fuel m mbi = some (some (mmap, mmapSize)))
    (hsound : ∀ b ∈ mapBlocks m mmap mmapSize, b.Sound) (hnull : mmap ≠ memoryNullPtr)
    (hfuel : tags.length + 1 < fuel) (hwalk : Walkable tags)
    (hvisited : ∀ t ∈ before, t.type ≠ 3) :
    (LoadsWell m (mapBlocks m mmap mmapSize) info tags a →
        ∃ info' m', loadKernel fuel m mbi info = some (true, info', m') ∧
          LoadedAt m info a m') ∧
      (info.fileAddr.toNat + info.fileSize.toNat + (loadPlan m info a).offset ≤ 2 ^ 32 →
        (∃ info' m', loadKernel fuel m mbi info = some (true, info', m') ∧
          LoadedAt m info a m') →
          LoadsWell m (mapBlocks m mmap mmapSize) info tags a) := by
  have hbefore : ∀ t ∈ before, t.type ≠ 2 ∧ t.type ≠ 3 :=
    fun t ht => ⟨honly t (List.mem_append_left _ ht), hvisited t ht⟩
  have hbehind : ∀ t ∈ behind, t.type ≠ 2 := fun t ht => honly t (List.mem_append_right _ ht)
  have htests := loadsAddress_iff hfile hfit hsound hnull
  constructor
  · intro hwell
    obtain ⟨q, hq⟩ := htests.mpr hwell.toTestsAccept
    obtain ⟨info', hrun⟩ := (loadKernel_address_iff hfile hsplit htype hbefore hbehind hwalk hmap
      hfuel).mpr ⟨q, hq, rfl⟩
    refine ⟨info', _, hrun, ?_⟩
    apply (loadedAt_iff hfile hfit hq.address hwell.toTestsAccept ?_).mpr
    · exact fun hzero hbss => (hwell.behind hzero hbss).2
    · exact fun hzero hbss => (hwell.behind hzero hbss).1
  · rintro hsrc ⟨info', m', hrun, hloaded⟩
    obtain ⟨q, hq, rfl⟩ := (loadKernel_address_iff hfile hsplit htype hbefore hbehind hwalk hmap
      hfuel).mp ⟨info', hrun⟩
    have haccept := htests.mp ⟨q, hq⟩
    have hzeros := (loadedAt_iff hfile hfit hq.address haccept fun _ _ => hsrc).mp hloaded
    exact ⟨haccept, fun hzero hbss => ⟨hsrc, hzeros hzero hbss⟩⟩

end loaded

/-! ### A file behind 1 MiB -/

/-- The header is to be at 0x180038, the first byte that is loaded eight bytes behind the start of
    the file, and the bss is to end at 0x181000. -/
def addressTag : HeaderTag :=
  ⟨2, 0, wordBytes 0x180038 ++ wordBytes 0x180008 ++ wordBytes 0 ++ wordBytes 0x181000⟩

/-- The header is to be at 0x180038, and all of the file is loaded. -/
def wholeFileTag : HeaderTag :=
  ⟨2, 0, wordBytes 0x180038 ++ wordBytes 0xFFFFFFFF ++ wordBytes 0 ++ wordBytes 0⟩

/-- The file with one of these tags. -/
theorem kernelFile_order {t : HeaderTag} (ht : t ∈ [addressTag, wholeFileTag]) :
    KernelFile (orderMemory [t]) orderInfo [t] := by
  have hfile : ∀ t ∈ [addressTag, wholeFileTag],
      HeaderAt (orderMemory [t]) (getHeader (orderMemory [t]) 0x100000 120) [t] ∧
        (headerOffset (orderMemory [t]) orderInfo).toNat +
          (headerLength (orderMemory [t]) (getHeader (orderMemory [t]) 0x100000 120)).toNat ≤ 120 ∧
            t.body.length = 16 := by
    decide +kernel
  obtain ⟨hheader, hin, hlength⟩ := hfile t ht
  refine ⟨hheader, ?_, by decide, hin⟩
  intro u hu
  rw [List.mem_singleton.mp hu]
  exact ⟨fun _ => by omega, fun _ => by omega, fun _ => by omega⟩

theorem ram_order {t : HeaderTag} (ht : t ∈ [addressTag, wholeFileTag]) :
    ramInfo 8 (orderMemory [t]) 0x8000 = some (some (0x8018, 1)) ∧
      mapBlocks (orderMemory [t]) 0x8018 1 = [⟨0x100000, 0x200000⟩] := by
  have hram : ∀ t ∈ [addressTag, wholeFileTag],
      ramInfo 8 (orderMemory [t]) 0x8000 = some (some (0x8018, 1)) ∧
        mapBlocks (orderMemory [t]) 0x8018 1 = [⟨0x100000, 0x200000⟩] := by
    decide +kernel
  exact hram t ht

theorem sound_order {t : HeaderTag} (ht : t ∈ [addressTag, wholeFileTag]) :
    ∀ b ∈ mapBlocks (orderMemory [t]) 0x8018 1, b.Sound := by
  intro b hb
  rw [(ram_order ht).2] at hb
  rw [List.mem_singleton.mp hb]
  exact ⟨by decide, by decide⟩

theorem loadPlan_order :
    loadPlan (orderMemory [addressTag]) orderInfo addressTag =
        ⟨0x180008, 8, 0x180078, 0x181000⟩ ∧
      loadPlan (orderMemory [wholeFileTag]) orderInfo wholeFileTag =
        ⟨0x180000, 0, 0x180078, 0x180078⟩ := by
  decide +kernel

theorem addressesFit_order :
    AddressesFit (orderMemory [addressTag]) (mapBlocks (orderMemory [addressTag]) 0x8018 1)
        orderInfo addressTag ∧
      AddressesFit (orderMemory [wholeFileTag]) (mapBlocks (orderMemory [wholeFileTag]) 0x8018 1)
        orderInfo wholeFileTag := by
  have haddress := (ram_order (t := addressTag) (by decide)).2
  have hwhole := (ram_order (t := wholeFileTag) (by decide)).2
  constructor
  · refine ⟨by decide +kernel, ?_, ?_, ?_⟩
    · rw [loadPlan_order.1]
      decide
    · rw [loadPlan_order.1]
      decide
    · rw [loadPlan_order.1, haddress]
      exact ⟨_, List.mem_singleton_self _, by decide, by decide⟩
  · refine ⟨by decide +kernel, ?_, ?_, ?_⟩
    · rw [loadPlan_order.2]
      decide
    · rw [loadPlan_order.2]
    · rw [loadPlan_order.2, hwhole]
      exact ⟨_, List.mem_singleton_self _, by decide, by decide⟩

theorem loadsWell_addressTag :
    LoadsWell (orderMemory [addressTag]) (mapBlocks (orderMemory [addressTag]) 0x8018 1)
      orderInfo [addressTag] addressTag := by
  have haddress := (ram_order (t := addressTag) (by decide)).2
  have hnone : (headerRelocation (orderMemory [addressTag]) orderInfo [addressTag]).reloc = false :=
    rfl
  refine ⟨⟨by decide, ?_, ?_, ?_, ?_⟩, ?_⟩
  · rw [loadPlan_order.1]
    decide
  · rw [loadPlan_order.1]
    decide
  · intro hreloc
    rw [hnone] at hreloc
    exact absurd hreloc Bool.false_ne_true
  · rw [loadPlan_order.1, haddress]
    exact ⟨_, List.mem_singleton_self _, by decide, by decide, .inl (by decide)⟩
  · rw [loadPlan_order.1]
    exact fun _ _ => ⟨by decide, by decide +kernel⟩

theorem loadKernel_loadedAt_addressTag :
    ∃ info' m', loadKernel 8 (orderMemory [addressTag]) 0x8000 orderInfo = some (true, info', m') ∧
      LoadedAt (orderMemory [addressTag]) orderInfo addressTag m' :=
  (@loadKernel_loadedAt _ _ _ _ _ _ _ [] _ _
    (kernelFile_order (by decide)) rfl rfl (fun _ ht => nomatch ht) addressesFit_order.1
    (ram_order (by decide)).1 (sound_order (by decide)) (by decide) (by decide)
    (.inr ⟨by decide, trivial⟩) fun _ ht => nomatch ht).1 loadsWell_addressTag

/-- A file that is to be loaded from its start is not loaded. -/
theorem not_forall_loadedAt : ¬∀ (fuel : Nat) (m : Memory) (mbi mmap mmapSize : BitVec 32)
    (info : KernelInfo) (tags before behind : List HeaderTag) (a : HeaderTag),
    KernelFile m info tags → tags = before ++ a :: behind → a.type = 2 →
      (∀ t ∈ before ++ behind, t.type ≠ 2) →
        AddressesFit m (mapBlocks m mmap mmapSize) info a →
          ramInfo fuel m mbi = some (some (mmap, mmapSize)) →
            (∀ b ∈ mapBlocks m mmap mmapSize, b.Sound) → mmap ≠ memoryNullPtr →
              tags.length + 1 < fuel →
                ∃ info' m', loadKernel fuel m mbi info = some (true, info', m') ∧
                  LoadedAt m info a m' := by
  intro h
  obtain ⟨info', m', hrun, -⟩ := h 8 (orderMemory [wholeFileTag]) 0x8000 0x8018 1 orderInfo
    [wholeFileTag] [] [] wholeFileTag (kernelFile_order (by decide)) rfl rfl
    (fun _ ht => nomatch ht) addressesFit_order.2 (ram_order (by decide)).1
    (sound_order (by decide)) (by decide) (by decide)
  have hfile := kernelFile_order (t := wholeFileTag) (by decide)
  have hram := (ram_order (t := wholeFileTag) (by decide)).1
  have hnone : ∀ t ∈ ([] : List HeaderTag), t.type ≠ 2 ∧ t.type ≠ 3 := fun _ ht => nomatch ht
  -- the tag is rejected for what stands for the start of the file
  obtain ⟨q, hq, -⟩ := (loadKernel_address_iff hfile rfl rfl hnone (fun _ ht => nomatch ht)
    (.inr ⟨by decide, trivial⟩) hram (by decide)).mp ⟨info', hrun⟩
  exact absurd (readAddress_ok_iff.mp hq.address).1 (by decide)

end Avos.Multiboot
