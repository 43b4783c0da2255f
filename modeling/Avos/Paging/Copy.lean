import Avos.Paging.Clone
import Avos.Paging.UserMap
import Mathlib.Data.Nat.Find

/-! # Copying to Another Process

  `Paging_Copy` writes to the user half of another process. It goes through the destination
  page by page, and finds the frame of each page by `Paging_GetHigherHalfAddress`.

  The cursor in the source is not moved: each page of the destination gets bytes from the
  beginning of the source (`copyOffset`), so that the copy is right only where these are the
  same (`pagingCopy_iff`). And the first address of the kernel half is taken for one of the
  user half: its directory entry maps 4 MB, and the first word of memory is read as the entry
  of the page (`copyConfined_iff`).
-/

open ByteMemory

namespace Avos

/-! ## Section 1: The Code -/

/-- `PAGING_PTE_USER`. -/
def IsUser (entry : BitVec 32) : Prop := entry &&& 4 ≠ 0

instance : DecidablePred IsUser := fun _ => inferInstanceAs (Decidable (_ ≠ _))

section code

variable {σ : Type*}

/-- `Paging_GetHigherHalfAddress`. -/
def pagingGetHigherHalfAddress (dir va : BitVec 32) (s : PagingState σ) : BitVec 32 :=
  if kernelStart < va then 0
  else if ¬pagingIsPageMapped dir va s then 0
  else
    let table := entryFrame (load32 s.mem (entryAddr dir (pageDirIdx va)))
    let entry := load32 s.mem (entryAddr table (pageTabIdx va))
    if ¬IsUser entry then 0 else entryFrame entry + pageOffset va

/-- `memmove(des, src, n)`. -/
def copyBytes (s : PagingState σ) (des src n : BitVec 32) : PagingState σ :=
  { s with mem := memmove s.mem des src n, writes := ⟨des, n.toNat, none⟩ :: s.writes }

@[simp] theorem copyBytes_frames {s : PagingState σ} {des src n : BitVec 32} :
    (copyBytes s des src n).frames = s.frames := by
  rw [copyBytes]

/-- `bytes_in_this_page`. -/
def bytesInPage (dest nbytes : BitVec 32) : BitVec 32 :=
  if nbytes < 0x1000 - pageOffset dest then nbytes else 0x1000 - pageOffset dest

theorem toNat_bytesInPage {dest nbytes : BitVec 32} : (bytesInPage dest nbytes).toNat =
    min nbytes.toNat (0x1000 - dest.toNat % 0x1000) := by
  have hroom : (0x1000 - pageOffset dest : BitVec 32).toNat = 0x1000 - dest.toNat % 0x1000 := by
    have hsize : (0x1000 : BitVec 32).toNat = 0x1000 := rfl
    rw [BitVec.toNat_sub, toNat_pageOffset, hsize]
    omega
  rw [bytesInPage]
  split
  · next hlt =>
    rw [BitVec.lt_def, hroom] at hlt
    omega
  · next hge =>
    rw [BitVec.lt_def, hroom] at hge
    omega

theorem toNat_sub_bytesInPage {dest nbytes : BitVec 32} :
    (nbytes - bytesInPage dest nbytes).toNat =
      nbytes.toNat - min nbytes.toNat (0x1000 - dest.toNat % 0x1000) := by
  rw [BitVec.toNat_sub, toNat_bytesInPage]
  omega

/-- `Paging_Copy`. -/
def pagingCopy (dir dest src nbytes : BitVec 32) (s : PagingState σ) : Bool × PagingState σ :=
  if nbytes = 0 then (true, s)
  else
    let hhalf := pagingGetHigherHalfAddress dir dest s
    if hhalf = 0 then (false, s)
    else
      let n := bytesInPage dest nbytes
      pagingCopy dir (dest + n) src (nbytes - n) (copyBytes s hhalf src n)
termination_by nbytes.toNat
decreasing_by
  -- a page holds at least one byte from any address on
  rename_i hne _
  have hpos : nbytes.toNat ≠ 0 := fun heq => hne (BitVec.eq_of_toNat_eq heq)
  rw [toNat_sub_bytesInPage]
  omega

end code

/-! ## Section 2: The User Half -/

/-- The place of the byte at a user address. -/
def userAddr (dir : BitVec 32) (m : Memory) (a : Nat) : BitVec 32 :=
  entryFrame (userEntry dir m (a / 0x1000)) + BitVec.ofNat 32 (a % 0x1000)

/-- The address is in the user half, and its page is mapped with the user flag. -/
def UserMapped (dir : BitVec 32) (m : Memory) (a : Nat) : Prop :=
  a < 0x80000000 ∧ IsPresent (userEntry dir m (a / 0x1000)) ∧ IsUser (userEntry dir m (a / 0x1000))

/-- A process whose pages are frames of the kernel's memory, and not the first one, which is
    never handed out. -/
structure CopySpace {σ : Type*} (A : FrameAllocator σ) (dir : BitVec 32) (s : PagingState σ) :
    Prop extends Owns A dir s where
  present : ∀ k < 2 ^ 19, userEntry dir s.mem k ≠ 0 → IsPresent (userEntry dir s.mem k)
  high : ∀ k < 2 ^ 19, IsPresent (userEntry dir s.mem k) →
    kernelStart < entryFrame (userEntry dir s.mem k)

section user

variable {σ : Type*} {A : FrameAllocator σ} {dir va x : BitVec 32} {s : PagingState σ}
  {m : Memory} {a b k n : Nat}

theorem UserMapped.number_lt (h : UserMapped dir m a) : a / 0x1000 < 2 ^ 19 := by
  have := h.1
  omega

theorem toNat_frame_add {f : BitVec 32} (hf : IsFrame f) {i : Nat} (hi : i ≤ 0x1000) :
    f.toNat + i ≤ 2 ^ 32 := by
  have := f.isLt
  rw [IsFrame] at hf
  omega

/-- The bytes of one page. -/
theorem userAddr_add (hpage : a % 0x1000 + k < 0x1000) :
    userAddr dir m (a + k) = userAddr dir m a + BitVec.ofNat 32 k := by
  have hdiv : (a + k) / 0x1000 = a / 0x1000 := by omega
  have hmod : (a + k) % 0x1000 = a % 0x1000 + k := by omega
  rw [userAddr, userAddr, hdiv, hmod, BitVec.ofNat_add, BitVec.add_assoc]

theorem inBytes_userAddr : InBytes (entryFrame (userEntry dir m (a / 0x1000))) 0x1000
    (userAddr dir m a) := inBytes_add (Nat.mod_lt _ (by decide)) (by decide)

theorem UserMapped.frame (ha : UserMapped dir m a) : ownerFrame dir m (.page (a / 0x1000)) =
    some (entryFrame (userEntry dir m (a / 0x1000))) := by
  rw [ownerFrame_userEntry, if_pos ⟨ha.number_lt, ha.2.1⟩]

/-- Different user addresses have different places. -/
theorem CopySpace.userAddr_inj (h : CopySpace A dir s) (ha : UserMapped dir s.mem a)
    (hb : UserMapped dir s.mem b) (heq : userAddr dir s.mem a = userAddr dir s.mem b) : a = b := by
  have hframe : entryFrame (userEntry dir s.mem (a / 0x1000)) =
      entryFrame (userEntry dir s.mem (b / 0x1000)) := by
    by_contra hne
    refine frames_apart isFrame_entryFrame isFrame_entryFrame hne _ inBytes_userAddr ?_
    rw [heq]
    exact inBytes_userAddr
  have hpage : a / 0x1000 = b / 0x1000 := Owner.page.inj (h.unique _ _ _ ha.frame
    (hb.frame.trans (congrArg some hframe.symm)))
  have hoffset : a % 0x1000 = b % 0x1000 := by
    by_contra hne
    rw [userAddr, userAddr, hframe] at heq
    exact add_ofNat_ne hne (by omega) (by omega) heq
  omega

/-- The place of a byte is neither in the directory nor in a page table. -/
theorem CopySpace.not_inTables (h : CopySpace A dir s) (ha : UserMapped dir s.mem a)
    (hx : InTables dir s.mem x) :
    ¬InBytes (entryFrame (userEntry dir s.mem (a / 0x1000))) 0x1000 x := by
  have hpage := ha.frame
  rcases hx with hx | ⟨i, hi, hp, hx⟩
  · refine frames_apart h.dirFrame isFrame_entryFrame (fun heq => ?_) x hx
    cases h.unique .directory _ dir rfl (hpage.trans (congrArg some heq.symm))
  · have ht := ownerFrame_table_eq hi hp
    refine frames_apart isFrame_entryFrame isFrame_entryFrame (fun heq => ?_) x hx
    cases h.unique (.table i) _ _ ht (hpage.trans (congrArg some heq.symm))

/-- The place of a byte is not zero. -/
theorem CopySpace.userAddr_ne_zero (h : CopySpace A dir s) (ha : UserMapped dir s.mem a) :
    userAddr dir s.mem a ≠ 0 := by
  have hhigh : 2 ^ 31 < (entryFrame (userEntry dir s.mem (a / 0x1000))).toNat :=
    h.high _ ha.number_lt ha.2.1
  have hfit := toNat_frame_add (i := 0x1000)
    (@isFrame_entryFrame (userEntry dir s.mem (a / 0x1000))) (Nat.le_refl _)
  intro hzero
  have hsum := congrArg BitVec.toNat hzero
  rw [userAddr, toNat_add_ofNat (by omega)] at hsum
  have : (0 : BitVec 32).toNat = 0 := rfl
  omega

/-! ### The higher-half address -/

/-- `Paging_GetHigherHalfAddress`, by number of the page. -/
theorem pagingGetHigherHalfAddress_eq (hva : va < kernelStart) :
    pagingGetHigherHalfAddress dir va s =
      if userEntry dir s.mem (pageNumber va) = 0 then 0
      else if ¬IsUser (userEntry dir s.mem (pageNumber va)) then 0
      else userAddr dir s.mem va.toNat := by
  have hle : ¬kernelStart < va := Nat.not_lt.mpr (Nat.le_of_lt hva)
  rw [pagingGetHigherHalfAddress, if_neg hle, pagingIsPageMapped_eq]
  by_cases hzero : userEntry dir s.mem (pageNumber va) = 0
  · rw [if_pos hzero, decide_eq_false (not_not.mpr hzero), if_pos (by decide)]
  · have hp : IsPresent (pde dir s.mem (pageNumber va / 1024)) := by
      by_contra habsent
      exact hzero (userEntry_of_absent habsent)
    have hentry : load32 s.mem (entryAddr (entryFrame (load32 s.mem (entryAddr dir
        (pageDirIdx va)))) (pageTabIdx va)) = userEntry dir s.mem (pageNumber va) := by
      rw [userEntry_of_present hp, ← load32_entryOf, ← entryOf_pageNumber]
      rfl
    have hoffset : pageOffset va = BitVec.ofNat 32 (va.toNat % 0x1000) := by
      rw [← toNat_pageOffset, BitVec.ofNat_toNat, BitVec.setWidth_eq]
    rw [if_neg hzero, decide_eq_true hzero, if_neg (by decide)]
    dsimp only
    rw [hentry, hoffset]
    rfl

theorem higherHalf_user (ha : UserMapped dir s.mem va.toNat) :
    pagingGetHigherHalfAddress dir va s = userAddr dir s.mem va.toNat := by
  rw [pagingGetHigherHalfAddress_eq ha.1, pageNumber, if_neg (ne_zero_of_isPresent ha.2.1),
    if_neg (not_not.mpr ha.2.2)]

theorem CopySpace.higherHalf_not_user (h : CopySpace A dir s) (hne : va ≠ kernelStart)
    (ha : ¬UserMapped dir s.mem va.toNat) : pagingGetHigherHalfAddress dir va s = 0 := by
  by_cases hva : va < kernelStart
  · have hk := pageNumber_lt (pageDirIdx_lt_of_lt hva)
    rw [pagingGetHigherHalfAddress_eq hva]
    split
    · rfl
    · next hne =>
      rw [if_pos]
      intro huser
      exact ha ⟨hva, h.present _ hk hne, huser⟩
  · have hlt : kernelStart < va := by
      have hne' : va.toNat ≠ kernelStart.toNat := fun heq => hne (BitVec.eq_of_toNat_eq heq)
      rw [BitVec.lt_def] at hva ⊢
      omega
    rw [pagingGetHigherHalfAddress, if_pos hlt]

end user

/-! ## Section 3: What Is Copied -/

/-- The parts of `n` bytes from `a` on that are each in one page. -/
def pieces (a n : Nat) : List (Nat × Nat) :=
  if n = 0 then []
  else (a, min n (0x1000 - a % 0x1000)) ::
    pieces (a + min n (0x1000 - a % 0x1000)) (n - min n (0x1000 - a % 0x1000))
termination_by n
decreasing_by omega

/-- The write for one part. -/
def pieceWrite (dir : BitVec 32) (m : Memory) (p : Nat × Nat) : PageWrite :=
  ⟨userAddr dir m p.1, p.2, none⟩

/-- The place in the source that byte `k` of a copy to `a` is taken from. -/
def copyOffset (a k : Nat) : Nat :=
  if k < 0x1000 - a % 0x1000 then k else (a + k) % 0x1000

/-- From `s` to `s'` the `n` bytes from the user address `a` on are written. -/
structure CopiedTo {σ : Type*} (dir src : BitVec 32) (a n : Nat) (s s' : PagingState σ) : Prop where
  kept : TablesKept dir s.mem s'.mem
  frames : s'.frames = s.frames
  writes : s'.writes = ((pieces a n).map (pieceWrite dir s.mem)).reverse ++ s.writes
  rest : ∀ x, (∀ k < n, x ≠ userAddr dir s.mem (a + k)) → s'.mem x = s.mem x
  bytes : src.toNat + n ≤ 2 ^ 32 →
    (∀ k < n, ∀ j < n, src + BitVec.ofNat 32 j ≠ userAddr dir s.mem (a + k)) →
    ∀ k < n, s'.mem (userAddr dir s.mem (a + k)) = s.mem (src + BitVec.ofNat 32 (copyOffset a k))

section copied

variable {σ : Type*} {A : FrameAllocator σ} {dir dest src nbytes x : BitVec 32}
  {s s' s'' : PagingState σ} {m : Memory} {a c k n : Nat}

theorem pieces_zero : pieces a 0 = [] := by
  rw [pieces, if_pos rfl]

theorem pieces_cons (hn : 0 < n) (hc : c = min n (0x1000 - a % 0x1000)) :
    pieces a n = (a, c) :: pieces (a + c) (n - c) := by
  subst hc
  rw [pieces, if_neg (by omega)]

/-- A part is inside the range, and in one page. -/
theorem mem_pieces {p : Nat × Nat} (hp : p ∈ pieces a n) :
    a ≤ p.1 ∧ p.1 + p.2 ≤ a + n ∧ 0 < p.2 ∧ p.1 % 0x1000 + p.2 ≤ 0x1000 := by
  induction a, n using pieces.induct with
  | case1 a =>
    rw [pieces_zero] at hp
    exact absurd hp List.not_mem_nil
  | case2 a n hn ih =>
    rw [pieces_cons (by omega) rfl] at hp
    rcases List.mem_cons.mp hp with rfl | hp
    · dsimp only
      omega
    · have := ih hp
      omega

theorem CopySpace.kept (h : CopySpace A dir s) (hc : CopiedTo dir src a n s s') :
    CopySpace A dir s' where
  toOwns := h.toOwns.leaves
    { directory := fun x hx => hc.kept x (.inl hx)
      tables := fun i t ht x hx => by
        obtain ⟨hi, hp, rfl⟩ := ownerFrame_table ht
        exact hc.kept x (.inr ⟨i, hi, hp, hx⟩)
      held := fun _ _ _ hheld => by rwa [hc.frames] }
  present k hk := by
    rw [hc.kept.userEntry_eq hk]
    exact h.present k hk
  high k hk := by
    rw [hc.kept.userEntry_eq hk]
    exact h.high k hk

theorem CopiedTo.userAddr_eq (h : CopiedTo dir src a n s s') {b : Nat} (hb : b / 0x1000 < 2 ^ 19) :
    userAddr dir s'.mem b = userAddr dir s.mem b := by
  rw [userAddr, userAddr, h.kept.userEntry_eq hb]

theorem CopiedTo.userMapped_iff (h : CopiedTo dir src a n s s') {b : Nat} :
    UserMapped dir s'.mem b ↔ UserMapped dir s.mem b := by
  by_cases hb : b < 0x80000000
  · rw [UserMapped, UserMapped, h.kept.userEntry_eq (by omega)]
  · exact iff_of_false (fun hu => hb hu.1) (fun hu => hb hu.1)

theorem CopiedTo.refl : CopiedTo dir src a 0 s s where
  kept := .refl
  frames := rfl
  writes := by rw [pieces_zero]; rfl
  rest _ _ := rfl
  bytes _ _ k hk := absurd hk (Nat.not_lt_zero k)

/-- The bytes that are in one page. -/
theorem CopySpace.copiedTo_page (h : CopySpace A dir s) (ha : UserMapped dir s.mem a) (hn : 0 < n)
    (hpage : a % 0x1000 + n ≤ 0x1000) :
    CopiedTo dir src a n s (copyBytes s (userAddr dir s.mem a) src (BitVec.ofNat 32 n)) := by
  have hsize : (BitVec.ofNat 32 n).toNat = n := by
    rw [BitVec.toNat_ofNat, Nat.mod_eq_of_lt (by omega)]
  have honly : OnlyIn (userAddr dir s.mem a) n s.mem
      (memmove s.mem (userAddr dir s.mem a) src (BitVec.ofNat 32 n)) := by
    have hmove := @onlyIn_memmove s.mem (userAddr dir s.mem a) src (BitVec.ofNat 32 n)
    rwa [hsize] at hmove
  have hpieces : pieces a n = [(a, n)] := by
    rw [pieces_cons hn (by omega : n = min n (0x1000 - a % 0x1000)), Nat.sub_self, pieces_zero]
  refine ⟨fun x hx => honly x fun hin => ?_, copyBytes_frames, ?_,
    fun x hx => honly x fun hin => ?_, fun hsrc hapart k hk => ?_⟩
  · exact h.not_inTables ha hx (hin.of_add (by omega) (by decide))
  · rw [hpieces, copyBytes, hsize]
    rfl
  · obtain ⟨k, hk, rfl⟩ := hin.exists_offset
    exact hx k hk (userAddr_add (by omega)).symm
  · have hfit : (userAddr dir s.mem a).toNat + n ≤ 2 ^ 32 := by
      have hframe := toNat_frame_add (i := 0x1000)
        (@isFrame_entryFrame (userEntry dir s.mem (a / 0x1000))) (Nat.le_refl _)
      rw [userAddr, toNat_add_ofNat (by omega)]
      omega
    have hmove := memmove_eq s.mem (userAddr dir s.mem a) src (BitVec.ofNat 32 n)
      (by rwa [hsize]) (by rwa [hsize])
    rw [hsize] at hmove
    rw [userAddr_add (by omega), copyOffset, if_pos (by omega)]
    refine (congrFun hmove _).trans ((if_pos (inBytes_add hk (by omega))).trans ?_)
    rw [BitVec.add_comm (userAddr dir s.mem a), BitVec.add_sub_cancel]

/-- The bytes of a page, and those that follow. -/
theorem CopiedTo.trans (h : CopySpace A dir s) (hu : ∀ k < n, UserMapped dir s.mem (a + k))
    (hn : 0 < n) (hc : c = min n (0x1000 - a % 0x1000)) (h₁ : CopiedTo dir src a c s s')
    (h₂ : CopiedTo dir src (a + c) (n - c) s' s'') : CopiedTo dir src a n s s'' := by
  have haddr : ∀ k < n, userAddr dir s'.mem (a + k) = userAddr dir s.mem (a + k) :=
    fun k hk => h₁.userAddr_eq (hu k hk).number_lt
  have hlater : ∀ k < n - c,
      userAddr dir s'.mem (a + c + k) = userAddr dir s.mem (a + (c + k)) := by
    intro k hk
    rw [Nat.add_assoc]
    exact haddr (c + k) (by omega)
  have hpieces : pieces a c = [(a, c)] := by
    have hsame : c = min c (0x1000 - a % 0x1000) := by omega
    rw [pieces_cons (by omega) hsame, Nat.sub_self, pieces_zero]
  have hwrites : (pieces (a + c) (n - c)).map (pieceWrite dir s'.mem) =
      (pieces (a + c) (n - c)).map (pieceWrite dir s.mem) := by
    refine List.map_congr_left fun p hp => ?_
    obtain ⟨hle, hlt, hpos, -⟩ := mem_pieces hp
    have hp := haddr (p.1 - a) (by omega)
    rw [Nat.add_sub_cancel' (by omega)] at hp
    rw [pieceWrite, pieceWrite, hp]
  refine ⟨h₁.kept.trans h₂.kept, h₂.frames.trans h₁.frames, ?_, fun x hx => ?_,
    fun hsrc hapart k hk => ?_⟩
  · rw [h₂.writes, h₁.writes, hwrites, hpieces, pieces_cons hn hc]
    simp only [List.map_cons, List.map_nil, List.reverse_cons, List.reverse_nil, List.nil_append,
      List.append_assoc]
  · rw [h₂.rest x fun k hk => ?_, h₁.rest x fun k hk => hx k (by omega)]
    rw [hlater k hk]
    exact hx (c + k) (by omega)
  · by_cases hfirst : k < c
    · -- the byte is not written again
      rw [h₂.rest _ fun j hj heq => ?_]
      · exact h₁.bytes (by omega) (fun k hk j hj => hapart k (by omega) j (by omega)) k hfirst
      · rw [hlater j hj] at heq
        have := h.userAddr_inj (hu k hk) (hu (c + j) (by omega)) heq
        omega
    · have hbyte := h₂.bytes (by omega) (fun k hk j hj => by
        rw [hlater k hk]
        exact hapart (c + k) (by omega) j (by omega)) (k - c) (by omega)
      have hoffset : copyOffset (a + c) (k - c) = copyOffset a k := by
        rw [copyOffset, copyOffset]
        split <;> split <;> omega
      have hlt : copyOffset a k < n := by
        rw [copyOffset]
        split <;> omega
      rw [hlater _ (by omega), Nat.add_sub_cancel' (by omega), hoffset] at hbyte
      exact hbyte.trans (h₁.rest _ fun j hj => hapart j (by omega) _ hlt)

/-! ### The loop -/

theorem pagingCopy_zero : pagingCopy dir dest src 0 s = (true, s) := by
  rw [pagingCopy, if_pos rfl]

theorem pagingCopy_stop (hne : nbytes ≠ 0) (hstop : pagingGetHigherHalfAddress dir dest s = 0) :
    pagingCopy dir dest src nbytes s = (false, s) := by
  rw [pagingCopy, if_neg hne]
  dsimp only
  rw [if_pos hstop]

theorem pagingCopy_next (hne : nbytes ≠ 0) (hnext : pagingGetHigherHalfAddress dir dest s ≠ 0) :
    pagingCopy dir dest src nbytes s =
      pagingCopy dir (dest + bytesInPage dest nbytes) src (nbytes - bytesInPage dest nbytes)
        (copyBytes s (pagingGetHigherHalfAddress dir dest s) src (bytesInPage dest nbytes)) := by
  rw [pagingCopy, if_neg hne]
  dsimp only
  rw [if_neg hnext]

/-- The loop copies the bytes up to an address, when all their pages are mapped with the user
    flag, and goes on from there. -/
theorem CopySpace.copy_prefix :
    ∀ (n : Nat) (dest nbytes : BitVec 32) (s : PagingState σ), CopySpace A dir s →
      n ≤ nbytes.toNat → (∀ k < n, UserMapped dir s.mem (dest.toNat + k)) →
      (n = 0 ∨ n = nbytes.toNat ∨ (dest.toNat + n) % 0x1000 = 0) →
      ∃ s', CopiedTo dir src dest.toNat n s s' ∧ pagingCopy dir dest src nbytes s =
        pagingCopy dir (dest + BitVec.ofNat 32 n) src (nbytes - BitVec.ofNat 32 n) s' := by
  intro n
  induction n using Nat.strongRecOn with
  | ind n ih =>
    intro dest nbytes s h hle hu hend
    rcases Nat.eq_zero_or_pos n with rfl | hn
    · refine ⟨s, .refl, ?_⟩
      rw [BitVec.add_zero, BitVec.sub_zero]
    · have ha : UserMapped dir s.mem dest.toNat := hu 0 hn
      have hne : nbytes ≠ 0 := by
        rintro rfl
        exact absurd hn (Nat.not_lt.mpr hle)
      have hhalf := higherHalf_user ha
      have hcount := @toNat_bytesInPage dest nbytes
      have hc : (bytesInPage dest nbytes).toNat = min n (0x1000 - dest.toNat % 0x1000) := by
        omega
      have hbytes : bytesInPage dest nbytes =
          BitVec.ofNat 32 (bytesInPage dest nbytes).toNat := by
        rw [BitVec.ofNat_toNat, BitVec.setWidth_eq]
      have hpage : CopiedTo dir src dest.toNat (bytesInPage dest nbytes).toNat s (copyBytes s
          (userAddr dir s.mem dest.toNat) src (BitVec.ofNat 32 (bytesInPage dest nbytes).toNat)) :=
        h.copiedTo_page ha (by omega) (by omega)
      have hlast := (hu (n - 1) (by omega)).1
      -- the rest, from the next page on
      have hdest : (dest + bytesInPage dest nbytes).toNat =
          dest.toNat + (bytesInPage dest nbytes).toNat := by
        rw [BitVec.toNat_add, Nat.mod_eq_of_lt (by omega)]
      have hrest : (nbytes - bytesInPage dest nbytes).toNat =
          nbytes.toNat - (bytesInPage dest nbytes).toNat := by
        rw [toNat_sub_bytesInPage, hcount]
      rw [← hbytes] at hpage
      have hu' : ∀ k < n - (bytesInPage dest nbytes).toNat, UserMapped dir
          (copyBytes s (userAddr dir s.mem dest.toNat) src (bytesInPage dest nbytes)).mem
          ((dest + bytesInPage dest nbytes).toNat + k) := by
        intro k hk
        rw [hdest, hpage.userMapped_iff, Nat.add_assoc]
        exact hu _ (by omega)
      obtain ⟨s', hcopied, hrun⟩ := ih (n - (bytesInPage dest nbytes).toNat) (by omega)
        (dest + bytesInPage dest nbytes) (nbytes - bytesInPage dest nbytes) _ (h.kept hpage)
        (by omega) hu' (by omega)
      rw [hdest] at hcopied
      refine ⟨s', .trans h hu hn hc hpage hcopied, ?_⟩
      have hsum : bytesInPage dest nbytes + BitVec.ofNat 32 (n - (bytesInPage dest nbytes).toNat) =
          BitVec.ofNat 32 n := by
        apply BitVec.eq_of_toNat_eq
        rw [BitVec.toNat_add, BitVec.toNat_ofNat, BitVec.toNat_ofNat]
        omega
      have hnext : pagingGetHigherHalfAddress dir dest s ≠ 0 := by
        rw [hhalf]
        exact h.userAddr_ne_zero ha
      rw [pagingCopy_next hne hnext, hhalf, hrun, BitVec.add_assoc, BitVec.sub_sub, hsum]

end copied

/-! ## Section 4: The Bytes -/

section bytes

variable {σ : Type*} {A : FrameAllocator σ} {dir dest src nbytes : BitVec 32} {s : PagingState σ}

/-- The destination is mapped with the user flag, and its frames do not overlap the source. -/
structure CopyTarget (dir dest src nbytes : BitVec 32) (m : Memory) : Prop where
  mapped : ∀ k < nbytes.toNat, UserMapped dir m (dest.toNat + k)
  source : src.toNat + nbytes.toNat ≤ 2 ^ 32
  apart : ∀ k < nbytes.toNat, ∀ j < nbytes.toNat,
    ¬InBytes (entryFrame (userEntry dir m ((dest.toNat + k) / 0x1000))) 0x1000
      (src + BitVec.ofNat 32 j)

/-- The copy succeeds, and the bytes of the destination, as its page tables have them, are those
    of the source. -/
def CopyWorks (dir dest src nbytes : BitVec 32) (s : PagingState σ) : Prop :=
  (pagingCopy dir dest src nbytes s).1 = true ∧ ∀ k < nbytes.toNat,
    (pagingCopy dir dest src nbytes s).2.mem
      (userAddr dir (pagingCopy dir dest src nbytes s).2.mem (dest.toNat + k)) =
        s.mem (src + BitVec.ofNat 32 k)

/-- What a copy to mapped pages does. -/
theorem CopySpace.copy_bytes (h : CopySpace A dir s) (ht : CopyTarget dir dest src nbytes s.mem) :
    (pagingCopy dir dest src nbytes s).1 = true ∧ ∀ k < nbytes.toNat,
      (pagingCopy dir dest src nbytes s).2.mem
        (userAddr dir (pagingCopy dir dest src nbytes s).2.mem (dest.toNat + k)) =
          s.mem (src + BitVec.ofNat 32 (copyOffset dest.toNat k)) := by
  obtain ⟨s', hcopied, hrun⟩ := @CopySpace.copy_prefix σ A dir src nbytes.toNat dest nbytes s h
    (Nat.le_refl _) ht.mapped (.inr (.inl rfl))
  have hnone : nbytes - BitVec.ofNat 32 nbytes.toNat = 0 := by
    rw [BitVec.ofNat_toNat, BitVec.setWidth_eq]
    exact BitVec.sub_self _
  rw [hnone, pagingCopy_zero] at hrun
  rw [hrun]
  refine ⟨rfl, fun k hk => ?_⟩
  dsimp only
  rw [hcopied.userAddr_eq (ht.mapped k hk).number_lt]
  refine hcopied.bytes ht.source (fun k hk j hj heq => ht.apart k hk j hj ?_) k hk
  rw [heq]
  exact inBytes_userAddr

/-- The copy is right exactly when the source has the same bytes for each page of the
    destination, after the first. -/
theorem pagingCopy_iff (h : CopySpace A dir s) (ht : CopyTarget dir dest src nbytes s.mem) :
    CopyWorks dir dest src nbytes s ↔
      ∀ k < nbytes.toNat, 0x1000 - dest.toNat % 0x1000 ≤ k →
        s.mem (src + BitVec.ofNat 32 k) =
          s.mem (src + BitVec.ofNat 32 ((dest.toNat + k) % 0x1000)) := by
  obtain ⟨htrue, hbytes⟩ := h.copy_bytes ht
  constructor
  · rintro ⟨-, hworks⟩ k hk hlater
    rw [← hworks k hk, hbytes k hk, copyOffset, if_neg (Nat.not_lt.mpr hlater)]
  · intro hsame
    refine ⟨htrue, fun k hk => ?_⟩
    rw [hbytes k hk, copyOffset]
    split
    · rfl
    · next hlater => exact (hsame k hk (Nat.not_lt.mp hlater)).symm

end bytes

/-! ## Section 5: Where It Writes -/

section confined

variable {σ : Type*} {A : FrameAllocator σ} {dir dest src nbytes : BitVec 32}
  {s s' : PagingState σ} {m : Memory} {a n : Nat} {b : Bool}

/-- The first `n` bytes of the range are written, which are in pages of the user half that are
    mapped with the user flag, and nothing else. When that is not the whole range, because
    there is a page that is not so mapped, the result is `false`. -/
structure WritesPrefix (dir dest nbytes : BitVec 32) (n : Nat) (s : PagingState σ) (b : Bool)
    (s' : PagingState σ) : Prop where
  le : n ≤ nbytes.toNat
  mapped : ∀ k < n, UserMapped dir s.mem (dest.toNat + k)
  writes : s'.writes = ((pieces dest.toNat n).map (pieceWrite dir s.mem)).reverse ++ s.writes
  inside : ∀ w ∈ (pieces dest.toNat n).map (pieceWrite dir s.mem), ∃ a, UserMapped dir s.mem a ∧
    ∀ x, InBytes w.addr w.size x →
      InBytes (entryFrame (userEntry dir s.mem (a / 0x1000))) 0x1000 x
  rest : ∀ x, (∀ k < n, x ≠ userAddr dir s.mem (dest.toNat + k)) → s'.mem x = s.mem x
  fails : (∃ k < nbytes.toNat, ¬UserMapped dir s.mem (dest.toNat + k)) → b = false

/-- `Paging_Copy` writes only to pages of the user half that are mapped with the user flag, up
    to the first that is not. -/
def CopyConfined (dir dest src nbytes : BitVec 32) (s : PagingState σ) : Prop :=
  ∃ n, WritesPrefix dir dest nbytes n s (pagingCopy dir dest src nbytes s).1
    (pagingCopy dir dest src nbytes s).2

/-- The range goes on into the kernel half, from mapped pages, and the first word of memory
    looks like the entry of a page with the user flag. -/
structure ReachesKernel (dir dest nbytes : BitVec 32) (m : Memory) : Prop where
  low : dest.toNat ≤ 0x80000000
  high : 0x80000000 < dest.toNat + nbytes.toNat
  mapped : ∀ a, dest.toNat ≤ a → a < 0x80000000 → UserMapped dir m a
  user : IsUser (load32 m kernelStart)
  address : pageAddress (load32 m kernelStart) ≠ 0x80000000

/-- The entry of the first 4 MB of the kernel half, which `Paging_Initialize` takes over from the
    directory of the kernel. -/
structure KernelHalf (dir : BitVec 32) (m : Memory) : Prop where
  present : IsPresent (pde dir m 512)
  address : pageAddress (pde dir m 512) = 0

/-- The first address of the kernel half is looked up in the first frame of memory. -/
theorem KernelHalf.higherHalf (h : KernelHalf dir s.mem) :
    pagingGetHigherHalfAddress dir kernelStart s =
      if IsUser (load32 s.mem kernelStart) then entryFrame (load32 s.mem kernelStart) else 0 := by
  have hidx : pageDirIdx kernelStart = 512 := by decide
  have htab : pageTabIdx kernelStart = 0 := by decide
  have htable : entryFrame (load32 s.mem (entryAddr dir 512)) = kernelStart := by
    have haddress : pageAddress (load32 s.mem (entryAddr dir 512)) = 0 := h.address
    rw [entryFrame, haddress]
    decide
  have hentry : entryAddr kernelStart 0 = kernelStart := BitVec.add_zero _
  have hmapped : pagingIsPageMapped dir kernelStart s =
      decide (load32 s.mem kernelStart ≠ 0) := by
    have hp : IsPresent (load32 s.mem (entryAddr dir 512)) := h.present
    rw [pagingIsPageMapped, hidx, htab, if_neg (not_not.mpr hp), htable, hentry]
  rw [pagingGetHigherHalfAddress, if_neg (by decide), hmapped]
  dsimp only
  rw [hidx, htab, htable, hentry]
  by_cases huser : IsUser (load32 s.mem kernelStart)
  · have hne : load32 s.mem kernelStart ≠ 0 := by
      intro hzero
      rw [hzero] at huser
      exact huser (by decide)
    rw [decide_eq_true hne, if_neg (by decide), if_neg (not_not.mpr huser), if_pos huser]
    exact BitVec.add_zero _
  · rw [if_pos huser, if_neg huser, ite_self]

theorem sum_pieces : ((pieces a n).map fun p => (pieceWrite dir m p).size).sum = n := by
  induction a, n using pieces.induct with
  | case1 a => rw [pieces_zero]; rfl
  | case2 a n hn ih =>
    rw [pieces_cons (by omega) rfl, List.map_cons, List.sum_cons, ih]
    show min n (0x1000 - a % 0x1000) + _ = n
    omega

theorem CopiedTo.writesPrefix (hc : CopiedTo dir src dest.toNat n s s') (hle : n ≤ nbytes.toNat)
    (hu : ∀ k < n, UserMapped dir s.mem (dest.toNat + k))
    (hb : (∃ k < nbytes.toNat, ¬UserMapped dir s.mem (dest.toNat + k)) → b = false) :
    WritesPrefix dir dest nbytes n s b s' where
  le := hle
  mapped := hu
  writes := hc.writes
  inside w hw := by
    obtain ⟨p, hp, rfl⟩ := List.mem_map.mp hw
    obtain ⟨hle, hlt, hpos, hpage⟩ := mem_pieces hp
    have ha := hu (p.1 - dest.toNat) (by omega)
    rw [Nat.add_sub_cancel' hle] at ha
    refine ⟨p.1, ha, fun x hx => ?_⟩
    exact InBytes.of_add hx hpage (by decide)
  rest := hc.rest
  fails := hb

/-- What was written before the kernel half is reached, and the part that is written then, are
    more than a prefix of mapped pages. -/
theorem WritesPrefix.not_beyond {hhalf part : BitVec 32} {s'' : PagingState σ} {g : Nat}
    (h : WritesPrefix dir dest nbytes n s b s'')
    (hbad : ¬UserMapped dir s.mem (dest.toNat + g)) (hpart : 0 < part.toNat)
    (hwrites : s''.writes = ⟨hhalf, part.toNat, none⟩ ::
      (((pieces dest.toNat g).map (pieceWrite dir s.mem)).reverse ++ s.writes)) : False := by
  have hle : n ≤ g := by
    by_contra hlt
    exact hbad (h.mapped g (by omega))
  have hsum := congrArg (fun l => (l.map PageWrite.size).sum) (h.writes.symm.trans hwrites)
  simp only [List.map_append, List.map_reverse, List.map_map, List.sum_append, List.sum_reverse,
    List.map_cons, List.sum_cons, Function.comp_def, sum_pieces] at hsum
  omega

/-- The first byte that is not in a mapped page is at the beginning of a page, or of the range. -/
theorem first_unmapped {g : Nat} (hu : ∀ k < g, UserMapped dir m (a + k))
    (hbad : ¬UserMapped dir m (a + g)) : g = 0 ∨ (a + g) % 0x1000 = 0 := by
  by_contra hboth
  rw [not_or] at hboth
  have hlast := hu (g - 1) (by omega)
  have hpage : (a + (g - 1)) / 0x1000 = (a + g) / 0x1000 := by omega
  rw [UserMapped, hpage] at hlast
  exact hbad ⟨by omega, hlast.2⟩

/-- The first word of memory is not in a page of the process. -/
theorem CopySpace.low_word (h : CopySpace A dir s) (hc : CopiedTo dir src a n s s')
    (hu : ∀ k < n, UserMapped dir s.mem (a + k)) :
    load32 s'.mem kernelStart = load32 s.mem kernelStart := by
  refine load32_congr fun x hx => hc.rest x fun k hk heq => ?_
  have hhigh := h.high _ (hu k hk).number_lt (hu k hk).2.1
  have hframe : IsFrame kernelStart := by
    rw [IsFrame]
    decide
  refine frames_apart hframe isFrame_entryFrame (fun heq => ?_) x (hx.mono (by decide))
    (heq ▸ inBytes_userAddr)
  rw [← heq] at hhigh
  exact absurd hhigh (by decide)

/-- Where the first word of memory looks like the entry of a page with the user flag, the frame
    in it is written to. -/
theorem KernelHalf.copy_on (h : KernelHalf dir s.mem) (hne : nbytes ≠ 0)
    (huser : IsUser (load32 s.mem kernelStart))
    (haddress : entryFrame (load32 s.mem kernelStart) ≠ 0) :
    ∃ b, pagingCopy dir kernelStart src nbytes s = (b, copyBytes s
      (entryFrame (load32 s.mem kernelStart)) src (bytesInPage kernelStart nbytes)) := by
  have hhalf := h.higherHalf
  rw [if_pos huser] at hhalf
  have hnext : pagingGetHigherHalfAddress dir kernelStart s ≠ 0 := by
    rw [hhalf]
    exact haddress
  rw [pagingCopy_next hne hnext, hhalf]
  by_cases hlast : nbytes - bytesInPage kernelStart nbytes = 0
  · rw [hlast, pagingCopy_zero]
    exact ⟨true, rfl⟩
  · have hbeyond : kernelStart < kernelStart + bytesInPage kernelStart nbytes := by
      have hpart := @toNat_bytesInPage kernelStart nbytes
      have hstart : kernelStart.toNat = 2 ^ 31 := rfl
      have hpos : nbytes.toNat ≠ 0 := fun heq => hne (BitVec.eq_of_toNat_eq heq)
      rw [BitVec.lt_def, BitVec.toNat_add, hstart]
      omega
    rw [pagingCopy_stop hlast (if_pos hbeyond)]
    exact ⟨false, rfl⟩

/-- The frame of an entry is at 0 when the entry has the second half of memory. -/
theorem entryFrame_eq_zero_iff {e : BitVec 32} : entryFrame e = 0 ↔ pageAddress e = 0x80000000 := by
  have hhalf : (0x80000000 : BitVec 32).toNat = 2 ^ 31 := rfl
  have hzero : (0 : BitVec 32).toNat = 0 := rfl
  have hlt := (pageAddress e).isLt
  rw [← BitVec.toNat_inj, ← BitVec.toNat_inj, entryFrame, kernAddr32, BitVec.toNat_add, hhalf,
    hzero]
  omega

/-- Where the whole range is mapped, all of it is written, and the kernel half is not reached. -/
theorem CopySpace.confined_of_mapped (h : CopySpace A dir s)
    (hall : ∀ k < nbytes.toNat, UserMapped dir s.mem (dest.toNat + k)) :
    CopyConfined dir dest src nbytes s ∧ ¬ReachesKernel dir dest nbytes s.mem := by
  obtain ⟨s', hcopied, hrun⟩ := @CopySpace.copy_prefix σ A dir src nbytes.toNat dest nbytes s h
    (Nat.le_refl _) hall (.inr (.inl rfl))
  have hnone : nbytes - BitVec.ofNat 32 nbytes.toNat = 0 := by
    rw [BitVec.ofNat_toNat, BitVec.setWidth_eq]
    exact BitVec.sub_self _
  rw [hnone, pagingCopy_zero] at hrun
  constructor
  · refine ⟨nbytes.toNat, ?_⟩
    rw [hrun]
    apply hcopied.writesPrefix (Nat.le_refl _) hall
    rintro ⟨k, hk, hbad⟩
    exact absurd (hall k hk) hbad
  · intro hr
    have hlow := hr.low
    have hhigh := hr.high
    have hlast := (hall (0x80000000 - dest.toNat) (by omega)).1
    omega

/-- The byte of the range at which the mapped pages end. -/
theorem exists_first_unmapped
    (hall : ¬∀ k < nbytes.toNat, UserMapped dir m (dest.toNat + k)) :
    ∃ g < nbytes.toNat, ¬UserMapped dir m (dest.toNat + g) ∧
      ∀ k < g, UserMapped dir m (dest.toNat + k) := by
  have hex : ∃ g, g < nbytes.toNat ∧ ¬UserMapped dir m (dest.toNat + g) := by
    simpa only [not_forall, exists_prop] using hall
  classical
  obtain ⟨hlt, hbad⟩ := Nat.find_spec hex
  refine ⟨Nat.find hex, hlt, hbad, fun k hk => ?_⟩
  by_contra hno
  exact Nat.find_min hex hk ⟨by omega, hno⟩

/-- The copy has come to the byte at which the mapped pages end. -/
structure CopyAtGap (A : FrameAllocator σ) (dir dest src nbytes : BitVec 32) (g : Nat)
    (s s' : PagingState σ) : Prop where
  space : CopySpace A dir s'
  copied : CopiedTo dir src dest.toNat g s s'
  run : pagingCopy dir dest src nbytes s = pagingCopy dir (dest + BitVec.ofNat 32 g) src
    (nbytes - BitVec.ofNat 32 g) s'
  dest_eq : (dest + BitVec.ofNat 32 g).toNat = dest.toNat + g
  left : nbytes - BitVec.ofNat 32 g ≠ 0

theorem CopySpace.copy_to_gap {g : Nat} (h : CopySpace A dir s) (hlt : g < nbytes.toNat)
    (hbad : ¬UserMapped dir s.mem (dest.toNat + g))
    (hu : ∀ k < g, UserMapped dir s.mem (dest.toNat + k)) :
    ∃ s', CopyAtGap A dir dest src nbytes g s s' := by
  obtain ⟨s', hcopied, hrun⟩ := @CopySpace.copy_prefix σ A dir src g dest nbytes s h
    (by omega) hu ((first_unmapped hu hbad).imp id .inr)
  have hdest : (dest + BitVec.ofNat 32 g).toNat = dest.toNat + g := by
    apply toNat_add_ofNat
    rcases Nat.eq_zero_or_pos g with rfl | hpos
    · exact dest.isLt
    · have hlast := (hu (g - 1) (by omega)).1
      omega
  have hleft : nbytes - BitVec.ofNat 32 g ≠ 0 := by
    intro hzero
    have hsub := congrArg BitVec.toNat hzero
    have hnone : (0 : BitVec 32).toNat = 0 := rfl
    rw [BitVec.toNat_sub, BitVec.toNat_ofNat, hnone] at hsub
    omega
  exact ⟨s', h.kept hcopied, hcopied, hrun, hdest, hleft⟩

/-- When the copy stops there, it has written the bytes before. -/
theorem CopyAtGap.confined {g : Nat} {s' : PagingState σ}
    (h : CopyAtGap A dir dest src nbytes g s s') (hlt : g < nbytes.toNat)
    (hu : ∀ k < g, UserMapped dir s.mem (dest.toNat + k))
    (hstop : pagingGetHigherHalfAddress dir (dest + BitVec.ofNat 32 g) s' = 0) :
    CopyConfined dir dest src nbytes s := by
  have hrun := h.run
  rw [pagingCopy_stop h.left hstop] at hrun
  refine ⟨g, ?_⟩
  rw [hrun]
  exact h.copied.writesPrefix (by omega) hu fun _ => rfl

/-- Where the mapped pages end at the kernel half, the first word of memory decides. -/
theorem CopyAtGap.confined_iff {g : Nat} {s' : PagingState σ} (hs : CopySpace A dir s)
    (h : CopyAtGap A dir dest src nbytes g s s') (hk : KernelHalf dir s.mem)
    (hlt : g < nbytes.toNat) (hbad : ¬UserMapped dir s.mem (dest.toNat + g))
    (hu : ∀ k < g, UserMapped dir s.mem (dest.toNat + k))
    (hend : dest + BitVec.ofNat 32 g = kernelStart) :
    CopyConfined dir dest src nbytes s ↔ ¬ReachesKernel dir dest nbytes s.mem := by
  have hk' : KernelHalf dir s'.mem := by
    constructor
    · rw [h.copied.kept.pde_eq (by decide)]
      exact hk.present
    · rw [h.copied.kept.pde_eq (by decide)]
      exact hk.address
  have hword := hs.low_word h.copied hu
  have hhalf := hk'.higherHalf
  rw [hword] at hhalf
  have hstart : dest.toNat + g = 0x80000000 := by
    rw [← h.dest_eq, hend]
    rfl
  by_cases hon : IsUser (load32 s.mem kernelStart) ∧ entryFrame (load32 s.mem kernelStart) ≠ 0
  · -- the frame of the first word is written to
    obtain ⟨b, hon'⟩ := @KernelHalf.copy_on _ _ src _ _ hk' h.left
      (hword ▸ hon.1) (hword ▸ hon.2)
    refine iff_of_false ?_ (not_not.mpr ⟨by omega, by omega, fun a hle hlt => ?_, hon.1,
      mt entryFrame_eq_zero_iff.mpr hon.2⟩)
    · rintro ⟨n, hw⟩
      rw [h.run, hend, hon'] at hw
      have hpart := @toNat_bytesInPage kernelStart (nbytes - BitVec.ofNat 32 g)
      have hpos : (nbytes - BitVec.ofNat 32 g).toNat ≠ 0 := fun heq =>
        h.left (BitVec.eq_of_toNat_eq heq)
      exact hw.not_beyond hbad (by omega) (congrArg (_ :: ·) h.copied.writes)
    · have ha := hu (a - dest.toNat) (by omega)
      rwa [Nat.add_sub_cancel' hle] at ha
  · refine iff_of_true (h.confined hlt hu ?_) fun hr => hon ⟨hr.user,
      mt entryFrame_eq_zero_iff.mp hr.address⟩
    rw [hend, hhalf]
    by_cases huser : IsUser (load32 s.mem kernelStart)
    · rw [if_pos huser]
      by_contra hne
      exact hon ⟨huser, hne⟩
    · exact if_neg huser

/-- A range whose mapped pages end elsewhere does not come to the kernel half. -/
theorem not_reachesKernel {g : Nat} (hlt : g < nbytes.toNat)
    (hbad : ¬UserMapped dir m (dest.toNat + g)) (hu : ∀ k < g, UserMapped dir m (dest.toNat + k))
    (hend : dest.toNat + g ≠ 0x80000000) : ¬ReachesKernel dir dest nbytes m := by
  intro hr
  have hlow := hr.low
  have hge : 0x80000000 ≤ dest.toNat + g := by
    by_contra hlow
    exact hbad (hr.mapped _ (by omega) (by omega))
  have hle : dest.toNat + g ≤ 0x80000000 := by
    by_contra hgt
    have hlast := (hu (0x80000000 - dest.toNat) (by omega)).1
    omega
  omega

/-- `Paging_Copy` writes where it should exactly when it does not come to the kernel half with a
    first word of memory that looks like the entry of a page with the user flag. -/
theorem copyConfined_iff (h : CopySpace A dir s) (hk : KernelHalf dir s.mem) :
    CopyConfined dir dest src nbytes s ↔ ¬ReachesKernel dir dest nbytes s.mem := by
  by_cases hall : ∀ k < nbytes.toNat, UserMapped dir s.mem (dest.toNat + k)
  · obtain ⟨hconfined, hnot⟩ := @CopySpace.confined_of_mapped σ A dir dest src nbytes s h hall
    exact iff_of_true hconfined hnot
  · obtain ⟨g, hlt, hbad, hu⟩ := exists_first_unmapped hall
    obtain ⟨s', hgap⟩ := @CopySpace.copy_to_gap σ A dir dest src nbytes s g h hlt hbad hu
    by_cases hend : dest + BitVec.ofNat 32 g = kernelStart
    · exact hgap.confined_iff h hk hlt hbad hu hend
    · -- the next page is not the first of the kernel half, and it is not mapped
      have hbad' : ¬UserMapped dir s'.mem (dest + BitVec.ofNat 32 g).toNat := by
        rwa [hgap.copied.userMapped_iff, hgap.dest_eq]
      have hstop := hgap.space.higherHalf_not_user hend hbad'
      refine iff_of_true (hgap.confined hlt hu hstop) (not_reachesKernel hlt hbad hu ?_)
      intro heq
      apply hend
      apply BitVec.eq_of_toNat_eq
      rw [hgap.dest_eq, heq]
      rfl

end confined

/-! ## Section 6: A Concrete Process -/

section concrete

variable {m m' : Memory} {f g v : BitVec 32} {i j k : Nat}

/-- What is written to another frame does not matter. -/
theorem pde_of_onlyIn (hf : IsFrame f) (hg : IsFrame g) (hne : f ≠ g) (hj : j < 1024)
    (h : OnlyIn g 0x1000 m m') : pde f m' j = pde f m j :=
  pde_congr (fun x hx => h x (frames_apart hf hg hne x hx)) hj

theorem onlyIn_entry (hi : i < 1024) : OnlyIn f 0x1000 m (store32 m (entryAddr f i) v) :=
  onlyIn_store32.of_add (by omega) (by decide)

def tableFrame : BitVec 32 := 0x80301000

def pageEntry (f : BitVec 32) : BitVec 32 := physAddr32 f ||| pageFlags

/-- The kernel half of the directory of a process, and a first word of memory that looks like an
    entry. -/
def kernelWords : Memory :=
  store32 (store32 (fun _ => 0) (entryAddr kernelStart 0) 7) (entryAddr bareDirectory 512) 0x83

/-- A process with the pages 1 and 2, and a byte in another frame. -/
def twoPages : Memory :=
  store8 (store32 (store32 (store32 kernelWords (entryAddr bareDirectory 0) (pageEntry tableFrame))
    (entryAddr tableFrame 1) (pageEntry 0x80302000)) (entryAddr tableFrame 2)
      (pageEntry 0x80303000)) 0x80304000 1

def twoPageProcess : PagingState (List (BitVec 20)) := ⟨twoPages, [], [], [], []⟩

theorem frames_of_process : IsFrame bareDirectory ∧ IsFrame tableFrame ∧ IsFrame kernelStart ∧
    IsFrame 0x80304000 ∧ IsFrame 0x80302000 ∧ IsFrame 0x80303000 := by
  simp only [IsFrame]
  decide

theorem pde_zero : pde f (fun _ => 0) j = 0 := load32_eq_zero fun _ _ => rfl

theorem pde_twoPages (hi : i < 1024) : pde bareDirectory twoPages i =
    if i = 0 then pageEntry tableFrame else if i = 512 then 0x83 else 0 := by
  obtain ⟨hdir, htable, hstart, hsource, -⟩ := frames_of_process
  rw [twoPages, pde_of_onlyIn hdir hsource (by decide) hi (onlyIn_store8.mono (by decide)),
    pde_of_onlyIn hdir htable (by decide) hi (onlyIn_entry (by decide)),
    pde_of_onlyIn hdir htable (by decide) hi (onlyIn_entry (by decide)),
    pde_install (by decide) hi, kernelWords, pde_install (by decide) hi,
    pde_of_onlyIn hdir hstart (by decide) hi (onlyIn_entry (by decide)), pde_zero]

theorem entry_twoPages (hj : j < 1024) : pde tableFrame twoPages j =
    if j = 2 then pageEntry 0x80303000 else if j = 1 then pageEntry 0x80302000 else 0 := by
  obtain ⟨hdir, htable, hstart, hsource, -⟩ := frames_of_process
  rw [twoPages, pde_of_onlyIn htable hsource (by decide) hj (onlyIn_store8.mono (by decide)),
    pde_install (by decide) hj, pde_install (by decide) hj,
    pde_of_onlyIn htable hdir (by decide) hj (onlyIn_entry (by decide)), kernelWords,
    pde_of_onlyIn htable hdir (by decide) hj (onlyIn_entry (by decide)),
    pde_of_onlyIn htable hstart (by decide) hj (onlyIn_entry (by decide)), pde_zero]

theorem low_word_twoPages : load32 twoPages kernelStart = 7 := by
  obtain ⟨hdir, htable, hstart, hsource, -⟩ := frames_of_process
  have hword : load32 twoPages kernelStart = pde kernelStart twoPages 0 := by
    rw [pde, entryAddr, Nat.mul_zero, BitVec.add_zero]
  have hj : 0 < 1024 := by decide
  rw [hword, twoPages,
    pde_of_onlyIn hstart hsource (by decide) hj (onlyIn_store8.mono (by decide)),
    pde_of_onlyIn hstart htable (by decide) hj (onlyIn_entry (by decide)),
    pde_of_onlyIn hstart htable (by decide) hj (onlyIn_entry (by decide)),
    pde_of_onlyIn hstart hdir (by decide) hj (onlyIn_entry (by decide)), kernelWords,
    pde_of_onlyIn hstart hdir (by decide) hj (onlyIn_entry (by decide)), pde_install hj hj,
    if_pos rfl]

theorem userEntry_twoPages (hk : k < 2 ^ 19) : userEntry bareDirectory twoPages k =
    if k = 2 then pageEntry 0x80303000 else if k = 1 then pageEntry 0x80302000 else 0 := by
  have htable : entryFrame (pageEntry tableFrame) = tableFrame :=
    entryFrame_physAddr frames_of_process.2.1
  rw [userEntry, pte, pde_twoPages (by omega)]
  by_cases hgroup : k / 1024 = 0
  · rw [if_pos hgroup, if_pos (by decide), htable]
    have hmod : k % 1024 = k := Nat.mod_eq_of_lt (by omega)
    rw [hmod]
    exact entry_twoPages (by omega)
  · have hkernel : ¬k / 1024 = 512 := by omega
    have htwo : ¬k = 2 := by omega
    have hone : ¬k = 1 := by omega
    have habsent : ¬IsPresent 0 := by decide
    rw [if_neg hgroup, if_neg hkernel, if_neg habsent, if_neg htwo, if_neg hone]

theorem ownerFrame_twoPages {o : Owner} (h : ownerFrame bareDirectory twoPages o = some f) :
    (o = .directory ∧ f = bareDirectory) ∨ (o = .table 0 ∧ f = tableFrame) ∨
      (o = .page 2 ∧ f = 0x80303000) ∨ (o = .page 1 ∧ f = 0x80302000) := by
  have habsent : ¬IsPresent 0 := by decide
  cases o with
  | directory => exact .inl ⟨rfl, (Option.some.inj h).symm⟩
  | table i =>
    obtain ⟨hi, hp, rfl⟩ := ownerFrame_table h
    rw [pde_twoPages (by omega)] at hp ⊢
    by_cases hzero : i = 0
    · subst hzero
      exact .inr (.inl ⟨rfl, entryFrame_physAddr frames_of_process.2.1⟩)
    · have hkernel : ¬i = 512 := by omega
      rw [if_neg hzero, if_neg hkernel] at hp
      exact absurd hp habsent
  | page k =>
    rw [ownerFrame_userEntry, Option.ite_none_right_eq_some, Option.some.injEq] at h
    obtain ⟨⟨hk, hp⟩, rfl⟩ := h
    rw [userEntry_twoPages hk] at hp ⊢
    by_cases htwo : k = 2
    · subst htwo
      exact .inr (.inr (.inl ⟨rfl, entryFrame_physAddr frames_of_process.2.2.2.2.2⟩))
    · by_cases hone : k = 1
      · subst hone
        exact .inr (.inr (.inr ⟨rfl, entryFrame_physAddr frames_of_process.2.2.2.2.1⟩))
      · rw [if_neg htwo, if_neg hone] at hp
        exact absurd hp habsent

theorem copySpace_twoPages : CopySpace frameList bareDirectory twoPageProcess := by
  refine ⟨⟨⟨frames_of_process.1, fun o o' f hf hf' => ?_⟩, ?_⟩, fun k hk hne => ?_,
    fun k hk hp => ?_⟩
  · obtain ⟨rfl, rfl⟩ | ⟨rfl, rfl⟩ | ⟨rfl, rfl⟩ | ⟨rfl, rfl⟩ := ownerFrame_twoPages hf <;>
      obtain ⟨rfl, heq⟩ | ⟨rfl, heq⟩ | ⟨rfl, heq⟩ | ⟨rfl, heq⟩ := ownerFrame_twoPages hf' <;>
      first
      | rfl
      | exact absurd heq (by decide)
  · rintro o f - ⟨n, hn, -⟩
    exact absurd hn List.not_mem_nil
  · have hsame : userEntry bareDirectory twoPageProcess.mem k = _ := userEntry_twoPages hk
    rw [hsame] at hne ⊢
    split
    · exact isPresent_pageFlags
    · split
      · exact isPresent_pageFlags
      · next htwo hone =>
        rw [if_neg htwo, if_neg hone] at hne
        exact absurd rfl hne
  · have hf : ownerFrame bareDirectory twoPages (.page k) =
        some (entryFrame (userEntry bareDirectory twoPages k)) := by
      rw [ownerFrame_userEntry, if_pos ⟨hk, hp⟩]
    obtain ⟨ho, -⟩ | ⟨ho, -⟩ | ⟨-, heq⟩ | ⟨-, heq⟩ := ownerFrame_twoPages hf
    · cases ho
    · cases ho
    · rw [show twoPageProcess.mem = twoPages from rfl, heq]
      decide
    · rw [show twoPageProcess.mem = twoPages from rfl, heq]
      decide

theorem kernelHalf_twoPages : KernelHalf bareDirectory twoPageProcess.mem := by
  have hentry : pde bareDirectory twoPageProcess.mem 512 = 0x83 := pde_twoPages (by decide)
  constructor
  · rw [hentry]
    decide
  · rw [hentry]
    decide

/-- The last byte of page 1 and the first byte of page 2. -/
theorem copyTarget_twoPages :
    CopyTarget bareDirectory 0x1FFF 0x80304000 2 twoPageProcess.mem := by
  have hone : userEntry bareDirectory twoPageProcess.mem 1 = pageEntry 0x80302000 :=
    userEntry_twoPages (by decide)
  have htwo : userEntry bareDirectory twoPageProcess.mem 2 = pageEntry 0x80303000 :=
    userEntry_twoPages (by decide)
  have hpages : ∀ k < 2, ∃ f, userEntry bareDirectory twoPageProcess.mem
      (((0x1FFF : BitVec 32).toNat + k) / 0x1000) = pageEntry f ∧
        (f = 0x80302000 ∨ f = 0x80303000) := by
    intro k hk
    rcases Nat.lt_succ_iff_lt_or_eq.mp hk with hk | rfl
    · obtain rfl : k = 0 := by omega
      exact ⟨_, hone, .inl rfl⟩
    · exact ⟨_, htwo, .inr rfl⟩
  refine ⟨fun k (hk : k < 2) => ?_, by decide, fun k (hk : k < 2) j (hj : j < 2) => ?_⟩
  · have hlast : (0x1FFF : BitVec 32).toNat = 0x1FFF := rfl
    obtain ⟨f, hf, rfl | rfl⟩ := hpages k hk <;> rw [UserMapped, hf, hlast] <;>
      exact ⟨by omega, by decide, by decide⟩
  · obtain ⟨f, hf, rfl | rfl⟩ := hpages k hk <;> rw [hf, InBytes] <;>
      rcases Nat.lt_succ_iff_lt_or_eq.mp hj with hj | rfl
    · obtain rfl : j = 0 := by omega
      decide
    · decide
    · obtain rfl : j = 0 := by omega
      decide
    · decide

theorem pagingCopy_iff_twoPages : CopyWorks bareDirectory 0x1FFF 0x80304000 2 twoPageProcess ↔
    ∀ k < (2 : BitVec 32).toNat, 0x1000 - (0x1FFF : BitVec 32).toNat % 0x1000 ≤ k →
      twoPageProcess.mem (0x80304000 + BitVec.ofNat 32 k) =
        twoPageProcess.mem (0x80304000 +
          BitVec.ofNat 32 (((0x1FFF : BitVec 32).toNat + k) % 0x1000)) :=
  pagingCopy_iff copySpace_twoPages copyTarget_twoPages

/-- The second byte of the source is not the first. -/
theorem not_forall_copyWorks :
    ¬∀ dest src nbytes, CopyTarget bareDirectory dest src nbytes twoPageProcess.mem →
      CopyWorks bareDirectory dest src nbytes twoPageProcess := by
  intro hall
  obtain ⟨-, hworks⟩ := hall 0x1FFF 0x80304000 2 copyTarget_twoPages
  obtain ⟨-, hbytes⟩ := copySpace_twoPages.copy_bytes copyTarget_twoPages
  have hsame := (hworks 1 (by decide)).symm.trans (hbytes 1 (by decide))
  have hdiffer : twoPageProcess.mem (0x80304000 + BitVec.ofNat 32 1) ≠
      twoPageProcess.mem (0x80304000 +
        BitVec.ofNat 32 (copyOffset (0x1FFF : BitVec 32).toNat 1)) := by
    decide +kernel
  exact hdiffer hsame

theorem copyConfined_iff_twoPages :
    CopyConfined bareDirectory kernelStart 0x80304000 1 twoPageProcess ↔
      ¬ReachesKernel bareDirectory kernelStart 1 twoPageProcess.mem :=
  copyConfined_iff copySpace_twoPages kernelHalf_twoPages

/-- The first frame of memory is written to. -/
theorem not_forall_copyConfined : ¬∀ dest src nbytes,
    CopyConfined bareDirectory dest src nbytes twoPageProcess := by
  intro hall
  obtain ⟨n, hw⟩ := hall kernelStart 0x80304000 1
  have hword : load32 twoPageProcess.mem kernelStart = 7 := low_word_twoPages
  obtain ⟨b, hrun⟩ := @KernelHalf.copy_on _ bareDirectory 0x80304000 1 twoPageProcess
    kernelHalf_twoPages (by decide) (by rw [hword]; decide) (by rw [hword]; decide)
  rw [hrun] at hw
  have hbad : ¬UserMapped bareDirectory twoPageProcess.mem (kernelStart.toNat + 0) :=
    fun hu => absurd hu.1 (by decide)
  have hpart : 0 < (bytesInPage kernelStart 1).toNat := by decide
  have hwrites : (copyBytes twoPageProcess (entryFrame (load32 twoPageProcess.mem kernelStart))
      0x80304000 (bytesInPage kernelStart 1)).writes =
        ⟨entryFrame (load32 twoPageProcess.mem kernelStart),
          (bytesInPage kernelStart 1).toNat, none⟩ ::
        (((pieces kernelStart.toNat 0).map
          (pieceWrite bareDirectory twoPageProcess.mem)).reverse ++ twoPageProcess.writes) := by
    rw [pieces_zero, copyBytes]
    rfl
  exact hw.not_beyond hbad hpart hwrites

end concrete

end Avos
