import Avos.Paging.Clone

/-! # The Directory of the Kernel

  `Initialize_Memory` fills `Kernel_pagedirectory`: pages of 4 MB map the addresses from
  `0x80000000` on to the memory from 0 on, and those from `0xF0000000` on to themselves. The
  directory of a process has the same entries for its upper half (`HasKernelHalf`).

  `translate` is what the processor makes of a directory: where an address leads to, and whether
  it may be written, and used in user mode.
-/

open ByteMemory

namespace Avos

/-! ## Section 1: The Code -/

/-- `PAGING_EXTPAGESIZE`. -/
def pagingExtPageSize : BitVec 32 := 0x400000

/-- The flags `PRESENT | READWRITE | PSE`. -/
def kernelFlags : BitVec 32 := 0x83

/-- A loop of `Initialize_Memory`: as long as `more` holds, `entry i` is written for the address
    `i`, with a bound on the number of rounds. -/
def entryLoop (pd : BitVec 32) (more : BitVec 32 → Prop) [DecidablePred more]
    (entry : BitVec 32 → BitVec 32) : Nat → BitVec 32 → Memory → Memory
  | 0, _, m => m
  | n + 1, i, m =>
      if more i then
        entryLoop pd more entry n (i + pagingExtPageSize)
          (store32 m (entryAddr pd (pageDirIdx i)) (entry i))
      else m

/-- The loops of `Initialize_Memory`. The directory is written through the identity mapping of
    the first 4 MB. -/
def initializeMemory (m : Memory) (pd : BitVec 32) : Memory :=
  let m := entryLoop pd (· < 0x80000000) (fun _ => 0) 1024 pagingExtPageSize m
  let m := entryLoop pd (· < 0xF0000000) (fun i => (i - 0x80000000) ||| kernelFlags) 1024
    0x80000000 m
  entryLoop pd (0 < ·) (fun i => i ||| kernelFlags) 1024 0xF0000000 m

/-- Where an address leads to, and what it may be used for. -/
structure Translation where
  pa : BitVec 32
  write : Bool
  user : Bool
deriving DecidableEq

/-- `PAGING_PDE_PSE`, `PAGING_PDE_READWRITE` and `PAGING_PDE_USER`. -/
def HasFlag (entry flag : BitVec 32) : Prop := entry &&& flag ≠ 0

instance (entry flag : BitVec 32) : Decidable (HasFlag entry flag) :=
  inferInstanceAs (Decidable (_ ≠ _))

/-- What the processor makes of the directory, when `CR4_PSE` and `CR0_WP` are set. -/
def translate (dir : BitVec 32) (m : Memory) (va : BitVec 32) : Option Translation :=
  let e := pde dir m (pageDirIdx va)
  if ¬IsPresent e then none
  else if HasFlag e 0x80 then
    some ⟨(e &&& ~~~0x3FFFFF) + (va &&& 0x3FFFFF), HasFlag e 2, HasFlag e 4⟩
  else
    let e' := load32 m (entryAddr (entryFrame e) (pageTabIdx va))
    if ¬IsPresent e' then none
    else some ⟨pageAddress e' + pageOffset va, HasFlag e 2 ∧ HasFlag e' 2,
      HasFlag e 4 ∧ HasFlag e' 4⟩

/-! ## Section 2: The Property -/

/-- An entry of the upper half, as `Initialize_Memory` makes it. -/
def kernelEntry (i : Nat) : BitVec 32 :=
  if i < 960 then BitVec.ofNat 32 ((i - 512) * 0x400000) ||| kernelFlags
  else BitVec.ofNat 32 (i * 0x400000) ||| kernelFlags

/-- A directory has the entries of the kernel for its upper half. -/
def HasKernelHalf (dir : BitVec 32) (m : Memory) : Prop :=
  ∀ i, 512 ≤ i → i < 1024 → pde dir m i = kernelEntry i

/-- Where an address of the upper half leads to: memory, or devices. -/
def kernelTarget (va : BitVec 32) : BitVec 32 := if va < 0xF0000000 then physAddr32 va else va

/-! ## Section 3: The Loops -/

section loops

variable {pd x : BitVec 32} {more : BitVec 32 → Prop} [DecidablePred more]
  {entry : BitVec 32 → BitVec 32} {m : Memory} {last i n : Nat}

/-- The address of the page with number `i`. -/
def extPage (i : Nat) : BitVec 32 := BitVec.ofNat 32 (i * 0x400000)

theorem pageDirIdx_extPage (hi : i < 1024) : pageDirIdx (extPage i) = i := by
  rw [pageDirIdx_eq, extPage, BitVec.toNat_ofNat]
  omega

theorem extPage_succ : extPage i + pagingExtPageSize = extPage (i + 1) := by
  rw [extPage, extPage, Nat.succ_mul, BitVec.ofNat_add]
  rfl

/-- The entries `first` to `last - 1` are written, and no others. -/
theorem entryLoop_entries (first : Nat) (hmore : ∀ j, first ≤ j → j < last → more (extPage j))
    (hstop : ¬more (extPage last)) (hlast : last ≤ 1024) (hi : i < 1024) :
    ∀ first' ≤ last, first ≤ first' → last - first' < n → ∀ m,
      pde pd (entryLoop pd more entry n (extPage first') m) i =
        if first' ≤ i ∧ i < last then entry (extPage i) else pde pd m i := by
  induction n with
  | zero => exact fun first' _ _ hn => absurd hn (Nat.not_lt_zero _)
  | succ n ih =>
    intro first' hle hfirst hn m
    rw [entryLoop]
    rcases Nat.lt_or_eq_of_le hle with hlt | rfl
    · rw [if_pos (hmore first' hfirst hlt), extPage_succ, ih (first' + 1) hlt (by omega) (by omega),
        pageDirIdx_extPage (by omega)]
      by_cases heq : i = first'
      · subst heq
        rw [if_neg (by omega), if_pos ⟨Nat.le_refl _, hlt⟩]
        exact load32_store32
      · have hkept : pde pd (store32 m (entryAddr pd first') (entry (extPage first'))) i =
            pde pd m i := load32_store32_of_apart (entries_apart hi (by omega) heq)
        rw [hkept]
        exact if_congr (by omega) rfl rfl
    · rw [if_neg hstop, if_neg (by omega)]

/-- No other memory is written. -/
theorem entryLoop_frame (hx : ¬InBytes pd 0x1000 x) :
    ∀ va m, entryLoop pd more entry n va m x = m x := by
  induction n with
  | zero => exact fun _ _ => rfl
  | succ n ih =>
    intro va m
    rw [entryLoop]
    split
    · rw [ih]
      exact store32_frame fun hin => hx (inBytes_entryAddr pageDirIdx_lt hin)
    · rfl

/-- The page with number `i` is below the one with number `k`. -/
theorem extPage_lt_iff {k : Nat} (hi : i < 1024) (hk : k < 1024) :
    extPage i < extPage k ↔ i < k := by
  rw [BitVec.lt_def, extPage, extPage, BitVec.toNat_ofNat, BitVec.toNat_ofNat]
  omega

/-- The directory of the kernel: the first entry stays, the lower half is empty, and the upper
    half maps memory and devices. -/
theorem pde_initializeMemory (hi : i < 1024) : pde pd (initializeMemory m pd) i =
    if i = 0 then pde pd m 0 else if i < 512 then 0 else kernelEntry i := by
  have h512 : (0x80000000 : BitVec 32) = extPage 512 := by decide
  have h960 : (0xF0000000 : BitVec 32) = extPage 960 := by decide
  have hwrap : extPage 1024 = 0 := by decide
  have hlow : ∀ m, pde pd (entryLoop pd (· < 0x80000000) (fun _ => 0) 1024 (extPage 1) m) i =
      if 1 ≤ i ∧ i < 512 then 0 else pde pd m i := by
    refine entryLoop_entries 1 (fun j _ hj => ?_) ?_ (by omega) hi 1 (by omega)
      (Nat.le_refl _) (by omega)
    · rw [h512, extPage_lt_iff (by omega) (by omega)]
      exact hj
    · rw [h512]
      exact BitVec.lt_irrefl _
  have hmiddle : ∀ m, pde pd (entryLoop pd (· < 0xF0000000)
      (fun i => (i - 0x80000000) ||| kernelFlags) 1024 (extPage 512) m) i =
      if 512 ≤ i ∧ i < 960 then (extPage i - 0x80000000) ||| kernelFlags else pde pd m i := by
    refine entryLoop_entries 512 (fun j _ hj => ?_) ?_ (by omega) hi 512 (by omega)
      (Nat.le_refl _) (by omega)
    · rw [h960, extPage_lt_iff (by omega) (by omega)]
      exact hj
    · rw [h960]
      exact BitVec.lt_irrefl _
  have hhigh : ∀ m, pde pd (entryLoop pd (0 < ·) (fun i => i ||| kernelFlags) 1024
      (extPage 960) m) i =
      if 960 ≤ i ∧ i < 1024 then extPage i ||| kernelFlags else pde pd m i := by
    refine entryLoop_entries 960 (fun j hle hj => ?_) ?_ (by omega) hi 960 (by omega)
      (Nat.le_refl _) (by omega)
    · have hzero : (0 : BitVec 32).toNat = 0 := rfl
      rw [BitVec.lt_def, extPage, BitVec.toNat_ofNat, hzero]
      omega
    · rw [hwrap]
      exact BitVec.lt_irrefl _
  refine (hhigh _).trans ?_
  rw [kernelEntry]
  by_cases hle : 960 ≤ i
  · rw [if_pos ⟨hle, hi⟩, if_neg (by omega), if_neg (by omega), if_neg (by omega)]
    rfl
  rw [if_neg (by omega), if_pos (by omega : i < 960)]
  refine (hmiddle _).trans ?_
  by_cases hle' : 512 ≤ i
  · have hsub : extPage i - 0x80000000 = BitVec.ofNat 32 ((i - 512) * 0x400000) := by
      have h31 : (0x80000000 : BitVec 32).toNat = 2 ^ 31 := rfl
      refine BitVec.eq_of_toNat_eq ?_
      rw [BitVec.toNat_sub, extPage, BitVec.toNat_ofNat, BitVec.toNat_ofNat, h31]
      omega
    rw [if_pos (by omega), if_neg (by omega), if_neg (by omega), hsub]
  rw [if_neg (by omega), if_pos (by omega : i < 512)]
  refine (hlow _).trans ?_
  by_cases hzero : i = 0
  · rw [if_neg (by omega), if_pos hzero, hzero]
  · rw [if_pos (by omega), if_neg hzero]

/-- `Initialize_Memory` writes to the directory only. -/
theorem initializeMemory_frame (hx : ¬InBytes pd 0x1000 x) : initializeMemory m pd x = m x :=
  (entryLoop_frame hx _ _).trans ((entryLoop_frame hx _ _).trans (entryLoop_frame hx _ _))

theorem hasKernelHalf_initializeMemory : HasKernelHalf pd (initializeMemory m pd) := by
  intro i hle hi
  rw [pde_initializeMemory hi, if_neg (by omega), if_neg (by omega)]

end loops

/-! ## Section 4: What the Upper Half Says -/

section upper

variable {dir va : BitVec 32} {m : Memory} {i : Nat}

theorem extPage_and : extPage i &&& 0x3FFFFF = 0 := by
  refine BitVec.eq_of_toNat_eq ?_
  rw [BitVec.toNat_and, extPage, BitVec.toNat_ofNat]
  have hmod : i * 0x400000 % 2 ^ 32 % 2 ^ 22 = 0 := by omega
  exact (Nat.and_two_pow_sub_one_eq_mod _ 22).trans hmod

/-- The flags of an entry for 4 MB. -/
theorem extPage_flag {flag : BitVec 32} (hflag : 0x3FFFFF &&& flag = flag) :
    (extPage i ||| kernelFlags) &&& flag = kernelFlags &&& flag := by
  have hzero : extPage i &&& flag = 0 := by
    rw [← hflag, ← BitVec.and_assoc, extPage_and]
    exact BitVec.zero_and
  rw [BitVec.and_or_distrib_right, hzero]
  exact BitVec.zero_or

/-- The address of an entry for 4 MB. -/
theorem extPage_address : (extPage i ||| kernelFlags) &&& ~~~0x3FFFFF = extPage i := by
  have hflags : kernelFlags &&& ~~~0x3FFFFF = 0 := by decide
  have hpage : (extPage i &&& ~~~0x3FFFFF).toNat = (extPage i).toNat / 2 ^ 22 * 2 ^ 22 :=
    toNat_and_not_lowBits (k := 22)
  rw [BitVec.and_or_distrib_right, hflags]
  refine BitVec.or_zero.trans (BitVec.eq_of_toNat_eq ?_)
  rw [hpage, extPage, BitVec.toNat_ofNat]
  omega

theorem kernelEntry_eq (hle : 512 ≤ i) (hi : i < 1024) :
    ∃ k, kernelEntry i = extPage k ||| kernelFlags ∧ k < 1024 ∧
      (i < 960 ∧ k + 512 = i ∨ 960 ≤ i ∧ k = i) := by
  rw [kernelEntry]
  split
  · next h => exact ⟨i - 512, rfl, by omega, .inl ⟨h, by omega⟩⟩
  · next h => exact ⟨i, rfl, hi, .inr ⟨by omega, rfl⟩⟩

/-- The upper half leads to memory and to devices, and is not for user mode. -/
theorem HasKernelHalf.translate_eq (h : HasKernelHalf dir m) (hva : kernelStart ≤ va) :
    translate dir m va = some ⟨kernelTarget va, true, false⟩ := by
  have hle := kernelStart_le_iff.mp hva
  obtain ⟨k, hk, hlt, hcase⟩ := kernelEntry_eq hle pageDirIdx_lt
  have hentry : pde dir m (pageDirIdx va) = extPage k ||| kernelFlags :=
    (h _ hle pageDirIdx_lt).trans hk
  have hpresent : IsPresent (extPage k ||| kernelFlags) := by
    rw [IsPresent, extPage_flag (by decide)]
    decide
  have hbig : HasFlag (extPage k ||| kernelFlags) 0x80 := by
    rw [HasFlag, extPage_flag (by decide)]
    decide
  have hwrite : HasFlag (extPage k ||| kernelFlags) 2 := by
    rw [HasFlag, extPage_flag (by decide)]
    decide
  have hkernel : ¬HasFlag (extPage k ||| kernelFlags) 4 := by
    rw [HasFlag, extPage_flag (by decide)]
    decide
  have htarget : extPage k + (va &&& 0x3FFFFF) = kernelTarget va := by
    have hlow : (va &&& 0x3FFFFF).toNat = va.toNat % 2 ^ 22 := by
      rw [BitVec.toNat_and]
      exact Nat.and_two_pow_sub_one_eq_mod _ 22
    have h31 : (0x80000000 : BitVec 32).toNat = 2 ^ 31 := rfl
    have hF : (0xF0000000 : BitVec 32).toNat = 960 * 2 ^ 22 := rfl
    have hv := va.isLt
    rw [pageDirIdx_eq] at hcase
    refine BitVec.eq_of_toNat_eq ?_
    rw [BitVec.toNat_add, hlow, extPage, BitVec.toNat_ofNat, kernelTarget]
    split
    · next hmem =>
      rw [BitVec.lt_def, hF] at hmem
      rw [physAddr32, BitVec.toNat_sub, h31]
      omega
    · next hdev =>
      rw [BitVec.lt_def, hF] at hdev
      omega
  rw [translate, hentry]
  dsimp only
  rw [if_neg (not_not.mpr hpresent), if_pos hbig, extPage_address, htarget, decide_eq_true hwrite,
    decide_eq_false hkernel]

end upper

end Avos
