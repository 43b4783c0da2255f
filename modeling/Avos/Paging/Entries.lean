import Avos.Paging.Isolation

/-! # The Entries of the User Half

  The page tables of the user half hold one entry for each page: `userEntry`, by the number of
  the page, is the word in its page table, and 0 where there is none. That is all that
  `Paging_MapPage` and `Paging_UnmapPage` read and write there.

  The page tables have to be frames of their own (`TablesApart`), and the allocator has to
  leave them alone. Then each function changes the entry of its page and no other
  (`pagingMapPage_spec`, `pagingUnmapPage_spec`).
-/

open ByteMemory

namespace Avos

/-! ## Section 1: Pages by Number -/

/-- The number of the page at an address. -/
def pageNumber (va : BitVec 32) : Nat := va.toNat / 0x1000

/-- The place of the entry of page number `k`. -/
def entryOf (dir : BitVec 32) (m : Memory) (k : Nat) : BitVec 32 :=
  entryAddr (entryFrame (pde dir m (k / 1024))) (k % 1024)

/-- The entry of page number `k` in its page table. -/
def pte (dir : BitVec 32) (m : Memory) (k : Nat) : BitVec 32 :=
  load32 m (entryAddr (entryFrame (pde dir m (k / 1024))) (k % 1024))

/-- The entry of page number `k`, or 0 where there is no page table for it. -/
def userEntry (dir : BitVec 32) (m : Memory) (k : Nat) : BitVec 32 :=
  if IsPresent (pde dir m (k / 1024)) then pte dir m k else 0

/-- The directory and the page tables of the user half are frames of their own. -/
structure TablesApart (dir : BitVec 32) (m : Memory) : Prop where
  dirFrame : IsFrame dir
  ne_dir : ∀ i < 512, IsPresent (pde dir m i) → entryFrame (pde dir m i) ≠ dir
  unique : ∀ i j, i < 512 → j < 512 → IsPresent (pde dir m i) → IsPresent (pde dir m j) →
    entryFrame (pde dir m i) = entryFrame (pde dir m j) → i = j

/-- The byte belongs to the directory or to a page table of the user half. -/
def InTables (dir : BitVec 32) (m : Memory) (x : BitVec 32) : Prop :=
  InBytes dir 0x1000 x ∨
    ∃ i < 512, IsPresent (pde dir m i) ∧ InBytes (entryFrame (pde dir m i)) 0x1000 x

/-- The directory and the page tables are the same. -/
def TablesKept (dir : BitVec 32) (m m' : Memory) : Prop := ∀ x, InTables dir m x → m' x = m x

section entries

variable {dir va v t : BitVec 32} {m m' m'' : Memory} {i k n : Nat}

theorem pageDirIdx_eq_number : pageDirIdx va = pageNumber va / 1024 := by
  rw [pageDirIdx_eq, pageNumber]
  omega

theorem pageTabIdx_eq_number : pageTabIdx va = pageNumber va % 1024 := by
  rw [pageTabIdx, pageNumber, BitVec.toNat_and, BitVec.toNat_ushiftRight,
    Nat.shiftRight_eq_div_pow]
  exact Nat.and_two_pow_sub_one_eq_mod _ 10

theorem pageNumber_lt (hva : pageDirIdx va < 512) : pageNumber va < 2 ^ 19 := by
  rw [pageDirIdx_eq_number] at hva
  omega

theorem pageDirIdx_lt_of_lt (hva : va < kernelStart) : pageDirIdx va < 512 := by
  have := mt kernelStart_le_iff.mpr (BitVec.not_le.mpr hva)
  omega

theorem entryOf_pageNumber : entryAddr (entryFrame (pde dir m (pageDirIdx va))) (pageTabIdx va) =
    entryOf dir m (pageNumber va) := by
  rw [pageDirIdx_eq_number, pageTabIdx_eq_number, entryOf]

theorem load32_entryOf : load32 m (entryOf dir m k) = pte dir m k := rfl

theorem userEntry_of_present (hp : IsPresent (pde dir m (k / 1024))) :
    userEntry dir m k = pte dir m k := if_pos hp

theorem userEntry_of_absent (hp : ¬IsPresent (pde dir m (k / 1024))) : userEntry dir m k = 0 :=
  if_neg hp

/-! ## Section 2: Where the Tables Are Kept -/

theorem TablesKept.refl : TablesKept dir m m := fun _ _ => rfl

theorem TablesKept.pde_eq (h : TablesKept dir m m') (hi : i < 1024) :
    pde dir m' i = pde dir m i :=
  pde_congr (fun x hx => h x (.inl hx)) hi

theorem TablesKept.inTables {x : BitVec 32} (h : TablesKept dir m m') (hx : InTables dir m x) :
    InTables dir m' x := by
  rcases hx with hx | ⟨i, hi, hp, hx⟩
  · exact .inl hx
  · rw [← h.pde_eq (by omega)] at hp hx
    exact .inr ⟨i, hi, hp, hx⟩

theorem TablesKept.trans (h : TablesKept dir m m') (h' : TablesKept dir m' m'') :
    TablesKept dir m m'' := fun x hx => (h' x (h.inTables hx)).trans (h x hx)

theorem TablesKept.apart (h : TablesKept dir m m') (ht : TablesApart dir m) :
    TablesApart dir m' where
  dirFrame := ht.dirFrame
  ne_dir i hi hp := by
    rw [h.pde_eq (by omega)] at hp ⊢
    exact ht.ne_dir i hi hp
  unique i j hi hj hp hp' heq := by
    rw [h.pde_eq (by omega)] at hp heq
    rw [h.pde_eq (by omega)] at hp' heq
    exact ht.unique i j hi hj hp hp' heq

theorem TablesKept.entryOf_eq (h : TablesKept dir m m') (hk : k < 2 ^ 19) :
    entryOf dir m' k = entryOf dir m k := by
  rw [entryOf, entryOf, h.pde_eq (by omega)]

theorem TablesKept.userEntry_eq (h : TablesKept dir m m') (hk : k < 2 ^ 19) :
    userEntry dir m' k = userEntry dir m k := by
  rw [userEntry, userEntry, h.pde_eq (by omega)]
  split
  · next hp =>
    rw [← load32_entryOf, h.entryOf_eq hk]
    exact load32_congr fun x hx => h x (.inr ⟨_, by omega, hp,
      inBytes_entryAddr (Nat.mod_lt _ (by decide)) hx⟩)
  · rfl

/-! ## Section 3: Writing an Entry -/

/-- The bytes of an entry are in a page table. -/
theorem inBytes_entryOf {x : BitVec 32} (hx : InBytes (entryOf dir m k) 4 x) :
    InBytes (entryFrame (pde dir m (k / 1024))) 0x1000 x :=
  inBytes_entryAddr (Nat.mod_lt _ (by decide)) hx

theorem entryOf_apart (h : TablesApart dir m) (hk : k < 2 ^ 19) (hn : n < 2 ^ 19)
    (hp : IsPresent (pde dir m (k / 1024))) (hp' : IsPresent (pde dir m (n / 1024)))
    (hne : n ≠ k) : Apart (entryOf dir m n) 4 (entryOf dir m k) 4 := by
  by_cases htable : n / 1024 = k / 1024
  · rw [entryOf, entryOf, htable]
    exact entries_apart (Nat.mod_lt _ (by decide)) (Nat.mod_lt _ (by decide)) (by omega)
  · -- the entries are in different page tables
    intro x hx hx'
    refine frames_apart isFrame_entryFrame isFrame_entryFrame (fun heq => htable ?_) x
      (inBytes_entryOf hx) (inBytes_entryOf hx')
    exact h.unique _ _ (by omega) (by omega) hp' hp heq

theorem pde_store (h : TablesApart dir m) (hk : k < 2 ^ 19)
    (hp : IsPresent (pde dir m (k / 1024))) (hi : i < 1024) :
    pde dir (store32 m (entryOf dir m k) v) i = pde dir m i := by
  refine pde_congr (fun x hx => store32_frame fun hx' => ?_) hi
  exact frames_apart h.dirFrame isFrame_entryFrame (h.ne_dir _ (by omega) hp).symm x hx
    (inBytes_entryOf hx')

theorem TablesApart.of_pde (h : TablesApart dir m) (hpde : ∀ i < 1024, pde dir m' i = pde dir m i) :
    TablesApart dir m' where
  dirFrame := h.dirFrame
  ne_dir i hi hp := by
    rw [hpde i (by omega)] at hp ⊢
    exact h.ne_dir i hi hp
  unique i j hi hj hp hp' heq := by
    rw [hpde i (by omega)] at hp heq
    rw [hpde j (by omega)] at hp' heq
    exact h.unique i j hi hj hp hp' heq

/-- A word that is written to the place of an entry becomes the entry, and the others stay. -/
theorem userEntry_store (h : TablesApart dir m) (hk : k < 2 ^ 19)
    (hp : IsPresent (pde dir m (k / 1024))) (hn : n < 2 ^ 19) :
    userEntry dir (store32 m (entryOf dir m k) v) n = if n = k then v else userEntry dir m n := by
  have hpde := fun i hi => pde_store (v := v) (i := i) h hk hp hi
  rw [userEntry, userEntry, hpde _ (by omega)]
  by_cases hpn : IsPresent (pde dir m (n / 1024))
  · rw [if_pos hpn, if_pos hpn, pte, hpde _ (by omega)]
    split
    · next heq =>
      subst heq
      exact load32_store32
    · next hne => exact load32_store32_of_apart (entryOf_apart h hk hn hp hpn hne)
  · have hne : n ≠ k := fun heq => hpn (heq ▸ hp)
    rw [if_neg hpn, if_neg hpn, if_neg hne]

/-- The entries of the directory, when one of them is written. -/
theorem pde_install {j : Nat} (hi : i < 1024) (hj : j < 1024) :
    pde dir (store32 m (entryAddr dir i) v) j = if j = i then v else pde dir m j := by
  split
  · next heq =>
    subst heq
    exact load32_store32
  · next hne =>
    have hapart : Apart (entryAddr dir j) 4 (entryAddr dir i) 4 := entries_apart hj hi hne
    exact load32_store32_of_apart hapart

/-- A page table without entries changes no entry when it is put into the directory. -/
theorem userEntry_install (h : TablesApart dir m) (hi : i < 512)
    (hp : ¬IsPresent (pde dir m i)) (ht : IsFrame t) (hne : t ≠ dir)
    (hzero : ∀ j < 1024, load32 m (entryAddr t j) = 0) (hn : n < 2 ^ 19) :
    userEntry dir (store32 m (entryAddr dir i) (physAddr32 t ||| pageFlags)) n =
      userEntry dir m n := by
  have hframe : ∀ {g}, IsFrame g → g ≠ dir → ∀ j < 1024,
      load32 (store32 m (entryAddr dir i) (physAddr32 t ||| pageFlags)) (entryAddr g j) =
        load32 m (entryAddr g j) := by
    intro g hg hgdir j hj
    refine load32_store32_of_apart fun x hx hx' => ?_
    exact frames_apart hg h.dirFrame hgdir x (inBytes_entryAddr hj hx)
      (inBytes_entryAddr (by omega) hx')
  rw [userEntry, userEntry, pte, pde_install (by omega) (by omega)]
  by_cases hni : n / 1024 = i
  · rw [if_pos hni, if_pos isPresent_pageFlags, entryFrame_physAddr ht, hni, if_neg hp,
      hframe ht hne _ (Nat.mod_lt _ (by decide))]
    exact hzero _ (Nat.mod_lt _ (by decide))
  · rw [if_neg hni]
    split
    · next hpn =>
      exact hframe isFrame_entryFrame (h.ne_dir _ (by omega) hpn) _ (Nat.mod_lt _ (by decide))
    · rfl

theorem tablesApart_install (h : TablesApart dir m) (hi : i < 512) (ht : IsFrame t)
    (hdir : t ≠ dir) (hfresh : ¬IsUserTable dir m t) :
    TablesApart dir (store32 m (entryAddr dir i) (physAddr32 t ||| pageFlags)) := by
  have hother : ∀ j < 512, IsPresent (pde dir m j) → entryFrame (pde dir m j) ≠ t :=
    fun j hj hp heq => hfresh ⟨j, hj, hp, heq.symm⟩
  refine ⟨h.dirFrame, fun j hj hp => ?_, fun j j' hj hj' hp hp' heq => ?_⟩
  · rw [pde_install (by omega) (by omega)] at hp ⊢
    split at hp
    · next heq =>
      rw [if_pos heq, entryFrame_physAddr ht]
      exact hdir
    · next hne =>
      rw [if_neg hne]
      exact h.ne_dir j hj hp
  · rw [pde_install (by omega) (by omega)] at hp heq
    rw [pde_install (by omega) (by omega)] at hp' heq
    by_cases hji : j = i
    · by_cases hji' : j' = i
      · rw [hji, hji']
      · rw [if_neg hji'] at hp' heq
        rw [if_pos hji, entryFrame_physAddr ht] at heq
        exact absurd heq.symm (hother j' hj' hp')
    · rw [if_neg hji] at hp heq
      by_cases hji' : j' = i
      · rw [if_pos hji', entryFrame_physAddr ht] at heq
        exact absurd heq (hother j hj hp)
      · rw [if_neg hji'] at hp' heq
        exact h.unique j j' hj hj' hp hp' heq

/-- A frame that is neither the directory nor a page table may be changed. -/
theorem TablesKept.of_onlyIn (h : TablesApart dir m) (ht : IsFrame t) (hdir : t ≠ dir)
    (hfresh : ¬IsUserTable dir m t) (honly : OnlyIn t 0x1000 m m') : TablesKept dir m m' := by
  rintro x (hx | ⟨i, hi, hp, hx⟩)
  · exact honly x (frames_apart h.dirFrame ht hdir.symm x hx)
  · refine honly x (frames_apart isFrame_entryFrame ht (fun heq => hfresh ?_) x hx)
    exact ⟨i, hi, hp, heq.symm⟩

theorem load32_eq_zero {a : BitVec 32} (h : ∀ x, InBytes a 4 x → m x = 0) : load32 m a = 0 := by
  have hconst : load32 (fun _ => 0) a = 0 := by
    show (0 : BitVec 8) ++ (0 : BitVec 8) ++ (0 : BitVec 8) ++ (0 : BitVec 8) = (0 : BitVec 32)
    decide
  exact (load32_congr h).trans hconst

theorem load32_clearPage {σ : Type*} {s : PagingState σ} {j : Nat} (hj : j < 1024) :
    load32 (clearPage s t).mem (entryAddr t j) = 0 :=
  load32_eq_zero fun x hx => (congrFun (memset_eq (by decide)) x).trans
    (if_pos (inBytes_entryAddr hj hx))

end entries

/-! ## Section 4: The Functions -/

section functions

variable {σ : Type*} {A : FrameAllocator σ} {dir va pa : BitVec 32} {create : Bool}
  {s s' : PagingState σ} {k : Nat}

/-- `Page_Acquire` hands out neither the directory nor a page table, and leaves them alone. -/
structure AcquireSpares (A : FrameAllocator σ) (dir : BitVec 32) (s : PagingState σ) : Prop where
  kept : TablesKept dir s.mem (pageAcquire0 A s).2.mem
  fresh : ∀ f, (pageAcquire0 A s).1 = some f → f ≠ dir ∧ ¬IsUserTable dir s.mem f

/-- From `s` to `s'` page number `k` is mapped to `pa`, and maybe a page table is installed. -/
structure PageMapped (A : FrameAllocator σ) (dir pa : BitVec 32) (create : Bool) (k : Nat)
    (s s' : PagingState σ) : Prop where
  was : userEntry dir s.mem k = 0
  entries : ∀ n < 2 ^ 19,
    userEntry dir s'.mem n = if n = k then pa ||| pageFlags else userEntry dir s.mem n
  apart : TablesApart dir s'.mem
  released : s'.released = s.released
  table :
    (IsPresent (pde dir s.mem (k / 1024)) ∧ s'.acquired = s.acquired ∧ s'.frames = s.frames ∧
      ∀ i < 1024, pde dir s'.mem i = pde dir s.mem i) ∨
    ¬IsPresent (pde dir s.mem (k / 1024)) ∧ create = true ∧ ∃ t s₁,
      pageAcquire0 A s = (some t, s₁) ∧ s'.acquired = t :: s.acquired ∧ s'.frames = s₁.frames ∧
      ∀ i < 1024, pde dir s'.mem i =
        if i = k / 1024 then physAddr32 t ||| pageFlags else pde dir s.mem i

/-- From `s` to `s'` page number `k` could not be mapped, and nothing has changed. -/
structure PageNotMapped (A : FrameAllocator σ) (dir : BitVec 32) (create : Bool) (k : Nat)
    (s s' : PagingState σ) : Prop where
  why : userEntry dir s.mem k ≠ 0 ∨
    ¬IsPresent (pde dir s.mem (k / 1024)) ∧ (create = false ∨ (pageAcquire0 A s).1 = none)
  kept : TablesKept dir s.mem s'.mem
  acquired : s'.acquired = s.acquired
  released : s'.released = s.released
  frames : s' = s ∨ s' = (pageAcquire0 A s).2

theorem acquired_pageAcquire0 {o : Option (BitVec 32)} (h : pageAcquire0 A s = (o, s')) :
    s'.acquired = o.toList ++ s.acquired ∧ s'.released = s.released := by
  obtain rfl := congrArg Prod.fst h
  obtain rfl := congrArg Prod.snd h
  exact ⟨rfl, rfl⟩

theorem isFrame_pageAcquire0 {f : BitVec 32} (h : (pageAcquire0 A s).1 = some f) : IsFrame f :=
  A.isFrame s.frames f (A.acquire_free s.frames s.mem f h)

/-! ### The functions by number of the page -/

theorem pagingMapPage_eq : pagingMapPage A dir va pa create s =
    if ¬IsPresent (pde dir s.mem (pageNumber va / 1024)) then
      if ¬create then (false, s)
      else
        match pageAcquire0 A s with
        | (none, s) => (false, s)
        | (some table, s) => (true, mapInTable dir va pa table s)
    else if pte dir s.mem (pageNumber va) ≠ 0 then (false, s)
    else (true, writeEntry s (entryOf dir s.mem (pageNumber va)) (pa ||| pageFlags)
      (some (pageDirIdx va))) := by
  rw [← pageDirIdx_eq_number, ← load32_entryOf, ← entryOf_pageNumber]
  rfl

theorem pagingUnmapPage_eq : pagingUnmapPage A dir va s =
    if ¬IsPresent (pde dir s.mem (pageNumber va / 1024)) then (false, s)
    else if ¬IsPresent (pte dir s.mem (pageNumber va)) then (false, s)
    else (true, writeEntry (pageRelease0 A s (entryFrame (pte dir s.mem (pageNumber va))))
      (entryOf dir s.mem (pageNumber va)) 0 (some (pageDirIdx va))) := by
  rw [← pageDirIdx_eq_number, ← load32_entryOf, ← entryOf_pageNumber]
  rfl

/-- `Paging_IsPageMapped` reads the entry. -/
theorem pagingIsPageMapped_eq :
    pagingIsPageMapped dir va s = decide (userEntry dir s.mem (pageNumber va) ≠ 0) := by
  have heq : pagingIsPageMapped dir va s =
      if ¬IsPresent (pde dir s.mem (pageNumber va / 1024)) then false
      else decide (pte dir s.mem (pageNumber va) ≠ 0) := by
    rw [← pageDirIdx_eq_number, ← load32_entryOf, ← entryOf_pageNumber]
    rfl
  rw [heq, userEntry]
  by_cases hp : IsPresent (pde dir s.mem (pageNumber va / 1024))
  · rw [if_neg (not_not.mpr hp), if_pos hp]
  · rw [if_pos hp, if_neg hp]
    rfl

/-- The page gets an entry in the page table that is there. -/
theorem PageMapped.of_present (h : TablesApart dir s.mem) (hk : k < 2 ^ 19)
    (hp : IsPresent (pde dir s.mem (k / 1024))) (hzero : userEntry dir s.mem k = 0)
    {w : Option Nat} :
    PageMapped A dir pa create k s (writeEntry s (entryOf dir s.mem k) (pa ||| pageFlags) w) where
  was := hzero
  entries _ hn := userEntry_store h hk hp hn
  apart := h.of_pde fun _ hi => pde_store h hk hp hi
  released := rfl
  table := .inl ⟨hp, rfl, rfl, fun _ hi => pde_store h hk hp hi⟩

/-- The page gets an entry in a new page table. -/
theorem PageMapped.of_absent (h : TablesApart dir s.mem) (hva : pageDirIdx va < 512)
    (hp : ¬IsPresent (pde dir s.mem (pageDirIdx va))) (hspares : AcquireSpares A dir s)
    {t : BitVec 32} {s₁ : PagingState σ} (ha : pageAcquire0 A s = (some t, s₁)) :
    PageMapped A dir pa true (pageNumber va) s (mapInTable dir va pa t s₁) := by
  obtain rfl : (pageAcquire0 A s).2 = s₁ := by rw [ha]
  have hacquire : (pageAcquire0 A s).1 = some t := by rw [ha]
  have ht : IsFrame t := isFrame_pageAcquire0 hacquire
  obtain ⟨hdir, hfresh⟩ := hspares.fresh t hacquire
  -- the new page table is cleared
  have hclear : TablesKept dir s.mem (clearPage (pageAcquire0 A s).2 t).mem := by
    refine hspares.kept.trans (.of_onlyIn (hspares.kept.apart h) ht hdir ?_ fun x hx =>
      clearPage_frame hx)
    rwa [isUserTable_congr fun x hx => hspares.kept x (.inl hx)]
  have hfresh' : ¬IsUserTable dir (clearPage (pageAcquire0 A s).2 t).mem t := by
    rwa [isUserTable_congr fun x hx => hclear x (.inl hx)]
  have hp' : ¬IsPresent (pde dir (clearPage (pageAcquire0 A s).2 t).mem (pageDirIdx va)) := by
    rwa [hclear.pde_eq pageDirIdx_lt]
  have hk := pageNumber_lt hva
  have hidx : pageNumber va / 1024 = pageDirIdx va := pageDirIdx_eq_number.symm
  -- then it is installed, and it gets its first entry
  generalize hs₁ : clearPage (pageAcquire0 A s).2 t = s₁ at hclear hfresh' hp'
  have hapart := tablesApart_install (hclear.apart h) hva ht hdir hfresh'
  have hpde : ∀ i < 1024, pde dir (store32 s₁.mem (entryAddr dir (pageDirIdx va))
      (physAddr32 t ||| pageFlags)) i =
        if i = pageDirIdx va then physAddr32 t ||| pageFlags else pde dir s.mem i := by
    intro i hi
    rw [pde_install (by omega) hi, hclear.pde_eq hi]
  have hentry : ∀ n < 2 ^ 19, userEntry dir (store32 s₁.mem (entryAddr dir (pageDirIdx va))
      (physAddr32 t ||| pageFlags)) n = userEntry dir s.mem n := by
    intro n hn
    rw [userEntry_install (hclear.apart h) hva hp' ht hdir
      (fun j hj => hs₁ ▸ load32_clearPage hj) hn, hclear.userEntry_eq hn]
  have hself := hpde (pageNumber va / 1024) (by omega)
  rw [if_pos hidx] at hself
  have hplace : entryAddr t (pageTabIdx va) = entryOf dir (store32 s₁.mem
      (entryAddr dir (pageDirIdx va)) (physAddr32 t ||| pageFlags)) (pageNumber va) := by
    rw [entryOf, hself, entryFrame_physAddr ht, pageTabIdx_eq_number]
  have hpresent : IsPresent (pde dir (store32 s₁.mem (entryAddr dir (pageDirIdx va))
      (physAddr32 t ||| pageFlags)) (pageNumber va / 1024)) := by
    rw [hself]
    exact isPresent_pageFlags
  have hmem : (mapInTable dir va pa t (pageAcquire0 A s).2).mem =
      store32 (store32 s₁.mem (entryAddr dir (pageDirIdx va)) (physAddr32 t ||| pageFlags))
        (entryOf dir (store32 s₁.mem (entryAddr dir (pageDirIdx va)) (physAddr32 t ||| pageFlags))
          (pageNumber va)) (pa ||| pageFlags) := by
    rw [← hplace, ← hs₁]
    rfl
  obtain ⟨hacq, hrel⟩ := acquired_pageAcquire0 ha
  refine ⟨userEntry_of_absent (hidx ▸ hp), fun n hn => ?_, ?_, hrel, .inr ⟨hidx ▸ hp, rfl, t, _,
    ha, hacq, rfl, fun i hi => ?_⟩⟩
  · rw [hmem, userEntry_store hapart hk hpresent hn, hentry n hn]
  · rw [hmem]
    exact hapart.of_pde fun _ hi => pde_store hapart hk hpresent hi
  · rw [hmem, pde_store hapart hk hpresent hi, hpde i hi, hidx]

/-- `Paging_MapPage` maps a page that has no entry, if there is a page table for it or one can
    be made. -/
theorem pagingMapPage_spec (h : TablesApart dir s.mem) (hspares : AcquireSpares A dir s)
    (hva : va < kernelStart) :
    ∃ b s', pagingMapPage A dir va pa create s = (b, s') ∧
      if b then PageMapped A dir pa create (pageNumber va) s s'
      else PageNotMapped A dir create (pageNumber va) s s' := by
  have hidx := pageDirIdx_lt_of_lt hva
  have hk := pageNumber_lt hidx
  rw [pagingMapPage_eq]
  by_cases hp : IsPresent (pde dir s.mem (pageNumber va / 1024))
  · rw [if_neg (not_not.mpr hp), ← userEntry_of_present hp]
    by_cases hzero : userEntry dir s.mem (pageNumber va) = 0
    · rw [if_neg (not_not.mpr hzero)]
      exact ⟨true, _, rfl, .of_present h hk hp hzero⟩
    · rw [if_pos hzero]
      exact ⟨false, s, rfl, .inl hzero, .refl, rfl, rfl, .inl rfl⟩
  · rw [if_pos hp]
    cases create with
    | false => exact ⟨false, s, rfl, .inr ⟨hp, .inl rfl⟩, .refl, rfl, rfl, .inl rfl⟩
    | true =>
      rw [if_neg (by decide)]
      rcases ha : pageAcquire0 A s with ⟨_ | t, s₁⟩
      · obtain ⟨hacq, hrel⟩ := acquired_pageAcquire0 ha
        have hs₁ : (pageAcquire0 A s).2 = s₁ := by rw [ha]
        exact ⟨false, s₁, rfl, .inr ⟨hp, .inr (by rw [ha])⟩, hs₁ ▸ hspares.kept, hacq, hrel,
          .inr hs₁.symm⟩
      · exact ⟨true, _, rfl, .of_absent h hidx (pageDirIdx_eq_number ▸ hp) hspares ha⟩

/-- From `s` to `s'` page number `k` is unmapped, and its frame is given back. -/
structure PageUnmapped (A : FrameAllocator σ) (dir : BitVec 32) (k : Nat)
    (s s' : PagingState σ) : Prop where
  was : IsPresent (userEntry dir s.mem k)
  entries : ∀ n < 2 ^ 19, userEntry dir s'.mem n = if n = k then 0 else userEntry dir s.mem n
  apart : TablesApart dir s'.mem
  tables : ∀ i < 1024, pde dir s'.mem i = pde dir s.mem i
  acquired : s'.acquired = s.acquired
  released : s'.released = entryFrame (userEntry dir s.mem k) :: s.released
  frames : s'.frames = (pageRelease0 A s (entryFrame (userEntry dir s.mem k))).frames

/-- `Paging_UnmapPage` unmaps a page with a present entry, and leaves the others as they are. -/
theorem pagingUnmapPage_spec (h : TablesApart dir s.mem)
    (hkept : IsPresent (userEntry dir s.mem (pageNumber va)) → TablesKept dir s.mem
      (pageRelease0 A s (entryFrame (userEntry dir s.mem (pageNumber va)))).mem)
    (hva : va < kernelStart) :
    (∃ s', pagingUnmapPage A dir va s = (true, s') ∧ PageUnmapped A dir (pageNumber va) s s') ∨
      pagingUnmapPage A dir va s = (false, s) ∧
        ¬IsPresent (userEntry dir s.mem (pageNumber va)) := by
  have hidx := pageDirIdx_lt_of_lt hva
  have hk := pageNumber_lt hidx
  have habsent : ¬IsPresent 0 := by decide
  rw [pagingUnmapPage_eq]
  by_cases hp : IsPresent (pde dir s.mem (pageNumber va / 1024))
  · rw [if_neg (not_not.mpr hp), ← userEntry_of_present hp]
    by_cases hpte : IsPresent (userEntry dir s.mem (pageNumber va))
    · rw [if_neg (not_not.mpr hpte)]
      refine .inl ⟨_, rfl, ?_⟩
      have hkept := hkept hpte
      have hpde := fun i hi => hkept.pde_eq (i := i) hi
      have hp₁ := hp
      rw [← hpde _ (by omega)] at hp₁
      have hentry : ∀ n < 2 ^ 19, userEntry dir (store32 (pageRelease0 A s (entryFrame
          (userEntry dir s.mem (pageNumber va)))).mem (entryOf dir s.mem (pageNumber va)) 0) n =
            if n = pageNumber va then 0 else userEntry dir s.mem n := by
        intro n hn
        rw [← hkept.entryOf_eq hk, userEntry_store (hkept.apart h) hk hp₁ hn,
          hkept.userEntry_eq hn]
      have htables : ∀ i < 1024, pde dir (store32 (pageRelease0 A s (entryFrame
          (userEntry dir s.mem (pageNumber va)))).mem (entryOf dir s.mem (pageNumber va)) 0) i =
            pde dir s.mem i := by
        intro i hi
        rw [← hkept.entryOf_eq hk, pde_store (hkept.apart h) hk hp₁ hi, hpde i hi]
      exact ⟨hpte, hentry, h.of_pde htables, htables, rfl, rfl, rfl⟩
    · rw [if_pos hpte]
      exact .inr ⟨rfl, hpte⟩
  · rw [if_pos hp, userEntry_of_absent hp]
    exact .inr ⟨rfl, habsent⟩

end functions

end Avos
