import Avos.Paging.UserMap
import Mathlib.Data.List.Nodup

/-! # Ranges of Pages

  `Paging_MapPages` maps the pages of a range one by one, each to a frame that it acquires,
  until it comes to one that it cannot map (`Stuck`): the pages before it are mapped, to
  frames of their own, and nothing else changes but for the page tables that they need
  (`pagingMapPages_prefix`). `Paging_UnmapPages` gives the frames of a range back, and takes
  back what `Paging_MapPages` has mapped (`pagingUnmapPages_undoes`).
-/

open ByteMemory

namespace Avos

/-! ## Section 1: What Is Mapped -/

/-- The frames of the `n` pages from number `k` on. -/
def pageFrames (dir : BitVec 32) (m : Memory) (k n : Nat) : List (BitVec 32) :=
  (List.range' k n).map fun i => entryFrame (userEntry dir m i)

/-- The page tables that `m'` has and `m` has not. -/
def newTables (dir : BitVec 32) (m m' : Memory) : List (BitVec 32) :=
  (List.range 512).filterMap fun i =>
    if IsPresent (pde dir m' i) ∧ ¬IsPresent (pde dir m i) then some (entryFrame (pde dir m' i))
    else none

/-- How many pages hold the bytes from `va` to `va + size - 1`. -/
def pageCount (va size : BitVec 32) : Nat :=
  (va.toNat + size.toNat - 1) / 0x1000 + 1 - pageNumber va

section definitions

variable {σ : Type*} (A : FrameAllocator σ) (dir : BitVec 32)

/-- From `s` to `s'` the `n` pages from number `k` on are mapped, to frames that were free, and
    page tables are installed where there were none. The frames `back` were taken and given
    back. -/
structure RangeMapped (k n : Nat) (back : List (BitVec 32)) (s s' : PagingState σ) : Prop where
  owns : Owns A dir s'
  was : ∀ i, k ≤ i → i < k + n → userEntry dir s.mem i = 0
  mapped : ∀ i, k ≤ i → i < k + n →
    userEntry dir s'.mem i = physAddr32 (entryFrame (userEntry dir s'.mem i)) ||| pageFlags
  others : ∀ i < 2 ^ 19, ¬(k ≤ i ∧ i < k + n) → userEntry dir s'.mem i = userEntry dir s.mem i
  tables : ∀ i < 1024, IsPresent (pde dir s.mem i) → pde dir s'.mem i = pde dir s.mem i
  installed : ∀ i < 1024, ¬IsPresent (pde dir s.mem i) → pde dir s'.mem i = pde dir s.mem i ∨
    (∃ j, k ≤ j ∧ j < k + n ∧ j / 1024 = i) ∧ IsPresent (pde dir s'.mem i)
  fresh : ∀ f ∈ pageFrames dir s'.mem k n ++ newTables dir s.mem s'.mem, A.free s.frames f
  distinct : (pageFrames dir s'.mem k n ++ newTables dir s.mem s'.mem).Nodup
  taken : s'.acquired.Perm
    (back ++ (pageFrames dir s'.mem k n ++ newTables dir s.mem s'.mem) ++ s.acquired)
  given : s'.released = back ++ s.released
  spent : ∀ f, A.free s'.frames f → A.free s.frames f

/-- Page number `k` cannot be mapped: it is mapped already, or there is no frame for it, or
    none for its page table. -/
def Stuck (k : Nat) (s : PagingState σ) : Prop :=
  userEntry dir s.mem k ≠ 0 ∨ (pageAcquire0 A s).1 = none ∨
    ¬IsPresent (pde dir s.mem (k / 1024)) ∧ (pageAcquire0 A (pageAcquire0 A s).2).1 = none

/-- From `s` to `s'` page number `k` is mapped to the frame `p`, which was free. -/
structure PageAdded (p : BitVec 32) (k : Nat) (s s' : PagingState σ) : Prop where
  owns : Owns A dir s'
  free : A.free s.frames p
  spent : ∀ f, A.free s'.frames f → A.free s.frames f
  was : userEntry dir s.mem k = 0
  entries : ∀ n < 2 ^ 19,
    userEntry dir s'.mem n = if n = k then physAddr32 p ||| pageFlags else userEntry dir s.mem n
  released : s'.released = s.released
  table :
    (IsPresent (pde dir s.mem (k / 1024)) ∧ s'.acquired = p :: s.acquired ∧
      ∀ i < 1024, pde dir s'.mem i = pde dir s.mem i) ∨
    ¬IsPresent (pde dir s.mem (k / 1024)) ∧ ∃ t, IsFrame t ∧ A.free s.frames t ∧
      s'.acquired = t :: p :: s.acquired ∧ ∀ i < 1024, pde dir s'.mem i =
        if i = k / 1024 then physAddr32 t ||| pageFlags else pde dir s.mem i

/-- Page number `k` could not be mapped in `s`: what was taken for it is given back. -/
structure PageLeft (k : Nat) (back : List (BitVec 32)) (s s' : PagingState σ) : Prop where
  stuck : Stuck A dir k s
  one : back.length ≤ 1
  owns : Owns A dir s'
  spent : ∀ f, A.free s'.frames f → A.free s.frames f
  kept : TablesKept dir s.mem s'.mem
  acquired : s'.acquired = back ++ s.acquired
  released : s'.released = back ++ s.released

end definitions

/-! ## Section 2: One Page -/

section page

variable {σ : Type*} {A : FrameAllocator σ} {dir va p t : BitVec 32} {s s' : PagingState σ}
  {m m' : Memory} {k n : Nat}

theorem acquire_free_of_eq (ha : pageAcquire0 A s = (some p, s')) : A.free s.frames p :=
  A.acquire_free s.frames s.mem p (congrArg Prod.fst ha)

theorem free_of_acquire (ha : pageAcquire0 A s = (some p, s')) {f : BitVec 32}
    (hf : A.free s'.frames f) : A.free s.frames f := by
  obtain rfl : (pageAcquire0 A s).2 = s' := by rw [ha]
  exact (A.acquire_rest s.frames s.mem f hf).1

theorem pageAdded_of_mapNext (h : Owns A dir s) (hva : va < kernelStart)
    (hm : mapNext A dir va s = some s') : ∃ p, PageAdded A dir p (pageNumber va) s s' := by
  have howns := h.of_mapNext (pageDirIdx_lt_of_lt hva) hm
  have hk := pageNumber_lt (pageDirIdx_lt_of_lt hva)
  rcases ha : pageAcquire0 A s with ⟨_ | p, s₁⟩
  · rw [mapNext, ha] at hm
    cases hm
  · have hs₁ : (pageAcquire0 A s).2 = s₁ := by rw [ha]
    have hkept : TablesKept dir s.mem s₁.mem := hs₁ ▸ h.leaves_acquire.tablesKept
    have h₁ : Owns A dir s₁ := h.leaves (hs₁ ▸ h.leaves_acquire)
    obtain ⟨hacq, hrel⟩ := acquired_pageAcquire0 ha
    obtain ⟨b, s₂, hmap, hspec⟩ := @pagingMapPage_spec _ _ _ _ (physAddr32 p) true _
      h₁.tablesApart h₁.acquireSpares hva
    cases b with
    | false =>
      rw [mapNext, ha] at hm
      simp only [hmap] at hm
      cases hm
    | true =>
      rw [mapNext_eq ha hmap] at hm
      obtain rfl := Option.some.inj hm
      rw [if_pos rfl] at hspec
      have hpde := hkept.pde_eq (i := pageNumber va / 1024) (by omega)
      have hentries : ∀ n < 2 ^ 19, userEntry dir s₂.mem n =
          if n = pageNumber va then physAddr32 p ||| pageFlags else userEntry dir s.mem n := by
        intro n hn
        rw [hspec.entries n hn, hkept.userEntry_eq hn]
      refine ⟨p, howns, acquire_free_of_eq ha, fun f hf => ?_, ?_, hentries,
        hspec.released.trans hrel, ?_⟩
      · rcases hspec.table with ⟨-, -, hframes, -⟩ | ⟨-, -, t, s₃, ht, -, hframes, -⟩
        · exact free_of_acquire ha (hframes ▸ hf)
        · exact free_of_acquire ha (free_of_acquire ht (hframes ▸ hf))
      · rw [← hkept.userEntry_eq hk]
        exact hspec.was
      · rw [← hpde]
        rcases hspec.table with ⟨hp, hacq', -, htables⟩ | ⟨hp, -, t, s₃, ht, hacq', -, htables⟩
        · refine .inl ⟨hp, by rw [hacq', hacq]; rfl, fun i hi => ?_⟩
          rw [htables i hi, hkept.pde_eq hi]
        · have hfree := acquire_free_of_eq ht
          refine .inr ⟨hp, t, A.isFrame _ _ hfree, free_of_acquire ha hfree,
            by rw [hacq', hacq]; rfl, fun i hi => ?_⟩
          rw [htables i hi, hkept.pde_eq hi]

theorem pageLeft_of_mapStop (h : Owns A dir s) (hva : va < kernelStart)
    (hm : mapNext A dir va s = none) :
    ∃ back, PageLeft A dir (pageNumber va) back s (mapStop A dir va s) := by
  have howns := h.of_mapStop hm
  have hk := pageNumber_lt (pageDirIdx_lt_of_lt hva)
  rcases ha : pageAcquire0 A s with ⟨_ | p, s₁⟩
  · obtain ⟨hacq, hrel⟩ := acquired_pageAcquire0 ha
    have hs₁ : (pageAcquire0 A s).2 = s₁ := by rw [ha]
    have hstop : mapStop A dir va s = s₁ := by rw [mapStop, ha]
    rw [hstop] at howns ⊢
    have hrest : ∀ f, A.free s₁.frames f → A.free s.frames f := by
      intro f hf
      rw [← hs₁] at hf
      exact (A.acquire_rest s.frames s.mem f hf).1
    have hkept : TablesKept dir s.mem s₁.mem := hs₁ ▸ h.leaves_acquire.tablesKept
    exact ⟨[], .inr (.inl (by rw [ha])), by decide, howns, hrest, hkept, hacq, hrel⟩
  · have hs₁ : (pageAcquire0 A s).2 = s₁ := by rw [ha]
    have hkept : TablesKept dir s.mem s₁.mem := hs₁ ▸ h.leaves_acquire.tablesKept
    have h₁ : Owns A dir s₁ := h.leaves (hs₁ ▸ h.leaves_acquire)
    obtain ⟨hacq, hrel⟩ := acquired_pageAcquire0 ha
    obtain ⟨b, s₂, hmap, hspec⟩ := @pagingMapPage_spec _ _ _ _ (physAddr32 p) true _
      h₁.tablesApart h₁.acquireSpares hva
    cases b with
    | true => cases (mapNext_eq ha hmap).symm.trans hm
    | false =>
      rw [if_neg (by decide)] at hspec
      obtain ⟨h₂, hspare⟩ := h₁.of_map_false (h.spare_acquire ha) hmap
      have hstop : mapStop A dir va s = pageRelease0 A s₂ p := by
        rw [mapStop, ha]
        simp only [hmap]
      rw [hstop] at howns ⊢
      refine ⟨[p], ?_, Nat.le_refl 1, howns, fun f hf => ?_,
        (hkept.trans hspec.kept).trans (h₂.leaves_release hspare).tablesKept, ?_, ?_⟩
      · rcases hspec.why with hne | ⟨hp, hnone⟩
        · rw [hkept.userEntry_eq hk] at hne
          exact .inl hne
        · rw [hkept.pde_eq (by omega)] at hp
          exact .inr (.inr ⟨hp, hs₁ ▸ hnone.resolve_left (by decide)⟩)
      · have hspent : A.free s₂.frames f → A.free s.frames f := by
          intro hf
          rcases hspec.frames with rfl | rfl
          · exact free_of_acquire ha hf
          · exact free_of_acquire ha (A.acquire_rest s₁.frames s₁.mem f hf).1
        rcases A.release_rest s₂.frames s₂.mem p f hf with hf | rfl
        · exact hspent hf
        · exact acquire_free_of_eq ha
      · exact hspec.acquired.trans hacq
      · show p :: s₂.released = [p] ++ s.released
        rw [hspec.released, hrel]
        rfl

end page

/-! ## Section 3: The Frames That Are Taken -/

section frames

variable {σ : Type*} {A : FrameAllocator σ} {dir p t f : BitVec 32} {s s' s'' : PagingState σ}
  {m m' m'' : Memory} {i k n : Nat} {back : List (BitVec 32)}

theorem pageFrames_succ :
    pageFrames dir m k (n + 1) =
      pageFrames dir m k n ++ [entryFrame (userEntry dir m (k + n))] := by
  rw [pageFrames, List.range'_1_concat, List.map_append]
  rfl

theorem pageFrames_congr (h : ∀ i, k ≤ i → i < k + n → userEntry dir m' i = userEntry dir m i) :
    pageFrames dir m' k n = pageFrames dir m k n := by
  refine List.map_congr_left fun i hi => ?_
  obtain ⟨hle, hlt⟩ := List.mem_range'_1.mp hi
  rw [h i hle hlt]

theorem mem_pageFrames : f ∈ pageFrames dir m k n ↔
    ∃ i, (k ≤ i ∧ i < k + n) ∧ entryFrame (userEntry dir m i) = f := by
  simp only [pageFrames, List.mem_map, List.mem_range'_1]

theorem newTables_self : newTables dir m m = [] := by
  rw [newTables, List.filterMap_eq_nil_iff]
  exact fun i _ => if_neg fun h => h.2 h.1

theorem newTables_congr (h : ∀ i < 1024, pde dir m'' i = pde dir m' i) :
    newTables dir m m'' = newTables dir m m' := by
  refine List.filterMap_congr fun i hi => ?_
  rw [h i (by have := List.mem_range.mp hi; omega)]

theorem mem_newTables : f ∈ newTables dir m m' ↔
    ∃ i < 512, (IsPresent (pde dir m' i) ∧ ¬IsPresent (pde dir m i)) ∧
      entryFrame (pde dir m' i) = f := by
  simp only [newTables, List.mem_filterMap, List.mem_range, Option.ite_none_right_eq_some,
    Option.some.injEq]

/-- A value is added to the ones that a list of indices has. -/
theorem perm_filterMap_update {ι α : Type*} [DecidableEq ι] {l : List ι} {f g : ι → Option α}
    {i : ι} {a : α} (hl : l.Nodup) (hi : i ∈ l) (hf : f i = none) (hg : g i = some a)
    (hne : ∀ j, j ≠ i → g j = f j) : (l.filterMap g).Perm (a :: l.filterMap f) := by
  have hsplit := List.perm_cons_erase hi
  have hrest : (l.erase i).filterMap g = (l.erase i).filterMap f :=
    List.filterMap_congr fun j hj => hne j (hl.mem_erase_iff.mp hj).1
  have hg' := hsplit.filterMap g
  have hf' := hsplit.filterMap f
  rw [List.filterMap_cons_some hg, hrest] at hg'
  rw [List.filterMap_cons_none hf] at hf'
  exact hg'.trans (hf'.symm.cons a)

/-- A page table is installed. -/
theorem newTables_install (hi : i < 512) (hp : ¬IsPresent (pde dir m i))
    (hp' : ¬IsPresent (pde dir m' i)) (ht : IsFrame t)
    (hpde : ∀ j < 1024, pde dir m'' j =
      if j = i then physAddr32 t ||| pageFlags else pde dir m' j) :
    (newTables dir m m'').Perm (t :: newTables dir m m') := by
  have hself := hpde i (by omega)
  rw [if_pos rfl] at hself
  have hnew : (fun j => if IsPresent (pde dir m'' j) ∧ ¬IsPresent (pde dir m j) then
      some (entryFrame (pde dir m'' j)) else none) i = some t := by
    dsimp only
    rw [hself, entryFrame_physAddr ht, if_pos ⟨isPresent_pageFlags, hp⟩]
  have hcongr : newTables dir m m'' = (List.range 512).filterMap fun j =>
      if j = i then some t else
        if IsPresent (pde dir m' j) ∧ ¬IsPresent (pde dir m j) then
          some (entryFrame (pde dir m' j))
        else none := by
    refine List.filterMap_congr fun j hj => ?_
    by_cases hji : j = i
    · rw [if_pos hji, hji]
      exact hnew
    · rw [if_neg hji, hpde j (by have := List.mem_range.mp hj; omega), if_neg hji]
  have hold : (if IsPresent (pde dir m' i) ∧ ¬IsPresent (pde dir m i) then
      some (entryFrame (pde dir m' i)) else none) = none := if_neg fun h => hp' h.1
  rw [hcongr]
  refine perm_filterMap_update List.nodup_range (List.mem_range.mpr hi) hold (if_pos ?_)
    fun j hj => if_neg hj
  rfl

/-- The frames of a range and of page tables are different. -/
theorem Owns.distinct (h : Owns A dir s) (hlt : k + n ≤ 2 ^ 19)
    (hp : ∀ i, k ≤ i → i < k + n → IsPresent (userEntry dir s.mem i)) :
    (pageFrames dir s.mem k n ++ newTables dir m s.mem).Nodup := by
  have hpage : ∀ i, k ≤ i → i < k + n →
      ownerFrame dir s.mem (.page i) = some (entryFrame (userEntry dir s.mem i)) := by
    intro i hle hi
    rw [ownerFrame_userEntry, if_pos ⟨by omega, hp i hle hi⟩]
  refine List.nodup_append'.mpr ⟨?_, ?_, ?_⟩
  · refine List.Nodup.map_on (fun i hi j hj heq => ?_) List.nodup_range'
    obtain ⟨hle, hi⟩ := List.mem_range'_1.mp hi
    obtain ⟨hle', hj⟩ := List.mem_range'_1.mp hj
    exact Owner.page.inj (h.unique _ _ _ (hpage i hle hi)
      ((hpage j hle' hj).trans (congrArg some heq.symm)))
  · have hcongr : newTables dir m s.mem = (List.range 512).filterMap fun i =>
        if IsPresent (pde dir m i) then none else ownerFrame dir s.mem (.table i) := by
      refine List.filterMap_congr fun i hi => ?_
      have hi := List.mem_range.mp hi
      rw [ownerFrame]
      by_cases hp : IsPresent (pde dir m i) <;> simp [hp, hi]
    rw [hcongr]
    refine List.Nodup.filterMap (fun i j f hi hj => ?_) List.nodup_range
    rw [Option.mem_def, Option.ite_none_left_eq_some] at hi hj
    exact Owner.table.inj (h.unique _ _ _ hi.2 hj.2)
  · intro f hf hf'
    obtain ⟨i, ⟨hle, hi⟩, rfl⟩ := mem_pageFrames.mp hf
    obtain ⟨j, hj, ⟨hpj, -⟩, heq⟩ := mem_newTables.mp hf'
    cases h.unique _ _ _ (hpage i hle hi)
      ((ownerFrame_table_eq hj hpj).trans (congrArg some heq))

/-! ### One page more -/

theorem RangeMapped.refl (h : Owns A dir s) : RangeMapped A dir k 0 [] s s where
  owns := h
  was i hle hi := absurd hi (by omega)
  mapped i hle hi := absurd hi (by omega)
  others _ _ _ := rfl
  tables _ _ _ := rfl
  installed _ _ _ := .inl rfl
  fresh f hf := by
    rw [newTables_self] at hf
    exact absurd hf List.not_mem_nil
  distinct := by
    rw [newTables_self]
    exact List.nodup_nil
  taken := by
    rw [newTables_self]
    exact .refl _
  given := rfl
  spent _ hf := hf

theorem RangeMapped.present (h : RangeMapped A dir k n back s s') {i : Nat} (hle : k ≤ i)
    (hi : i < k + n) : IsPresent (userEntry dir s'.mem i) := by
  rw [h.mapped i hle hi]
  exact isPresent_pageFlags

/-- A page table that is missing now was missing before. -/
theorem RangeMapped.absent (h : RangeMapped A dir k n back s s') (hi : i < 1024)
    (hp : ¬IsPresent (pde dir s'.mem i)) : ¬IsPresent (pde dir s.mem i) := by
  intro hps
  rw [h.tables i hi hps] at hp
  exact hp hps

/-- The frames that are taken for one page more. -/
theorem RangeMapped.added (h : RangeMapped A dir k n [] s s')
    (hp : PageAdded A dir p (k + n) s' s'') (hlt : k + n < 2 ^ 19) :
    ∃ added, s''.acquired = added ++ s'.acquired ∧ (∀ f ∈ added, A.free s'.frames f) ∧
      (pageFrames dir s''.mem k (n + 1) ++ newTables dir s.mem s''.mem).Perm
        (added ++ (pageFrames dir s'.mem k n ++ newTables dir s.mem s'.mem)) := by
  have hframes : pageFrames dir s''.mem k (n + 1) = pageFrames dir s'.mem k n ++ [p] := by
    have hself := hp.entries (k + n) hlt
    rw [if_pos rfl] at hself
    have hsame : pageFrames dir s''.mem k n = pageFrames dir s'.mem k n := by
      refine pageFrames_congr fun i _ hi => ?_
      rw [hp.entries i (by omega), if_neg (by omega)]
    rw [pageFrames_succ, hself, entryFrame_physAddr (A.isFrame _ p hp.free), hsame]
  have hmiddle : (pageFrames dir s'.mem k n ++ p :: newTables dir s.mem s''.mem).Perm
      (p :: (pageFrames dir s'.mem k n ++ newTables dir s.mem s''.mem)) := List.perm_middle
  rw [hframes, List.append_assoc, List.singleton_append]
  rcases hp.table with ⟨-, hacq, hpde⟩ | ⟨hno, t, ht, htfree, hacq, hpde⟩
  · refine ⟨[p], hacq, fun f hf => ?_, ?_⟩
    · rw [List.mem_singleton.mp hf]
      exact hp.free
    · have htables : newTables dir s.mem s''.mem = newTables dir s.mem s'.mem :=
        newTables_congr hpde
      rw [htables] at hmiddle ⊢
      rw [List.singleton_append]
      exact hmiddle
  · refine ⟨[t, p], hacq, fun f hf => ?_, ?_⟩
    · rcases List.mem_cons.mp hf with rfl | hf
      · exact htfree
      · rw [List.mem_singleton.mp hf]
        exact hp.free
    · have hinstall := newTables_install (m := s.mem) (by omega) (h.absent (by omega) hno) hno ht
        hpde
      have htable := (hinstall.append_left (pageFrames dir s'.mem k n)).trans List.perm_middle
      rw [List.cons_append, List.singleton_append]
      exact (hmiddle.trans (htable.cons p)).trans (.swap _ _ _)

/-- One page more is mapped. -/
theorem RangeMapped.add (h : RangeMapped A dir k n [] s s')
    (hp : PageAdded A dir p (k + n) s' s'') (hlt : k + n < 2 ^ 19) :
    RangeMapped A dir k (n + 1) [] s s'' := by
  obtain ⟨added, hacq, hfree, hperm⟩ := h.added hp hlt
  have hold : ∀ i < 2 ^ 19, i ≠ k + n → userEntry dir s''.mem i = userEntry dir s'.mem i := by
    intro i hi hne
    rw [hp.entries i hi, if_neg hne]
  have hmapped : ∀ i, k ≤ i → i < k + (n + 1) → userEntry dir s''.mem i =
      physAddr32 (entryFrame (userEntry dir s''.mem i)) ||| pageFlags := by
    intro i hle hi
    by_cases hne : i = k + n
    · rw [hp.entries i (by omega), if_pos hne, entryFrame_physAddr (A.isFrame _ p hp.free)]
    · rw [hold i (by omega) hne]
      exact h.mapped i hle (by omega)
  -- the page table is one that was there, or it is installed
  have hpde : ∀ i < 1024, pde dir s''.mem i = pde dir s'.mem i ∨
      i = (k + n) / 1024 ∧ ¬IsPresent (pde dir s'.mem i) ∧ IsPresent (pde dir s''.mem i) := by
    intro i hi
    rcases hp.table with ⟨-, -, hsame⟩ | ⟨hno, t, -, -, -, hupd⟩
    · exact .inl (hsame i hi)
    · rw [hupd i hi]
      split
      · next heq =>
        rw [← heq] at hno
        exact .inr ⟨heq, hno, isPresent_pageFlags⟩
      · exact .inl rfl
  refine ⟨hp.owns, fun i hle hi => ?_, hmapped, fun i hi hout => ?_, fun i hi hps => ?_,
    fun i hi hps => ?_, fun f hf => ?_, hp.owns.distinct (by omega) fun i hle hi => ?_, ?_,
    hp.released.trans h.given, fun f hf => h.spent f (hp.spent f hf)⟩
  · by_cases hne : i = k + n
    · rw [hne, ← h.others _ hlt (by omega)]
      exact hp.was
    · exact h.was i hle (by omega)
  · rw [hold i hi (by omega)]
    exact h.others i hi (by omega)
  · have hsame := h.tables i hi hps
    rcases hpde i hi with heq | ⟨-, hno, -⟩
    · exact heq.trans hsame
    · rw [hsame] at hno
      exact absurd hps hno
  · rcases hpde i hi with heq | ⟨hidx, -, hyes⟩
    · rw [heq]
      refine (h.installed i hi hps).imp id ?_
      rintro ⟨⟨j, hle, hj, hidx⟩, hyes⟩
      exact ⟨⟨j, hle, by omega, hidx⟩, hyes⟩
    · exact .inr ⟨⟨k + n, by omega, by omega, hidx.symm⟩, hyes⟩
  · rcases List.mem_append.mp (hperm.mem_iff.mp hf) with hf | hf
    · exact h.spent f (hfree f hf)
    · exact h.fresh f hf
  · rw [hmapped i hle hi]
    exact isPresent_pageFlags
  · rw [hacq]
    refine (h.taken.append_left added).trans ?_
    rw [List.nil_append, List.nil_append, ← List.append_assoc]
    exact hperm.symm.append_right _

/-- A page could not be mapped. -/
theorem RangeMapped.left (h : RangeMapped A dir k n [] s s')
    (hl : PageLeft A dir i back s' s'') (hlt : k + n ≤ 2 ^ 19) :
    RangeMapped A dir k n back s s'' := by
  have hentries : ∀ i < 2 ^ 19, userEntry dir s''.mem i = userEntry dir s'.mem i :=
    fun i hi => hl.kept.userEntry_eq hi
  have hpde : ∀ i < 1024, pde dir s''.mem i = pde dir s'.mem i := fun i hi => hl.kept.pde_eq hi
  have hframes : pageFrames dir s''.mem k n = pageFrames dir s'.mem k n :=
    pageFrames_congr fun i _ hi => hentries i (by omega)
  have htables : newTables dir s.mem s''.mem = newTables dir s.mem s'.mem := newTables_congr hpde
  refine ⟨hl.owns, h.was, fun i hle hi => ?_, fun i hi hout => ?_, fun i hi hps => ?_,
    fun i hi hps => ?_, ?_, ?_, ?_, ?_, fun f hf => h.spent f (hl.spent f hf)⟩
  · rw [hentries i (by omega)]
    exact h.mapped i hle hi
  · rw [hentries i hi]
    exact h.others i hi hout
  · rw [hpde i hi]
    exact h.tables i hi hps
  · rw [hpde i hi]
    exact h.installed i hi hps
  · rw [hframes, htables]
    exact h.fresh
  · rw [hframes, htables]
    exact h.distinct
  · rw [hframes, htables, hl.acquired, List.append_assoc]
    exact h.taken.append_left back
  · rw [hl.released, h.given]
    rfl

end frames

/-! ## Section 4: Mapping a Range -/

section mapping

variable {σ : Type*} {A : FrameAllocator σ} {dir va va' vaEnd size : BitVec 32}
  {s s' : PagingState σ} {k : Nat}

/-- The rest of the call maps the pages up to number `k + n`, and then the range is at its end
    or there is a page that cannot be mapped. -/
structure LoopMaps (A : FrameAllocator σ) (dir vaEnd : BitVec 32) (k : Nat) (s : PagingState σ)
    (va : BitVec 32) (s' : PagingState σ) (n : Nat) (back : List (BitVec 32))
    (s'' : PagingState σ) : Prop where
  range : RangeMapped A dir k n back s s''
  one : back.length ≤ 1
  ends : (k + n = pageNumber vaEnd + 1 ∧ back = []) ∨ k + n ≤ pageNumber vaEnd ∧
    ∃ s₁ va', ComesTo A dir vaEnd s' va s₁ va' ∧ pageNumber va' = k + n ∧
      RangeMapped A dir k n [] s s₁ ∧ Stuck A dir (k + n) s₁

theorem LoopMaps.next {s₁ s'' : PagingState σ} {n : Nat} {back : List (BitVec 32)}
    (h : LoopMaps A dir vaEnd k s (va + 0x1000) s₁ n back s'') (hne : va ≠ vaEnd)
    (hm : mapNext A dir va s' = some s₁) : LoopMaps A dir vaEnd k s va s' n back s'' := by
  obtain ⟨hrange, hone, hends⟩ := h
  refine ⟨hrange, hone, ?_⟩
  rcases hends with hends | ⟨hle, s₂, va', hcomes, hrest⟩
  · exact .inl hends
  · exact .inr ⟨hle, s₂, va', .next hne hm hcomes, hrest⟩

/-- The next page, when there is one. -/
theorem pageNumber_next (hva : IsFrame va) (hend : IsFrame vaEnd) (hle : va ≤ vaEnd)
    (hne : va ≠ vaEnd) : IsFrame (va + 0x1000) ∧ va + 0x1000 ≤ vaEnd ∧
      pageNumber (va + 0x1000) = pageNumber va + 1 := by
  have hsize : (0x1000 : BitVec 32).toNat = 0x1000 := rfl
  have hne' : va.toNat ≠ vaEnd.toNat := fun heq => hne (BitVec.eq_of_toNat_eq heq)
  have hlast := vaEnd.isLt
  rw [IsFrame] at hva hend ⊢
  rw [BitVec.le_def] at hle ⊢
  rw [pageNumber, pageNumber, BitVec.toNat_add, hsize]
  omega

theorem mapPagesLoop_maps (hend : IsFrame vaEnd) (hkernel : vaEnd < kernelStart) :
    ∀ (fuel n : Nat) (va sz : BitVec 32) (s' : PagingState σ), IsFrame va → va ≤ vaEnd →
      pageNumber va = k + n → pageNumber vaEnd < pageNumber va + fuel →
      sz = BitVec.ofNat 32 (0x1000 * n) → RangeMapped A dir k n [] s s' →
      ∃ n' back s'', mapPagesLoop A dir vaEnd fuel va sz s' =
        some (BitVec.ofNat 32 (0x1000 * n'), s'') ∧ LoopMaps A dir vaEnd k s va s' n' back s'' := by
  intro fuel
  induction fuel with
  | zero =>
    intro n va sz s' _ hle _ hfuel _ _
    rw [BitVec.le_def] at hle
    rw [pageNumber, pageNumber] at hfuel
    omega
  | succ fuel ih =>
    intro n va sz s' hva hle hnumber hfuel hsz h
    have hlt : va < kernelStart := Nat.lt_of_le_of_lt hle hkernel
    have hk := pageNumber_lt (pageDirIdx_lt_of_lt hlt)
    have hlast : pageNumber va ≤ pageNumber vaEnd := Nat.div_le_div_right hle
    cases hm : mapNext A dir va s' with
    | none =>
      obtain ⟨back, hleft⟩ := pageLeft_of_mapStop h.owns hlt hm
      rw [mapPagesLoop_none hm, hsz]
      refine ⟨n, back, _, rfl, h.left hleft (by omega), hleft.one, .inr ⟨by omega, ?_⟩⟩
      exact ⟨s', va, .here, hnumber, h, hnumber ▸ hleft.stuck⟩
    | some s₁ =>
      obtain ⟨p, hadded⟩ := pageAdded_of_mapNext h.owns hlt hm
      rw [hnumber] at hadded
      have hnext := h.add hadded (by omega)
      have hsz' : sz + 0x1000 = BitVec.ofNat 32 (0x1000 * (n + 1)) := by
        rw [hsz, Nat.mul_succ, BitVec.ofNat_add]
        rfl
      rw [mapPagesLoop_some hm, hsz']
      by_cases heq : va = vaEnd
      · rw [if_pos heq]
        refine ⟨n + 1, [], s₁, rfl, hnext, by decide, .inl ⟨?_, rfl⟩⟩
        rw [← heq]
        omega
      · rw [if_neg heq]
        obtain ⟨hva', hle', hnumber'⟩ := pageNumber_next hva hend hle heq
        obtain ⟨n', back, s'', hrun, hmaps⟩ := ih (n + 1) (va + 0x1000) _ s₁ hva' hle' (by omega)
          (by omega) rfl hnext
        exact ⟨n', back, s'', hrun, hmaps.next heq hm⟩

/-- The pages of a range of the user half. -/
structure UserRange (va size : BitVec 32) : Prop where
  pos : 0 < size
  below : va.toNat + size.toNat ≤ 0x80000000

theorem UserRange.toNat_last (h : UserRange va size) :
    (va + size - 1).toNat = va.toNat + size.toNat - 1 := by
  have hpos : 0 < size.toNat := h.pos
  have hbelow := h.below
  have hone : (1 : BitVec 32).toNat = 1 := rfl
  rw [BitVec.toNat_sub, BitVec.toNat_add, hone]
  omega

theorem UserRange.last_lt (h : UserRange va size) :
    pageAddress (va + size - 1) < kernelStart := by
  have hstart : kernelStart.toNat = 2 ^ 31 := rfl
  have hlast := h.toNat_last
  have hbelow := h.below
  have hpos : 0 < size.toNat := h.pos
  rw [BitVec.lt_def, toNat_pageAddress, hstart]
  omega

theorem pageNumber_pageAddress : pageNumber (pageAddress va) = pageNumber va := by
  rw [pageNumber, pageNumber, toNat_pageAddress]
  omega

theorem UserRange.last_number (h : UserRange va size) :
    pageNumber (pageAddress (va + size - 1)) + 1 = pageNumber va + pageCount va size := by
  have hpos : 0 < size.toNat := h.pos
  rw [pageNumber_pageAddress, pageNumber, h.toNat_last, pageCount, pageNumber]
  omega

/-- `Paging_MapPages` goes through the pages of a range. -/
theorem pagingMapPages_loop (h : Owns A dir s) (hrange : UserRange va size) :
    ∃ n back s', pagingMapPages A dir va size s = some (BitVec.ofNat 32 (0x1000 * n), s') ∧
      LoopMaps A dir (pageAddress (va + size - 1)) (pageNumber va) s (pageAddress va) s n back
        s' := by
  have hpos : 0 < size.toNat := hrange.pos
  have hle : pageAddress va ≤ pageAddress (va + size - 1) := by
    rw [BitVec.le_def, toNat_pageAddress, toNat_pageAddress, hrange.toNat_last]
    omega
  have hfuel : pageNumber (pageAddress (va + size - 1)) < pageNumber (pageAddress va) + 2 ^ 20 := by
    have hlt := pageNumber_lt (pageDirIdx_lt_of_lt hrange.last_lt)
    omega
  obtain ⟨n, back, s', hrun, hmaps⟩ := mapPagesLoop_maps (k := pageNumber va) isFrame_pageAddress
    hrange.last_lt (2 ^ 20) 0 (pageAddress va) 0 s isFrame_pageAddress hle pageNumber_pageAddress
    hfuel rfl (.refl h)
  have hsize : size ≠ 0 := by
    rintro rfl
    exact absurd hpos (by decide)
  exact ⟨n, back, s', (if_neg hsize).trans hrun, hmaps⟩

/-- The same, by the number of the pages in the range. -/
theorem LoopMaps.count {n : Nat} {back : List (BitVec 32)} (hrange : UserRange va size)
    (h : LoopMaps A dir (pageAddress (va + size - 1)) (pageNumber va) s (pageAddress va) s n back
      s') : (n = pageCount va size ∧ back = []) ∨ n < pageCount va size ∧ ∃ s₁ va',
        ComesTo A dir (pageAddress (va + size - 1)) s (pageAddress va) s₁ va' ∧
        pageNumber va' = pageNumber va + n ∧
        RangeMapped A dir (pageNumber va) n [] s s₁ ∧ Stuck A dir (pageNumber va + n) s₁ := by
  have hnumber := hrange.last_number
  rcases h.ends with ⟨hn, hback⟩ | ⟨hn, hstuck⟩
  · exact .inl ⟨by omega, hback⟩
  · exact .inr ⟨by omega, hstuck⟩

/-- `Paging_MapPages` maps the pages of a range up to the first that cannot be mapped. -/
theorem pagingMapPages_prefix (h : Owns A dir s) (hrange : UserRange va size) :
    ∃ n back s', pagingMapPages A dir va size s = some (BitVec.ofNat 32 (0x1000 * n), s') ∧
      RangeMapped A dir (pageNumber va) n back s s' ∧ back.length ≤ 1 ∧
      ((n = pageCount va size ∧ back = []) ∨ n < pageCount va size ∧ ∃ s₁ va',
        ComesTo A dir (pageAddress (va + size - 1)) s (pageAddress va) s₁ va' ∧
        pageNumber va' = pageNumber va + n ∧
        RangeMapped A dir (pageNumber va) n [] s s₁ ∧ Stuck A dir (pageNumber va + n) s₁) := by
  obtain ⟨n, back, s', hrun, hmaps⟩ := pagingMapPages_loop h hrange
  exact ⟨n, back, s', hrun, hmaps.range, hmaps.one, hmaps.count hrange⟩

/-- There are frames for a page table and for two of the three pages. -/
theorem pagingMapPages_prefix_smallProcess :
    ∃ n back s', pagingMapPages frameList (numbered 0x80300) 0x1000 0x3000 smallProcess =
        some (BitVec.ofNat 32 (0x1000 * n), s') ∧
      RangeMapped frameList (numbered 0x80300) (pageNumber 0x1000) n back smallProcess s' ∧
      back.length ≤ 1 ∧ ((n = pageCount 0x1000 0x3000 ∧ back = []) ∨
        n < pageCount 0x1000 0x3000 ∧ ∃ s₁ va',
        ComesTo frameList (numbered 0x80300) (pageAddress (0x1000 + 0x3000 - 1)) smallProcess
          (pageAddress 0x1000) s₁ va' ∧
        pageNumber va' = pageNumber 0x1000 + n ∧
        RangeMapped frameList (numbered 0x80300) (pageNumber 0x1000) n [] smallProcess s₁ ∧
        Stuck frameList (numbered 0x80300) (pageNumber 0x1000 + n) s₁) :=
  pagingMapPages_prefix owns_smallProcess ⟨by decide, by decide⟩

end mapping

/-! ## Section 5: Unmapping a Range -/

section unmapping

variable {σ : Type*} {A : FrameAllocator σ} {dir va vaEnd size : BitVec 32}
  {s s' s'' : PagingState σ} {m : Memory} {k n : Nat}

/-- The frames of the pages that are mapped among the `n` from number `k` on. -/
def mappedFrames (dir : BitVec 32) (m : Memory) (k n : Nat) : List (BitVec 32) :=
  (List.range' k n).filterMap fun i => ownerFrame dir m (.page i)

/-- From `s` to `s'` the `n` pages from number `k` on are unmapped, and their frames are given
    back. -/
structure RangeUnmapped (A : FrameAllocator σ) (dir : BitVec 32) (k n : Nat)
    (s s' : PagingState σ) : Prop where
  owns : Owns A dir s'
  entries : ∀ i < 2 ^ 19, userEntry dir s'.mem i =
    if (k ≤ i ∧ i < k + n) ∧ IsPresent (userEntry dir s.mem i) then 0 else userEntry dir s.mem i
  tables : ∀ i < 1024, pde dir s'.mem i = pde dir s.mem i
  acquired : s'.acquired = s.acquired
  released : s'.released = (mappedFrames dir s.mem k n).reverse ++ s.released

theorem mappedFrames_succ : mappedFrames dir m k (n + 1) =
    mappedFrames dir m k n ++ (ownerFrame dir m (.page (k + n))).toList := by
  rw [mappedFrames, List.range'_1_concat, List.filterMap_append, ← mappedFrames]
  cases h : ownerFrame dir m (.page (k + n)) <;> simp [h]

/-- When all the pages are mapped. -/
theorem mappedFrames_eq (hlt : k + n ≤ 2 ^ 19)
    (h : ∀ i, k ≤ i → i < k + n → IsPresent (userEntry dir m i)) :
    mappedFrames dir m k n = pageFrames dir m k n := by
  rw [mappedFrames, pageFrames, ← List.filterMap_eq_map]
  refine List.filterMap_congr fun i hi => ?_
  obtain ⟨hle, hi⟩ := List.mem_range'_1.mp hi
  rw [ownerFrame_userEntry, if_pos ⟨by omega, h i hle hi⟩]
  rfl

theorem RangeUnmapped.refl (h : Owns A dir s) : RangeUnmapped A dir k 0 s s where
  owns := h
  entries i _ := (if_neg fun hi => by omega).symm
  tables _ _ := rfl
  acquired := rfl
  released := rfl

/-- One page more is unmapped. -/
theorem RangeUnmapped.add (h : RangeUnmapped A dir k n s s') (hva : va < kernelStart)
    (hnumber : pageNumber va = k + n) :
    RangeUnmapped A dir k (n + 1) s (pagingUnmapPage A dir va s').2 := by
  have hk := pageNumber_lt (pageDirIdx_lt_of_lt hva)
  have howns := h.owns.of_unmapPage (pageDirIdx_lt_of_lt hva)
  have hsame : userEntry dir s'.mem (k + n) = userEntry dir s.mem (k + n) := by
    rw [h.entries _ (by omega), if_neg (by omega)]
  have hspec := pagingUnmapPage_spec h.owns.tablesApart
    (fun hp => h.owns.release_tablesKept hk hp) hva
  have hreleased : (mappedFrames dir s.mem k (n + 1)).reverse ++ s.released =
      (ownerFrame dir s.mem (.page (k + n))).toList ++ s'.released := by
    rw [mappedFrames_succ, List.reverse_append, List.append_assoc, ← h.released]
    cases ownerFrame dir s.mem (.page (k + n)) <;> rfl
  rw [hnumber, hsame] at hspec
  rcases hspec with ⟨t, hrun, hpage⟩ | ⟨hrun, habsent⟩
  · have hp := hpage.was
    rw [hsame] at hp
    have hframe : ownerFrame dir s.mem (.page (k + n)) =
        some (entryFrame (userEntry dir s.mem (k + n))) := by
      rw [ownerFrame_userEntry, if_pos ⟨by omega, hp⟩]
    rw [hrun] at howns ⊢
    refine ⟨howns, fun i hi => ?_, fun i hi => ?_, hpage.acquired.trans h.acquired, ?_⟩
    · rw [hpage.entries i hi]
      by_cases heq : i = k + n
      · rw [if_pos heq, if_pos ⟨by omega, heq ▸ hp⟩]
      · rw [if_neg heq, h.entries i hi]
        exact if_congr (and_congr_left fun _ => by omega) rfl rfl
    · rw [hpage.tables i hi, h.tables i hi]
    · rw [hreleased, hframe, hpage.released, hsame]
      rfl
  · have hframe : ownerFrame dir s.mem (.page (k + n)) = none := by
      rw [ownerFrame_userEntry, if_neg fun hp => habsent hp.2]
    rw [hrun] at howns ⊢
    refine ⟨howns, fun i hi => ?_, h.tables, h.acquired, ?_⟩
    · rw [h.entries i hi]
      by_cases heq : i = k + n
      · rw [heq, if_neg fun hp => habsent hp.2, if_neg fun hp => habsent hp.2]
      · exact if_congr (and_congr_left fun _ => by omega) rfl rfl
    · rw [hreleased, hframe]
      rfl

/-- How far `Paging_UnmapPages` has come. -/
structure UnmapsUpTo (A : FrameAllocator σ) (dir vaEnd : BitVec 32) (k : Nat)
    (s : PagingState σ) (va : BitVec 32) (s' : PagingState σ) : Prop where
  aligned : IsFrame va
  range : ∃ n, pageNumber va = k + n ∧ RangeUnmapped A dir k n s s'
  le : pageNumber va ≤ k ∨ pageNumber va ≤ pageNumber vaEnd + 1

theorem UnmapsUpTo.step (h : UnmapsUpTo A dir vaEnd k s va s') (hva : va < kernelStart)
    (hle : va ≤ vaEnd) :
    UnmapsUpTo A dir vaEnd k s (va + 0x1000) (pagingUnmapPage A dir va s').2 := by
  obtain ⟨haligned, -, hnumber⟩ := pageNumber_add h.aligned hva
  obtain ⟨n, hn, hrange⟩ := h.range
  have hlast : pageNumber va ≤ pageNumber vaEnd := Nat.div_le_div_right hle
  exact ⟨haligned, ⟨n + 1, by omega, hrange.add hva hn⟩, .inr (by omega)⟩

/-- `Paging_UnmapPages` unmaps the pages from the first that begins in the range on. -/
theorem pagingUnmapPages_range (h : Owns A dir s) (hrange : UserRange va size) :
    ∃ r s', pagingUnmapPages A dir va size s = some (r, s') ∧
      RangeUnmapped A dir (pageNumber (va + 0xFFF))
        (pageNumber va + pageCount va size - pageNumber (va + 0xFFF)) s s' := by
  have hstart : UnmapsUpTo A dir (pageAddress (va + size - 1)) (pageNumber (va + 0xFFF)) s
      (pageAddress (va + 0xFFF)) s :=
    ⟨isFrame_pageAddress, ⟨0, pageNumber_pageAddress, .refl h⟩,
      .inl (Nat.le_of_eq pageNumber_pageAddress)⟩
  obtain ⟨r, s', va', hrun, ⟨haligned, ⟨n, hn, hunmapped⟩, hle⟩, hend⟩ :=
    unmapPagesLoop_invariant (fun _ _ h hva hle => h.step hva hle) (2 ^ 19 + 1)
      (pageAddress (va + 0xFFF)) false s (by decide) (by omega) hstart
  have hcount := hrange.last_number
  have hlast := pageNumber_lt (pageDirIdx_lt_of_lt hrange.last_lt)
  have hfirst : pageNumber (va + 0xFFF) ≤ 2 ^ 19 ∧
      pageNumber (va + 0xFFF) ≤ pageNumber va + pageCount va size := by
    have hsize : (0xFFF : BitVec 32).toNat = 0xFFF := rfl
    have hpos : 0 < size.toNat := hrange.pos
    have hbelow := hrange.below
    rw [pageCount, pageNumber, pageNumber, BitVec.toNat_add, hsize]
    omega
  have hstop : pageNumber (pageAddress (va + size - 1)) < pageNumber va' := by
    have hstart : kernelStart.toNat = 2 ^ 31 := rfl
    have hframe : IsFrame (pageAddress (va + size - 1)) := isFrame_pageAddress
    rw [IsFrame] at haligned hframe
    rw [BitVec.le_def, BitVec.lt_def, hstart] at hend
    rw [pageNumber] at hlast ⊢
    rw [pageNumber]
    omega
  obtain rfl : n = pageNumber va + pageCount va size - pageNumber (va + 0xFFF) := by omega
  exact ⟨r, s', hrun, hunmapped⟩

/-- What `Paging_MapPages` has mapped, `Paging_UnmapPages` takes back, but for the page tables. -/
theorem pagingUnmapPages_undoes {r : BitVec 32} (h : Owns A dir s) (hva : IsFrame va)
    (hrange : UserRange va size) (hmap : pagingMapPages A dir va size s = some (r, s'))
    (hall : size ≤ r) :
    ∃ b s'', pagingUnmapPages A dir va size s' = some (b, s'') ∧
      (∀ i < 2 ^ 19, userEntry dir s''.mem i = userEntry dir s.mem i) ∧
      s''.released = (pageFrames dir s'.mem (pageNumber va) (pageCount va size)).reverse ++
        s.released ∧
      s''.acquired.Perm (pageFrames dir s'.mem (pageNumber va) (pageCount va size) ++
        newTables dir s.mem s''.mem ++ s.acquired) ∧
      ∀ i < 1024, pde dir s''.mem i = pde dir s.mem i ∨
        ¬IsPresent (pde dir s.mem i) ∧ IsPresent (pde dir s''.mem i) := by
  obtain ⟨n, back, t, hrun, hmaps⟩ := pagingMapPages_loop h hrange
  have hmapped := hmaps.range
  obtain ⟨rfl, rfl⟩ := Prod.mk.inj (Option.some.inj (hrun.symm.trans hmap))
  have hcount := hrange.last_number
  have hlast := pageNumber_lt (pageDirIdx_lt_of_lt hrange.last_lt)
  have hpos : 0 < size.toNat := hrange.pos
  have hbelow := hrange.below
  have hsize : (0xFFF : BitVec 32).toNat = 0xFFF := rfl
  rw [IsFrame] at hva
  have hfirst : pageNumber (va + 0xFFF) = pageNumber va := by
    rw [pageNumber, pageNumber, BitVec.toNat_add, hsize]
    omega
  -- the whole range was mapped
  obtain ⟨rfl, rfl⟩ : n = pageCount va size ∧ back = [] := by
    refine (hmaps.count hrange).resolve_right fun hstop => ?_
    have hlt := hstop.1
    have hall' : size.toNat ≤ 0x1000 * n := by
      rw [BitVec.le_def, BitVec.toNat_ofNat, Nat.mod_eq_of_lt (by omega)] at hall
      exact hall
    rw [pageCount, pageNumber] at hlt
    omega
  obtain ⟨b, s'', hrun', hunmapped⟩ := pagingUnmapPages_range hmapped.owns hrange
  rw [hfirst, Nat.add_sub_cancel_left] at hunmapped
  refine ⟨b, s'', hrun', fun i hi => ?_, ?_, ?_, fun i hi => ?_⟩
  · rw [hunmapped.entries i hi]
    by_cases hin : pageNumber va ≤ i ∧ i < pageNumber va + pageCount va size
    · rw [if_pos ⟨hin, hmapped.present hin.1 hin.2⟩, hmapped.was i hin.1 hin.2]
    · rw [if_neg fun hi => hin hi.1, hmapped.others i hi hin]
  · rw [hunmapped.released, hmapped.given, mappedFrames_eq (by omega)
      fun i hle hi => hmapped.present hle hi]
    rfl
  · have htables : newTables dir s.mem s''.mem = newTables dir s.mem t.mem :=
      newTables_congr hunmapped.tables
    rw [hunmapped.acquired, htables]
    exact hmapped.taken
  · rw [hunmapped.tables i hi]
    by_cases hp : IsPresent (pde dir s.mem i)
    · exact .inl (hmapped.tables i hi hp)
    · exact (hmapped.installed i hi hp).imp id fun hnew => ⟨hp, hnew.2⟩

theorem mem_acquire_frameList {t : PagingState (List (BitVec 20))} :
    (pageAcquire0 frameList t).2.mem = t.mem := by
  obtain ⟨m, _ | ⟨n, l⟩, acquired, released, writes⟩ := t <;> rfl

/-- A page of the process is mapped. -/
theorem pagingMapPages_smallProcess : ∃ s',
    pagingMapPages frameList (numbered 0x80300) 0x1000 1 smallProcess = some (0x1000, s') := by
  have hcan : CanMap frameList (numbered 0x80300) (pageAddress 0x1000) smallProcess := by
    refine ⟨numbered 0x80301, (pageAcquire0 frameList smallProcess).2, rfl, ?_⟩
    rw [mem_acquire_frameList, if_neg (not_isPresent_smallProcess (by decide))]
    exact ⟨numbered 0x80302, _, rfl⟩
  obtain ⟨s', hm, -⟩ := mapNext_of_canMap hcan
  have hfuel : 2 ^ 20 = 0xFFFFF + 1 := by decide
  refine ⟨s', ?_⟩
  rw [pagingMapPages, if_neg (by decide), hfuel, mapPagesLoop_some hm, if_pos (by decide)]
  rfl

theorem pagingUnmapPages_undoes_smallProcess : ∃ s' b s'',
    pagingMapPages frameList (numbered 0x80300) 0x1000 1 smallProcess = some (0x1000, s') ∧
    pagingUnmapPages frameList (numbered 0x80300) 0x1000 1 s' = some (b, s'') ∧
    (∀ i < 2 ^ 19, userEntry (numbered 0x80300) s''.mem i =
      userEntry (numbered 0x80300) smallProcess.mem i) ∧
    s''.released = (pageFrames (numbered 0x80300) s'.mem (pageNumber 0x1000)
      (pageCount 0x1000 1)).reverse ++ smallProcess.released ∧
    s''.acquired.Perm (pageFrames (numbered 0x80300) s'.mem (pageNumber 0x1000)
      (pageCount 0x1000 1) ++ newTables (numbered 0x80300) smallProcess.mem s''.mem ++
        smallProcess.acquired) ∧
    ∀ i < 1024, pde (numbered 0x80300) s''.mem i = pde (numbered 0x80300) smallProcess.mem i ∨
      ¬IsPresent (pde (numbered 0x80300) smallProcess.mem i) ∧
        IsPresent (pde (numbered 0x80300) s''.mem i) := by
  obtain ⟨s', hmap⟩ := pagingMapPages_smallProcess
  obtain ⟨b, s'', hrest⟩ := pagingUnmapPages_undoes owns_smallProcess (by rw [IsFrame]; decide)
    ⟨by decide, by decide⟩ hmap (by decide)
  exact ⟨s', b, s'', hmap, hrest⟩

end unmapping

end Avos
