import Avos.Devices.Apic

/-! # Which ACPI Tables Are Read Safely

  A checksum says nothing about the lengths inside a table. `ApicSafe` is what one
  expects of a call of `APIC_SaveInfo`: it ends, it reads entries inside the tables
  only, it stays inside its two arrays, and a result `true` comes with pointers to all
  the entries. `apicSafe_iff` states for which tables this is the case.

  The entries of the MADT are described by their offsets in it. Over a finite walk along
  these offsets both passes are folds (`saveMadt_eq`), and each of the properties is one
  of the folds.
-/

open ByteMemory Walks

namespace Avos

/-! ## Section 1: What Is Expected -/

/-- The address of an entry of the MADT. -/
def entryAt (madt : BitVec 32) (o : Nat) : BitVec 32 := madt + BitVec.ofNat 32 o

/-- The length of the entry at an offset. -/
def entryLength (m : Memory) (madt : BitVec 32) (o : Nat) : Nat := (m (entryAt madt o + 1)).toNat

/-- The entries begin at the offsets `l`, each where the one before it ends, and the last
    of them reaches the end of the table. -/
def EntryOffsets (m : Memory) (madt : BitVec 32) (l : List Nat) : Prop :=
  Walk (fun o => o < (tableLength m madt).toNat) (fun o => o + entryLength m madt o) 44 l

/-- The addresses of the entries of type `t`, in the order of the table. -/
def entriesOfType (m : Memory) (madt : BitVec 32) (l : List Nat) (t : BitVec 8) :
    List (BitVec 32) :=
  (l.map (entryAt madt)).filter fun e => m e = t

/-- The read is inside the declared length of its table. -/
def ReadInside (m : Memory) (r : TableRead) : Prop :=
  (r.addr - r.table).toNat + r.count ≤ (tableLength m r.table).toNat

/-- The saved pointers are the entries of the table. -/
def EntriesSaved (m : Memory) (madt : BitVec 32) (s : ApicState) : Prop :=
  ∃ l, EntryOffsets m madt l ∧
    (List.range s.localApicNum).map s.localApicInfoPtrs = entriesOfType m madt l 0 ∧
    (List.range s.ioApicNum).map s.ioApicInfoPtrs = entriesOfType m madt l 1

/-- The function ends, with all its accesses inside the tables and the arrays, and if it
    returns `true` it has saved all the entries. -/
def ApicSafe (m : Memory) (bootInfo : BitVec 32) (s : ApicState) (madt : BitVec 32) : Prop :=
  ∃ fuel result s', apicSaveInfo m fuel bootInfo s = some (result, s') ∧
    (∀ r ∈ s'.reads, ReadInside m r) ∧
    (∀ i ∈ s'.localApicWrites, i < machineMaxCpus) ∧
    (∀ i ∈ s'.ioApicWrites, i < machineMaxIoApics) ∧
    (result = true → EntriesSaved m madt s')

/-- The state before the first call. -/
structure Unsaved (s : ApicState) : Prop where
  infoSaved : s.infoSaved = false
  madtPtr : s.madtPtr = 0
  reads : s.reads = []
  localApicWrites : s.localApicWrites = []
  ioApicWrites : s.ioApicWrites = []

/-- The boot information leads to the RSDT, and the RSDT to the MADT; their checksums are
    right, and the MADT lies where the kernel maps memory. -/
structure Tables (m : Memory) (bootInfo : BitVec 32) (s : ApicState)
    (rsdt madt : BitVec 32) : Prop where
  rsdtFound : ∃ fuel rsdp, findRsdp m fuel bootInfo = some (.ok rsdp) ∧ rsdp ≠ 0 ∧
    rsdt = load32 m (rsdp + 16) + higherHalfOffset
  rsdtChecksum : ChecksumOk m rsdt
  madtFound : (findMadt m rsdt s (rsdtEntries m rsdt)).madtPtr = madt
  madtNonzero : madt ≠ 0
  madtChecksum : ChecksumOk m madt
  mapped : madt.toNat + (tableLength m madt).toNat ≤ 0xF0000000

/-! ## Section 2: The Condition -/

/-- The entry is an address override that ends the function. -/
def TooHigh (m : Memory) (e : BitVec 32) : Prop :=
  m e = 5 ∧ 0xFFFFFFFF < (overrideAddress m e).toNat

instance (m : Memory) : DecidablePred (TooHigh m) :=
  fun _ => inferInstanceAs (Decidable (_ ∧ _))

/-- The entries the second pass comes to: up to the first override that ends it. -/
def reached (m : Memory) : List (BitVec 32) → List (BitVec 32)
  | [] => []
  | e :: l => if TooHigh m e then [e] else e :: reached m l

/-- The second pass over these entries stays inside the table and the array of I/O APICs. -/
structure SecondPassOk (m : Memory) (madt : BitVec 32) (l : List (BitVec 32)) : Prop where
  override : ∀ e ∈ reached m l, m e = 5 →
    (e - madt).toNat + 12 ≤ (tableLength m madt).toNat
  ioApics : (reached m l).countP (fun e => m e = 1) ≤ machineMaxIoApics

/-- The tables on which the function does what is expected. -/
structure TablesOk (m : Memory) (rsdt madt : BitVec 32) : Prop where
  rsdtLength : 36 ≤ (tableLength m rsdt).toNat
  entries : ∃ l, EntryOffsets m madt l ∧ (∀ o ∈ l, o + 2 ≤ (tableLength m madt).toNat) ∧
    ((entriesOfType m madt l 0).length ≤ machineMaxCpus →
      SecondPassOk m madt (l.map (entryAt madt)))

/-! ## Section 3: The Passes as Folds -/

section passes

variable {m : Memory} {bootInfo rsdt madt e : BitVec 32} {s : ApicState} {n : Nat}

/-- Over the entries of a mapped table, the addresses of the loops are the offsets. -/
theorem walk_inMadt_iff (hmap : madt.toNat + (tableLength m madt).toNat ≤ 0xF0000000)
    {l' : List (BitVec 32)} :
    Walk (InMadt m madt) (nextEntry m) (madt + 44) l' ↔
      ∃ l, EntryOffsets m madt l ∧ l' = l.map (entryAt madt) := by
  have hlt : ∀ o, o < (tableLength m madt).toNat + 300 →
      (entryAt madt o).toNat = madt.toNat + o := by
    intro o ho
    rw [entryAt, BitVec.toNat_add, BitVec.toNat_ofNat]
    omega
  refine Walk.map_iff (f := entryAt madt) (a := 44)
    (I := fun o => o < (tableLength m madt).toNat + 300) ?_ ?_ (by omega)
  · intro o ho
    rw [InMadt, BitVec.lt_def, hlt o ho, BitVec.toNat_add, Nat.mod_eq_of_lt (by omega)]
    omega
  · intro o ho hcond
    have hlen : entryLength m madt o < 256 := (m (entryAt madt o + 1)).isLt
    refine ⟨by omega, ?_⟩
    rw [nextEntry, entryAt, entryAt, BitVec.ofNat_add, ← BitVec.add_assoc]
    congr 1
    rw [entryLength, BitVec.ofNat_toNat, entryAt]

/-- What the loop body of the second pass does, and whether it goes on. -/
def saved (m : Memory) (madt e : BitVec 32) (s : ApicScan) : ApicScan :=
  { state := { s.state with
      localApicAddress := if m e = 5 ∧ ¬TooHigh m e then (overrideAddress m e).setWidth 32
        else s.state.localApicAddress
      localApicInfoPtrs := if m e = 0 then
        Function.update s.state.localApicInfoPtrs s.numCpus e else s.state.localApicInfoPtrs
      localApicWrites := if m e = 0 then s.numCpus :: s.state.localApicWrites
        else s.state.localApicWrites
      ioApicInfoPtrs := if m e = 1 then
        Function.update s.state.ioApicInfoPtrs s.numIoApics e else s.state.ioApicInfoPtrs
      ioApicWrites := if m e = 1 then s.numIoApics :: s.state.ioApicWrites
        else s.state.ioApicWrites
      reads := (if TooHigh m e then [] else [⟨madt, e + 1, 1⟩]) ++
        (if m e = 5 then [⟨madt, e + 4, 8⟩] else []) ++ ⟨madt, e, 1⟩ :: s.state.reads }
    numCpus := if m e = 0 then s.numCpus + 1 else s.numCpus
    numIoApics := if m e = 1 then s.numIoApics + 1 else s.numIoApics }

theorem saveEntry_eq {s : ApicScan} : saveEntry m madt e s =
    if TooHigh m e then .error (saved m madt e s).state else .ok (saved m madt e s) := by
  have h01 : (1 : BitVec 8) ≠ 0 := by decide
  have h05 : (5 : BitVec 8) ≠ 0 := by decide
  have h15 : (5 : BitVec 8) ≠ 1 := by decide
  simp only [saveEntry, saved, TooHigh]
  by_cases h0 : m e = 0
  · simp only [h0, if_true, h01.symm, h05.symm, if_false, false_and,
      List.singleton_append]
  by_cases h1 : m e = 1
  · simp only [h1, if_true, h01, h15.symm, if_false, false_and,
      List.singleton_append]
  by_cases h5 : m e = 5
  · by_cases hhigh : 0xFFFFFFFF < (overrideAddress m e).toNat
    · simp only [h5, if_true, h05, h15, if_false, hhigh, true_and, not_true, List.nil_append,
        List.singleton_append]
    · simp only [h5, if_true, h05, h15, if_false, hhigh, true_and, not_false_iff,
        List.cons_append, List.nil_append]
  · simp only [h0, h1, h5, if_false, false_and, List.singleton_append]

/-- The second pass saves all the entries if none of them ends it. -/
theorem foldlM_saveEntry_ok {l : List (BitVec 32)} {s : ApicScan}
    (h : ∀ e ∈ l, ¬TooHigh m e) :
    l.foldlM (fun s e => saveEntry m madt e s) s =
      .ok (l.foldl (fun s e => saved m madt e s) s) := by
  induction l generalizing s with
  | nil => rfl
  | cons e l ih =>
    simp only [List.mem_cons, forall_eq_or_imp] at h
    rw [List.foldlM_cons, saveEntry_eq, if_neg h.1]
    exact ih h.2

/-- The second pass saves the entries up to the one that ends it. -/
theorem foldlM_saveEntry_error {l : List (BitVec 32)} {s : ApicScan}
    (h : ∃ e ∈ l, TooHigh m e) :
    l.foldlM (fun s e => saveEntry m madt e s) s =
      .error ((reached m l).foldl (fun s e => saved m madt e s) s).state := by
  induction l generalizing s with
  | nil => simp at h
  | cons e l ih =>
    rw [List.foldlM_cons, saveEntry_eq, reached]
    by_cases he : TooHigh m e
    · rw [if_pos he, if_pos he]
      rfl
    · simp only [List.mem_cons, exists_eq_or_imp, he, false_or] at h
      rw [if_neg he, if_neg he]
      exact ih h

theorem reached_eq_self {l : List (BitVec 32)} (h : ∀ e ∈ l, ¬TooHigh m e) :
    reached m l = l := by
  induction l with
  | nil => rfl
  | cons e l ih =>
    simp only [List.mem_cons, forall_eq_or_imp] at h
    rw [reached, if_neg h.1, ih h.2]

theorem reached_sublist {l : List (BitVec 32)} : (reached m l).Sublist l := by
  induction l with
  | nil => exact List.Sublist.refl _
  | cons e l ih =>
    rw [reached]
    split
    · exact (List.nil_sublist l).cons_cons e
    · exact ih.cons_cons e

end passes

/-! ## Section 4: What the Folds Compute -/

section folds

variable {m : Memory} {madt : BitVec 32} {l : List (BitVec 32)} {s : ApicScan} {r : TableRead}

/-- The reads of one entry in the second pass. -/
def entryReads (m : Memory) (madt e : BitVec 32) : List TableRead :=
  (if TooHigh m e then [] else [⟨madt, e + 1, 1⟩]) ++
    (if m e = 5 then [⟨madt, e + 4, 8⟩] else []) ++ [⟨madt, e, 1⟩]

theorem foldl_countEntry_num :
    (l.foldl (fun s e => countEntry m madt e s) s).numCpus =
        s.numCpus + l.countP (fun e => m e = 0) ∧
      (l.foldl (fun s e => countEntry m madt e s) s).numIoApics =
        s.numIoApics + l.countP (fun e => m e = 1) := by
  induction l generalizing s with
  | nil => exact ⟨rfl, rfl⟩
  | cons e l ih =>
    rw [List.foldl_cons, ih.1, ih.2, List.countP_cons, List.countP_cons]
    simp only [countEntry, decide_eq_true_eq]
    constructor <;> split <;> omega

theorem foldl_countEntry_state :
    (l.foldl (fun s e => countEntry m madt e s) s).state =
      { s.state with reads :=
          (l.reverse.flatMap fun e => [⟨madt, e + 1, 1⟩, ⟨madt, e, 1⟩]) ++ s.state.reads } := by
  induction l generalizing s with
  | nil => rfl
  | cons e l ih =>
    rw [List.foldl_cons, ih, List.reverse_cons, List.flatMap_append]
    simp [countEntry]

theorem foldl_saved_num :
    (l.foldl (fun s e => saved m madt e s) s).numCpus =
        s.numCpus + l.countP (fun e => m e = 0) ∧
      (l.foldl (fun s e => saved m madt e s) s).numIoApics =
        s.numIoApics + l.countP (fun e => m e = 1) := by
  induction l generalizing s with
  | nil => exact ⟨rfl, rfl⟩
  | cons e l ih =>
    rw [List.foldl_cons, ih.1, ih.2, List.countP_cons, List.countP_cons]
    simp only [saved, decide_eq_true_eq]
    constructor <;> split <;> omega

theorem foldl_saved_localApicNum :
    (l.foldl (fun s e => saved m madt e s) s).state.localApicNum = s.state.localApicNum ∧
      (l.foldl (fun s e => saved m madt e s) s).state.ioApicNum = s.state.ioApicNum := by
  induction l generalizing s with
  | nil => exact ⟨rfl, rfl⟩
  | cons e l ih =>
    rw [List.foldl_cons]
    exact ih

theorem mem_foldl_saved_reads : r ∈ (l.foldl (fun s e => saved m madt e s) s).state.reads ↔
    r ∈ s.state.reads ∨ ∃ e ∈ l, r ∈ entryReads m madt e := by
  induction l generalizing s with
  | nil => simp
  | cons e l ih =>
    have hone : r ∈ (saved m madt e s).state.reads ↔
        r ∈ s.state.reads ∨ r ∈ entryReads m madt e := by
      simp only [saved, entryReads, List.mem_append, List.mem_cons, List.not_mem_nil, or_false]
      tauto
    rw [List.foldl_cons, ih, hone, List.exists_mem_cons_iff, or_assoc]

theorem mem_foldl_saved_localApicWrites {i : Nat} :
    i ∈ (l.foldl (fun s e => saved m madt e s) s).state.localApicWrites ↔
      i ∈ s.state.localApicWrites ∨
        (s.numCpus ≤ i ∧ i < s.numCpus + l.countP (fun e => m e = 0)) := by
  induction l generalizing s with
  | nil => grind
  | cons e l ih =>
    rw [List.foldl_cons, ih, List.countP_cons]
    by_cases he : m e = 0
    · simp only [saved, he, if_true, decide_true, List.mem_cons]
      grind
    · simp only [saved, he, if_false, decide_false, Bool.false_eq_true]
      grind

theorem mem_foldl_saved_ioApicWrites {i : Nat} :
    i ∈ (l.foldl (fun s e => saved m madt e s) s).state.ioApicWrites ↔
      i ∈ s.state.ioApicWrites ∨
        (s.numIoApics ≤ i ∧ i < s.numIoApics + l.countP (fun e => m e = 1)) := by
  induction l generalizing s with
  | nil => grind
  | cons e l ih =>
    rw [List.foldl_cons, ih, List.countP_cons]
    by_cases he : m e = 1
    · simp only [saved, he, if_true, decide_true, List.mem_cons]
      grind
    · simp only [saved, he, if_false, decide_false, Bool.false_eq_true]
      grind

/-- The elements of an array before an index, when the element there is written. -/
theorem map_range_update {f : Nat → BitVec 32} {n : Nat} {e : BitVec 32} :
    (List.range (n + 1)).map (Function.update f n e) = (List.range n).map f ++ [e] := by
  rw [List.range_succ, List.map_append, List.map_singleton, Function.update_self]
  congr 1
  refine List.map_congr_left fun i hi => ?_
  exact Function.update_of_ne (by rw [List.mem_range] at hi; omega) _ _

/-- The array of the local APICs holds the entries of type 0 saved so far, in order. -/
theorem foldl_saved_localApicInfoPtrs :
    let s' := l.foldl (fun s e => saved m madt e s) s
    (List.range s'.numCpus).map s'.state.localApicInfoPtrs =
      (List.range s.numCpus).map s.state.localApicInfoPtrs ++ l.filter (fun e => m e = 0) := by
  induction l generalizing s with
  | nil => simp
  | cons e l ih =>
    simp only [List.foldl_cons] at ih ⊢
    rw [ih]
    by_cases he : m e = 0
    · simp only [saved, he, if_true, map_range_update, List.filter_cons, decide_true,
        List.append_assoc, List.singleton_append]
    · simp only [saved, he, if_false, List.filter_cons, decide_false, Bool.false_eq_true]

theorem foldl_saved_ioApicInfoPtrs :
    let s' := l.foldl (fun s e => saved m madt e s) s
    (List.range s'.numIoApics).map s'.state.ioApicInfoPtrs =
      (List.range s.numIoApics).map s.state.ioApicInfoPtrs ++ l.filter (fun e => m e = 1) := by
  induction l generalizing s with
  | nil => simp
  | cons e l ih =>
    simp only [List.foldl_cons] at ih ⊢
    rw [ih]
    by_cases he : m e = 1
    · simp only [saved, he, if_true, map_range_update, List.filter_cons, decide_true,
        List.append_assoc, List.singleton_append]
    · simp only [saved, he, if_false, List.filter_cons, decide_false, Bool.false_eq_true]

end folds

/-! ## Section 5: The Function on the Tables -/

section safety

variable {m : Memory} {bootInfo rsdt madt : BitVec 32} {s : ApicState} {fuel : Nat}
  {l : List Nat}

/-- The two passes over the entries `es`. -/
def passes (m : Memory) (madt : BitVec 32) (es : List (BitVec 32)) (s : ApicState) :
    Bool × ApicState :=
  let counted := (es.foldl (fun s e => countEntry m madt e s) ⟨s, 0, 0⟩).state
  if machineMaxCpus < es.countP (fun e => m e = 0) then (false, counted)
  else
    let counted := { counted with
      localApicNum := es.countP (fun e => m e = 0)
      ioApicNum := es.countP (fun e => m e = 1) }
    let scan := (reached m es).foldl (fun s e => saved m madt e s) ⟨counted, 0, 0⟩
    (¬∃ e ∈ es, TooHigh m e, { scan.state with
      infoSaved := if ∃ e ∈ es, TooHigh m e then scan.state.infoSaved else true })

/-- The variables set before the passes. -/
def readHeader (m : Memory) (s : ApicState) : ApicState :=
  { s with
    picExists := load32 m (s.madtPtr + 40) ≠ 0
    localApicAddress := load32 m (s.madtPtr + 36) }

theorem saveMadt_counted {scan : ApicScan}
    (h : countEntries m fuel s.madtPtr (readHeader m s) = some (.ok scan)) :
    saveMadt m fuel s =
      if machineMaxCpus < scan.numCpus then some (false, scan.state)
      else
        match saveEntries m fuel s.madtPtr { scan.state with
          localApicNum := scan.numCpus, ioApicNum := scan.numIoApics } with
        | none => none
        | some (.error s) => some (false, s)
        | some (.ok scan) => some (true, { scan.state with infoSaved := true }) := by
  have hcpus : (machineMaxCpus < scan.numCpus ∨ machineMaxIoApics < scan.numCpus) ↔
      machineMaxCpus < scan.numCpus := or_self_iff
  unfold readHeader at h
  simp only [saveMadt, h, hcpus] <;> rfl

/-- Over a finite walk along the entries the function ends, and is two folds. -/
theorem saveMadt_eq (hmap : s.madtPtr.toNat + (tableLength m s.madtPtr).toNat ≤ 0xF0000000)
    (hl : EntryOffsets m s.madtPtr l) (hfuel : l.length < fuel) :
    saveMadt m fuel s = some (passes m s.madtPtr (l.map (entryAt s.madtPtr)) (readHeader m s)) := by
  have hw := (walk_inMadt_iff hmap).mpr ⟨l, hl, rfl⟩
  have hlen : (l.map (entryAt s.madtPtr)).length < fuel := by simpa using hfuel
  have hcount : countEntries m fuel s.madtPtr (readHeader m s) = some (.ok
      ((l.map (entryAt s.madtPtr)).foldl (fun s' e => countEntry m s.madtPtr e s')
        ⟨readHeader m s, 0, 0⟩)) := whileLoop_pure.mpr ⟨_, hw, hlen, rfl⟩
  have hnum := @foldl_countEntry_num m s.madtPtr (l.map (entryAt s.madtPtr))
    ⟨readHeader m s, 0, 0⟩
  simp only [Nat.zero_add] at hnum
  rw [saveMadt_counted hcount]
  simp only [hnum, passes]
  by_cases hmany : machineMaxCpus < (l.map (entryAt s.madtPtr)).countP (fun e => m e = 0)
  · rw [if_pos hmany, if_pos hmany]
  · rw [if_neg hmany, if_neg hmany, saveEntries, whileLoop_of_walk hw hlen]
    by_cases hhigh : ∃ e ∈ l.map (entryAt s.madtPtr), TooHigh m e
    · rw [foldlM_saveEntry_error hhigh, if_pos hhigh]
      simp only [hhigh, not_true, decide_false]
    · have hlow : ∀ e ∈ l.map (entryAt s.madtPtr), ¬TooHigh m e := by
        intro e he h
        exact hhigh ⟨e, he, h⟩
      rw [if_neg hhigh, foldlM_saveEntry_ok hlow, reached_eq_self hlow]
      simp only [hhigh, not_false_iff, decide_true]

/-- The search for the MADT reads entries of the RSDT, and writes no array. -/
theorem findMadt_accesses {n : Nat} :
    (findMadt m rsdt s n).reads =
        ((List.range n).reverse.map fun i => ⟨rsdt, rsdtEntry rsdt i, 4⟩) ++ s.reads ∧
      (findMadt m rsdt s n).localApicWrites = s.localApicWrites ∧
      (findMadt m rsdt s n).ioApicWrites = s.ioApicWrites := by
  induction n with
  | zero => exact ⟨rfl, rfl, rfl⟩
  | succ n ih =>
    simp only [findMadt]
    split <;> simp [ih, List.range_succ]

/-- The entries of the RSDT are inside it unless it is shorter than its header. -/
theorem rsdtReads_inside (h : 36 ≤ (tableLength m rsdt).toNat) {i : Nat}
    (hi : i < rsdtEntries m rsdt) : ReadInside m ⟨rsdt, rsdtEntry rsdt i, 4⟩ := by
  have hsub : (tableLength m rsdt - 36).toNat = (tableLength m rsdt).toNat - 36 :=
    BitVec.toNat_sub_of_le (BitVec.le_def.mpr h)
  rw [rsdtEntries, hsub] at hi
  have hlt := (tableLength m rsdt).isLt
  have haddr : rsdtEntry rsdt i - rsdt = BitVec.ofNat 32 (36 + 4 * i) := by
    rw [rsdtEntry, BitVec.ofNat_add]
    bv_omega
  simp only [ReadInside, haddr, BitVec.toNat_ofNat]
  omega

theorem rsdtReads_outside (h : (tableLength m rsdt).toNat < 36) :
    0 < rsdtEntries m rsdt ∧ ¬ReadInside m ⟨rsdt, rsdtEntry rsdt 0, 4⟩ := by
  constructor
  · rw [rsdtEntries]
    bv_omega
  · have haddr : rsdtEntry rsdt 0 - rsdt = 36 := by
      rw [rsdtEntry]
      bv_omega
    simp only [ReadInside, haddr]
    exact fun h' => absurd h' (by simp; omega)

/-- A read in the entry at an offset. -/
theorem readInside_entryAt {o i k : Nat} (h : o + i < 2 ^ 32) :
    ReadInside m ⟨madt, entryAt madt o + BitVec.ofNat 32 i, k⟩ ↔
      o + i + k ≤ (tableLength m madt).toNat := by
  have haddr : entryAt madt o + BitVec.ofNat 32 i - madt = BitVec.ofNat 32 (o + i) := by
    rw [entryAt, BitVec.ofNat_add]
    bv_omega
  simp only [ReadInside, haddr, BitVec.toNat_ofNat, Nat.mod_eq_of_lt h]

theorem readInside_entryAt_zero {o k : Nat} (h : o < 2 ^ 32) :
    ReadInside m ⟨madt, entryAt madt o, k⟩ ↔ o + k ≤ (tableLength m madt).toNat := by
  simpa using @readInside_entryAt m madt o 0 k h

/-- The entries are in the part of the address space that the kernel maps. -/
theorem EntryOffsets.lt (hl : EntryOffsets m madt l) {o : Nat} (ho : o ∈ l) :
    o < (tableLength m madt).toNat := by
  obtain ⟨b, hp, _⟩ := hl
  exact hp.holds o ho

theorem counted_reads (hl : EntryOffsets m madt l)
    (hmap : madt.toNat + (tableLength m madt).toNat ≤ 0xF0000000) :
    (∀ r ∈ ((l.map (entryAt madt)).foldl (fun s e => countEntry m madt e s) ⟨s, 0, 0⟩).state.reads,
        ReadInside m r) ↔
      (∀ r ∈ s.reads, ReadInside m r) ∧ ∀ o ∈ l, o + 2 ≤ (tableLength m madt).toNat := by
  have hentry : ∀ o ∈ l, (ReadInside m ⟨madt, entryAt madt o + 1, 1⟩ ∧
      ReadInside m ⟨madt, entryAt madt o, 1⟩) ↔ o + 2 ≤ (tableLength m madt).toNat := by
    intro o ho
    have hlt := hl.lt ho
    have h0 := @readInside_entryAt_zero m madt o 1 (by omega)
    have h1 := @readInside_entryAt m madt o 1 1 (by omega)
    simp only [h0, show (1 : BitVec 32) = BitVec.ofNat 32 1 from rfl, h1]
    omega
  rw [foldl_countEntry_state]
  constructor
  · intro h
    refine ⟨fun r hr => h r (by simp [hr]), fun o ho => (hentry o ho).mp ⟨?_, ?_⟩⟩
    · exact h _ (by simp only [List.mem_append, List.mem_flatMap]; exact .inl ⟨entryAt madt o,
        by simpa using ⟨o, ho, rfl⟩, by simp⟩)
    · exact h _ (by simp only [List.mem_append, List.mem_flatMap]; exact .inl ⟨entryAt madt o,
        by simpa using ⟨o, ho, rfl⟩, by simp⟩)
  · rintro ⟨hs, hl'⟩ r hr
    simp only [List.mem_append, List.mem_flatMap, List.mem_reverse, List.mem_map] at hr
    rcases hr with ⟨_, ⟨o, ho, rfl⟩, hr⟩ | hr
    · have := (hentry o ho).mpr (hl' o ho)
      simp only [List.mem_cons, List.not_mem_nil, or_false] at hr
      rcases hr with rfl | rfl
      · exact this.1
      · exact this.2
    · exact hs r hr

/-- The reads of the second pass in one entry. -/
theorem entryReads_inside {o : Nat} (ho : o + 2 ≤ (tableLength m madt).toNat)
    (hmap : madt.toNat + (tableLength m madt).toNat ≤ 0xF0000000) :
    (∀ r ∈ entryReads m madt (entryAt madt o), ReadInside m r) ↔
      (m (entryAt madt o) = 5 →
        (entryAt madt o - madt).toNat + 12 ≤ (tableLength m madt).toNat) := by
  have hoff : (entryAt madt o - madt).toNat = o := by
    rw [entryAt]
    bv_omega
  have h0 := @readInside_entryAt_zero m madt o 1 (by omega)
  have h1 := @readInside_entryAt m madt o 1 1 (by omega)
  have h4 := @readInside_entryAt m madt o 4 8 (by omega)
  have hlen : ReadInside m ⟨madt, entryAt madt o + 1, 1⟩ := h1.mpr (by omega)
  have htype : ReadInside m ⟨madt, entryAt madt o, 1⟩ := h0.mpr (by omega)
  rw [hoff]
  have h12 : ReadInside m ⟨madt, entryAt madt o + 4, 8⟩ ↔
      o + 12 ≤ (tableLength m madt).toNat := h4
  rw [← h12]
  simp only [entryReads, List.mem_append, List.mem_singleton]
  constructor
  · intro h h5
    exact h _ (by simp [h5])
  · intro h r hr
    rcases hr with (hr | hr) | rfl
    · split at hr
      · simp at hr
      · obtain rfl := List.mem_singleton.mp hr
        exact hlen
    · split at hr
      · rename_i h5
        obtain rfl := List.mem_singleton.mp hr
        exact h h5
      · simp at hr
    · exact htype

/-- Where the reads of the passes are inside the MADT. -/
theorem passes_reads (hl : EntryOffsets m madt l)
    (hmap : madt.toNat + (tableLength m madt).toNat ≤ 0xF0000000) :
    (∀ r ∈ (passes m madt (l.map (entryAt madt)) s).2.reads, ReadInside m r) ↔
      (∀ r ∈ s.reads, ReadInside m r) ∧ (∀ o ∈ l, o + 2 ≤ (tableLength m madt).toNat) ∧
        ((entriesOfType m madt l 0).length ≤ machineMaxCpus →
          ∀ e ∈ reached m (l.map (entryAt madt)), m e = 5 →
            (e - madt).toNat + 12 ≤ (tableLength m madt).toNat) := by
  rw [← and_assoc, ← counted_reads hl hmap, entriesOfType, ← List.countP_eq_length_filter]
  have hcounted := counted_reads (s := s) hl hmap
  simp only [passes]
  by_cases hmany : machineMaxCpus < (l.map (entryAt madt)).countP (fun e => m e = 0)
  · rw [if_pos hmany]
    exact ⟨fun h => ⟨h, fun hle => absurd hmany (by omega)⟩, And.left⟩
  · rw [if_neg hmany]
    have hle : (l.map (entryAt madt)).countP (fun e => m e = 0) ≤ machineMaxCpus := by omega
    simp only [hle, forall_const]
    constructor
    · intro h
      have hc := hcounted.mp fun r hr => h r (mem_foldl_saved_reads.mpr (.inl hr))
      refine ⟨hcounted.mpr hc, fun e he => ?_⟩
      obtain ⟨o, ho, rfl⟩ := List.mem_map.mp (reached_sublist.mem he)
      exact (entryReads_inside (hc.2 o ho) hmap).mp
        fun r hr => h r (mem_foldl_saved_reads.mpr (.inr ⟨_, he, hr⟩))
    · rintro ⟨hc, hover⟩ r hr
      rcases mem_foldl_saved_reads.mp hr with hr | ⟨e, he, hr⟩
      · exact hc r hr
      · obtain ⟨o, ho, rfl⟩ := List.mem_map.mp (reached_sublist.mem he)
        exact (entryReads_inside ((hcounted.mp hc).2 o ho) hmap).mpr (hover _ he) r hr

/-- The count of the local APICs is checked, so their array is never left. -/
theorem passes_localApicWrites {es : List (BitVec 32)} (hs : s.localApicWrites = []) :
    ∀ i ∈ (passes m madt es s).2.localApicWrites, i < machineMaxCpus := by
  have hcounted := @foldl_countEntry_state m madt es ⟨s, 0, 0⟩
  simp only [passes]
  split
  · simp [hcounted, hs]
  · rename_i hmany
    intro i hi
    have hle : (reached m es).countP (fun e => m e = 0) ≤ es.countP (fun e => m e = 0) :=
      reached_sublist.countP_le
    rcases mem_foldl_saved_localApicWrites.mp hi with hi | hi
    · simp [hcounted, hs] at hi
    · simp only at hi
      omega

/-- The count of the I/O APICs is not. -/
theorem passes_ioApicWrites {es : List (BitVec 32)} (hs : s.ioApicWrites = []) :
    (∀ i ∈ (passes m madt es s).2.ioApicWrites, i < machineMaxIoApics) ↔
      (es.countP (fun e => m e = 0) ≤ machineMaxCpus →
        (reached m es).countP (fun e => m e = 1) ≤ machineMaxIoApics) := by
  have hcounted := @foldl_countEntry_state m madt es ⟨s, 0, 0⟩
  simp only [passes]
  by_cases hmany : machineMaxCpus < es.countP (fun e => m e = 0)
  · rw [if_pos hmany]
    refine iff_of_true (by simp [hcounted, hs]) fun hle => absurd hmany (by omega)
  · rw [if_neg hmany]
    have hle : es.countP (fun e => m e = 0) ≤ machineMaxCpus := by omega
    simp only [hle, forall_const, mem_foldl_saved_ioApicWrites, hcounted, hs, List.not_mem_nil,
      false_or, Nat.zero_le, true_and, Nat.zero_add]
    constructor
    · intro h
      by_contra hgt
      have := h _ (by omega : machineMaxIoApics < _)
      omega
    · intro h i hi
      omega

/-- When the passes go to the end, both arrays hold all the entries. -/
theorem passes_infoPtrs {es : List (BitVec 32)} {s' : ApicState}
    (h : passes m madt es s = (true, s')) :
    (List.range s'.localApicNum).map s'.localApicInfoPtrs = es.filter (fun e => m e = 0) ∧
      (List.range s'.ioApicNum).map s'.ioApicInfoPtrs = es.filter (fun e => m e = 1) := by
  simp only [passes] at h
  by_cases hmany : machineMaxCpus < es.countP (fun e => m e = 0)
  · rw [if_pos hmany] at h
    exact absurd (congrArg Prod.fst h) Bool.false_ne_true
  · rw [if_neg hmany, Prod.mk.injEq] at h
    obtain ⟨hhigh, rfl⟩ := h
    have hlow : ∀ e ∈ es, ¬TooHigh m e := by
      intro e he h
      exact of_decide_eq_true hhigh ⟨e, he, h⟩
    simp only [reached_eq_self hlow, foldl_saved_localApicNum]
    constructor
    · have h := @foldl_saved_localApicInfoPtrs m madt es
        ⟨{ (es.foldl (fun s e => countEntry m madt e s) ⟨s, 0, 0⟩).state with
          localApicNum := es.countP (fun e => m e = 0)
          ioApicNum := es.countP (fun e => m e = 1) }, 0, 0⟩
      simpa only [foldl_saved_num, Nat.zero_add, List.range_zero, List.map_nil,
        List.nil_append] using h
    · have h := @foldl_saved_ioApicInfoPtrs m madt es
        ⟨{ (es.foldl (fun s e => countEntry m madt e s) ⟨s, 0, 0⟩).state with
          localApicNum := es.countP (fun e => m e = 0)
          ioApicNum := es.countP (fun e => m e = 1) }, 0, 0⟩
      simpa only [foldl_saved_num, Nat.zero_add, List.range_zero, List.map_nil,
        List.nil_append] using h

/-- The function ends only if the walk along the entries does. -/
theorem walk_of_saveMadt {out : Bool × ApicState} (h : saveMadt m fuel s = some out) :
    ∃ es, Walk (InMadt m s.madtPtr) (nextEntry m) (s.madtPtr + 44) es ∧ es.length < fuel := by
  cases hc : countEntries m fuel s.madtPtr (readHeader m s) with
  | none =>
    unfold readHeader at hc
    simp only [saveMadt, hc] at h
    cases h
  | some scan =>
    obtain ⟨es, hw, hlen, -⟩ := whileLoop_pure.mp hc
    exact ⟨es, hw, hlen⟩

/-- Once the tables are found, the rest of the function decides. -/
theorem apicSaveInfo_of_tables (hs : Unsaved s) (ht : Tables m bootInfo s rsdt madt)
    {rsdp : BitVec 32} (hr : findRsdp m fuel bootInfo = some (.ok rsdp)) :
    apicSaveInfo m fuel bootInfo s = saveMadt m fuel (findMadt m rsdt s (rsdtEntries m rsdt)) := by
  obtain ⟨fuel', rsdp', hr', hne, rfl⟩ := ht.rsdtFound
  obtain rfl : rsdp' = rsdp := Except.ok.inj (whileLoop_unique hr' hr)
  have hmadt := ht.madtFound
  rw [apicSaveInfo, hs.infoSaved]
  simp only [Bool.false_eq_true, if_false, hr, hne, ht.rsdtChecksum, not_true, hmadt,
    ht.madtNonzero, ht.madtChecksum]

/-- The reads before the passes are those of the RSDT. -/
theorem reads_findMadt (hs : Unsaved s) :
    (∀ r ∈ (findMadt m rsdt s (rsdtEntries m rsdt)).reads, ReadInside m r) ↔
      36 ≤ (tableLength m rsdt).toNat := by
  simp only [findMadt_accesses, hs.reads, List.append_nil, List.mem_map, List.mem_reverse,
    List.mem_range]
  constructor
  · intro h
    by_contra hlt
    obtain ⟨hpos, hout⟩ := @rsdtReads_outside m rsdt (by omega)
    exact hout (h _ ⟨0, hpos, rfl⟩)
  · rintro h _ ⟨i, hi, rfl⟩
    exact rsdtReads_inside h hi

/-- A call that does what is expected has found such tables. -/
theorem ApicSafe.tablesOk (h : ApicSafe m bootInfo s madt) (hs : Unsaved s)
    (ht : Tables m bootInfo s rsdt madt) : TablesOk m rsdt madt := by
  obtain ⟨fuel, result, s', hcall, hreads, -, hioWrites, -⟩ := h
  obtain ⟨rsdp, hr⟩ : ∃ rsdp, findRsdp m fuel bootInfo = some (.ok rsdp) := by
    cases hr : findRsdp m fuel bootInfo with
    | none => simp [apicSaveInfo, hs.infoSaved, hr] at hcall
    | some out =>
      cases out with
      | error e => exact nomatch e
      | ok rsdp => exact ⟨rsdp, rfl⟩
  rw [apicSaveInfo_of_tables hs ht hr] at hcall
  obtain ⟨es, hw, hlen⟩ := walk_of_saveMadt hcall
  have hmap := ht.mapped
  have hmadt := ht.madtFound
  subst hmadt
  obtain ⟨l, hl, rfl⟩ := (walk_inMadt_iff hmap).mp hw
  rw [saveMadt_eq hmap hl (by simpa using hlen)] at hcall
  obtain rfl := congrArg Prod.snd (Option.some.inj hcall)
  obtain ⟨hr36, hlengths, hover⟩ := (passes_reads hl hmap).mp hreads
  refine ⟨(reads_findMadt hs).mp hr36, l, hl, hlengths, fun hcpus => ⟨hover hcpus, ?_⟩⟩
  rw [entriesOfType, ← List.countP_eq_length_filter] at hcpus
  have hio : (readHeader m (findMadt m rsdt s (rsdtEntries m rsdt))).ioApicWrites = [] :=
    findMadt_accesses.2.2.trans hs.ioApicWrites
  exact (passes_ioApicWrites hio).mp hioWrites hcpus

/-- On such tables a call does what is expected. -/
theorem TablesOk.apicSafe (h : TablesOk m rsdt madt) (hs : Unsaved s)
    (ht : Tables m bootInfo s rsdt madt) : ApicSafe m bootInfo s madt := by
  obtain ⟨hr36, l, hl, hlengths, hsecond⟩ := h
  have hmap := ht.mapped
  have hmadt := ht.madtFound
  subst hmadt
  obtain ⟨fuel, rsdp, hr, -, -⟩ := ht.rsdtFound
  have hr' : findRsdp m (fuel + l.length + 1) bootInfo = some (.ok rsdp) :=
    whileLoop_mono hr (by omega)
  have hcall := apicSaveInfo_of_tables hs ht hr'
  rw [saveMadt_eq hmap hl (by omega)] at hcall
  have hlocal : (readHeader m (findMadt m rsdt s (rsdtEntries m rsdt))).localApicWrites = [] :=
    findMadt_accesses.2.1.trans hs.localApicWrites
  have hio : (readHeader m (findMadt m rsdt s (rsdtEntries m rsdt))).ioApicWrites = [] :=
    findMadt_accesses.2.2.trans hs.ioApicWrites
  refine ⟨_, _, _, hcall, ?_, passes_localApicWrites hlocal, ?_, fun htrue => ?_⟩
  · exact (passes_reads hl hmap).mpr
      ⟨(reads_findMadt hs).mpr hr36, hlengths, fun hcpus => (hsecond hcpus).override⟩
  · refine (passes_ioApicWrites hio).mpr fun hcpus => ?_
    rw [List.countP_eq_length_filter] at hcpus
    exact (hsecond hcpus).ioApics
  · exact ⟨l, hl, passes_infoPtrs (Prod.ext htrue rfl)⟩

/-- The function does what is expected of it on exactly these tables. -/
theorem apicSafe_iff (hs : Unsaved s) (ht : Tables m bootInfo s rsdt madt) :
    ApicSafe m bootInfo s madt ↔ TablesOk m rsdt madt :=
  ⟨fun h => h.tablesOk hs ht, fun h => h.apicSafe hs ht⟩

end safety

/-! ## Section 6: Two Tables -/

/-- Boot information at `0x10000` with an ACPI tag, an RSDT at `0x80001000` with one entry,
    and a MADT at `0x80002000` with these bytes in place of its entries. -/
def sampleTables (entries : List (BitVec 8)) (checksum : BitVec 8) : Memory := fun a =>
  if a = 0x10008 then 14 else if a = 0x1000C then 28 else if a = 0x10021 then 0x10
  else if a = 0x80001004 then 40 else if a = 0x80001009 then 184
  else if a = 0x80001025 then 0x20
  else if a = 0x80002000 then 0x41 else if a = 0x80002001 then 0x50
  else if a = 0x80002002 then 0x49 else if a = 0x80002003 then 0x43
  else if a = 0x80002004 then BitVec.ofNat 8 (44 + entries.length)
  else if a = 0x80002009 then checksum
  else if 0x8000202C ≤ a then entries.getD (a - 0x8000202C).toNat 0 else 0

/-- Nothing saved yet. -/
def noApicInfo : ApicState where
  infoSaved := false
  madtPtr := 0
  picExists := false
  localApicAddress := 0
  localApicNum := 0
  ioApicNum := 0
  localApicInfoPtrs := fun _ => 0
  ioApicInfoPtrs := fun _ => 0
  reads := []
  localApicWrites := []
  ioApicWrites := []

theorem unsaved_noApicInfo : Unsaved noApicInfo := ⟨rfl, rfl, rfl, rfl, rfl⟩

/-- One local APIC and one I/O APIC. -/
def twoEntries : Memory :=
  sampleTables [0, 8, 0, 0, 0, 0, 0, 0, 1, 12, 0, 0, 0, 0, 0, 0, 0, 0, 0, 0] 142

/-- An entry of length 0; the checksum is right. -/
def zeroLength : Memory := sampleTables [7, 0] 174

/-- In both memories the two tables are found. -/
theorem tables_sample (two : Bool) :
    Tables (cond two twoEntries zeroLength) 0x10000 noApicInfo 0x80001000 0x80002000 := by
  have hread : ∀ two : Bool,
      findRsdp (cond two twoEntries zeroLength) 3 0x10000 = some (.ok 0x10010) ∧
        load32 (cond two twoEntries zeroLength) (0x10010 + 16) + higherHalfOffset = 0x80001000 ∧
          ChecksumOk (cond two twoEntries zeroLength) 0x80001000 ∧
            (findMadt (cond two twoEntries zeroLength) 0x80001000 noApicInfo
              (rsdtEntries (cond two twoEntries zeroLength) 0x80001000)).madtPtr = 0x80002000 ∧
                ChecksumOk (cond two twoEntries zeroLength) 0x80002000 ∧
                  (tableLength (cond two twoEntries zeroLength) 0x80002000).toNat ≤ 64 := by
    decide +kernel
  obtain ⟨hrsdp, hrsdt, hsum, hmadt, hsum', hlen⟩ := hread two
  refine ⟨⟨3, _, hrsdp, by decide, hrsdt.symm⟩, hsum, hmadt, by decide, hsum', ?_⟩
  show 0x80002000 + (tableLength (cond two twoEntries zeroLength) 0x80002000).toNat ≤ 0xF0000000
  omega

theorem tablesOk_twoEntries : TablesOk twoEntries 0x80001000 0x80002000 := by
  obtain ⟨hrsdt, hlen, h44, h52, hreached, htype44, htype52⟩ :
      36 ≤ (tableLength twoEntries 0x80001000).toNat ∧
        (tableLength twoEntries 0x80002000).toNat = 64 ∧
          entryLength twoEntries 0x80002000 44 = 8 ∧ entryLength twoEntries 0x80002000 52 = 12 ∧
            reached twoEntries ([44, 52].map (entryAt 0x80002000)) = [0x8000202C, 0x80002034] ∧
              twoEntries 0x8000202C ≠ 5 ∧ twoEntries 0x80002034 ≠ 5 := by
    decide +kernel
  have hoffsets : EntryOffsets twoEntries 0x80002000 [44, 52] := by
    simp only [EntryOffsets, walk_cons, walk_nil, hlen, h44, h52]
    decide
  have hsecond : SecondPassOk twoEntries 0x80002000 ([44, 52].map (entryAt 0x80002000)) := by
    constructor
    · rw [hreached]
      intro e he h5
      rcases List.mem_cons.mp he with rfl | he
      · exact absurd h5 htype44
      · obtain rfl := List.mem_singleton.mp he
        exact absurd h5 htype52
    · rw [hreached]
      exact Nat.le_trans List.countP_le_length (by decide)
  refine ⟨hrsdt, [44, 52], hoffsets, ?_, fun _ => hsecond⟩
  rw [hlen]
  decide

/-- Two entries that fill their table are saved. -/
theorem apicSafe_iff_twoEntries : ApicSafe twoEntries 0x10000 noApicInfo 0x80002000 :=
  (apicSafe_iff unsaved_noApicInfo (tables_sample true)).mpr tablesOk_twoEntries

/-- An entry of length 0 keeps the function from ending. -/
theorem not_forall_apicSafe : ¬∀ m bootInfo s rsdt madt, Unsaved s →
    Tables m bootInfo s rsdt madt → ApicSafe m bootInfo s madt := by
  intro h
  have htables : Tables zeroLength _ _ _ _ := tables_sample false
  have hsafe := h _ _ _ _ _ unsaved_noApicInfo htables
  obtain ⟨l, hl, -⟩ := (hsafe.tablesOk unsaved_noApicInfo htables).entries
  obtain ⟨hlen, h44⟩ : (tableLength zeroLength 0x80002000).toNat = 46 ∧
      entryLength zeroLength 0x80002000 44 = 0 := by
    decide +kernel
  cases l with
  | nil =>
    simp only [EntryOffsets, walk_nil, hlen] at hl
    omega
  | cons o l =>
    obtain ⟨rfl, -⟩ := walk_cons.mp hl
    exact hl.next_ne List.mem_cons_self (by simp only [h44])

end Avos
