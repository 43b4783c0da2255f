import Avos.Bootloader.Saved

/-! # The Memory Map of a Conforming BIOS

  `Memory_StoreE820Info` of `bootloader/multiboot/src/memory.c`, on a BIOS that reports its
  memory map entry by entry (`Reports`).

  The loop stores the entries it accepts one behind the other (`e820Loop_reports`). But it
  takes `EBX = 0` for the end before it looks at the entry that came with it, so that a BIOS
  which ends the map in this way loses its last entry (`storeE820Info_iff`).
-/

open ByteMemory

namespace Avos.Multiboot

/-! ## Section 1: Entries -/

/-- An entry as the BIOS delivers it, without or with the ACPI 3.0 extension. -/
structure E820Report where
  bytes : List (BitVec 8)
  length : bytes.length = 20 ∨ bytes.length = 24

namespace E820Report

variable (e : E820Report)

/-- The size of the block. -/
def size : BitVec 64 := word32 e.bytes 12 ++ word32 e.bytes 8

/-- The entry counts: it is not empty, and its extension, if it has one, does not hide it. -/
def Accepted : Prop := 0 < e.size ∧ (e.bytes.length = 20 ∨ word32 e.bytes 20 &&& 3 = 1)

instance : DecidablePred Accepted := fun _ => inferInstanceAs (Decidable (_ ∧ _))

/-- The 24 bytes of the entry in the map. A short entry has the extension that was there. -/
def stored : List (BitVec 8) :=
  if e.bytes.length = 20 then e.bytes ++ [1, 0, 0, 0] else e.bytes

theorem length_stored : e.stored.length = 24 := by
  have hlength := e.length
  unfold stored
  split
  · next h => rw [List.length_append, h]; rfl
  · next h => exact hlength.resolve_left h

end E820Report

/-- Bytes behind each other in memory. -/
def StoredAt (m : Memory) : BitVec 32 → List E820Report → Prop
  | _, [] => True
  | a, e :: es => HasBytes m a e.stored ∧ StoredAt m (a + 24) es

/-! ## Section 2: The BIOS -/

/-- `'SMAP'`. -/
def smap : BitVec 32 := 0x534D4150

/-- The registers of a call for the entry `ebx`. -/
structure IsE820Call (ebx : BitVec 32) (r : Registers) : Prop where
  eax : r.eax = 0xE820
  ebx : r.ebx = ebx
  ecx : r.ecx = 0x18
  edx : r.edx = smap

/-- The answer to a call that delivers an entry. -/
structure Delivers (e : E820Report) (r : Registers) (bytes : List (BitVec 8))
    (answer : Registers) : Prop where
  bytes : bytes = e.bytes
  noCarry : ¬answer.Carry
  eax : answer.eax = smap
  ecx : answer.ecx = BitVec.ofNat 32 e.bytes.length
  esi : answer.esi = r.esi
  edi : answer.edi = r.edi

variable {β : Type*}

/-- The BIOS delivers these entries, from the one that it calls `ebx` on. It tells the end by
    `EBX = 0` with the last entry, or by the carry flag on the call after it. -/
def Reports (B : Bios β) (zeroEnds : Bool) : List E820Report → β → BitVec 32 → Prop
  | [], st, ebx => ∀ r, IsE820Call ebx r → (B.interrupt st 0x15 r).2.1.Carry
  | e :: es, st, ebx => ∀ r, IsE820Call ebx r →
      let answer := B.interrupt st 0x15 r
      Delivers e r answer.1 answer.2.1 ∧
        if zeroEnds ∧ es = [] then answer.2.1.ebx = 0
        else answer.2.1.ebx ≠ 0 ∧ Reports B zeroEnds es answer.2.2 answer.2.1.ebx

/-- The entries whose delivery does not end the loop. -/
def seenEntries (zeroEnds : Bool) (es : List E820Report) : List E820Report :=
  if zeroEnds then es.dropLast else es

/-- What `Memory_StoreE820Info` is to do: store the entries that count, in order and without
    gaps, and return the address after them. -/
structure StoresMap (addr : BitVec 32) (es : List E820Report) (last : BitVec 32) (m : Memory) :
    Prop where
  stored : StoredAt m addr (es.filter E820Report.Accepted)
  last : last = addr + BitVec.ofNat 32 (24 * (es.filter E820Report.Accepted).length)

/-! ## Section 3: The Loop -/

section loop

variable {B : Bios β} {s : Loader β} {a addr : BitVec 32} {e : E820Report} {zeroEnds : Bool}

/-- A call for the entry `a` leaves the entry that the BIOS delivers. -/
theorem hasBytes_e820Round {m : Memory} :
    HasBytes (storeBytes (store32 m (a + 20) 1) a (e.bytes.take 24)) a e.stored := by
  have hlength : e.bytes.length ≤ 24 := by
    rcases e.length with h | h <;> omega
  rw [List.take_of_length_le hlength]
  have hbytes : HasBytes (storeBytes (store32 m (a + 20) 1) a e.bytes) a e.bytes :=
    fun i hi => storeBytes_add (by omega) hi
  unfold E820Report.stored
  split
  · next h =>
    -- the extension is the one from before the call
    apply hbytes.append
    rw [h]
    have honly : OnlyIn (a + BitVec.ofNat 32 0) 20 (store32 m (a + 20) 1)
        (storeBytes (store32 m (a + 20) 1) a e.bytes) := by
      rw [BitVec.add_zero, ← h]
      exact onlyIn_storeBytes (by omega)
    refine (hasBytes_one (m := m)).of_eq fun i hi => ?_
    have hi' : i < 4 := hi
    rw [BitVec.add_assoc, ← BitVec.ofNat_add]
    exact honly.eq_add (by omega) (by omega) (by omega)
  · exact hbytes

theorem word32_stored {i : Nat} (hi : i + 4 ≤ e.bytes.length) :
    word32 e.stored i = word32 e.bytes i := by
  have hget : ∀ j < e.bytes.length, e.stored.getD j 0 = e.bytes.getD j 0 := by
    intro j hj
    unfold E820Report.stored
    split
    · exact List.getD_append _ _ _ _ hj
    · rfl
  rw [word32, hget _ (by omega), hget _ (by omega), hget _ (by omega), hget _ (by omega)]
  rfl

/-- The test of the loop, on the entry in memory, is the test of the entry. -/
theorem e820Test_iff {m : Memory} (h : HasBytes m a e.stored) :
    ((BitVec.ofNat 32 e.bytes.length ≤ 20 ∨ load32 m (a + 20) &&& 3 = 1) ∧
      0 < load64 m (a + 8)) ↔ e.Accepted := by
  have hstored := e.length_stored
  have hsize : load64 m (a + 8) = e.size := by
    have hload := h.load64 (i := 8) (by omega)
    rw [word32_stored (by rcases e.length with h | h <;> omega),
      word32_stored (by rcases e.length with h | h <;> omega)] at hload
    exact hload
  rw [hsize, E820Report.Accepted, and_comm]
  refine and_congr_right fun _ => ?_
  rcases e.length with hlength | hlength
  · rw [hlength]
    exact iff_of_true (.inl (by decide)) (.inl rfl)
  · have hload := h.load32 (i := 20) (by omega)
    rw [word32_stored (by omega)] at hload
    have hacpi : load32 m (a + 20) = word32 e.bytes 20 := hload
    rw [hacpi, hlength, or_iff_right (by decide), or_iff_right (by decide)]

theorem seenEntries_cons {es : List E820Report} (h : ¬(zeroEnds = true ∧ es = [])) :
    seenEntries zeroEnds (e :: es) = e :: seenEntries zeroEnds es := by
  unfold seenEntries
  split
  · next hz => rw [List.dropLast_cons_of_ne_nil fun hes => h ⟨hz, hes⟩]
  · rfl

/-- The registers of a call. -/
def e820Call (regs : Registers) : Registers :=
  { regs with eax := 0xE820, ecx := 0x18, edx := smap }

/-- The memory after a call with this answer. -/
def e820Memory (m : Memory) (entry : BitVec 32) (bytes : List (BitVec 8)) : Memory :=
  storeBytes (store32 m (entry + 20) 1) entry (bytes.take 24)

/-- A round of the loop. -/
theorem e820Loop_succ {n : Nat} {entry : BitVec 32} {regs : Registers}
    (hroom : entry.toNat + 32 < 2 ^ 32) :
    let answer := B.interrupt s.bios 0x15 (e820Call regs)
    let m := e820Memory s.mem entry answer.1
    e820Loop B addr (n + 1) entry regs s =
      if answer.2.1.Carry ∨ answer.2.1.eax ≠ smap ∨ answer.2.1.ebx = 0 then
        some (addr + answer.2.1.esi, ⟨m, answer.2.2⟩)
      else if (answer.2.1.ecx ≤ 20 ∨ load32 m (entry + 20) &&& 3 = 1) ∧
          0 < load64 m (entry + 8) then
        e820Loop B addr n (entry + 24)
          { answer.2.1 with esi := answer.2.1.esi + 0x18, edi := answer.2.1.edi + 0x18 }
          ⟨m, answer.2.2⟩
      else e820Loop B addr n entry answer.2.1 ⟨m, answer.2.2⟩ := by
  rw [e820Loop, withRoom, if_pos hroom]
  rfl

/-- The entries that are seen and count are stored one behind the other. -/
theorem e820Loop_reports : ∀ (es : List E820Report) (fuel k : Nat) (regs : Registers)
    (s : Loader β), (zeroEnds = true → es ≠ []) → Reports B zeroEnds es s.bios regs.ebx →
    regs.esi = BitVec.ofNat 32 (24 * k) → addr.toNat + 24 * (k + es.length) + 32 < 2 ^ 32 →
    es.length < fuel →
    let kept := (seenEntries zeroEnds es).filter E820Report.Accepted
    ∃ s', e820Loop B addr fuel (addr + BitVec.ofNat 32 (24 * k)) regs s =
        some (addr + BitVec.ofNat 32 (24 * (k + kept.length)), s') ∧
      (∀ i < 24 * k, s'.mem (addr + BitVec.ofNat 32 i) = s.mem (addr + BitVec.ofNat 32 i)) ∧
      StoredAt s'.mem (addr + BitVec.ofNat 32 (24 * k)) kept := by
  intro es
  induction es with
  | nil =>
    intro fuel k regs s hne hrep hesi hroom hfuel kept
    obtain ⟨fuel, rfl⟩ := Nat.exists_eq_succ_of_ne_zero (Nat.ne_of_gt hfuel)
    have hkept : kept = [] := by
      show List.filter _ (seenEntries zeroEnds []) = []
      unfold seenEntries
      split <;> rfl
    have hentry : (addr + BitVec.ofNat 32 (24 * k)).toNat = addr.toNat + 24 * k :=
      toNat_add_ofNat (by omega)
    have hcarry := hrep (e820Call regs) ⟨rfl, rfl, rfl, rfl⟩
    have hkeep : (B.interrupt s.bios 0x15 (e820Call regs)).2.1.esi = BitVec.ofNat 32 (24 * k) :=
      (B.keeps_esi s.bios (e820Call regs) rfl).trans hesi
    rw [e820Loop_succ (by rw [hentry, List.length_nil] at *; omega), if_pos (.inl hcarry), hkeep,
      hkept]
    have honly : OnlyIn (addr + BitVec.ofNat 32 (24 * k)) 24 s.mem _ :=
      @onlyIn_e820Round _ B s _ (e820Call regs) 1
    refine ⟨_, rfl, fun i hi => ?_, trivial⟩
    exact honly.eq_add (.inl hi) (by omega) (by omega)
  | cons e es ih =>
    intro fuel k regs s hne hrep hesi hroom hfuel kept
    obtain ⟨fuel, rfl⟩ := Nat.exists_eq_succ_of_ne_zero (Nat.ne_of_gt (Nat.zero_lt_of_lt hfuel))
    rw [List.length_cons] at hroom hfuel
    have hentry : (addr + BitVec.ofNat 32 (24 * k)).toNat = addr.toNat + 24 * k :=
      toNat_add_ofNat (by omega)
    obtain ⟨hd, hrest⟩ := hrep (e820Call regs) ⟨rfl, rfl, rfl, rfl⟩
    have honly : OnlyIn (addr + BitVec.ofNat 32 (24 * k)) 24 s.mem
        (e820Memory s.mem (addr + BitVec.ofNat 32 (24 * k))
          (B.interrupt s.bios 0x15 (e820Call regs)).1) :=
      onlyIn_e820Round (B := B) (s := s) (v := 1)
    have hbytes : HasBytes (e820Memory s.mem (addr + BitVec.ofNat 32 (24 * k))
        (B.interrupt s.bios 0x15 (e820Call regs)).1) (addr + BitVec.ofNat 32 (24 * k))
        e.stored := by
      rw [hd.bytes]
      exact hasBytes_e820Round
    have hframe : ∀ i < 24 * k, e820Memory s.mem (addr + BitVec.ofNat 32 (24 * k))
        (B.interrupt s.bios 0x15 (e820Call regs)).1 (addr + BitVec.ofNat 32 i) =
          s.mem (addr + BitVec.ofNat 32 i) :=
      fun i hi => honly.eq_add (.inl hi) (by omega) (by omega)
    have htest := e820Test_iff hbytes
    rw [← hd.ecx] at htest
    have hesi' : (B.interrupt s.bios 0x15 (e820Call regs)).2.1.esi = BitVec.ofNat 32 (24 * k) :=
      hd.esi.trans hesi
    rw [e820Loop_succ (by omega)]
    revert hd hrest hframe htest hesi' hbytes honly
    generalize B.interrupt s.bios 0x15 (e820Call regs) = answer
    generalize e820Memory s.mem (addr + BitVec.ofNat 32 (24 * k)) answer.1 = m'
    intro hd hrest honly hbytes hframe htest hesi'
    by_cases hlast : zeroEnds = true ∧ es = []
    · -- the entry has come with the end of the map
      obtain ⟨rfl, rfl⟩ := hlast
      rw [if_pos ⟨rfl, rfl⟩] at hrest
      dsimp only
      rw [if_pos (.inr (.inr hrest)), hesi']
      exact ⟨_, rfl, hframe, trivial⟩
    · rw [if_neg hlast] at hrest
      obtain ⟨hebx, hrest⟩ := hrest
      dsimp only
      rw [if_neg (not_or.mpr ⟨hd.noCarry, not_or.mpr ⟨not_not.mpr hd.eax, hebx⟩⟩)]
      have hne' : zeroEnds = true → es ≠ [] := fun hz hes => hlast ⟨hz, hes⟩
      have hkept : kept = List.filter _ (e :: seenEntries zeroEnds es) :=
        congrArg _ (seenEntries_cons hlast)
      rw [hkept]
      by_cases hacc : e.Accepted
      · have hnext : addr + BitVec.ofNat 32 (24 * k) + 24 =
            addr + BitVec.ofNat 32 (24 * (k + 1)) := by
          rw [Nat.mul_add, BitVec.ofNat_add, ← BitVec.add_assoc]
          rfl
        have hesi'' : answer.2.1.esi + 0x18 = BitVec.ofNat 32 (24 * (k + 1)) := by
          rw [hesi', Nat.mul_add, BitVec.ofNat_add]
          rfl
        rw [if_pos (htest.mpr hacc), hnext, List.filter_cons, if_pos (decide_eq_true hacc)]
        obtain ⟨s', hrun, hsame, hstored⟩ := ih fuel (k + 1)
          { answer.2.1 with esi := answer.2.1.esi + 0x18, edi := answer.2.1.edi + 0x18 }
          ⟨m', answer.2.2⟩ hne' hrest hesi'' (by omega) (by omega)
        refine ⟨s', ?_, fun i hi => ?_, ?_, ?_⟩
        · rw [hrun, List.length_cons, Nat.add_right_comm k 1]
          rfl
        · exact (hsame i (by omega)).trans (hframe i hi)
        · -- the entries behind leave this one alone
          refine hbytes.of_eq fun i hi => ?_
          rw [e.length_stored] at hi
          rw [BitVec.add_assoc, ← BitVec.ofNat_add]
          exact hsame _ (by omega)
        · rw [hnext]
          exact hstored
      · rw [if_neg fun h => hacc (htest.mp h), List.filter_cons, if_neg (by simpa using hacc)]
        obtain ⟨s', hrun, hsame, hstored⟩ := ih fuel k answer.2.1 ⟨m', answer.2.2⟩ hne' hrest hesi'
          (by omega) (by omega)
        exact ⟨s', hrun, fun i hi => (hsame i hi).trans (hframe i hi), hstored⟩

theorem length_seenEntries_le {es : List E820Report} :
    (seenEntries zeroEnds es).length ≤ es.length := by
  unfold seenEntries
  split
  · rw [List.length_dropLast]
    exact Nat.sub_le _ _
  · exact Nat.le_refl _

/-- A map that ends with the last entry: that entry comes after those that are seen. -/
theorem filter_of_getLast {es : List E820Report} (hz : zeroEnds = true) (he : e ∈ es.getLast?) :
    es.filter E820Report.Accepted =
      (seenEntries zeroEnds es).filter E820Report.Accepted ++
        [e].filter E820Report.Accepted := by
  have hes : es = es.dropLast ++ [e] := (List.dropLast_append_getLast? e he).symm
  rw [seenEntries, if_pos hz, ← List.filter_append, ← hes]

/-- The map is stored if and only if the entry that comes with the end is not missed. -/
theorem storeE820Info_iff {es : List E820Report} {fuel : Nat} (hne : es ≠ [])
    (hrep : Reports B zeroEnds es s.bios 0) (hroom : addr.toNat + 24 * es.length + 32 < 2 ^ 32)
    (hfuel : es.length < fuel) :
    ∃ last s', storeE820Info B fuel addr s = some (last, s') ∧
      (StoresMap addr es last s'.mem ↔ (zeroEnds = true → ∀ e ∈ es.getLast?, ¬e.Accepted)) := by
  have hstart : addr + BitVec.ofNat 32 (24 * 0) = addr := BitVec.add_zero _
  have hroom' : addr.toNat + 24 * (0 + es.length) + 32 < 2 ^ 32 := by
    omega
  obtain ⟨s', hrun, -, hstored⟩ := e820Loop_reports es fuel 0
    { clearRegistry with edi := addr &&& 0xF, es := (addr >>> 4).setWidth 16 } s
    (fun _ => hne) hrep rfl hroom' hfuel
  rw [hstart] at hrun hstored
  refine ⟨_, s', hrun, ?_⟩
  rw [Nat.zero_add]
  constructor
  · intro h hz e he hacc
    -- one entry more would have to be stored
    have hlast := h.last
    rw [filter_of_getLast hz he, List.length_append,
      List.filter_cons, if_pos (decide_eq_true hacc), List.length_cons, List.filter_nil,
      List.length_nil] at hlast
    have hlength : ((seenEntries zeroEnds es).filter E820Report.Accepted).length ≤ es.length :=
      Nat.le_trans (List.length_filter_le _ _) (length_seenEntries_le)
    exact add_ofNat_ne (by omega) (by omega) (by omega) hlast
  · intro h
    have hsame : es.filter E820Report.Accepted =
        (seenEntries zeroEnds es).filter E820Report.Accepted := by
      cases hz : zeroEnds with
      | false => rfl
      | true =>
        have he := List.getLast?_eq_some_getLast hne
        rw [filter_of_getLast rfl he, List.filter_cons, if_neg (by simpa using h hz _ he)]
        exact List.append_nil _
    refine ⟨?_, ?_⟩
    · rw [hsame]
      exact hstored
    · rw [hsame]

end loop

/-! ### A map of one entry -/

/-- The first page is available. -/
def onePage : E820Report where
  bytes := [0, 0, 0, 0, 0, 0, 0, 0, 0, 0x10, 0, 0, 0, 0, 0, 0, 1, 0, 0, 0]
  length := by decide

/-- A BIOS that delivers the entry together with `EBX = 0`. -/
def onePageBios : Bios Unit where
  interrupt _ _ r := (onePage.bytes, { r with eax := smap, ebx := 0, ecx := 20, flags := 0 }, ())
  keeps_esi _ _ _ := rfl

theorem reports_onePage : Reports onePageBios true [onePage] () 0 := by
  intro r hr
  dsimp only
  rw [if_pos ⟨rfl, rfl⟩]
  have hcarry : ¬(0 : BitVec 16) &&& 1 = 1 := by decide
  exact ⟨⟨rfl, hcarry, rfl, rfl, rfl, rfl⟩, rfl⟩

theorem storeE820Info_iff_onePage :
    ∃ last s', storeE820Info onePageBios 2 0x1000 ⟨fun _ => 0, ()⟩ = some (last, s') ∧
      (StoresMap 0x1000 [onePage] last s'.mem ↔
        (true = true → ∀ e ∈ [onePage].getLast?, ¬e.Accepted)) :=
  storeE820Info_iff (List.cons_ne_nil _ _) reports_onePage (by decide) (by decide)

/-- The only entry is lost. -/
theorem not_forall_storesMap : ¬∀ (β : Type) (B : Bios β) (zeroEnds : Bool)
    (es : List E820Report) (s : Loader β) (addr : BitVec 32) (fuel : Nat), es ≠ [] →
      Reports B zeroEnds es s.bios 0 → addr.toNat + 24 * es.length + 32 < 2 ^ 32 →
      es.length < fuel → ∃ last s', storeE820Info B fuel addr s = some (last, s') ∧
        StoresMap addr es last s'.mem := by
  intro h
  obtain ⟨last, s', hrun, hmap⟩ := h Unit onePageBios true [onePage] ⟨fun _ => 0, ()⟩ 0x1000 2
    (List.cons_ne_nil _ _) reports_onePage (by decide) (by decide)
  have hlast : (storeE820Info onePageBios 2 0x1000 ⟨fun _ => 0, ()⟩).map Prod.fst =
      some 0x1000 := by rfl
  rw [hrun, Option.map_some, Option.some.injEq] at hlast
  have hend := hmap.last
  rw [show last = 0x1000 from hlast] at hend
  exact absurd hend (by decide)

/-! ## Section 4: Where the BIOS Writes

  The BIOS writes at `ES:DI`. As long as the map stays in one segment, that is the entry which
  the loop looks at: `EDI` goes on with the entries that are accepted, and only with them.
-/

/-- The address `ES:DI`. -/
def Registers.esDi (r : Registers) : BitVec 32 := r.es.setWidth 32 <<< 4 + r.di.setWidth 32

/-- The loop, on a BIOS that writes at `ES:DI`. -/
def e820LoopEsDi (B : Bios β) (addr : BitVec 32) : Nat → BitVec 32 → Registers → Loader β →
    Option (BitVec 32 × Loader β)
  | 0, _, _, _ => none
  | n + 1, entry, regs, s => withRoom entry 32 <|
      let regs := { regs with eax := 0xE820, ecx := 0x18, edx := 0x534D4150 }
      let s := { s with mem := store32 s.mem (entry + 20) 1 }
      let (regs, s) := biosStore B 0x15 regs regs.esDi 24 s
      if regs.Carry ∨ regs.eax ≠ 0x534D4150 ∨ regs.ebx = 0 then some (addr + regs.esi, s)
      else if (regs.ecx ≤ 20 ∨ load32 s.mem (entry + 20) &&& 3 = 1) ∧
          0 < load64 s.mem (entry + 8) then
        e820LoopEsDi B addr n (entry + 24)
          { regs with esi := regs.esi + 0x18, edi := regs.edi + 0x18 } s
      else e820LoopEsDi B addr n entry regs s

/-- The service keeps `ES` and `EDI`. -/
def KeepsEsDi (B : Bios β) : Prop :=
  ∀ st r, r.eax = 0xE820 →
    (B.interrupt st 0x15 r).2.1.es = r.es ∧ (B.interrupt st 0x15 r).2.1.edi = r.edi

theorem esDi_entry {r : Registers} {addr : BitVec 32} {k : Nat} (haddr : addr.toNat < 2 ^ 20)
    (hes : r.es = (addr >>> 4).setWidth 16)
    (hedi : r.edi = (addr &&& 0xF) + BitVec.ofNat 32 (24 * k))
    (hroom : addr.toNat % 16 + 24 * k < 2 ^ 16) : r.esDi = addr + BitVec.ofNat 32 (24 * k) := by
  have hlow : (addr &&& 0xF).toNat = addr.toNat % 16 := by
    rw [BitVec.toNat_and]
    exact Nat.and_two_pow_sub_one_eq_mod addr.toNat 4
  have hsegment : (r.es.setWidth 32 <<< 4).toNat = addr.toNat / 16 * 16 := by
    rw [hes, BitVec.toNat_shiftLeft, BitVec.toNat_setWidth, BitVec.toNat_setWidth,
      BitVec.toNat_ushiftRight, Nat.shiftRight_eq_div_pow, Nat.shiftLeft_eq,
      Nat.mod_eq_of_lt (a := addr.toNat / 2 ^ 4) (by omega), Nat.mod_eq_of_lt (by omega),
      Nat.mod_eq_of_lt (by omega)]
  have hoffset : (r.di.setWidth 32).toNat = addr.toNat % 16 + 24 * k := by
    rw [Registers.di, hedi, BitVec.toNat_setWidth, BitVec.toNat_setWidth,
      toNat_add_ofNat (by omega), hlow, Nat.mod_eq_of_lt (a := addr.toNat % 16 + 24 * k) hroom,
      Nat.mod_eq_of_lt (by omega)]
  apply BitVec.eq_of_toNat_eq
  rw [Registers.esDi, BitVec.toNat_add, hsegment, hoffset, toNat_add_ofNat (by omega),
    Nat.mod_eq_of_lt (by omega)]
  omega

theorem e820LoopEsDi_eq {B : Bios β} {addr : BitVec 32} (hkeeps : KeepsEsDi B)
    (haddr : addr.toNat < 2 ^ 20) : ∀ (n k : Nat) (regs : Registers) (s : Loader β),
    regs.es = (addr >>> 4).setWidth 16 →
    regs.edi = (addr &&& 0xF) + BitVec.ofNat 32 (24 * k) →
    addr.toNat % 16 + 24 * (k + n) ≤ 2 ^ 16 →
    e820LoopEsDi B addr n (addr + BitVec.ofNat 32 (24 * k)) regs s =
      e820Loop B addr n (addr + BitVec.ofNat 32 (24 * k)) regs s := by
  intro n
  induction n with
  | zero => intros; rfl
  | succ n ih =>
    intro k regs s hes hedi hroom
    have hbuffer := esDi_entry (r := e820Call regs) haddr hes hedi (by omega)
    have hanswer := hkeeps s.bios (e820Call regs) rfl
    have hes' := hanswer.1.trans hes
    have hedi' := hanswer.2.trans hedi
    have hnext : addr + BitVec.ofNat 32 (24 * k) + 24 = addr + BitVec.ofNat 32 (24 * (k + 1)) := by
      rw [Nat.mul_add, BitVec.ofNat_add, ← BitVec.add_assoc]
      rfl
    have hedi'' : (B.interrupt s.bios 0x15 (e820Call regs)).2.1.edi + 0x18 =
        (addr &&& 0xF) + BitVec.ofNat 32 (24 * (k + 1)) := by
      rw [hedi', Nat.mul_add, BitVec.ofNat_add, ← BitVec.add_assoc]
      rfl
    rw [e820Call, smap] at hbuffer hes' hedi' hedi''
    simp only [e820LoopEsDi, e820Loop, hbuffer, biosStore, hnext]
    congr 1
    split
    · rfl
    split
    · exact ih (k + 1) _ _ hes' hedi'' (by omega)
    · exact ih k _ _ hes' hedi' (by omega)

end Avos.Multiboot
