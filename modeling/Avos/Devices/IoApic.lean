import Avos.Devices.ApicTables
import Mathlib.Data.Nat.Bitwise

/-! # Routing an Interrupt

  `IOAPIC_EnableInterrupt` of `kernel/arch/apic/src/ioapic.c`. It looks for the interrupt source
  override of an IRQ in the MADT, then for the I/O APIC that serves the global system interrupt,
  and writes the two registers of the redirection entry there.

  An I/O APIC is reached through the two words `reg` and `data` at its address; `written` records
  every store to `data` with the register that was selected. `EnablesInterrupt` is what the entry
  has to say, in the layout of the I/O APIC registers and of the MPS INTI flags. The code has the
  polarity in the place of the trigger mode, and the local APIC id in bits 7 to 0 of the high word
  in place of bits 31 to 24.
-/

open ByteMemory Walks

namespace Avos

/-- `IOAPIC_REG_VERSION`. -/
def ioApicRegVersion : BitVec 32 := 1

/-- `IOAPIC_REDIRECT_TABLE_BASE`. -/
def ioApicRedirectTableBase : BitVec 32 := 0x10

/-- The I/O APICs by their addresses: the register selected, the registers, and the stores to
    them, each with its address, its register and its value. -/
structure IoApicBus where
  reg : BitVec 32 → BitVec 32
  data : BitVec 32 → BitVec 32 → BitVec 32
  written : List (BitVec 32 × BitVec 32 × BitVec 32)

/-! ## Section 1: IOAPIC_EnableInterrupt -/

/-- `IOAPIC_WriteTo`. -/
def ioApicWriteTo (bus : IoApicBus) (ioapic index value : BitVec 32) : IoApicBus :=
  { reg := Function.update bus.reg ioapic index
    data := Function.update bus.data ioapic (Function.update (bus.data ioapic) index value)
    written := (ioapic, index, value) :: bus.written }

/-- `IOAPIC_ReadFrom`. -/
def ioApicReadFrom (bus : IoApicBus) (ioapic index : BitVec 32) : BitVec 32 × IoApicBus :=
  (bus.data ioapic index, { bus with reg := Function.update bus.reg ioapic index })

/-- `MADT_POLARITY(flags)`. -/
def madtPolarity (flags : BitVec 16) : BitVec 32 := if flags &&& 2 = 0 then 0 else 1 <<< 13

/-- `global_sys_intr` and `flags`. -/
structure IrqSource where
  globalSysIntr : BitVec 32
  flags : BitVec 16
  deriving DecidableEq

/-- The body of the loop over the entries of the MADT: an override of the IRQ replaces what was
    found before. -/
def overrideEntry (m : Memory) (irq : BitVec 8) (entry : BitVec 32) (source : IrqSource) :
    IrqSource :=
  if m entry = 2 then
    if m (entry + 3) = irq then ⟨load32 m (entry + 4), load16 m (entry + 8)⟩ else source
  else source

/-- The loop over the entries. -/
def findSource (m : Memory) (fuel : Nat) (madt : BitVec 32) (irq : BitVec 8) :
    Option (Except Empty IrqSource) :=
  whileLoop (InMadt m madt) (nextEntry m) (fun entry s => .ok (overrideEntry m irq entry s)) fuel
    (madt + 44) ⟨irq.setWidth 32, 0⟩

/-- `ioapic_address` of an I/O APIC entry. -/
def ioApicAddress (m : Memory) (entry : BitVec 32) : BitVec 32 := load32 m (entry + 4)

/-- `global_system_intr_base` of an I/O APIC entry. -/
def globalSystemIntrBase (m : Memory) (entry : BitVec 32) : BitVec 32 := load32 m (entry + 8)

/-- `max_interrupts`. -/
def maxInterrupts (bus : IoApicBus) (ioapic : BitVec 32) : BitVec 32 :=
  (bus.data ioapic ioApicRegVersion >>> 16) &&& 0xFF

/-- The test of the loop over the I/O APICs, in 32 bits. -/
def Covers (m : Memory) (bus : IoApicBus) (entry gsi : BitVec 32) : Prop :=
  globalSystemIntrBase m entry ≤ gsi ∧
    gsi ≤ globalSystemIntrBase m entry + maxInterrupts bus (ioApicAddress m entry)

instance (m : Memory) (bus : IoApicBus) (entry gsi : BitVec 32) :
    Decidable (Covers m bus entry gsi) :=
  inferInstanceAs (Decidable (_ ∧ _))

/-- The loop over the I/O APICs, from the pointers to their entries. It is left at the first one
    whose interrupts include the one looked for. -/
def routeInterrupt (m : Memory) (source : IrqSource) (vec localApicId : BitVec 8) :
    List (BitVec 32) → IoApicBus → IoApicBus
  | [], bus => bus
  | entry :: entries, bus =>
      let ioapic := ioApicAddress m entry
      let bus := (ioApicReadFrom bus ioapic ioApicRegVersion).2
      if Covers m bus entry source.globalSysIntr then
        let intrIdx := source.globalSysIntr - globalSystemIntrBase m entry
        let index := ioApicRedirectTableBase + 2 * intrIdx
        let bus := ioApicWriteTo bus ioapic index
          (madtPolarity source.flags ||| madtPolarity source.flags ||| vec.setWidth 32)
        ioApicWriteTo bus ioapic (index + 1) (localApicId.setWidth 32)
      else routeInterrupt m source vec localApicId entries bus

/-- `IOAPIC_EnableInterrupt`. -/
def enableInterrupt (m : Memory) (fuel : Nat) (s : ApicState) (bus : IoApicBus)
    (irq vec localApicId : BitVec 8) : Option IoApicBus :=
  match findSource m fuel s.madtPtr irq with
  | none => none
  | some (.error e) => nomatch e
  | some (.ok source) =>
      some (routeInterrupt m source vec localApicId
        ((List.range s.ioApicNum).map s.ioApicInfoPtrs) bus)

/-! ## Section 2: What the Entry Has to Say -/

/-- The source of an IRQ: the override of it that comes last among the entries, or the IRQ
    itself, with the flags of its bus. -/
def irqSource (m : Memory) (entries : List (BitVec 32)) (irq : BitVec 8) : IrqSource :=
  match (entries.filter fun e => m e = 2 ∧ m (e + 3) = irq).getLast? with
  | none => ⟨irq.setWidth 32, 0⟩
  | some e => ⟨load32 m (e + 4), load16 m (e + 8)⟩

/-- MPS INTI flags, bits 1:0. -/
def ActiveLow (flags : BitVec 16) : Prop := flags.extractLsb' 0 2 = 3

/-- MPS INTI flags, bits 3:2. -/
def LevelTriggered (flags : BitVec 16) : Prop := flags.extractLsb' 2 2 = 3

/-- The I/O APIC of the entry serves the interrupt: its range begins at its base, and it has
    `max_interrupts + 1` of them. -/
def Serves (m : Memory) (bus : IoApicBus) (entry gsi : BitVec 32) : Prop :=
  (globalSystemIntrBase m entry).toNat ≤ gsi.toNat ∧
    gsi.toNat ≤ (globalSystemIntrBase m entry).toNat +
      (maxInterrupts bus (ioApicAddress m entry)).toNat

/-- The last interrupt that the I/O APIC serves is a 32-bit number. -/
def RangeFits (m : Memory) (bus : IoApicBus) (entry : BitVec 32) : Prop :=
  (globalSystemIntrBase m entry).toNat +
    (maxInterrupts bus (ioApicAddress m entry)).toNat < 2 ^ 32

/-- The fields of a redirection entry. -/
structure RedirectionEntry (source : IrqSource) (vec localApicId : BitVec 8)
    (low high : BitVec 32) : Prop where
  vector : low.extractLsb' 0 8 = vec
  polarity : low.getLsbD 13 = true ↔ ActiveLow source.flags
  trigger : low.getLsbD 15 = true ↔ LevelTriggered source.flags
  destination : high.extractLsb' 24 8 = localApicId

/-- The function ends, and has written the redirection entry of the interrupt in the I/O APIC
    that serves it, and nothing else. -/
def EnablesInterrupt (m : Memory) (s : ApicState) (bus : IoApicBus) (entries : List (BitVec 32))
    (irq vec localApicId : BitVec 8) : Prop :=
  ∃ fuel bus', enableInterrupt m fuel s bus irq vec localApicId = some bus' ∧
    ∃ i < s.ioApicNum, ∃ low high,
      Serves m bus (s.ioApicInfoPtrs i) (irqSource m entries irq).globalSysIntr ∧
      RedirectionEntry (irqSource m entries irq) vec localApicId low high ∧
      let ioapic := ioApicAddress m (s.ioApicInfoPtrs i)
      let index := ioApicRedirectTableBase + 2 *
        ((irqSource m entries irq).globalSysIntr - globalSystemIntrBase m (s.ioApicInfoPtrs i))
      bus'.written = (ioapic, index + 1, high) :: (ioapic, index, low) :: bus.written

/-- A well-formed MADT, after `APIC_SaveInfo`: its entries follow one another to its end, the
    pointers to its I/O APICs have been saved, and no interrupt is served by two of them. -/
structure SavedMadt (m : Memory) (s : ApicState) (bus : IoApicBus) (l : List Nat) : Prop where
  offsets : EntryOffsets m s.madtPtr l
  mapped : s.madtPtr.toNat + (tableLength m s.madtPtr).toNat ≤ 0xF0000000
  ioApics : (List.range s.ioApicNum).map s.ioApicInfoPtrs = entriesOfType m s.madtPtr l 1
  disjoint : ∀ i j gsi, i < s.ioApicNum → j < s.ioApicNum →
    Serves m bus (s.ioApicInfoPtrs i) gsi → Serves m bus (s.ioApicInfoPtrs j) gsi → i = j

/-! ## Section 3: The Two Searches -/

section searches

variable {m : Memory} {s : ApicState} {bus : IoApicBus} {l : List Nat} {source : IrqSource}
  {irq vec localApicId : BitVec 8} {entry gsi : BitVec 32} {i : Nat}

/-- Over the entries, the last override of the IRQ is the one that is kept. -/
theorem foldl_overrideEntry {entries : List (BitVec 32)} :
    entries.foldl (fun s e => overrideEntry m irq e s) source =
      match (entries.filter fun e => m e = 2 ∧ m (e + 3) = irq).getLast? with
      | none => source
      | some e => ⟨load32 m (e + 4), load16 m (e + 8)⟩ := by
  induction entries generalizing source with
  | nil => rfl
  | cons e entries ih =>
    rw [List.foldl_cons, ih, List.filter_cons]
    unfold overrideEntry
    by_cases htype : m e = 2
    · by_cases hirq : m (e + 3) = irq
      · simp only [htype, hirq, and_self, decide_true, if_true, List.getLast?_cons]
        cases (entries.filter fun e => m e = 2 ∧ m (e + 3) = irq).getLast? with
        | none => rfl
        | some e' => rfl
      · simp only [htype, hirq, and_false, decide_false, Bool.false_eq_true, if_false, if_true]
    · simp only [htype, false_and, decide_false, Bool.false_eq_true, if_false]

/-- The first search ends with the source of the IRQ. -/
theorem findSource_eq_some (h : SavedMadt m s bus l) {fuel : Nat}
    {out : Except Empty IrqSource} :
    findSource m fuel s.madtPtr irq = some out ↔
      l.length < fuel ∧ out = .ok (irqSource m (l.map (entryAt s.madtPtr)) irq) := by
  have hwalk := (walk_inMadt_iff h.mapped).mpr ⟨l, h.offsets, rfl⟩
  have hfold : (l.map (entryAt s.madtPtr)).foldl (fun s e => overrideEntry m irq e s)
      ⟨irq.setWidth 32, 0⟩ = irqSource m (l.map (entryAt s.madtPtr)) irq := foldl_overrideEntry
  rw [findSource, whileLoop_pure]
  constructor
  · rintro ⟨l', hl', hlen, rfl⟩
    obtain rfl := hl'.unique hwalk
    rw [hfold]
    exact ⟨by rwa [List.length_map] at hlen, rfl⟩
  · rintro ⟨hlen, rfl⟩
    exact ⟨_, hwalk, by rwa [List.length_map], by rw [hfold]⟩

/-- The function ends with the result of the second search. -/
theorem enableInterrupt_eq_some (h : SavedMadt m s bus l) {fuel : Nat} {bus' : IoApicBus} :
    enableInterrupt m fuel s bus irq vec localApicId = some bus' ↔
      l.length < fuel ∧ bus' = routeInterrupt m (irqSource m (l.map (entryAt s.madtPtr)) irq) vec
        localApicId ((List.range s.ioApicNum).map s.ioApicInfoPtrs) bus := by
  unfold enableInterrupt
  cases hfind : findSource m fuel s.madtPtr irq with
  | none =>
    have hfuel : ¬l.length < fuel := by
      intro hlt
      rw [(findSource_eq_some h).mpr ⟨hlt, rfl⟩] at hfind
      exact nomatch hfind
    exact ⟨fun hnone => (nomatch hnone), fun hlt => absurd hlt.1 hfuel⟩
  | some out =>
    obtain ⟨hfuel, rfl⟩ := (findSource_eq_some h).mp hfind
    exact ⟨fun heq => ⟨hfuel, (Option.some.inj heq).symm⟩, fun heq => congrArg some heq.2.symm⟩

/-- An I/O APIC whose range does not fit passes the test for no interrupt. -/
theorem covers_iff : Covers m bus entry gsi ↔ Serves m bus entry gsi ∧ RangeFits m bus entry := by
  have hmax : (maxInterrupts bus (ioApicAddress m entry)).toNat ≤ 255 := by
    rw [maxInterrupts, BitVec.toNat_and]
    exact Nat.and_le_right
  have hbase := (globalSystemIntrBase m entry).isLt
  have hgsi := gsi.isLt
  unfold Covers Serves RangeFits
  rw [BitVec.le_def, BitVec.le_def, BitVec.toNat_add]
  omega

/-- A read does not change the registers. -/
theorem covers_ioApicReadFrom {ioapic index : BitVec 32} :
    Covers m (ioApicReadFrom bus ioapic index).2 entry gsi ↔ Covers m bus entry gsi := Iff.rfl

/-- Where no test succeeds, nothing is written. -/
theorem routeInterrupt_written_eq {entries : List (BitVec 32)}
    (h : ∀ e ∈ entries, ¬Covers m bus e source.globalSysIntr) :
    (routeInterrupt m source vec localApicId entries bus).written = bus.written := by
  induction entries generalizing bus with
  | nil => rfl
  | cons e entries ih =>
    have hno := h e List.mem_cons_self
    rw [← covers_ioApicReadFrom] at hno
    rw [routeInterrupt, if_neg hno]
    exact ih fun e he => h e (List.mem_cons_of_mem _ he)

/-- The stores for an interrupt of the I/O APIC of the entry. -/
def redirectionStores (m : Memory) (source : IrqSource) (vec localApicId : BitVec 8)
    (entry : BitVec 32) : List (BitVec 32 × BitVec 32 × BitVec 32) :=
  let ioapic := ioApicAddress m entry
  let index := ioApicRedirectTableBase + 2 * (source.globalSysIntr - globalSystemIntrBase m entry)
  [(ioapic, index + 1, localApicId.setWidth 32),
    (ioapic, index, madtPolarity source.flags ||| madtPolarity source.flags ||| vec.setWidth 32)]

/-- The first test that succeeds decides what is written. -/
theorem routeInterrupt_written_append {entries entries' : List (BitVec 32)}
    (h : ∀ e ∈ entries, ¬Covers m bus e source.globalSysIntr)
    (hentry : Covers m bus entry source.globalSysIntr) :
    (routeInterrupt m source vec localApicId (entries ++ entry :: entries') bus).written =
      redirectionStores m source vec localApicId entry ++ bus.written := by
  induction entries generalizing bus with
  | nil =>
    rw [← covers_ioApicReadFrom] at hentry
    rw [List.nil_append, routeInterrupt, if_pos hentry]
    rfl
  | cons e entries ih =>
    have hno := h e List.mem_cons_self
    rw [← covers_ioApicReadFrom] at hno
    rw [List.cons_append, routeInterrupt, if_neg hno]
    exact ih (fun e he => h e (List.mem_cons_of_mem _ he)) hentry

/-- The I/O APIC that serves the interrupt is found, wherever it comes in the MADT. -/
theorem SavedMadt.written_of_covers (h : SavedMadt m s bus l) (hi : i < s.ioApicNum)
    (hc : Covers m bus (s.ioApicInfoPtrs i) source.globalSysIntr) :
    (routeInterrupt m source vec localApicId ((List.range s.ioApicNum).map s.ioApicInfoPtrs)
      bus).written =
      redirectionStores m source vec localApicId (s.ioApicInfoPtrs i) ++ bus.written := by
  obtain ⟨k, hk⟩ := Nat.exists_eq_add_of_lt hi
  have hsplit : (List.range s.ioApicNum).map s.ioApicInfoPtrs =
      (List.range i).map s.ioApicInfoPtrs ++ s.ioApicInfoPtrs i ::
        (List.range k).map fun j => s.ioApicInfoPtrs (i + (j + 1)) := by
    rw [hk, Nat.add_assoc, List.range_add, List.range_succ_eq_map]
    simp [Function.comp_def]
  rw [hsplit]
  apply routeInterrupt_written_append _ hc
  intro e he hcov
  obtain ⟨j, hj, rfl⟩ := List.mem_map.mp he
  have hlt := List.mem_range.mp hj
  have := h.disjoint j i _ (by omega) hi (covers_iff.mp hcov).1 (covers_iff.mp hc).1
  omega

end searches

/-! ## Section 4: The Fields -/

section fields

variable {source : IrqSource} {flags : BitVec 16} {vec localApicId : BitVec 8}

/-- The polarity of the source looks at the upper bit of the field only. -/
theorem madtPolarity_eq : madtPolarity flags = if flags.getLsbD 1 then 1 <<< 13 else 0 := by
  have hbit : flags &&& 2 = 0 ↔ flags.getLsbD 1 = false := by
    rw [← BitVec.toNat_inj, BitVec.toNat_and]
    show flags.toNat &&& 2 ^ 1 = 0 ↔ _
    rw [Nat.and_two_pow, BitVec.getLsbD]
    cases flags.toNat.testBit 1 <;> decide
  unfold madtPolarity
  cases h : flags.getLsbD 1 with
  | false => rw [if_pos (hbit.mpr h)]; rfl
  | true =>
    have hne : ¬flags &&& 2 = 0 := fun hzero => absurd (hbit.mp hzero) (by rw [h]; decide)
    rw [if_neg hne]
    rfl

/-- The upper bit says active low, unless the field has the reserved value. -/
theorem getLsbD_one_iff :
    (flags.getLsbD 1 = true ↔ ActiveLow flags) ↔ flags.extractLsb' 0 2 ≠ 2 := by
  have hbit : flags.getLsbD 1 = (flags.extractLsb' 0 2).getLsbD 1 := by simp
  rw [hbit, ActiveLow]
  generalize flags.extractLsb' 0 2 = x
  revert x
  decide

/-- The entry is as it has to be for an interrupt that is not level triggered, with a polarity
    that is not the reserved value, and for the local APIC 0. -/
theorem redirectionEntry_iff :
    RedirectionEntry source vec localApicId
        (madtPolarity source.flags ||| madtPolarity source.flags ||| vec.setWidth 32)
        (localApicId.setWidth 32) ↔
      source.flags.extractLsb' 0 2 ≠ 2 ∧ ¬LevelTriggered source.flags ∧ localApicId = 0 := by
  have hpol : (madtPolarity source.flags ||| madtPolarity source.flags |||
      vec.setWidth 32).getLsbD 13 = source.flags.getLsbD 1 := by
    rw [madtPolarity_eq, BitVec.or_self, BitVec.getLsbD_or, BitVec.getLsbD_setWidth]
    cases source.flags.getLsbD 1 <;> simp
  have htrig : (madtPolarity source.flags ||| madtPolarity source.flags |||
      vec.setWidth 32).getLsbD 15 = false := by
    rw [madtPolarity_eq, BitVec.or_self, BitVec.getLsbD_or, BitVec.getLsbD_setWidth]
    cases source.flags.getLsbD 1 <;> simp
  have hvec : (madtPolarity source.flags ||| madtPolarity source.flags |||
      vec.setWidth 32).extractLsb' 0 8 = vec := by
    have hlow : (vec.setWidth 32).extractLsb' 0 8 = vec := by
      rw [BitVec.extractLsb'_setWidth_of_le (by decide), BitVec.extractLsb'_eq_self]
    rw [madtPolarity_eq, BitVec.or_self, BitVec.extractLsb'_or, hlow]
    cases source.flags.getLsbD 1 <;> simp
  have hdest : (localApicId.setWidth 32).extractLsb' 24 8 = 0 := by
    ext i hi
    simp only [BitVec.getElem_extractLsb', BitVec.getLsbD_setWidth]
    rw [BitVec.getLsbD_of_ge _ _ (by omega), Bool.and_false]
    simp
  constructor
  · intro h
    refine ⟨getLsbD_one_iff.mp (by rw [← h.polarity, hpol]), fun hlevel => ?_, ?_⟩
    · have hset := h.trigger.mpr hlevel
      rw [htrig] at hset
      exact nomatch hset
    · rw [← h.destination, hdest]
  · rintro ⟨hflags, hedge, rfl⟩
    refine ⟨hvec, ?_, ?_, hdest⟩
    · rw [hpol]
      exact getLsbD_one_iff.mpr hflags
    · rw [htrig]
      exact ⟨fun hset => (nomatch hset), fun hlevel => absurd hlevel hedge⟩

end fields

/-! ## Section 5: The Interrupts Routed Right -/

section routed

variable {m : Memory} {s : ApicState} {bus : IoApicBus} {l : List Nat}
  {irq vec localApicId : BitVec 8}

/-- The interrupts that are routed right: an I/O APIC serves the interrupt, with a range of 32-bit
    numbers, the override says neither level triggered nor the reserved polarity, and the
    interrupt is for the local APIC 0. -/
structure RoutedRight (m : Memory) (s : ApicState) (bus : IoApicBus) (source : IrqSource)
    (localApicId : BitVec 8) : Prop where
  served : ∃ i < s.ioApicNum, Serves m bus (s.ioApicInfoPtrs i) source.globalSysIntr ∧
    RangeFits m bus (s.ioApicInfoPtrs i)
  polarity : source.flags.extractLsb' 0 2 ≠ 2
  trigger : ¬LevelTriggered source.flags
  destination : localApicId = 0

theorem EnablesInterrupt.routedRight
    (he : EnablesInterrupt m s bus (l.map (entryAt s.madtPtr)) irq vec localApicId)
    (h : SavedMadt m s bus l) :
    RoutedRight m s bus (irqSource m (l.map (entryAt s.madtPtr)) irq) localApicId := by
  unfold EnablesInterrupt at he
  simp only [enableInterrupt_eq_some h] at he
  generalize irqSource m (l.map (entryAt s.madtPtr)) irq = source at *
  obtain ⟨fuel, bus', ⟨-, rfl⟩, i, hi, low, high, hserves, hentry, hwritten⟩ := he
  by_cases hnone : ∀ e ∈ (List.range s.ioApicNum).map s.ioApicInfoPtrs,
      ¬Covers m bus e source.globalSysIntr
  · rw [routeInterrupt_written_eq hnone] at hwritten
    have hlen := congrArg List.length hwritten
    simp only [List.length_cons] at hlen
    omega
  · push Not at hnone
    obtain ⟨e, he, hc⟩ := hnone
    obtain ⟨j, hj, rfl⟩ := List.mem_map.mp he
    have hj' := List.mem_range.mp hj
    -- no other I/O APIC serves the interrupt
    obtain rfl := h.disjoint i j _ hi hj' hserves (covers_iff.mp hc).1
    rw [h.written_of_covers hi hc] at hwritten
    simp only [redirectionStores, List.cons_append, List.nil_append, List.cons.injEq,
      Prod.mk.injEq, true_and, and_true] at hwritten
    obtain ⟨rfl, rfl⟩ := hwritten
    obtain ⟨hpolarity, htrigger, hdest⟩ := redirectionEntry_iff.mp hentry
    exact ⟨⟨i, hi, covers_iff.mp hc⟩, hpolarity, htrigger, hdest⟩

theorem RoutedRight.enablesInterrupt
    (hr : RoutedRight m s bus (irqSource m (l.map (entryAt s.madtPtr)) irq) localApicId)
    (h : SavedMadt m s bus l) :
    EnablesInterrupt m s bus (l.map (entryAt s.madtPtr)) irq vec localApicId := by
  obtain ⟨i, hi, hserves, hfits⟩ := hr.served
  have hentry := (@redirectionEntry_iff _ vec _).mpr ⟨hr.polarity, hr.trigger, hr.destination⟩
  have hc := covers_iff.mpr ⟨hserves, hfits⟩
  exact ⟨_, _, (enableInterrupt_eq_some h).mpr ⟨Nat.lt_succ_self l.length, rfl⟩, i, hi, _, _,
    hserves, hentry, h.written_of_covers hi hc⟩

end routed

/-! ## Section 6: A Table with an Override -/

/-- The MADT at `0x80002000` sends IRQ 0 to interrupt 2, as it is on its bus, and has one I/O
    APIC with the interrupts from 0 on. -/
def overrideTable : Memory :=
  sampleTables [2, 10, 0, 0, 2, 0, 0, 0, 0, 0, 1, 12, 2, 0, 0, 0, 0xC0, 0xFE, 0, 0, 0, 0] 0

/-- The pointer to the I/O APIC is saved. -/
def overrideInfo : ApicState :=
  { noApicInfo with
    infoSaved := true, madtPtr := 0x80002000, ioApicNum := 1
    ioApicInfoPtrs := fun _ => 0x80002036 }

/-- Every I/O APIC has 24 interrupts. -/
def idleBus : IoApicBus := ⟨fun _ => 0, fun _ _ => 0x00170020, []⟩

theorem savedMadt_overrideTable : SavedMadt overrideTable overrideInfo idleBus [44, 54] := by
  obtain ⟨hlen, h44, h54, hsaved⟩ : (tableLength overrideTable 0x80002000).toNat = 66 ∧
      entryLength overrideTable 0x80002000 44 = 10 ∧
        entryLength overrideTable 0x80002000 54 = 12 ∧
          [0x80002036] = entriesOfType overrideTable 0x80002000 [44, 54] 1 := by
    decide +kernel
  refine ⟨?_, ?_, hsaved, ?_⟩
  · show EntryOffsets overrideTable 0x80002000 [44, 54]
    simp only [EntryOffsets, walk_cons, walk_nil, hlen, h44, h54]
    decide
  · show 0x80002000 + (tableLength overrideTable 0x80002000).toNat ≤ 0xF0000000
    omega
  · intro i j gsi hi hj _ _
    have hi' : i < 1 := hi
    have hj' : j < 1 := hj
    omega

/-- The redirection entry is right exactly where the interrupt is edge triggered, with a polarity
    that is not reserved, for the local APIC 0, and served by an I/O APIC with 32-bit numbers. -/
theorem enablesInterrupt_iff {m : Memory} {s : ApicState} {bus : IoApicBus} {l : List Nat}
    (h : SavedMadt m s bus l) (irq vec localApicId : BitVec 8) :
    EnablesInterrupt m s bus (l.map (entryAt s.madtPtr)) irq vec localApicId ↔
      RoutedRight m s bus (irqSource m (l.map (entryAt s.madtPtr)) irq) localApicId :=
  ⟨fun he => he.routedRight h, fun hr => hr.enablesInterrupt h⟩

/-- The timer, for the first CPU. -/
theorem enablesInterrupt_iff_overrideTable :
    EnablesInterrupt overrideTable overrideInfo idleBus ([44, 54].map (entryAt 0x80002000))
      0 0x20 0 := by
  obtain ⟨hsource, hbase⟩ :
      irqSource overrideTable ([44, 54].map (entryAt 0x80002000)) 0 = ⟨2, 0⟩ ∧
        globalSystemIntrBase overrideTable 0x80002036 = 0 := by
    decide +kernel
  have hlimit : maxInterrupts idleBus (ioApicAddress overrideTable 0x80002036) = 23 := by decide
  apply (enablesInterrupt_iff savedMadt_overrideTable 0 0x20 0).mpr
  show RoutedRight _ _ _ (irqSource overrideTable ([44, 54].map (entryAt 0x80002000)) 0) 0
  rw [hsource]
  refine ⟨⟨0, by decide, ?_, ?_⟩, by decide, by unfold LevelTriggered; decide, rfl⟩
  · show Serves overrideTable idleBus 0x80002036 2
    rw [Serves, hbase, hlimit]
    decide
  · show RangeFits overrideTable idleBus 0x80002036
    rw [RangeFits, hbase, hlimit]
    decide

/-- For another CPU, the id does not get to the destination field. -/
theorem not_forall_enablesInterrupt : ¬∀ m s bus l irq vec localApicId, SavedMadt m s bus l →
    EnablesInterrupt m s bus (l.map (entryAt s.madtPtr)) irq vec localApicId := by
  intro h
  have hone := (h _ _ _ _ 0 0x20 1 savedMadt_overrideTable).routedRight savedMadt_overrideTable
  exact absurd hone.destination (by decide)

end Avos
