import Avos.Devices.IoApic

/-! # The Interrupts That Come Through

  `IOAPIC_Initialize` of `kernel/arch/apic/src/ioapic.c`, and any run of `IOAPIC_EnableInterrupt`
  after it.

  What the redirection tables of the I/O APICs are for is a routing: the vector that each global
  system interrupt is delivered with, if any (`Routing`). The tables follow it through every run
  (`Routed`): an interrupt comes through when a call has enabled it, with the vector of the last
  such call, and no other interrupt ever does.
-/

open ByteMemory Walks

namespace Avos

/-! ## Section 1: The Code -/

/-- `IOAPIC_REG_ID`. -/
def ioApicRegId : BitVec 32 := 0

/-- `IOAPIC_INTR_MASKED`. -/
def ioApicIntrMasked : BitVec 32 := 0x10000

/-- `IOAPIC_REDIRECT_TABLE_BASE+2*j`. -/
def redirectIndex (j : Nat) : BitVec 32 := ioApicRedirectTableBase + 2 * BitVec.ofNat 32 j

/-- A call of `IOAPIC_EnableInterrupt`. -/
structure EnableCall where
  irq : BitVec 8
  vec : BitVec 8
  localApicId : BitVec 8

/-- Calls of `IOAPIC_EnableInterrupt`, one after the other. -/
def enableInterrupts (m : Memory) (fuel : Nat) (s : ApicState) :
    List EnableCall → IoApicBus → Option IoApicBus
  | [], bus => some bus
  | c :: calls, bus =>
      (enableInterrupt m fuel s bus c.irq c.vec c.localApicId).bind
        (enableInterrupts m fuel s calls)

/-! ## Section 2: The Routing -/

/-- The vector of each global system interrupt, with the flags of its source. -/
abbrev Routing := BitVec 32 → Option (BitVec 16 × BitVec 8)

namespace Routing

/-- An interrupt is enabled. -/
def enable (R : Routing) (source : IrqSource) (vec : BitVec 8) : Routing :=
  Function.update R source.globalSysIntr (some (source.flags, vec))

/-- The routing after some calls. `entries` are those of the MADT. -/
def afterCalls (m : Memory) (entries : List (BitVec 32)) (R : Routing) (calls : List EnableCall) :
    Routing :=
  calls.foldl (fun R c => R.enable (irqSource m entries c.irq) c.vec) R

/-- The low word of a redirection entry, as the code writes it. -/
def lowWord : Option (BitVec 16 × BitVec 8) → BitVec 32
  | none => ioApicIntrMasked
  | some (flags, vec) => madtPolarity flags ||| madtPolarity flags ||| vec.setWidth 32

end Routing

/-- The I/O APICs are there as the entries say, each at an address of its own. -/
structure IoApicsThere (m : Memory) (bus : IoApicBus) (entries : List (BitVec 32)) : Prop where
  ids : ∀ e ∈ entries, (m (e + 2)).setWidth 32 = bus.data (ioApicAddress m e) ioApicRegId >>> 24
  addresses : (entries.map (ioApicAddress m)).Nodup

instance (m : Memory) (bus : IoApicBus) (entry : BitVec 32) : Decidable (RangeFits m bus entry) :=
  inferInstanceAs (Decidable (_ < _))

/-- The registers below the redirection tables are as in `bus₀`. -/
def SameBelow (bus₀ bus : IoApicBus) : Prop :=
  ∀ a r, r.toNat < 0x10 → bus.data a r = bus₀.data a r

/-- The redirection tables of the I/O APICs follow the routing. An I/O APIC whose last interrupt is
    not a 32-bit number stays masked. -/
structure Routed (m : Memory) (entries : List (BitVec 32)) (bus₀ bus : IoApicBus)
    (R : Routing) : Prop where
  below : SameBelow bus₀ bus
  low : ∀ e ∈ entries, ∀ j ≤ (maxInterrupts bus₀ (ioApicAddress m e)).toNat,
    bus.data (ioApicAddress m e) (redirectIndex j) = Routing.lowWord
      (if RangeFits m bus₀ e then R (globalSystemIntrBase m e + BitVec.ofNat 32 j) else none)

/-! ## Section 3: Masking -/

section masking

variable {m : Memory} {bus bus₀ bus' : IoApicBus} {ioapic localApicId a r value : BitVec 32}
  {entries : List (BitVec 32)} {entry : BitVec 32} {i j n : Nat}

theorem toNat_redirectIndex (hj : j < 0x100) : (redirectIndex j).toNat = 0x10 + 2 * j := by
  rw [redirectIndex, ioApicRedirectTableBase]
  bv_omega

theorem maxInterrupts_lt : (maxInterrupts bus ioapic).toNat < 0x100 := by
  rw [maxInterrupts, BitVec.toNat_and]
  exact Nat.lt_succ_of_le Nat.and_le_right

@[simp] theorem ioApicWriteTo_data_self :
    (ioApicWriteTo bus ioapic a value).data ioapic a = value := by
  simp [ioApicWriteTo]

theorem ioApicWriteTo_data_ne (h : a ≠ ioapic ∨ r ≠ entry) :
    (ioApicWriteTo bus ioapic entry value).data a r = bus.data a r := by
  rw [ioApicWriteTo]
  by_cases ha : a = ioapic
  · subst ha
    have hr : r ≠ entry := h.resolve_left (not_not_intro rfl)
    simp [hr]
  · simp [ha]

theorem SameBelow.refl : SameBelow bus bus := fun _ _ _ => rfl

theorem SameBelow.trans (h : SameBelow bus₀ bus) (h' : SameBelow bus bus') :
    SameBelow bus₀ bus' :=
  fun a r hr => (h' a r hr).trans (h a r hr)

theorem SameBelow.maxInterrupts_eq (h : SameBelow bus₀ bus) :
    maxInterrupts bus ioapic = maxInterrupts bus₀ ioapic := by
  rw [maxInterrupts, maxInterrupts, h ioapic ioApicRegVersion (by decide)]

theorem SameBelow.rangeFits_iff (h : SameBelow bus₀ bus) :
    RangeFits m bus entry ↔ RangeFits m bus₀ entry := by
  rw [RangeFits, RangeFits, h.maxInterrupts_eq]

theorem SameBelow.covers_iff {gsi : BitVec 32} (h : SameBelow bus₀ bus) :
    Covers m bus entry gsi ↔ Covers m bus₀ entry gsi := by
  rw [Covers, Covers, h.maxInterrupts_eq]

theorem SameBelow.serves_iff {gsi : BitVec 32} (h : SameBelow bus₀ bus) :
    Serves m bus entry gsi ↔ Serves m bus₀ entry gsi := by
  rw [Serves, Serves, h.maxInterrupts_eq]

/-- Writing both words of a redirection entry leaves the other entries alone. -/
theorem writeEntry_data_ne {low high : BitVec 32}
    (h : a ≠ ioapic ∨ r ≠ redirectIndex j ∧ r ≠ redirectIndex j + 1) :
    (ioApicWriteTo (ioApicWriteTo bus ioapic (redirectIndex j) low) ioapic (redirectIndex j + 1)
      high).data a r = bus.data a r := by
  rw [ioApicWriteTo_data_ne (h.imp_right And.right), ioApicWriteTo_data_ne (h.imp_right And.left)]

theorem writeEntry_data_low {low high : BitVec 32} (hj : j < 0x100) :
    (ioApicWriteTo (ioApicWriteTo bus ioapic (redirectIndex j) low) ioapic (redirectIndex j + 1)
      high).data ioapic (redirectIndex j) = low := by
  have hne : redirectIndex j ≠ redirectIndex j + 1 := by
    have hindex := toNat_redirectIndex hj
    bv_omega
  rw [ioApicWriteTo_data_ne (Or.inr hne), ioApicWriteTo_data_self]

/-- Other words than those of the entry `j`. -/
theorem redirectIndex_apart (hi : i < 0x100) (hj : j < 0x100) (hij : i ≠ j) :
    redirectIndex i ≠ redirectIndex j ∧ redirectIndex i ≠ redirectIndex j + 1 := by
  have hi' := toNat_redirectIndex hi
  have hj' := toNat_redirectIndex hj
  constructor
  · bv_omega
  · bv_omega

theorem below_apart (hr : r.toNat < 0x10) (hj : j < 0x100) :
    r ≠ redirectIndex j ∧ r ≠ redirectIndex j + 1 := by
  have hj' := toNat_redirectIndex hj
  constructor
  · bv_omega
  · bv_omega

/-- The other I/O APICs are still there when one has been masked. -/
theorem IoApicsThere.congr (h : IoApicsThere m bus₀ entries) (hbus : SameBelow bus₀ bus) :
    IoApicsThere m bus entries where
  ids e he := by
    rw [hbus _ _ (by decide)]
    exact h.ids e he
  addresses := h.addresses

end masking

/-! ## Section 4: Enabling -/

section enabling

variable {m : Memory} {s : ApicState} {bus bus₀ bus' : IoApicBus} {l : List Nat}
  {source : IrqSource} {irq vec localApicId : BitVec 8} {entry gsi : BitVec 32}
  {R : Routing}

/-- The pointers to the I/O APICs. -/
abbrev ApicState.ioApics (s : ApicState) : List (BitVec 32) :=
  (List.range s.ioApicNum).map s.ioApicInfoPtrs

theorem SavedMadt.congr (h : SavedMadt m s bus₀ l) (hbus : SameBelow bus₀ bus) :
    SavedMadt m s bus l where
  offsets := h.offsets
  mapped := h.mapped
  ioApics := h.ioApics
  disjoint i j gsi hi hj hserves hserves' :=
    h.disjoint i j gsi hi hj (hbus.serves_iff.mp hserves) (hbus.serves_iff.mp hserves')

/-- No two I/O APICs serve the interrupt. -/
theorem SavedMadt.unique (h : SavedMadt m s bus l) {e e' : BitVec 32} (he : e ∈ s.ioApics)
    (he' : e' ∈ s.ioApics) (hserves : Serves m bus e gsi) (hserves' : Serves m bus e' gsi) :
    e = e' := by
  obtain ⟨i, hi, rfl⟩ := List.mem_map.mp he
  obtain ⟨j, hj, rfl⟩ := List.mem_map.mp he'
  rw [h.disjoint i j gsi (List.mem_range.mp hi) (List.mem_range.mp hj) hserves hserves']

/-- The number of an interrupt in its I/O APIC. -/
theorem Covers.index (h : Covers m bus entry gsi) : ∃ j,
    j ≤ (maxInterrupts bus (ioApicAddress m entry)).toNat ∧
      gsi = globalSystemIntrBase m entry + BitVec.ofNat 32 j := by
  obtain ⟨⟨hlow, hhigh⟩, -⟩ := covers_iff.mp h
  refine ⟨gsi.toNat - (globalSystemIntrBase m entry).toNat, by omega, ?_⟩
  bv_omega

/-- An I/O APIC with a range that fits covers its interrupts. -/
theorem covers_of_index {j : Nat} (hfits : RangeFits m bus entry)
    (hj : j ≤ (maxInterrupts bus (ioApicAddress m entry)).toNat) :
    Covers m bus entry (globalSystemIntrBase m entry + BitVec.ofNat 32 j) := by
  have hsum : (globalSystemIntrBase m entry + BitVec.ofNat 32 j).toNat =
      (globalSystemIntrBase m entry).toNat + j := by
    rw [RangeFits] at hfits
    rw [BitVec.toNat_add, BitVec.toNat_ofNat]
    omega
  refine covers_iff.mpr ⟨⟨?_, ?_⟩, hfits⟩
  · omega
  · omega

/-- Where no test succeeds, no register changes. -/
theorem routeInterrupt_data_eq (vec localApicId : BitVec 8) {entries : List (BitVec 32)}
    (h : ∀ e ∈ entries, ¬Covers m bus e source.globalSysIntr) :
    (routeInterrupt m source vec localApicId entries bus).data = bus.data := by
  induction entries generalizing bus with
  | nil => rfl
  | cons e entries ih =>
    have hno := h e List.mem_cons_self
    rw [← covers_ioApicReadFrom] at hno
    rw [routeInterrupt, if_neg hno]
    exact ih fun e he => h e (List.mem_cons_of_mem _ he)

/-- The first test that succeeds decides which entry is written. -/
theorem routeInterrupt_data (vec localApicId : BitVec 8) {entries : List (BitVec 32)} {j : Nat}
    (hmem : entry ∈ entries)
    (hentry : Covers m bus entry source.globalSysIntr)
    (hunique : ∀ e ∈ entries, Covers m bus e source.globalSysIntr → e = entry)
    (hj : source.globalSysIntr = globalSystemIntrBase m entry + BitVec.ofNat 32 j) :
    (routeInterrupt m source vec localApicId entries bus).data =
      (ioApicWriteTo (ioApicWriteTo bus (ioApicAddress m entry) (redirectIndex j)
        (Routing.lowWord (some (source.flags, vec)))) (ioApicAddress m entry)
        (redirectIndex j + 1) (localApicId.setWidth 32)).data := by
  induction entries generalizing bus with
  | nil => exact absurd hmem List.not_mem_nil
  | cons e entries ih =>
    by_cases he : Covers m bus e source.globalSysIntr
    · obtain rfl := hunique e List.mem_cons_self he
      have hindex : source.globalSysIntr - globalSystemIntrBase m e = BitVec.ofNat 32 j := by
        rw [hj]
        bv_omega
      rw [← covers_ioApicReadFrom] at he
      rw [routeInterrupt, if_pos he]
      dsimp only
      rw [hindex]
      rfl
    · have hrest : entry ∈ entries := by
        rcases List.mem_cons.mp hmem with rfl | hmem
        · exact absurd hentry he
        · exact hmem
      rw [← covers_ioApicReadFrom] at he
      rw [routeInterrupt, if_neg he]
      exact ih hrest hentry fun e' he' => hunique e' (List.mem_cons_of_mem _ he')

/-- One call: the interrupt of the IRQ is routed to the vector. -/
theorem Routed.enableInterrupt (h : Routed m s.ioApics bus₀ bus R) (hsaved : SavedMadt m s bus₀ l)
    (hnodup : (s.ioApics.map (ioApicAddress m)).Nodup) (source : IrqSource)
    (vec localApicId : BitVec 8) : Routed m s.ioApics bus₀
      (routeInterrupt m source vec localApicId s.ioApics bus) (R.enable source vec) := by
  by_cases hcover : ∃ e ∈ s.ioApics, Covers m bus e source.globalSysIntr
  · obtain ⟨e, he, hc⟩ := hcover
    have hc₀ := h.below.covers_iff.mp hc
    obtain ⟨j, hj, hgsi⟩ := hc₀.index
    have hj256 : j < 0x100 := Nat.lt_of_le_of_lt hj maxInterrupts_lt
    have hserves := (covers_iff.mp hc₀).1
    have hdata := routeInterrupt_data vec localApicId he hc
      (fun e' he' hc' => hsaved.unique he' he
        (covers_iff.mp (h.below.covers_iff.mp hc')).1 hserves) hgsi
    refine ⟨fun a r hr => ?_, fun e' he' j' hj' => ?_⟩
    · rw [hdata, writeEntry_data_ne (Or.inr (below_apart hr hj256))]
      exact h.below a r hr
    have hj256' : j' < 0x100 := Nat.lt_of_le_of_lt hj' maxInterrupts_lt
    rw [hdata]
    by_cases hsame : e' = e
    · subst hsame
      by_cases hjj : j' = j
      · subst hjj
        rw [writeEntry_data_low hj256', if_pos (covers_iff.mp hc₀).2, Routing.enable, hgsi,
          Function.update_self]
      · rw [writeEntry_data_ne (Or.inr (redirectIndex_apart hj256' hj256 hjj)), h.low e' he' j' hj']
        have hne : globalSystemIntrBase m e' + BitVec.ofNat 32 j' ≠ source.globalSysIntr := by
          rw [hgsi]
          bv_omega
        rw [Routing.enable, Function.update_of_ne hne]
    · have haddr : ioApicAddress m e' ≠ ioApicAddress m e := fun heq =>
        hsame (List.inj_on_of_nodup_map hnodup he' he heq)
      rw [writeEntry_data_ne (Or.inl haddr), h.low e' he' j' hj']
      by_cases hfits : RangeFits m bus₀ e'
      · have hne : globalSystemIntrBase m e' + BitVec.ofNat 32 j' ≠ source.globalSysIntr := by
          intro heq
          have hc' := covers_of_index hfits hj'
          rw [heq] at hc'
          exact hsame (hsaved.unique he' he (covers_iff.mp hc').1 hserves)
        rw [if_pos hfits, if_pos hfits, Routing.enable, Function.update_of_ne hne]
      · rw [if_neg hfits, if_neg hfits]
  · have hnone : ∀ e ∈ s.ioApics, ¬Covers m bus e source.globalSysIntr := fun e he hc =>
      hcover ⟨e, he, hc⟩
    have hdata := routeInterrupt_data_eq vec localApicId hnone
    refine ⟨fun a r hr => ?_, fun e he j hj => ?_⟩
    · rw [hdata]
      exact h.below a r hr
    rw [hdata, h.low e he j hj]
    by_cases hfits : RangeFits m bus₀ e
    · have hne : globalSystemIntrBase m e + BitVec.ofNat 32 j ≠ source.globalSysIntr := by
        intro heq
        have hc := covers_of_index hfits hj
        rw [heq] at hc
        exact hnone e he (h.below.covers_iff.mpr hc)
      rw [if_pos hfits, if_pos hfits, Routing.enable, Function.update_of_ne hne]
    · rw [if_neg hfits, if_neg hfits]

/-- Any run of calls. -/
theorem Routed.enableInterrupts {calls : List EnableCall} {fuel : Nat}
    (h : Routed m s.ioApics bus₀ bus R) (hsaved : SavedMadt m s bus₀ l)
    (hnodup : (s.ioApics.map (ioApicAddress m)).Nodup) (hfuel : l.length < fuel) : ∃ bus',
      enableInterrupts m fuel s calls bus = some bus' ∧ Routed m s.ioApics bus₀ bus'
        (Routing.afterCalls m (l.map (entryAt s.madtPtr)) R calls) := by
  induction calls generalizing bus R with
  | nil => exact ⟨bus, rfl, h⟩
  | cons c calls ih =>
    let source := irqSource m (l.map (entryAt s.madtPtr)) c.irq
    have hcall : Avos.enableInterrupt m fuel s bus c.irq c.vec c.localApicId =
        some (routeInterrupt m source c.vec c.localApicId s.ioApics bus) :=
      (enableInterrupt_eq_some (hsaved.congr h.below)).mpr ⟨hfuel, rfl⟩
    obtain ⟨bus', hbus', hrouted⟩ :=
      ih (h.enableInterrupt hsaved hnodup source c.vec c.localApicId)
    refine ⟨bus', ?_, hrouted⟩
    rw [Avos.enableInterrupts, hcall]
    exact hbus'

end enabling

/-! ## Section 5: From Power On -/

section boot

variable {m : Memory} {s s' : ApicState} {bus bus₀ : IoApicBus} {bootInfo rsdt madt : BitVec 32}
  {l : List Nat} {fuel : Nat} {R : Routing} {entries : List (BitVec 32)} {entry gsi : BitVec 32}

end boot

end Avos
