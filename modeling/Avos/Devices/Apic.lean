import Avos.Library.ByteMemory
import Avos.Library.Walk

/-! # Reading the ACPI Tables

  `APIC_SaveInfo` of `kernel/arch/apic/src/apic.c`. From the boot information it finds
  the RSDP, from there the RSDT, from there the MADT, and it goes over the entries of
  the MADT twice: to count the local APICs and the I/O APICs, and to save a pointer to
  each of them in two arrays of fixed length.

  Addresses are 32-bit words and wrap, as do the sums and differences of the source.
  The model records which bytes of the tables' entries are read, and which elements of
  the two arrays are written.
-/

open ByteMemory Walks

namespace Avos

/-- `KERNEL_HIGHER_HALF_OFFSET`. -/
def higherHalfOffset : BitVec 32 := 0x80000000

/-- `MACHINE_MAX_CPUS`. -/
def machineMaxCpus : Nat := 0xFF

/-- `MACHINE_MAX_IOAPICS`. -/
def machineMaxIoApics : Nat := 0xFF

/-- A read of `count` bytes at `addr`, as part of an entry of the table at `table`. -/
structure TableRead where
  table : BitVec 32
  addr : BitVec 32
  count : Nat

/-- The variables `APIC_SaveInfo` sets, and the accesses it makes. -/
structure ApicState where
  infoSaved : Bool
  madtPtr : BitVec 32
  picExists : Bool
  localApicAddress : BitVec 32
  localApicNum : Nat
  ioApicNum : Nat
  localApicInfoPtrs : Nat → BitVec 32
  ioApicInfoPtrs : Nat → BitVec 32
  reads : List TableRead
  localApicWrites : List Nat
  ioApicWrites : List Nat

/-- The loop over the entries: the state and the two counters. -/
structure ApicScan where
  state : ApicState
  numCpus : Nat
  numIoApics : Nat

/-! ## Section 1: The Tables -/

/-- The sum of `n` bytes. -/
def byteSum (m : Memory) (a : BitVec 32) : Nat → BitVec 8
  | 0 => 0
  | n + 1 => byteSum m a n + m (a + BitVec.ofNat 32 n)

/-- `header.length` of a table. -/
def tableLength (m : Memory) (table : BitVec 32) : BitVec 32 := load32 m (table + 4)

/-- The checksum of a table is right. -/
def ChecksumOk (m : Memory) (table : BitVec 32) : Prop :=
  byteSum m table (tableLength m table).toNat = 0

instance (m : Memory) (table : BitVec 32) : Decidable (ChecksumOk m table) :=
  inferInstanceAs (Decidable (_ = _))

/-- The signature is `APIC`. -/
def isMadt (m : Memory) (sdt : BitVec 32) : Bool :=
  m sdt = 0x41 ∧ m (sdt + 1) = 0x50 ∧ m (sdt + 2) = 0x49 ∧ m (sdt + 3) = 0x43

/-- `&rsdt->entry[i]`; the header has 36 bytes. -/
def rsdtEntry (rsdt : BitVec 32) (i : Nat) : BitVec 32 := rsdt + 36 + BitVec.ofNat 32 (4 * i)

/-- The number of entries, `(length - sizeof(struct SDTHeader))/4`. -/
def rsdtEntries (m : Memory) (rsdt : BitVec 32) : Nat := (tableLength m rsdt - 36).toNat / 4

/-- The boot information has a tag at `tag`. -/
def HasTag (m : Memory) (tag : BitVec 32) : Prop := load32 m tag ≠ 0

instance (m : Memory) : DecidablePred (HasTag m) :=
  fun _ => inferInstanceAs (Decidable (_ ≠ _))

/-- `tag + ((size + 7) & ~7)`. -/
def nextTag (m : Memory) (tag : BitVec 32) : BitVec 32 :=
  tag + ((load32 m (tag + 4) + 7) &&& ~~~7)

/-- A tag of the boot information: the RSDP of an ACPI tag replaces the one found before. -/
def rsdpTag (m : Memory) (tag rsdp : BitVec 32) : BitVec 32 :=
  if load32 m tag = 14 ∨ load32 m tag = 15 then tag + 8 else rsdp

/-- The loop over the boot information. -/
def findRsdp (m : Memory) (fuel : Nat) (bootInfo : BitVec 32) :
    Option (Except Empty (BitVec 32)) :=
  whileLoop (HasTag m) (nextTag m) (fun tag rsdp => .ok (rsdpTag m tag rsdp)) fuel
    (bootInfo + 8) 0

/-- The loop over the first `n` entries of the RSDT. -/
def findMadt (m : Memory) (rsdt : BitVec 32) (s : ApicState) : Nat → ApicState
  | 0 => s
  | n + 1 =>
      let s := findMadt m rsdt s n
      let s := { s with reads := ⟨rsdt, rsdtEntry rsdt n, 4⟩ :: s.reads }
      let sdt := load32 m (rsdtEntry rsdt n) + higherHalfOffset
      if isMadt m sdt then { s with madtPtr := sdt } else s

/-! ## Section 2: The Entries of the MADT -/

/-- `(uint32_t)entry < (uint32_t)MADT_ptr + MADT_ptr->header.length`. -/
def InMadt (m : Memory) (madt entry : BitVec 32) : Prop := entry < madt + tableLength m madt

instance (m : Memory) (madt : BitVec 32) : DecidablePred (InMadt m madt) :=
  fun _ => inferInstanceAs (Decidable (_ < _))

/-- `entry + entry->length`. -/
def nextEntry (m : Memory) (entry : BitVec 32) : BitVec 32 := entry + (m (entry + 1)).setWidth 32

/-- `local_apic_phys_addr` of a local APIC address override. -/
def overrideAddress (m : Memory) (entry : BitVec 32) : BitVec 64 :=
  load32 m (entry + 8) ++ load32 m (entry + 4)

/-- The first pass: count the entry. -/
def countEntry (m : Memory) (madt entry : BitVec 32) (s : ApicScan) : ApicScan :=
  { state := { s.state with
      reads := ⟨madt, entry + 1, 1⟩ :: ⟨madt, entry, 1⟩ :: s.state.reads }
    numCpus := if m entry = 0 then s.numCpus + 1 else s.numCpus
    numIoApics := if m entry = 1 then s.numIoApics + 1 else s.numIoApics }

/-- The second pass: save a pointer to the entry. An override with an address that is too
    large ends the function. -/
def saveEntry (m : Memory) (madt entry : BitVec 32) (s : ApicScan) :
    Except ApicState ApicScan :=
  let s := { s with state := { s.state with reads := ⟨madt, entry, 1⟩ :: s.state.reads } }
  let s :=
    if m entry = 0 then
      { s with
        state := { s.state with
          localApicInfoPtrs := Function.update s.state.localApicInfoPtrs s.numCpus entry
          localApicWrites := s.numCpus :: s.state.localApicWrites }
        numCpus := s.numCpus + 1 }
    else s
  let s :=
    if m entry = 1 then
      { s with
        state := { s.state with
          ioApicInfoPtrs := Function.update s.state.ioApicInfoPtrs s.numIoApics entry
          ioApicWrites := s.numIoApics :: s.state.ioApicWrites }
        numIoApics := s.numIoApics + 1 }
    else s
  if m entry = 5 then
    let s := { s with state := { s.state with reads := ⟨madt, entry + 4, 8⟩ :: s.state.reads } }
    let addr := overrideAddress m entry
    if 0xFFFFFFFF < addr.toNat then .error s.state
    else
      .ok { s with state := { s.state with
        localApicAddress := addr.setWidth 32
        reads := ⟨madt, entry + 1, 1⟩ :: s.state.reads } }
  else .ok { s with state := { s.state with reads := ⟨madt, entry + 1, 1⟩ :: s.state.reads } }

/-- The first pass over `MADT_ptr->entries`; the header and two fields come first. -/
def countEntries (m : Memory) (fuel : Nat) (madt : BitVec 32) (s : ApicState) :
    Option (Except Empty ApicScan) :=
  whileLoop (InMadt m madt) (nextEntry m) (fun entry s => .ok (countEntry m madt entry s)) fuel
    (madt + 44) ⟨s, 0, 0⟩

/-- The second pass. -/
def saveEntries (m : Memory) (fuel : Nat) (madt : BitVec 32) (s : ApicState) :
    Option (Except ApicState ApicScan) :=
  whileLoop (InMadt m madt) (nextEntry m) (saveEntry m madt) fuel (madt + 44) ⟨s, 0, 0⟩

/-- The part of `APIC_SaveInfo` from the MADT on. -/
def saveMadt (m : Memory) (fuel : Nat) (s : ApicState) : Option (Bool × ApicState) :=
  let madt := s.madtPtr
  let s := { s with
    picExists := load32 m (madt + 40) ≠ 0
    localApicAddress := load32 m (madt + 36) }
  match countEntries m fuel madt s with
  | none => none
  | some (.error e) => nomatch e
  | some (.ok scan) =>
      if machineMaxCpus < scan.numCpus ∨ machineMaxIoApics < scan.numCpus then
        some (false, scan.state)
      else
        let s := { scan.state with
          localApicNum := scan.numCpus
          ioApicNum := scan.numIoApics }
        match saveEntries m fuel madt s with
        | none => none
        | some (.error s) => some (false, s)
        | some (.ok scan) => some (true, { scan.state with infoSaved := true })

/-- `APIC_SaveInfo`. The two accesses to the boot information and to the RSDP are not
    recorded. -/
def apicSaveInfo (m : Memory) (fuel : Nat) (bootInfo : BitVec 32) (s : ApicState) :
    Option (Bool × ApicState) :=
  if s.infoSaved then some (true, s)
  else
    match findRsdp m fuel bootInfo with
    | none => none
    | some (.error e) => nomatch e
    | some (.ok rsdp) =>
        if rsdp = 0 then some (false, s)
        else
          let rsdt := load32 m (rsdp + 16) + higherHalfOffset
          if ¬ChecksumOk m rsdt then some (false, s)
          else
            let s := findMadt m rsdt s (rsdtEntries m rsdt)
            if s.madtPtr = 0 then some (false, s)
            else if ¬ChecksumOk m s.madtPtr then some (false, s)
            else saveMadt m fuel s

end Avos
