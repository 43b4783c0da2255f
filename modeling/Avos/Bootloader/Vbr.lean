import Avos.Bootloader.LoadKernelFile

/-! # The Load Loop of the VBR

  `ReadLoop` to `LaunchBootloader` of `bootloader/initial/src/vbr.asm`. The VBR has a list of up to
  eight blocks, and reads their sectors to `BOOTLOADER_ADDRESS` in portions of at most 127.

  The code is a machine that goes from label to label (`step`). It changes the entries of the list
  and the disk address packet in place. They lie in the VBR itself, below `BOOTLOADER_ADDRESS`, and
  are kept beside the memory that the BIOS reads to.

  The loop always comes to its end, and the bytes of all portions lie one behind the other
  (`exists_launch`). But the start of a portion is added to the sector that the packet has named
  before, so that from the second portion on other sectors may be read (`loadsBlocks_iff`).
-/

open ByteMemory

namespace Avos.Vbr

open Multiboot

/-! ## Section 1: The Code -/

/-- The labels. -/
inductive Label
  | readLoop
  | diskRead
  | prepareRead
  | diskReadUsingLba
  | readLoopCheck
  | launchBootloader
  | haltSystem
deriving DecidableEq

/-- The machine. `entry` has the entries of `BlockList` by their addresses, `dap` is `DAP`. -/
structure Machine (β : Type*) where
  label : Label
  regs : Registers
  entry : BitVec 16 → DiskBlock
  dap : DiskAddressPacket
  mem : Memory
  bios : β

/-- `mov ah, v`. -/
def withAh (r : Registers) (v : BitVec 8) : Registers :=
  { r with eax := r.eax.extractLsb' 16 16 ++ v ++ r.al }

/-- `mov dl, v`. -/
def withDl (r : Registers) (v : BitVec 8) : Registers :=
  { r with edx := r.edx.extractLsb' 8 24 ++ v }

/-- `mov di, v`. -/
def withDi (r : Registers) (v : BitVec 16) : Registers :=
  { r with edi := r.edi.extractLsb' 16 16 ++ v }

/-- The address of an entry; the first one is `BlockList.Block1_LBA`. -/
def entryAddr (k : Nat) : BitVec 16 := 0x7C14 + BitVec.ofNat 16 (12 * k)

/-- `Code`. -/
def codeAddr : BitVec 16 := 0x7C80

/-- `DAP`, as it is in the VBR. -/
def initialDap : DiskAddressPacket where
  size := 0x10
  sectors := 1
  memoryOffset := 0x9000
  memorySegment := 0
  startSector := 0

section code

variable {β : Type*} (B : DiskBios β) (drive : BitVec 8) (sectorSize : BitVec 16) (s : Machine β)

/-- `[di]`. -/
def Machine.block : DiskBlock := s.entry s.regs.di

/-- `ReadLoop`. -/
def readLoop : Machine β :=
  if codeAddr.sle s.regs.di then { s with label := .haltSystem }
  else if s.block.sectors = 0 then { s with label := .launchBootloader }
  else { s with label := .diskRead }

/-- `DiskRead`. -/
def diskRead : Machine β :=
  let eax : BitVec 32 := 0x7F
  if eax.slt s.block.sectors then { s with regs.eax := eax, label := .prepareRead }
  else { s with regs.eax := s.block.sectors, label := .prepareRead }

/-- `PrepareRead`. -/
def prepareRead : Machine β :=
  let ebx := s.block.lba.setWidth 32
  let ecx := s.block.lba.extractLsb' 32 32
  { s with
    regs := { s.regs with ebx := ebx, ecx := ecx }
    entry := Function.update s.entry s.regs.di
      ⟨s.block.lba + s.regs.eax.setWidth 64, s.block.sectors - s.regs.eax⟩
    dap := { s.dap with
      sectors := s.regs.al
      startSector := s.dap.startSector + (ecx ++ ebx) }
    label := .diskReadUsingLba }

/-- `DiskReadUsingLBA`; the drive is at `STACK_TOP-2`. -/
def diskReadUsingLba : Machine β :=
  let answer := B.read s.bios (withAh (withDl s.regs drive) 0x42) s.dap
  { s with
    regs := answer.2.1
    mem := storeBytes s.mem s.dap.address answer.1
    bios := answer.2.2
    label := if answer.2.1.Carry then .haltSystem else .readLoopCheck }

/-- `ReadLoopCheck`. The addition to `ebx` reads the offset and the segment behind it. -/
def readLoopCheck : Machine β :=
  let ebx := (s.dap.memorySegment.setWidth 32 <<< 4) + (s.dap.memorySegment ++ s.dap.memoryOffset)
  let ecx := sectorSize.setWidth 32
  let product := (s.dap.sectors.setWidth 32).setWidth 64 * ecx.setWidth 64
  let eax := product.setWidth 32 + ebx
  let regs := { s.regs with
    eax := eax >>> 0x10 <<< 0xC
    ebx := ebx
    ecx := ecx
    edx := product.extractLsb' 32 32 }
  let s := { s with dap := { s.dap with
    memoryOffset := eax.setWidth 16
    memorySegment := (eax >>> 0x10 <<< 0xC).setWidth 16 } }
  if s.block.sectors ≠ 0 then { s with regs := regs, label := .diskRead }
  else { s with regs := withDi regs (s.regs.di + 12), label := .readLoop }

/-- The code from a label to the next. At `LaunchBootloader` the loop has been left. -/
def step : Machine β :=
  match s.label with
  | .readLoop => readLoop s
  | .diskRead => diskRead s
  | .prepareRead => prepareRead s
  | .diskReadUsingLba => diskReadUsingLba B drive s
  | .readLoopCheck => readLoopCheck sectorSize s
  | .launchBootloader | .haltSystem => s

end code

/-! ## Section 2: The Arithmetic -/

section arithmetic

variable {a : Nat} {r : Registers} {eax : BitVec 32} {dap : DiskAddressPacket}
  {sectorSize : BitVec 16}

@[simp] theorem di_withDi {v : BitVec 16} : (withDi r v).di = v := by
  show (r.edi.extractLsb' 16 16 ++ v).setWidth 16 = v
  rw [BitVec.setWidth_append]
  simp

@[simp] theorem ah_withAh {v : BitVec 8} : (withAh r v).ah = v := by
  apply BitVec.eq_of_getLsbD_eq
  intro i hi
  show ((r.eax.extractLsb' 16 16 ++ v ++ r.al).extractLsb' 8 8).getLsbD i = v.getLsbD i
  rw [BitVec.getLsbD_extractLsb', BitVec.getLsbD_append, BitVec.getLsbD_append]
  simp only [hi, decide_true, Bool.true_and]
  rw [if_neg (by omega), if_pos (by omega)]
  congr 1
  omega

@[simp] theorem dl_withDl {v : BitVec 8} : (withDl r v).edx.setWidth 8 = v := by
  show (r.edx.extractLsb' 8 24 ++ v).setWidth 8 = v
  rw [BitVec.setWidth_append]
  simp

theorem entryAddr_succ {k : Nat} : entryAddr k + 12 = entryAddr (k + 1) := by
  show 0x7C14 + BitVec.ofNat 16 (12 * k) + BitVec.ofNat 16 12 = _
  rw [BitVec.add_assoc, ← BitVec.ofNat_add]
  rfl

theorem toNat_entryAddr {k : Nat} (hk : k ≤ 8) : (entryAddr k).toNat = 0x7C14 + 12 * k := by
  rw [entryAddr, BitVec.toNat_add, BitVec.toNat_ofNat]
  show (0x7C14 + 12 * k % 2 ^ 16) % 2 ^ 16 = _
  omega

theorem entryAddr_ne {j k : Nat} (hj : j ≤ 8) (hk : k ≤ 8) (hjk : j ≠ k) :
    entryAddr j ≠ entryAddr k := by
  intro h
  have hnat := congrArg BitVec.toNat h
  rw [toNat_entryAddr hj, toNat_entryAddr hk] at hnat
  omega

/-- There is room for nine entries before the code. -/
theorem not_codeAddr_sle {k : Nat} (hk : k ≤ 8) : ¬codeAddr.sle (entryAddr k) := by
  have hentry := toNat_entryAddr hk
  have hcode : codeAddr.toNat = 0x7C80 := rfl
  rw [BitVec.sle_eq_decide, decide_eq_true_eq, BitVec.toInt_eq_toNat_of_lt (by omega),
    BitVec.toInt_eq_toNat_of_lt (by omega)]
  omega

/-- The packet names the address `a` below 1 MiB, by a segment that is a multiple of `0x1000`. -/
structure NamesAddress (dap : DiskAddressPacket) (a : Nat) : Prop where
  offset : dap.memoryOffset = BitVec.ofNat 16 a
  segment : dap.memorySegment = BitVec.ofNat 16 (a / 0x10000 * 0x1000)
  low : a < 0x100000

theorem NamesAddress.toNat_segment (h : NamesAddress dap a) :
    dap.memorySegment.toNat = a / 0x10000 * 0x1000 := by
  have hlow := h.low
  rw [h.segment, BitVec.toNat_ofNat]
  omega

theorem NamesAddress.toNat_offset (h : NamesAddress dap a) :
    dap.memoryOffset.toNat = a % 0x10000 := by
  rw [h.offset, BitVec.toNat_ofNat]

theorem NamesAddress.toNat_segment_shift (h : NamesAddress dap a) :
    (dap.memorySegment.setWidth 32 <<< 4).toNat = a / 0x10000 * 0x10000 := by
  have hlow := h.low
  rw [BitVec.toNat_shiftLeft, BitVec.toNat_setWidth, h.toNat_segment, Nat.shiftLeft_eq]
  omega

theorem NamesAddress.address (h : NamesAddress dap a) : dap.address = BitVec.ofNat 32 a := by
  have hlow := h.low
  apply BitVec.eq_of_toNat_eq
  rw [DiskAddressPacket.address, BitVec.toNat_add, h.toNat_segment_shift, BitVec.toNat_setWidth,
    h.toNat_offset, BitVec.toNat_ofNat]
  omega

/-- The bytes of a portion, which `mul` forms in `EDX:EAX`. -/
theorem toNat_portion_bytes {count : BitVec 8} :
    (((count.setWidth 32).setWidth 64 * (sectorSize.setWidth 32).setWidth 64).setWidth 32
      : BitVec 32).toNat = count.toNat * sectorSize.toNat := by
  have hcount := count.isLt
  have hsize := sectorSize.isLt
  have hle : count.toNat * sectorSize.toNat ≤ 2 ^ 8 * 2 ^ 16 :=
    Nat.mul_le_mul (Nat.le_of_lt hcount) (Nat.le_of_lt hsize)
  have hcount' : ((count.setWidth 32).setWidth 64 : BitVec 64).toNat = count.toNat := by
    rw [BitVec.toNat_setWidth, BitVec.toNat_setWidth]
    omega
  have hsize' : ((sectorSize.setWidth 32).setWidth 64 : BitVec 64).toNat = sectorSize.toNat := by
    rw [BitVec.toNat_setWidth, BitVec.toNat_setWidth]
    omega
  rw [BitVec.toNat_setWidth, BitVec.toNat_mul, hcount', hsize']
  omega

/-- The 32-bit word at `DAP.Memory_Offset`. -/
theorem NamesAddress.toNat_segment_append (h : NamesAddress dap a) :
    (dap.memorySegment ++ dap.memoryOffset).toNat =
      a / 0x10000 * 0x10000000 + a % 0x10000 := by
  rw [BitVec.toNat_append, ← Nat.shiftLeft_add_eq_or_of_lt dap.memoryOffset.isLt, h.toNat_segment,
    h.toNat_offset, Nat.shiftLeft_eq]
  omega

/-- The segment is added a second time, in the upper half of the word. Where the destination stays
    below 1 MiB this is shifted out of the new segment. -/
theorem NamesAddress.next {dap' : DiskAddressPacket} (h : NamesAddress dap a) {bytes : BitVec 32}
    (hlow : a + bytes.toNat < 0x100000)
    (heax : eax = bytes + ((dap.memorySegment.setWidth 32 <<< 4) +
      (dap.memorySegment ++ dap.memoryOffset)))
    (hoffset : dap'.memoryOffset = eax.setWidth 16)
    (hsegment : dap'.memorySegment = (eax >>> 0x10 <<< 0xC).setWidth 16) :
    NamesAddress dap' (a + bytes.toNat) := by
  have hnat : eax.toNat = a + bytes.toNat + a / 0x10000 * 0x10000000 := by
    rw [heax, BitVec.toNat_add, BitVec.toNat_add, h.toNat_segment_shift, h.toNat_segment_append]
    omega
  refine ⟨?_, ?_, by omega⟩
  · apply BitVec.eq_of_toNat_eq
    rw [hoffset, BitVec.toNat_setWidth, hnat, BitVec.toNat_ofNat]
    omega
  · apply BitVec.eq_of_toNat_eq
    rw [hsegment, BitVec.toNat_setWidth, BitVec.toNat_shiftLeft, BitVec.toNat_ushiftRight, hnat,
      BitVec.toNat_ofNat, Nat.shiftLeft_eq, Nat.shiftRight_eq_div_pow]
    omega

end arithmetic

/-! ## Section 3: Portions -/

/-- The BIOS reads the sectors that a packet names, as long as it is in one of the states `ok`, and
    leaves `DI` alone. -/
structure ReadsPackets {β : Type*} (B : DiskBios β) (ok : β → Prop) (drive : BitVec 8)
    (sectorSize : BitVec 16) (sector : BitVec 64 → List (BitVec 8)) : Prop where
  pos : 0 < sectorSize.toNat
  length : ∀ a, (sector a).length = sectorSize.toNat
  read : ∀ st r dap, ok st → r.ah = 0x42 → r.edx.setWidth 8 = drive → dap.size = 0x10 →
    0 < dap.sectors → dap.sectors ≤ 0x7F →
    let answer := B.read st r dap
    ¬answer.2.1.Carry ∧ answer.2.1.di = r.di ∧
      answer.1 = sectorBytes sector dap.startSector dap.sectors.toNat ∧ ok answer.2.2

/-- The portions of a block. -/
def portions (b : DiskBlock) : List DiskBlock :=
  if b.sectors ≤ 0x7F then [b]
  else ⟨b.lba, 0x7F⟩ :: portions ⟨b.lba + 0x7F, b.sectors - 0x7F⟩
termination_by b.sectors.toNat
decreasing_by
  next h => bv_omega

/-- What is read for the portions, if the packet has named the sector `start` before. -/
def packetBytes (sector : BitVec 64 → List (BitVec 8)) :
    BitVec 64 → List DiskBlock → List (BitVec 8)
  | _, [] => []
  | start, p :: ps =>
      sectorBytes sector (start + p.lba) p.sectors.toNat ++ packetBytes sector (start + p.lba) ps

/-- The sector that the packet names behind the portions. -/
def nextStart (start : BitVec 64) (ps : List DiskBlock) : BitVec 64 :=
  start + (ps.map DiskBlock.lba).sum

section portions

variable {β : Type*} {B : DiskBios β} {ok : β → Prop} {drive : BitVec 8} {sectorSize : BitVec 16}
  {sector : BitVec 64 → List (BitVec 8)} {start a : BitVec 64} {n k : Nat} {b : DiskBlock}
  {ps qs : List DiskBlock}

theorem sectorBytes_add :
    sectorBytes sector a (n + k) =
      sectorBytes sector a n ++ sectorBytes sector (a + BitVec.ofNat 64 n) k := by
  induction n generalizing a with
  | zero =>
    have hzero : a + BitVec.ofNat 64 0 = a := BitVec.add_zero a
    rw [Nat.zero_add, hzero]
    rfl
  | succ n ih =>
    rw [Nat.add_right_comm, sectorBytes, ih, sectorBytes, List.append_assoc, BitVec.add_assoc,
      Nat.add_comm n 1, BitVec.ofNat_add]
    rfl

theorem portions_of_le (hle : b.sectors ≤ 0x7F) : portions b = [b] := by
  rw [portions, if_pos hle]

/-- The portions are the block. -/
theorem fileBytes_portions :
    fileBytes sector (portions b) = sectorBytes sector b.lba b.sectors.toNat := by
  induction b using portions.induct with
  | case1 b hle =>
    rw [portions_of_le hle]
    exact List.append_nil _
  | case2 b hgt ih =>
    have hsplit : b.sectors.toNat = 0x7F + (b.sectors - 0x7F).toNat := by bv_omega
    rw [portions, if_neg hgt, hsplit, sectorBytes_add]
    exact congrArg _ ih

theorem fileBytes_cons {file : List DiskBlock} :
    fileBytes sector (b :: file) =
      sectorBytes sector b.lba b.sectors.toNat ++ fileBytes sector file := rfl

theorem fileBytes_append {file file' : List DiskBlock} :
    fileBytes sector (file ++ file') = fileBytes sector file ++ fileBytes sector file' := by
  rw [fileBytes, blockContents, List.map_append, List.flatten_append]
  rfl

/-- The portions of the blocks are the blocks. -/
theorem fileBytes_flatMap {blocks : List DiskBlock} :
    fileBytes sector (blocks.flatMap portions) = fileBytes sector blocks := by
  induction blocks with
  | nil => rfl
  | cons b blocks ih =>
    rw [List.flatMap_cons, fileBytes_append, fileBytes_portions, fileBytes_cons, ih]

theorem nextStart_nil : nextStart start [] = start := BitVec.add_zero start

theorem nextStart_zero : nextStart 0 ps = (ps.map DiskBlock.lba).sum := BitVec.zero_add _

theorem nextStart_cons : nextStart start (b :: ps) = nextStart (start + b.lba) ps := by
  unfold nextStart
  rw [List.map_cons, List.sum_cons, BitVec.add_assoc]

theorem packetBytes_append :
    packetBytes sector start (ps ++ qs) =
      packetBytes sector start ps ++ packetBytes sector (nextStart start ps) qs := by
  induction ps generalizing start with
  | nil => rw [nextStart_nil]; rfl
  | cons p ps ih =>
    rw [List.cons_append, packetBytes, ih, packetBytes, List.append_assoc, nextStart_cons]

theorem length_packetBytes (h : ReadsPackets B ok drive sectorSize sector) :
    (packetBytes sector start ps).length = (fileBytes sector ps).length := by
  induction ps generalizing start with
  | nil => rfl
  | cons p ps ih =>
    rw [packetBytes, fileBytes_cons, List.length_append, List.length_append, ih,
      length_sectorBytes h.length, length_sectorBytes h.length]

/-- What is read is what the portions have, if and only if this is so for each portion. -/
theorem packetBytes_eq_iff (h : ReadsPackets B ok drive sectorSize sector) :
    packetBytes sector start ps = fileBytes sector ps ↔
      ∀ before p behind, ps = before ++ p :: behind →
        sectorBytes sector (nextStart start before + p.lba) p.sectors.toNat =
          sectorBytes sector p.lba p.sectors.toNat := by
  constructor
  · intro heq before p behind hps
    subst hps
    rw [packetBytes_append, fileBytes_append, packetBytes, fileBytes_cons] at heq
    have hbehind := (List.append_inj heq (length_packetBytes h)).2
    refine (List.append_inj hbehind ?_).1
    rw [length_sectorBytes h.length, length_sectorBytes h.length]
  · intro hsame
    induction ps generalizing start with
    | nil => rfl
    | cons p ps ih =>
      have hfirst := hsame [] p ps rfl
      rw [nextStart_nil] at hfirst
      rw [packetBytes, fileBytes_cons, hfirst, ih]
      intro before q behind hps
      rw [← nextStart_cons]
      exact hsame (p :: before) q behind (congrArg _ hps)

end portions

/-! ## Section 4: The Runs -/

section runs

variable {β : Type*} (B : DiskBios β) (drive : BitVec 8) (sectorSize : BitVec 16)

/-- The machine comes from a state to another one. -/
def Leads (s t : Machine β) : Prop := ∃ n, (step B drive sectorSize)^[n] s = t

/-- The entries from `k` on are the blocks, with one without sectors behind them. -/
structure HasEntries (entry : BitVec 16 → DiskBlock) (k : Nat) (blocks : List DiskBlock) :
    Prop where
  le : k + blocks.length ≤ 8
  block : ∀ j (hj : j < blocks.length), entry (entryAddr (k + j)) = blocks[j]
  last : (entry (entryAddr (k + blocks.length))).sectors = 0

/-- The loop has come to the entry `k`, and the blocks from there on are left. The next sectors go
    to `a`, and the packet has named the sector `start` before. -/
structure AtEntry (ok : β → Prop) (k : Nat) (blocks : List DiskBlock) (a : Nat)
    (start : BitVec 64) (s : Machine β) : Prop where
  di : s.regs.di = entryAddr k
  entries : HasEntries s.entry k blocks
  size : s.dap.size = 0x10
  address : NamesAddress s.dap a
  start : s.dap.startSector = start
  ok : ok s.bios

end runs

section step

variable {β : Type*} {B : DiskBios β} {ok : β → Prop} {drive : BitVec 8} {sectorSize : BitVec 16}
  {sector : BitVec 64 → List (BitVec 8)} {start : BitVec 64} {a k : Nat} {b : DiskBlock}
  {blocks : List DiskBlock} {s t u : Machine β}

theorem Leads.trans (h : Leads B drive sectorSize s t) (h' : Leads B drive sectorSize t u) :
    Leads B drive sectorSize s u := by
  obtain ⟨n, rfl⟩ := h
  obtain ⟨n', rfl⟩ := h'
  exact ⟨n' + n, Function.iterate_add_apply _ n' n s⟩

theorem leads_step : Leads B drive sectorSize s (step B drive sectorSize s) := ⟨1, rfl⟩

/-- The entry that is worked on may change. -/
theorem HasEntries.update {entry : BitVec 16 → DiskBlock} {v : DiskBlock}
    (h : HasEntries entry k (b :: blocks)) :
    HasEntries (Function.update entry (entryAddr k) v) k (v :: blocks) := by
  have hle := h.le
  rw [List.length_cons] at hle
  have hlast := h.last
  refine ⟨h.le, ?_, ?_⟩
  · intro j hj
    cases j with
    | zero => exact Function.update_self _ _ _
    | succ j =>
      rw [List.length_cons] at hj
      rw [Function.update_of_ne (entryAddr_ne (by omega) (by omega) (by omega))]
      exact h.block (j + 1) (by rw [List.length_cons]; omega)
  · rw [List.length_cons] at hlast ⊢
    rwa [Function.update_of_ne (entryAddr_ne (by omega) (by omega) (by omega))]

theorem HasEntries.tail {entry : BitVec 16 → DiskBlock} (h : HasEntries entry k (b :: blocks)) :
    HasEntries entry (k + 1) blocks := by
  have hle := h.le
  have hlast := h.last
  rw [List.length_cons] at hle hlast
  have hnext : ∀ j, k + 1 + j = k + (j + 1) := fun j => by omega
  refine ⟨by omega, ?_, ?_⟩
  · intro j hj
    rw [hnext]
    exact h.block (j + 1) (by rw [List.length_cons]; omega)
  · rwa [hnext]

theorem AtEntry.block (h : AtEntry ok k (b :: blocks) a start s) : s.block = b := by
  rw [Machine.block, h.di]
  exact h.entries.block 0 (Nat.zero_lt_succ _)

theorem AtEntry.block_nil (h : AtEntry ok k [] a start s) : s.block.sectors = 0 := by
  rw [Machine.block, h.di]
  exact h.entries.last

/-- `ReadLoop` looks for the end of the list. -/
theorem step_readLoop (h : AtEntry ok k blocks a start s) (hlabel : s.label = .readLoop) :
    step B drive sectorSize s =
      if s.block.sectors = 0 then { s with label := .launchBootloader }
      else { s with label := .diskRead } := by
  have hk : k ≤ 8 := Nat.le_trans (Nat.le_add_right _ _) h.entries.le
  unfold step
  rw [hlabel]
  show readLoop s = _
  rw [readLoop, h.di, if_neg (not_codeAddr_sle hk)]

/-- `DiskRead` takes a portion. -/
theorem step_diskRead {count : BitVec 32} (hlabel : s.label = .diskRead)
    (hlt : s.block.sectors.toNat < 2 ^ 31)
    (hcount : count = if s.block.sectors ≤ 0x7F then s.block.sectors else 0x7F) :
    step B drive sectorSize s = { s with regs.eax := count, label := .prepareRead } := by
  -- below 2 ^ 31 the signed comparison is the unsigned one
  have hslt : (0x7F : BitVec 32).slt s.block.sectors ↔ ¬s.block.sectors ≤ 0x7F := by
    have hmax : (0x7F : BitVec 32).toNat = 0x7F := rfl
    rw [BitVec.slt_eq_decide, decide_eq_true_eq, BitVec.toInt_eq_toNat_of_lt (by omega),
      BitVec.toInt_eq_toNat_of_lt (by omega), BitVec.le_def]
    omega
  unfold step
  rw [hlabel]
  show diskRead s = _
  unfold diskRead
  by_cases hle : s.block.sectors ≤ 0x7F
  · rw [if_pos hle] at hcount
    rw [if_neg (fun hgt => hslt.mp hgt hle), hcount]
  · rw [if_neg hle] at hcount
    rw [if_pos (hslt.mpr hle), hcount]

/-- A portion is read to where the packet says. -/
theorem exists_read {count : BitVec 32} (h : ReadsPackets B ok drive sectorSize sector)
    (hs : AtEntry ok k (b :: blocks) a start s) (hlabel : s.label = .prepareRead)
    (hcount : s.regs.eax = count) (hpos : 0 < count) (hle : count ≤ 0x7F) :
    ∃ t, Leads B drive sectorSize s t ∧ t.label = .readLoopCheck ∧ t.regs.di = entryAddr k ∧
      t.entry = Function.update s.entry (entryAddr k)
        ⟨b.lba + count.setWidth 64, b.sectors - count⟩ ∧
      t.dap = { s.dap with sectors := count.setWidth 8, startSector := start + b.lba } ∧
      t.mem = storeBytes s.mem (BitVec.ofNat 32 a)
        (sectorBytes sector (start + b.lba) count.toNat) ∧
      ok t.bios := by
  have hal : s.regs.al = count.setWidth 8 := congrArg (BitVec.setWidth 8) hcount
  have hnat : (count.setWidth 8).toNat = count.toNat := by
    have hmax : count.toNat ≤ 0x7F := hle
    rw [BitVec.toNat_setWidth]
    omega
  have hprepare : step B drive sectorSize s = prepareRead s := by
    unfold step
    rw [hlabel]
  have hblock := hs.block
  have hdap : (prepareRead s).dap =
      { s.dap with sectors := count.setWidth 8, startSector := start + b.lba } := by
    show { s.dap with
      sectors := s.regs.al
      startSector := s.dap.startSector + (s.block.lba.extractLsb' 32 32 ++ s.block.lba.setWidth 32)
    } = _
    rw [hal, halves_append, hs.start, hblock]
  have hentry : (prepareRead s).entry = Function.update s.entry (entryAddr k)
      ⟨b.lba + count.setWidth 64, b.sectors - count⟩ := by
    show Function.update s.entry s.regs.di
      ⟨s.block.lba + s.regs.eax.setWidth 64, s.block.sectors - s.regs.eax⟩ = _
    rw [hs.di, hblock, hcount]
  -- the call of the BIOS
  let regs := withAh (withDl (prepareRead s).regs drive) 0x42
  obtain ⟨hcarry, hdi, hbytes, hok⟩ := h.read s.bios regs (prepareRead s).dap hs.ok ah_withAh
    dl_withDl (by rw [hdap]; exact hs.size) (by rw [hdap, BitVec.lt_def, hnat]; exact hpos)
    (by rw [hdap, BitVec.le_def, hnat]; exact hle)
  have haddress : (prepareRead s).dap.address = BitVec.ofNat 32 a := by
    rw [hdap]
    exact hs.address.address
  refine ⟨_, leads_step.trans leads_step, ?_⟩
  rw [hprepare]
  show (diskReadUsingLba B drive (prepareRead s)).label = _ ∧ _
  refine ⟨if_neg hcarry, hdi.trans hs.di, hentry, hdap, ?_, hok⟩
  show storeBytes s.mem (prepareRead s).dap.address (B.read s.bios regs (prepareRead s).dap).1 = _
  rw [hbytes, haddress, hdap, hnat]

/-- `ReadLoopCheck` sets the packet up for the next portion. -/
theorem step_readLoopCheck {bytes : Nat} (hlabel : s.label = .readLoopCheck)
    (haddress : NamesAddress s.dap a) (hbytes : bytes = s.dap.sectors.toNat * sectorSize.toNat)
    (hlow : a + bytes < 0x100000) :
    let t := step B drive sectorSize s
    t.label = (if s.block.sectors ≠ 0 then .diskRead else .readLoop) ∧
      t.regs.di = (if s.block.sectors ≠ 0 then s.regs.di else s.regs.di + 12) ∧
      t.entry = s.entry ∧ t.dap.size = s.dap.size ∧ t.dap.startSector = s.dap.startSector ∧
      NamesAddress t.dap (a + bytes) ∧ t.mem = s.mem ∧ t.bios = s.bios := by
  have hstep : step B drive sectorSize s = readLoopCheck sectorSize s := by
    unfold step
    rw [hlabel]
  rw [← @toNat_portion_bytes sectorSize s.dap.sectors] at hbytes
  rw [hstep, hbytes]
  rw [hbytes] at hlow
  unfold readLoopCheck
  dsimp only
  by_cases hmore : s.block.sectors ≠ 0
  · have hmore' := hmore
    unfold Machine.block at hmore' ⊢
    rw [if_pos hmore', if_pos hmore', if_pos hmore']
    exact ⟨rfl, rfl, rfl, rfl, rfl, haddress.next hlow rfl rfl rfl, rfl, rfl⟩
  · unfold Machine.block at hmore ⊢
    rw [if_neg hmore, if_neg hmore, if_neg hmore]
    exact ⟨rfl, di_withDi, rfl, rfl, rfl, haddress.next hlow rfl rfl rfl, rfl, rfl⟩

/-- A block that is left has its first sectors read, and the loop goes on with the others. -/
theorem exists_portion (h : ReadsPackets B ok drive sectorSize sector)
    (hs : AtEntry ok k (b :: blocks) a start s) (hlabel : s.label = .diskRead)
    (hlt : b.sectors.toNat < 2 ^ 31) {count : BitVec 32} (hpos : 0 < count)
    (hcount : count = if b.sectors ≤ 0x7F then b.sectors else 0x7F)
    (hlow : a + count.toNat * sectorSize.toNat < 0x100000) :
    ∃ t, Leads B drive sectorSize s t ∧
      t.mem = storeBytes s.mem (BitVec.ofNat 32 a)
        (sectorBytes sector (start + b.lba) count.toNat) ∧
      (count = b.sectors → t.label = .readLoop ∧
        AtEntry ok (k + 1) blocks (a + count.toNat * sectorSize.toNat) (start + b.lba) t) ∧
      (count ≠ b.sectors → t.label = .diskRead ∧
        AtEntry ok k (⟨b.lba + count.setWidth 64, b.sectors - count⟩ :: blocks)
          (a + count.toNat * sectorSize.toNat) (start + b.lba) t) := by
  have hle : count ≤ 0x7F := by
    rw [hcount]
    split
    · assumption
    · exact BitVec.le_refl _
  have hblock := hs.block
  have hfirst : step B drive sectorSize s = { s with regs.eax := count, label := .prepareRead } :=
    step_diskRead hlabel (by rw [hblock]; exact hlt) (by rw [hblock]; exact hcount)
  have hs₁ : AtEntry ok k (b :: blocks) a start
      { s with regs.eax := count, label := .prepareRead } :=
    ⟨hs.di, hs.entries, hs.size, hs.address, hs.start, hs.ok⟩
  obtain ⟨t, hleads, hlabel', hdi, hentry, hdap, hmem, hok⟩ :=
    exists_read h hs₁ rfl (show _ = count from rfl) hpos hle
  have hsectors : t.dap.sectors.toNat = count.toNat := by
    have hmax : count.toNat ≤ 0x7F := hle
    rw [hdap, BitVec.toNat_setWidth]
    omega
  have haddress : NamesAddress t.dap a := by
    rw [hdap]
    exact ⟨hs.address.offset, hs.address.segment, hs.address.low⟩
  obtain ⟨hlabel₂, hdi₂, hentry₂, hsize₂, hstart₂, haddress₂, hmem₂, hbios₂⟩ :=
    @step_readLoopCheck _ B drive sectorSize _ t _ hlabel' haddress (by rw [hsectors]) hlow
  have hleft : t.block = ⟨b.lba + count.setWidth 64, b.sectors - count⟩ := by
    rw [Machine.block, hentry, hdi]
    exact Function.update_self _ _ _
  have hentries : HasEntries (step B drive sectorSize t).entry k (t.block :: blocks) := by
    rw [hentry₂, hleft, hentry]
    exact hs.entries.update
  have hmore : t.block.sectors ≠ 0 ↔ count ≠ b.sectors := by
    rw [hleft, not_iff_not]
    show b.sectors - count = 0 ↔ count = b.sectors
    bv_omega
  have hsize : (step B drive sectorSize t).dap.size = 0x10 := by
    rw [hsize₂, hdap]
    exact hs.size
  have hstart : (step B drive sectorSize t).dap.startSector = start + b.lba := by
    rw [hstart₂, hdap]
  have hok₂ : ok (step B drive sectorSize t).bios := by
    rw [hbios₂]
    exact hok
  refine ⟨step B drive sectorSize t, ?_, hmem₂.trans hmem, ?_, ?_⟩
  · rw [← hfirst] at hleads
    exact (leads_step.trans hleads).trans leads_step
  · intro heq
    rw [if_neg fun hne => hmore.mp hne heq] at hlabel₂ hdi₂
    rw [hdi, entryAddr_succ] at hdi₂
    exact ⟨hlabel₂, hdi₂, hentries.tail, hsize, haddress₂, hstart, hok₂⟩
  · intro hne
    rw [if_pos (hmore.mpr hne)] at hlabel₂ hdi₂
    rw [hleft] at hentries
    exact ⟨hlabel₂, hdi₂.trans hdi, hentries, hsize, haddress₂, hstart, hok₂⟩

/-- A block is read in its portions. -/
theorem exists_block (h : ReadsPackets B ok drive sectorSize sector)
    (hs : AtEntry ok k (b :: blocks) a start s) (hlabel : s.label = .diskRead)
    (hpos : 0 < b.sectors) (hlow : a + b.sectors.toNat * sectorSize.toNat < 0x100000) :
    ∃ t, Leads B drive sectorSize s t ∧ t.label = .readLoop ∧
      AtEntry ok (k + 1) blocks (a + b.sectors.toNat * sectorSize.toNat)
        (nextStart start (portions b)) t ∧
      t.mem = storeBytes s.mem (BitVec.ofNat 32 a) (packetBytes sector start (portions b)) := by
  induction b using portions.induct generalizing s a start with
  | case1 b hle =>
    have hlt : b.sectors.toNat ≤ 0x7F := hle
    obtain ⟨t, hleads, hmem, hlast, -⟩ :=
      exists_portion h hs hlabel (by omega) hpos (if_pos hle).symm hlow
    obtain ⟨hlabel', ht⟩ := hlast rfl
    rw [portions_of_le hle, nextStart_cons, nextStart_nil]
    refine ⟨t, hleads, hlabel', ht, hmem.trans ?_⟩
    exact congrArg _ (List.append_nil _).symm
  | case2 b hgt ih =>
    -- all sectors come below 1 MiB, so that there are few of them
    have hfew : b.sectors.toNat < 2 ^ 31 := by
      have hle := Nat.mul_le_mul_left b.sectors.toNat h.pos
      omega
    have hsplit : b.sectors.toNat = 0x7F + (b.sectors - 0x7F).toNat := by bv_omega
    rw [hsplit, Nat.add_mul] at hlow
    obtain ⟨t, hleads, hmem, -, hmore⟩ := exists_portion h hs hlabel hfew (by decide)
      (if_neg hgt).symm (Nat.lt_of_le_of_lt (Nat.add_le_add_left (Nat.le_add_right _ _) a) hlow)
    obtain ⟨hlabel', ht⟩ := hmore (by bv_omega)
    obtain ⟨u, hleads', hlabel'', hu, hmem'⟩ := ih ht hlabel' (by bv_omega) (by
      rw [Nat.add_assoc]
      exact hlow)
    rw [portions, if_neg hgt, nextStart_cons, hsplit, Nat.add_mul, ← Nat.add_assoc]
    refine ⟨u, hleads.trans hleads', hlabel'', hu, ?_⟩
    rw [hmem', hmem, packetBytes, storeBytes_append, length_sectorBytes h.length,
      ← BitVec.ofNat_add]

/-- The loop comes to its end, with the bytes of all portions in memory. -/
theorem exists_launch (h : ReadsPackets B ok drive sectorSize sector)
    (hs : AtEntry ok k blocks a start s) (hlabel : s.label = .readLoop)
    (hpos : ∀ b ∈ blocks, 0 < b.sectors)
    (hlow : a + (blocks.map fun b => b.sectors.toNat).sum * sectorSize.toNat < 0x100000) :
    ∃ t, Leads B drive sectorSize s t ∧ t.label = .launchBootloader ∧
      t.mem = storeBytes s.mem (BitVec.ofNat 32 a)
        (packetBytes sector start (blocks.flatMap portions)) := by
  induction blocks generalizing k a start s with
  | nil =>
    have hstep : step B drive sectorSize s = { s with label := .launchBootloader } := by
      rw [step_readLoop hs hlabel, if_pos hs.block_nil]
    exact ⟨_, ⟨1, hstep⟩, rfl, rfl⟩
  | cons b blocks ih =>
    have hb := hpos b List.mem_cons_self
    rw [List.map_cons, List.sum_cons, Nat.add_mul, ← Nat.add_assoc] at hlow
    have hstep : step B drive sectorSize s = { s with label := .diskRead } := by
      rw [step_readLoop hs hlabel, hs.block, if_neg (by bv_omega)]
    have hs₁ : AtEntry ok k (b :: blocks) a start { s with label := .diskRead } :=
      ⟨hs.di, hs.entries, hs.size, hs.address, hs.start, hs.ok⟩
    obtain ⟨t, hleads, hlabel', ht, hmem⟩ := exists_block h hs₁ rfl hb (by omega)
    obtain ⟨u, hleads', hlabel'', hmem'⟩ :=
      ih ht hlabel' (fun c hc => hpos c (List.mem_cons_of_mem b hc)) hlow
    rw [← hstep] at hleads
    refine ⟨u, (leads_step.trans hleads).trans hleads', hlabel'', ?_⟩
    rw [hmem', hmem, List.flatMap_cons, packetBytes_append, storeBytes_append,
      length_packetBytes h, fileBytes_portions, length_sectorBytes h.length, ← BitVec.ofNat_add]

end step

/-! ## Section 5: What Is Loaded -/

section loads

variable {β : Type*} (B : DiskBios β) (drive : BitVec 8) (sectorSize : BitVec 16)

/-- The machine enters the loop, with a list of blocks. -/
structure Starts (ok : β → Prop) (blocks : List DiskBlock) (s : Machine β) : Prop where
  label : s.label = .readLoop
  di : s.regs.di = entryAddr 0
  entries : HasEntries s.entry 0 blocks
  dap : s.dap = initialDap
  ok : ok s.bios

/-- The machine comes to `LaunchBootloader`, and the sectors of all blocks are in memory from
    `BOOTLOADER_ADDRESS` on. -/
def LoadsBlocks (sector : BitVec 64 → List (BitVec 8)) (blocks : List DiskBlock)
    (s : Machine β) : Prop :=
  ∃ n, let t := (step B drive sectorSize)^[n] s
    t.label = .launchBootloader ∧ HasBytes t.mem 0x9000 (fileBytes sector blocks)

end loads

/-- For each portion, the sectors from the sum of its start and those of the portions before on have
    what its own sectors have. -/
def SumsCoincide (sector : BitVec 64 → List (BitVec 8)) (blocks : List DiskBlock) : Prop :=
  ∀ before p behind, blocks.flatMap portions = before ++ p :: behind →
    sectorBytes sector ((before.map DiskBlock.lba).sum + p.lba) p.sectors.toNat =
      sectorBytes sector p.lba p.sectors.toNat

section main

variable {β : Type*} {B : DiskBios β} {ok : β → Prop} {drive : BitVec 8} {sectorSize : BitVec 16}
  {sector : BitVec 64 → List (BitVec 8)} {blocks : List DiskBlock} {s t : Machine β} {n : Nat}

theorem length_fileBytes (h : ReadsPackets B ok drive sectorSize sector) :
    (fileBytes sector blocks).length =
      (blocks.map fun b => b.sectors.toNat).sum * sectorSize.toNat := by
  induction blocks with
  | nil => exact (Nat.zero_mul _).symm
  | cons b blocks ih =>
    rw [fileBytes_cons, List.length_append, length_sectorBytes h.length, ih, List.map_cons,
      List.sum_cons, Nat.add_mul]

theorem Starts.atEntry (h : Starts ok blocks s) : AtEntry ok 0 blocks 0x9000 0 s := by
  refine ⟨h.di, h.entries, ?_, ?_, ?_, h.ok⟩
  · rw [h.dap]
    rfl
  · rw [h.dap]
    exact ⟨rfl, rfl, by omega⟩
  · rw [h.dap]
    rfl

/-- The machine stays at `LaunchBootloader`. -/
theorem launch_unique (h : Leads B drive sectorSize s t) (ht : t.label = .launchBootloader)
    (hn : ((step B drive sectorSize)^[n] s).label = .launchBootloader) :
    (step B drive sectorSize)^[n] s = t := by
  have hstay : ∀ u : Machine β, u.label = .launchBootloader → step B drive sectorSize u = u := by
    intro u hu
    unfold step
    rw [hu]
  obtain ⟨k, rfl⟩ := h
  rcases Nat.le_total n k with hnk | hkn
  · obtain ⟨j, rfl⟩ := Nat.exists_eq_add_of_le' hnk
    rw [Function.iterate_add_apply, Function.iterate_fixed (hstay _ hn)]
  · obtain ⟨j, rfl⟩ := Nat.exists_eq_add_of_le' hkn
    rw [Function.iterate_add_apply, Function.iterate_fixed (hstay _ ht)]

/-- The sectors of the blocks are loaded if they are what the packets name. -/
theorem loadsBlocks_iff_packetBytes (h : ReadsPackets B ok drive sectorSize sector)
    (hs : Starts ok blocks s) (hpos : ∀ b ∈ blocks, 0 < b.sectors)
    (hfits : 0x9000 + (blocks.map fun b => b.sectors.toNat).sum * sectorSize.toNat ≤ 0x7FFFF) :
    LoadsBlocks B drive sectorSize sector blocks s ↔
      packetBytes sector 0 (blocks.flatMap portions) = fileBytes sector blocks := by
  obtain ⟨t, hleads, hlabel, hmem⟩ := exists_launch h hs.atEntry hs.label hpos (by omega)
  have hmem' : t.mem = storeBytes s.mem 0x9000
    (packetBytes sector 0 (blocks.flatMap portions)) := hmem
  have hlength : (packetBytes sector 0 (blocks.flatMap portions)).length =
      (fileBytes sector blocks).length := by
    rw [length_packetBytes h, fileBytes_flatMap]
  have hsize := @length_fileBytes _ _ _ _ _ _ blocks h
  constructor
  · rintro ⟨n, hlabel', hbytes⟩
    rw [launch_unique hleads hlabel hlabel', hmem'] at hbytes
    apply List.ext_getElem hlength
    intro i hi hi'
    have hbyte := hbytes i hi'
    rw [storeBytes_add (by omega) hi] at hbyte
    rwa [List.getD_eq_getElem _ _ hi, List.getD_eq_getElem _ _ hi'] at hbyte
  · intro heq
    obtain ⟨n, rfl⟩ := hleads
    refine ⟨n, hlabel, ?_⟩
    rw [hmem', heq]
    intro i hi
    exact storeBytes_add (by omega) hi

theorem sumsCoincide_iff (h : ReadsPackets B ok drive sectorSize sector) :
    SumsCoincide sector blocks ↔
      packetBytes sector 0 (blocks.flatMap portions) = fileBytes sector blocks := by
  rw [← fileBytes_flatMap, packetBytes_eq_iff h]
  simp only [nextStart_zero]
  exact Iff.rfl

/-- The loop loads the blocks if and only if each portion is at the sum of the starts so far. -/
theorem loadsBlocks_iff (h : ReadsPackets B ok drive sectorSize sector) (hs : Starts ok blocks s)
    (hpos : ∀ b ∈ blocks, 0 < b.sectors)
    (hfits : 0x9000 + (blocks.map fun b => b.sectors.toNat).sum * sectorSize.toNat ≤ 0x7FFFF) :
    LoadsBlocks B drive sectorSize sector blocks s ↔ SumsCoincide sector blocks := by
  rw [loadsBlocks_iff_packetBytes h hs hpos hfits, sumsCoincide_iff h]

/-- One block that is read at once is loaded. -/
theorem sumsCoincide_one {b : DiskBlock} (hle : b.sectors ≤ 0x7F) : SumsCoincide sector [b] := by
  intro before p behind hsplit
  rw [List.flatMap_singleton, portions_of_le hle] at hsplit
  cases before with
  | nil =>
    obtain ⟨rfl, -⟩ := List.cons.inj hsplit
    exact congrArg (sectorBytes sector · b.sectors.toNat) (BitVec.zero_add b.lba)
  | cons q before =>
    have hempty := (List.cons.inj hsplit).2
    exact absurd hempty.symm (List.append_ne_nil_of_right_ne_nil _ (List.cons_ne_nil _ _))

end main

/-! ## Section 6: A Disk -/

/-- A disk with sectors of 512 bytes, each of them the low byte of its address. -/
def sampleSector (a : BitVec 64) : List (BitVec 8) := List.replicate 0x200 (a.setWidth 8)

/-- A BIOS that reads it. -/
def sampleBios : DiskBios Unit where
  checkExtensions _ r := (r, ())
  getGeometry _ r size := (⟨size, 0x200⟩, r, ())
  read _ r dap :=
    (sectorBytes sampleSector dap.startSector dap.sectors.toNat, { r with flags := 0 }, ())

/-- The VBR, with a list of blocks. -/
def sampleMachine (blocks : List DiskBlock) : Machine Unit where
  label := .readLoop
  regs := { clearRegistry with edi := 0x7C14 }
  entry x := blocks.getD ((x - 0x7C14).toNat / 12) ⟨0, 0⟩
  dap := initialDap
  mem _ := 0
  bios := ()

section sample

variable {blocks : List DiskBlock}

theorem readsPackets_sampleBios :
    ReadsPackets sampleBios (fun _ => True) 0x80 0x200 sampleSector where
  pos := by decide
  length _ := List.length_replicate
  read _ _ _ _ _ _ _ _ _ := ⟨(by decide : ¬(0 : BitVec 16) &&& 1 = 1), rfl, rfl, trivial⟩

theorem starts_sampleMachine (h : blocks.length ≤ 8) :
    Starts (fun _ => True) blocks (sampleMachine blocks) := by
  have hentry : ∀ k ≤ 8, (sampleMachine blocks).entry (entryAddr k) = blocks.getD k ⟨0, 0⟩ := by
    intro k hk
    have hindex : (entryAddr k - 0x7C14).toNat / 12 = k := by
      have haddr := toNat_entryAddr hk
      rw [BitVec.toNat_sub, haddr]
      show (2 ^ 16 - 0x7C14 + (0x7C14 + 12 * k)) % 2 ^ 16 / 12 = k
      omega
    show blocks.getD ((entryAddr k - 0x7C14).toNat / 12) ⟨0, 0⟩ = _
    rw [hindex]
  refine ⟨rfl, rfl, ⟨by omega, ?_, ?_⟩, rfl, trivial⟩
  · intro j hj
    rw [hentry _ (by omega), Nat.zero_add, List.getD_eq_getElem _ _ hj]
  · rw [hentry _ (by omega), Nat.zero_add, List.getD_eq_default _ _ (Nat.le_refl _)]

end sample

/-- The list of the VBR as it is shipped is loaded. -/
theorem loadsBlocks_shippedList :
    LoadsBlocks sampleBios 0x80 0x200 sampleSector [⟨0x808, 0x40⟩]
      (sampleMachine [⟨0x808, 0x40⟩]) :=
  (loadsBlocks_iff readsPackets_sampleBios (starts_sampleMachine (by decide)) (by decide)
    (by decide)).mpr (sumsCoincide_one (by decide))

/-- Of two blocks with one sector each, the second is read from the sum of both starts. -/
theorem not_loadsBlocks_twoBlocks :
    Starts (fun _ => True) [⟨0x808, 1⟩, ⟨0x810, 1⟩] (sampleMachine [⟨0x808, 1⟩, ⟨0x810, 1⟩]) ∧
      ¬LoadsBlocks sampleBios 0x80 0x200 sampleSector [⟨0x808, 1⟩, ⟨0x810, 1⟩]
        (sampleMachine [⟨0x808, 1⟩, ⟨0x810, 1⟩]) := by
  have hstarts := @starts_sampleMachine [⟨0x808, 1⟩, ⟨0x810, 1⟩] (by decide)
  refine ⟨hstarts, fun hloads => ?_⟩
  have heq := (loadsBlocks_iff_packetBytes readsPackets_sampleBios hstarts (by decide)
    (by decide)).mp hloads
  have hsums := (sumsCoincide_iff readsPackets_sampleBios).mpr heq
  have hportions : [(⟨0x808, 1⟩ : DiskBlock), ⟨0x810, 1⟩].flatMap portions =
      [⟨0x808, 1⟩] ++ ⟨0x810, 1⟩ :: [] := by
    rw [List.flatMap_cons, List.flatMap_singleton, portions_of_le (by decide),
      portions_of_le (by decide)]
  have hsecond := hsums _ _ _ hportions
  exact absurd (congrArg (List.getD · 0 0) hsecond) (by decide)

end Avos.Vbr
