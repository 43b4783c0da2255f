import Avos.Library.ByteMemory

/-! # The Ways into the Kernel

  The descriptor tables of a CPU, as `Initialize_ThisProcessor` of
  `kernel/arch/initialize/src/initialize.c` builds them with `GDT_SetupEntry` and
  `IDT_SetupEntry`, and the processor that reads them when an interrupt comes or a program jumps to
  another segment.

  The tables are in the block of the CPU (`struct CPU`, packed). The only part of it that changes
  later is `esp0`, which `Context_SetupProcess` sets. Whatever else changes, the kernel is entered
  at the four handlers only, and by user code only through the vector `0x80`.
-/

open ByteMemory

namespace Avos

namespace Gates

/-! ## Section 1: The Tables -/

/-- `GDT_SetupEntry`. -/
def gdtSetupEntry (m : Memory) (entry base limit : BitVec 32) (access flags : BitVec 8) : Memory :=
  let m := store16 m entry ((limit &&& 0x0000FFFF).setWidth 16)
  let m := store16 m (entry + 2) ((base &&& 0x0000FFFF).setWidth 16)
  let m := store8 m (entry + 4) (((base &&& 0x00FF0000) >>> 16).setWidth 8)
  let m := store8 m (entry + 5) access
  let m := store8 m (entry + 6) (((limit &&& 0x000F0000) >>> 16).setWidth 8)
  let m := store8 m (entry + 6) (m (entry + 6) + (flags &&& 0x0F) <<< 4)
  store8 m (entry + 7) (((base &&& 0xFF000000) >>> 24).setWidth 8)

/-- `IDT_SetupEntry`. -/
def idtSetupEntry (m : Memory) (entry address : BitVec 32) (segment : BitVec 16)
    (type : BitVec 8) : Memory :=
  let m := store16 m entry ((address &&& 0x0000FFFF).setWidth 16)
  let m := store16 m (entry + 2) segment
  let m := store8 m (entry + 4) 0
  let m := store8 m (entry + 5) type
  store16 m (entry + 6) (((address &&& 0xFFFF0000) >>> 16).setWidth 16)

/-- `GDT_SEG_KERN_CODE`. -/
def gdtSegKernCode : BitVec 16 := 0x8

/-- `GDT_SEG_KERN_DATA`. -/
def gdtSegKernData : BitVec 16 := 0x10

/-- `GDT_SEG_USER_CODE`. -/
def gdtSegUserCode : BitVec 16 := 0x18

/-- `GDT_SEG_TSS`. -/
def gdtSegTss : BitVec 16 := 0x28

/-- `&(cpu->task_state)`. -/
def taskState (cpu : BitVec 32) : BitVec 32 := cpu + BitVec.ofNat 32 8

/-- `&(cpu->gdt[i])`. -/
def gdtEntry (cpu : BitVec 32) (i : Nat) : BitVec 32 := cpu + BitVec.ofNat 32 (112 + 8 * i)

/-- `&(cpu->gdt_desc)`. -/
def gdtDesc (cpu : BitVec 32) : BitVec 32 := cpu + BitVec.ofNat 32 160

/-- `&(cpu->idt[i])`. -/
def idtEntry (cpu : BitVec 32) (i : Nat) : BitVec 32 := cpu + BitVec.ofNat 32 (166 + 8 * i)

/-- `&(cpu->idt_desc)`. -/
def idtDesc (cpu : BitVec 32) : BitVec 32 := cpu + BitVec.ofNat 32 2214

/-- The addresses of `Interrupt_0x20`, `Interrupt_0x21`, `Interrupt_0x30` and `Interrupt_0x80`. -/
structure Handlers where
  interrupt0x20 : BitVec 32
  interrupt0x21 : BitVec 32
  interrupt0x30 : BitVec 32
  interrupt0x80 : BitVec 32

/-- The entries of the GDT. -/
def setupGdt (m : Memory) (cpu : BitVec 32) : Memory :=
  let kernCode : BitVec 8 := 0x80 ||| 0 ||| 0x10 ||| 8 ||| 2
  let userCode : BitVec 8 := 0x80 ||| 0x60 ||| 0x10 ||| 8 ||| 2
  let kernData : BitVec 8 := 0x80 ||| 0 ||| 0x10 ||| 2
  let userData : BitVec 8 := 0x80 ||| 0x60 ||| 0x10 ||| 2
  let flags : BitVec 8 := 8 ||| 4
  let tss : BitVec 8 := 0x80 ||| 8 ||| 1
  let m := gdtSetupEntry m (gdtEntry cpu 0) 0 0 0 0
  let m := gdtSetupEntry m (gdtEntry cpu 1) 0 0xFFFFF kernCode flags
  let m := gdtSetupEntry m (gdtEntry cpu 2) 0 0xFFFFF kernData flags
  let m := gdtSetupEntry m (gdtEntry cpu 3) 0 0xFFFFF userCode flags
  let m := gdtSetupEntry m (gdtEntry cpu 4) 0 0xFFFFF userData flags
  gdtSetupEntry m (gdtEntry cpu 5) (taskState cpu) (104 - 1) tss 0

/-- The loop that clears the first `n` entries of the IDT. -/
def clearIdt (m : Memory) (cpu : BitVec 32) : Nat → Memory
  | 0 => m
  | i + 1 => idtSetupEntry (clearIdt m cpu i) (idtEntry cpu i) 0 0 0

/-- The entries of the IDT. -/
def setupIdt (m : Memory) (cpu : BitVec 32) (h : Handlers) : Memory :=
  let intr32 : BitVec 8 := 0x80 ||| 0 ||| 0xE
  let trap32 : BitVec 8 := 0x80 ||| 0x60 ||| 0xF
  let m := clearIdt m cpu 0x100
  let m := idtSetupEntry m (idtEntry cpu 0x20) h.interrupt0x20 gdtSegKernCode intr32
  let m := idtSetupEntry m (idtEntry cpu 0x21) h.interrupt0x21 gdtSegKernCode intr32
  let m := idtSetupEntry m (idtEntry cpu 0x30) h.interrupt0x30 gdtSegKernCode intr32
  idtSetupEntry m (idtEntry cpu 0x80) h.interrupt0x80 gdtSegKernCode trap32

/-! ## Section 2: The Processor -/

/-- A descriptor of the GDT, decoded. -/
structure Descriptor where
  base : BitVec 32
  limit : BitVec 20
  access : BitVec 8
  flags : BitVec 4
  deriving DecidableEq

namespace Descriptor

variable (d : Descriptor)

def Present : Prop := d.access.getLsbD 7 = true

def dpl : BitVec 2 := d.access.extractLsb' 5 2

/-- A code segment, and no data segment or descriptor of the system. -/
def IsCode : Prop := d.access.getLsbD 4 = true ∧ d.access.getLsbD 3 = true

def IsSystem : Prop := d.access.getLsbD 4 = false

/-- A code segment that a program may jump to without a change of its privilege level. -/
def Conforming : Prop := d.access.getLsbD 2 = true

/-- A data segment that can be written to. -/
def IsWritable : Prop :=
  d.access.getLsbD 4 = true ∧ d.access.getLsbD 3 = false ∧ d.access.getLsbD 1 = true

instance : Decidable d.Present := inferInstanceAs (Decidable (_ = _))
instance : Decidable d.IsCode := inferInstanceAs (Decidable (_ ∧ _))
instance : Decidable d.IsSystem := inferInstanceAs (Decidable (_ = _))
instance : Decidable d.Conforming := inferInstanceAs (Decidable (_ = _))
instance : Decidable d.IsWritable := inferInstanceAs (Decidable (_ ∧ _))

end Descriptor

/-- The descriptor at an address. -/
def readDescriptor (m : Memory) (a : BitVec 32) : Descriptor where
  base := m (a + 7) ++ m (a + 4) ++ load16 m (a + 2)
  limit := (m (a + 6)).extractLsb' 0 4 ++ load16 m a
  access := m (a + 5)
  flags := (m (a + 6)).extractLsb' 4 4

/-- An entry of the IDT, decoded. -/
structure Gate where
  address : BitVec 32
  segment : BitVec 16
  type : BitVec 8
  deriving DecidableEq

def readGate (m : Memory) (a : BitVec 32) : Gate where
  address := load16 m (a + 6) ++ load16 m a
  segment := load16 m (a + 2)
  type := m (a + 5)

/-- The register that `lgdt` or `lidt` loads. -/
structure TableRegister where
  limit : BitVec 16
  base : BitVec 32

def loadTable (m : Memory) (desc : BitVec 32) : TableRegister :=
  ⟨load16 m desc, load32 m (desc + 2)⟩

/-- The descriptor of a selector. It has none in an LDT, and none for a null selector. -/
def descriptorOf (m : Memory) (gdtr : TableRegister) (selector : BitVec 16) : Option Descriptor :=
  let offset := selector &&& 0xFFF8
  if selector.getLsbD 2 = true ∨ offset = 0 ∨ gdtr.limit.toNat < offset.toNat + 7 then none
  else some (readDescriptor m (gdtr.base + offset.setWidth 32))

/-- What `ltr` loads from the descriptor of an available TSS, which it marks busy. -/
def loadTaskRegister (m : Memory) (gdtr : TableRegister) (selector : BitVec 16) :
    Option (Memory × BitVec 32 × BitVec 20) :=
  (descriptorOf m gdtr selector).bind fun d =>
    if d.Present ∧ d.access.extractLsb' 0 5 = 9 then
      let access := gdtr.base + (selector &&& 0xFFF8).setWidth 32 + 5
      some (store8 m access (m access ||| 2), d.base, d.limit)
    else none

/-- The registers of the processor that point to its tables. -/
structure Processor where
  gdtr : TableRegister
  idtr : TableRegister
  tssBase : BitVec 32
  tssLimit : BitVec 20

/-- Where the processor goes on: the code segment, the address, the new stack if there is one, and
    whether interrupts are disabled. -/
structure Entry where
  cs : BitVec 16
  eip : BitVec 32
  stack : Option (BitVec 16 × BitVec 32)
  disabled : Bool
  deriving DecidableEq

/-- The stack for a privilege level, from the TSS. -/
def stackFor (m : Memory) (p : Processor) (level : BitVec 2) : Option (BitVec 16 × BitVec 32) :=
  let esp := p.tssBase + 4 + 8 * level.setWidth 32
  let ss := load16 m (esp + 4)
  if p.tssLimit.toNat < 4 + 8 * level.toNat + 5 ∨ ss.extractLsb' 0 2 ≠ level then none
  else
    (descriptorOf m p.gdtr ss).bind fun d =>
      if d.Present ∧ d.IsWritable ∧ d.dpl = level then some (ss, load32 m esp) else none

/-- An interrupt at the privilege level `cpl`; it is from the instruction `int` if `software` is
    set. Only 32-bit interrupt and trap gates are followed. -/
def interrupt (m : Memory) (p : Processor) (cpl : BitVec 2) (software : Bool) (vec : BitVec 8) :
    Option Entry :=
  if p.idtr.limit.toNat < 8 * vec.toNat + 7 then none
  else
    let gate := readGate m (p.idtr.base + BitVec.ofNat 32 (8 * vec.toNat))
    let kind := gate.type.extractLsb' 0 5
    if kind ≠ 0xE ∧ kind ≠ 0xF then none
    else if software = true ∧ gate.type.extractLsb' 5 2 < cpl then none
    else if gate.type.getLsbD 7 = false then none
    else
      (descriptorOf m p.gdtr gate.segment).bind fun d =>
        if ¬d.Present ∨ ¬d.IsCode ∨ cpl < d.dpl then none
        else if d.Conforming ∨ d.dpl = cpl then
          some ⟨gate.segment &&& 0xFFFC ||| cpl.setWidth 16, gate.address, none, kind = 0xE⟩
        else
          (stackFor m p d.dpl).map fun stack =>
            ⟨gate.segment &&& 0xFFFC ||| d.dpl.setWidth 16, gate.address, some stack, kind = 0xE⟩

/-- The privilege level after a far jump or call with a selector. A descriptor of the system is a
    gate or a task, and what it leads to is taken to have all privileges. -/
def farTransfer (m : Memory) (p : Processor) (cpl : BitVec 2) (selector : BitVec 16) :
    Option (BitVec 2) :=
  let rpl := selector.extractLsb' 0 2
  (descriptorOf m p.gdtr selector).bind fun d =>
    if ¬d.Present then none
    else if d.IsSystem then if d.dpl < cpl ∨ d.dpl < rpl then none else some 0
    else if ¬d.IsCode then none
    else if d.Conforming then if cpl < d.dpl then none else some cpl
    else if d.dpl ≠ cpl ∨ cpl < rpl then none else some cpl

/-- The part of `Initialize_ThisProcessor` from the GDT to the TSS. -/
def initializeTables (m : Memory) (cpu : BitVec 32) (h : Handlers) : Option (Memory × Processor) :=
  let m := setupGdt m cpu
  let m := store16 m (gdtDesc cpu) (8 * 6 - 1)
  let m := store32 m (gdtDesc cpu + 2) (gdtEntry cpu 0)
  let gdtr := loadTable m (gdtDesc cpu)
  (loadTaskRegister m gdtr (gdtSegTss ||| 3)).map fun r =>
    let m := setupIdt r.1 cpu h
    let m := store16 m (idtDesc cpu) (8 * 0x100 - 1)
    let m := store32 m (idtDesc cpu + 2) (idtEntry cpu 0)
    let idtr := loadTable m (idtDesc cpu)
    let m := store16 m (taskState cpu + 8) gdtSegKernData
    let m := store16 m (taskState cpu + 102) 0xFFFF
    (m, ⟨gdtr, idtr, r.2.1, r.2.2⟩)

/-! ## Section 3: The Ways In -/

/-- `esp0` in the TSS. -/
def esp0Field (cpu : BitVec 32) : BitVec 32 := taskState cpu + 4

/-- The block of the CPU is as it was, but for `esp0`. -/
def SameTables (cpu : BitVec 32) (m m' : Memory) : Prop :=
  ∀ x, InBytes cpu 2220 x → ¬InBytes (esp0Field cpu) 4 x → m' x = m x

/-- The ways into the kernel: the handlers of the timer, the keyboard and the local timer for
    interrupts, and that of the system calls for everyone. The stack of the kernel is taken from
    outside of it. -/
def kernelEntry (h : Handlers) (esp0 : BitVec 32) (cpl : BitVec 2) (software : Bool)
    (vec : BitVec 8) : Option Entry :=
  let stack := if cpl = 0 then none else some (gdtSegKernData, esp0)
  if vec = 0x80 then some ⟨gdtSegKernCode, h.interrupt0x80, stack, false⟩
  else if software = true ∧ cpl ≠ 0 then none
  else if vec = 0x20 then some ⟨gdtSegKernCode, h.interrupt0x20, stack, true⟩
  else if vec = 0x21 then some ⟨gdtSegKernCode, h.interrupt0x21, stack, true⟩
  else if vec = 0x30 then some ⟨gdtSegKernCode, h.interrupt0x30, stack, true⟩
  else none

/-! ## Section 4: An Entry, Written and Read -/

section entries

variable {m m' : Memory} {e base limit address : BitVec 32} {access flags type : BitVec 8}
  {segment : BitVec 16}

/-- Masked bits, shifted down, are those bits. -/
theorem masked_eq {x mask : BitVec 32} {w s : Nat} (h : ∀ i < w, mask.getLsbD (s + i) = true) :
    ((x &&& mask) >>> s).setWidth w = x.extractLsb' s w := by
  refine BitVec.eq_of_getLsbD_eq fun i hi => ?_
  rw [BitVec.getLsbD_setWidth, BitVec.getLsbD_ushiftRight, BitVec.getLsbD_and, h i hi,
    BitVec.getLsbD_extractLsb', Bool.and_true]

theorem masked_low {x mask : BitVec 32} {w : Nat} (h : ∀ i < w, mask.getLsbD i = true) :
    (x &&& mask).setWidth w = x.extractLsb' 0 w := by
  refine BitVec.eq_of_getLsbD_eq fun i hi => ?_
  rw [BitVec.getLsbD_setWidth, BitVec.getLsbD_and, h i hi, BitVec.getLsbD_extractLsb',
    Bool.and_true, Nat.zero_add]

theorem readGate_idtSetupEntry :
    readGate (idtSetupEntry m e address segment type) e = ⟨address, segment, type⟩ := by
  have hstores : ∀ lo hi : BitVec 16, readGate (store16 (store8 (store8 (store16 (store16 m e lo)
      (e + 2) segment) (e + 4) 0) (e + 5) type) (e + 6) hi) e = ⟨hi ++ lo, segment, type⟩ := by
    intro lo hi
    simp [readGate, load16, store16, store8, BitVec.add_assoc, bytes_append]
  have hlow : (address &&& 0x0000FFFF).setWidth 16 = address.extractLsb' 0 16 :=
    masked_low (by decide)
  have hhigh : ((address &&& 0xFFFF0000) >>> 16).setWidth 16 = address.extractLsb' 16 16 :=
    masked_eq (by decide)
  have haddr : address.extractLsb' 16 16 ++ address.extractLsb' 0 16 = address :=
    (BitVec.extractLsb'_append_extractLsb'_eq_extractLsb' rfl).trans BitVec.extractLsb'_eq_self
  unfold idtSetupEntry
  dsimp only
  rw [hlow, hhigh, hstores, haddr]

/-- The two halves of the byte that holds the end of the limit and the flags. -/
theorem halves_eq (a f : BitVec 4) :
    (a.setWidth 8 + f.setWidth 8 <<< 4).extractLsb' 0 4 = a ∧
      (a.setWidth 8 + f.setWidth 8 <<< 4).extractLsb' 4 4 = f := by
  revert a f
  decide

theorem readDescriptor_gdtSetupEntry :
    readDescriptor (gdtSetupEntry m e base limit access flags) e =
      ⟨base, limit.setWidth 20, access, flags.setWidth 4⟩ := by
  have hstores : ∀ (lo lo' : BitVec 16) (b₄ b₆ b₇ : BitVec 8) (f : BitVec 8),
      readDescriptor (store8 (store8 (store8 (store8 (store8 (store16 (store16 m e lo) (e + 2) lo')
        (e + 4) b₄) (e + 5) access) (e + 6) b₆) (e + 6) (b₆ + f)) (e + 7) b₇) e =
      ⟨b₇ ++ b₄ ++ lo', (b₆ + f).extractLsb' 0 4 ++ lo, access, (b₆ + f).extractLsb' 4 4⟩ := by
    intro lo lo' b₄ b₆ b₇ f
    simp [readDescriptor, load16, store16, store8, BitVec.add_assoc,
      bytes_append]
  have hlimit : (limit &&& 0x0000FFFF).setWidth 16 = limit.extractLsb' 0 16 :=
    masked_low (by decide)
  have hbase : (base &&& 0x0000FFFF).setWidth 16 = base.extractLsb' 0 16 :=
    masked_low (by decide)
  have hmiddle : ((base &&& 0x00FF0000) >>> 16).setWidth 8 = base.extractLsb' 16 8 :=
    masked_eq (by decide)
  have hhigh : ((base &&& 0xFF000000) >>> 24).setWidth 8 = base.extractLsb' 24 8 :=
    masked_eq (by decide)
  have hnibble : ((limit &&& 0x000F0000) >>> 16).setWidth 8 =
      (limit.extractLsb' 16 4).setWidth 8 := by
    have hmask : ∀ i < 8, (0x000F0000 : BitVec 32).getLsbD (16 + i) = decide (i < 4) := by decide
    refine BitVec.eq_of_getLsbD_eq fun i hi => ?_
    rw [BitVec.getLsbD_setWidth, BitVec.getLsbD_ushiftRight, BitVec.getLsbD_and, hmask i hi,
      BitVec.getLsbD_setWidth, BitVec.getLsbD_extractLsb', Bool.and_comm (limit.getLsbD _)]
  have hflags : flags &&& 0x0F = (flags.setWidth 4).setWidth 8 := by
    revert flags
    decide
  obtain ⟨hlow, hflag⟩ := halves_eq (limit.extractLsb' 16 4) (flags.setWidth 4)
  have hsum : limit.extractLsb' 16 4 ++ limit.extractLsb' 0 16 = limit.setWidth 20 := by
    exact (BitVec.extractLsb'_append_extractLsb'_eq_extractLsb' rfl).trans
      (BitVec.setWidth_eq_extractLsb' (by decide)).symm
  have hall : base.extractLsb' 24 8 ++ base.extractLsb' 16 8 ++ base.extractLsb' 0 16 = base := by
    have hupper : base.extractLsb' 24 8 ++ base.extractLsb' 16 8 = base.extractLsb' 16 16 :=
      BitVec.extractLsb'_append_extractLsb'_eq_extractLsb' rfl
    rw [hupper]
    exact (BitVec.extractLsb'_append_extractLsb'_eq_extractLsb' rfl).trans
      BitVec.extractLsb'_eq_self
  unfold gdtSetupEntry
  dsimp only
  rw [hlimit, hbase, hmiddle, hhigh, hnibble, hflags, store8_self, hstores, hlow, hflag, hsum,
    hall]

theorem onlyIn_gdtSetupEntry : OnlyIn e 8 m (gdtSetupEntry m e base limit access flags) := by
  have hzero : OnlyIn e 8 m (store16 m e ((limit &&& 0x0000FFFF).setWidth 16)) :=
    onlyIn_store16.mono (by decide)
  unfold gdtSetupEntry
  refine hzero.trans (OnlyIn.trans (onlyIn_store16.of_add ?_ ?_) (OnlyIn.trans
    (onlyIn_store8.of_add ?_ ?_) (OnlyIn.trans (onlyIn_store8.of_add ?_ ?_) (OnlyIn.trans
    (onlyIn_store8.of_add ?_ ?_) (OnlyIn.trans (onlyIn_store8.of_add ?_ ?_)
    (onlyIn_store8.of_add ?_ ?_))))))
  all_goals decide

theorem onlyIn_idtSetupEntry : OnlyIn e 8 m (idtSetupEntry m e address segment type) := by
  have hzero : OnlyIn e 8 m (store16 m e ((address &&& 0x0000FFFF).setWidth 16)) :=
    onlyIn_store16.mono (by decide)
  unfold idtSetupEntry
  refine hzero.trans (OnlyIn.trans (onlyIn_store16.of_add ?_ ?_) (OnlyIn.trans
    (onlyIn_store8.of_add ?_ ?_) (OnlyIn.trans (onlyIn_store8.of_add ?_ ?_)
    (onlyIn_store16.of_add ?_ ?_))))
  all_goals decide

/-- The eight bytes of an entry decide how it is read. -/
theorem readDescriptor_congr (h : ∀ x, InBytes e 8 x → m' x = m x) :
    readDescriptor m' e = readDescriptor m e := by
  have hlow : load16 m' e = load16 m e := load16_congr fun x hx => h x (hx.mono (by decide))
  have hbase : load16 m' (e + 2) = load16 m (e + 2) := by
    refine load16_congr fun x hx => h x ?_
    exact InBytes.of_add hx (by decide) (by decide)
  have h4 : m' (e + 4) = m (e + 4) := h _ (inBytes_add (by decide) (by decide))
  have h5 : m' (e + 5) = m (e + 5) := h _ (inBytes_add (by decide) (by decide))
  have h6 : m' (e + 6) = m (e + 6) := h _ (inBytes_add (by decide) (by decide))
  have h7 : m' (e + 7) = m (e + 7) := h _ (inBytes_add (by decide) (by decide))
  unfold readDescriptor
  rw [hlow, hbase, h4, h5, h6, h7]

theorem readGate_congr (h : ∀ x, InBytes e 8 x → m' x = m x) : readGate m' e = readGate m e := by
  have hlow : load16 m' e = load16 m e := load16_congr fun x hx => h x (hx.mono (by decide))
  have hsegment : load16 m' (e + 2) = load16 m (e + 2) := by
    refine load16_congr fun x hx => h x ?_
    exact InBytes.of_add hx (by decide) (by decide)
  have hhigh : load16 m' (e + 6) = load16 m (e + 6) := by
    refine load16_congr fun x hx => h x ?_
    exact InBytes.of_add hx (by decide) (by decide)
  have htype : m' (e + 5) = m (e + 5) := h _ (inBytes_add (by decide) (by decide))
  unfold readGate
  rw [hlow, hsegment, hhigh, htype]

end entries

/-! ## Section 5: The Tables of a CPU -/

/-- The descriptors of the GDT, after `ltr`. -/
def gdtDescriptor (cpu : BitVec 32) (i : Nat) : Descriptor :=
  if i = 1 then ⟨0, 0xFFFFF, 0x9A, 0xC⟩
  else if i = 2 then ⟨0, 0xFFFFF, 0x92, 0xC⟩
  else if i = 3 then ⟨0, 0xFFFFF, 0xFA, 0xC⟩
  else if i = 4 then ⟨0, 0xFFFFF, 0xF2, 0xC⟩
  else if i = 5 then ⟨taskState cpu, 103, 0x8B, 0⟩
  else ⟨0, 0, 0, 0⟩

/-- The entries of the IDT. -/
def idtGate (h : Handlers) (i : Nat) : Gate :=
  if i = 0x80 then ⟨h.interrupt0x80, gdtSegKernCode, 0xEF⟩
  else if i = 0x30 then ⟨h.interrupt0x30, gdtSegKernCode, 0x8E⟩
  else if i = 0x21 then ⟨h.interrupt0x21, gdtSegKernCode, 0x8E⟩
  else if i = 0x20 then ⟨h.interrupt0x20, gdtSegKernCode, 0x8E⟩
  else ⟨0, 0, 0⟩

/-- The tables in the block of the CPU are as they have been set up. -/
structure TablesAt (cpu : BitVec 32) (h : Handlers) (m : Memory) : Prop where
  descriptors : ∀ i < 6, readDescriptor m (gdtEntry cpu i) = gdtDescriptor cpu i
  gates : ∀ i < 0x100, readGate m (idtEntry cpu i) = idtGate h i
  stack : load16 m (taskState cpu + 8) = gdtSegKernData

/-- The registers that point to the tables of the CPU. -/
def processorOf (cpu : BitVec 32) : Processor where
  gdtr := ⟨47, gdtEntry cpu 0⟩
  idtr := ⟨2047, idtEntry cpu 0⟩
  tssBase := taskState cpu
  tssLimit := 103

section tables

variable {m m' : Memory} {cpu base limit address : BitVec 32} {access flags type : BitVec 8}
  {segment : BitVec 16} {h : Handlers} {i j n k : Nat}

theorem gdtSetupEntry_descriptor (hi : i < 6) (hj : j < 6) :
    readDescriptor (gdtSetupEntry m (gdtEntry cpu j) base limit access flags) (gdtEntry cpu i) =
      if i = j then ⟨base, limit.setWidth 20, access, flags.setWidth 4⟩
      else readDescriptor m (gdtEntry cpu i) := by
  split
  · next heq =>
    subst heq
    exact readDescriptor_gdtSetupEntry
  · exact readDescriptor_congr
      (OnlyIn.eq_beside onlyIn_gdtSetupEntry (by omega) (by omega) (by omega))

theorem idtSetupEntry_gate (hi : i < 0x100) (hj : j < 0x100) :
    readGate (idtSetupEntry m (idtEntry cpu j) address segment type) (idtEntry cpu i) =
      if i = j then ⟨address, segment, type⟩ else readGate m (idtEntry cpu i) := by
  split
  · next heq =>
    subst heq
    exact readGate_idtSetupEntry
  · exact readGate_congr
      (OnlyIn.eq_beside onlyIn_idtSetupEntry (by omega) (by omega) (by omega))

theorem clearIdt_gate (hi : i < n) (hn : n ≤ 0x100) :
    readGate (clearIdt m cpu n) (idtEntry cpu i) = ⟨0, 0, 0⟩ := by
  induction n with
  | zero => omega
  | succ n ih =>
    rw [clearIdt, idtSetupEntry_gate (by omega) (by omega)]
    split
    · rfl
    · exact ih (by omega) (by omega)

theorem onlyIn_clearIdt (hn : n ≤ 0x100) :
    OnlyIn (cpu + BitVec.ofNat 32 166) 2048 m (clearIdt m cpu n) := by
  induction n with
  | zero => exact .refl
  | succ n ih =>
    refine (ih (by omega)).trans (OnlyIn.of_offsets onlyIn_idtSetupEntry ?_ ?_ ?_)
    all_goals omega

theorem setupIdt_gate (hi : i < 0x100) :
    readGate (setupIdt m cpu h) (idtEntry cpu i) = idtGate h i := by
  unfold setupIdt idtGate
  dsimp only
  rw [idtSetupEntry_gate hi (by decide), idtSetupEntry_gate hi (by decide),
    idtSetupEntry_gate hi (by decide), idtSetupEntry_gate hi (by decide),
    clearIdt_gate hi (by decide)]
  rfl

theorem onlyIn_setupIdt : OnlyIn (cpu + BitVec.ofNat 32 166) 2048 m (setupIdt m cpu h) := by
  have hentry : ∀ {m : Memory} {j : Nat} {a : BitVec 32} {t : BitVec 8}, j < 0x100 →
      OnlyIn (cpu + BitVec.ofNat 32 166) 2048 m
        (idtSetupEntry m (idtEntry cpu j) a gdtSegKernCode t) := by
    intro m j a t hj
    refine OnlyIn.of_offsets onlyIn_idtSetupEntry ?_ ?_ ?_
    all_goals omega
  unfold setupIdt
  exact (onlyIn_clearIdt (by decide)).trans ((hentry (by decide)).trans ((hentry (by decide)).trans
    ((hentry (by decide)).trans (hentry (by decide)))))

theorem setupGdt_descriptor (hi : i < 6) : readDescriptor (setupGdt m cpu) (gdtEntry cpu i) =
    if i = 5 then ⟨taskState cpu, 103, 0x89, 0⟩ else gdtDescriptor cpu i := by
  unfold setupGdt
  dsimp only
  rw [gdtSetupEntry_descriptor hi (by decide), gdtSetupEntry_descriptor hi (by decide),
    gdtSetupEntry_descriptor hi (by decide), gdtSetupEntry_descriptor hi (by decide),
    gdtSetupEntry_descriptor hi (by decide), gdtSetupEntry_descriptor hi (by decide)]
  obtain rfl | rfl | rfl | rfl | rfl | rfl : i = 0 ∨ i = 1 ∨ i = 2 ∨ i = 3 ∨ i = 4 ∨ i = 5 := by
    omega
  all_goals rfl

/-- A selector of the GDT of the CPU. -/
theorem descriptorOf_eq {selector : BitVec 16} :
    descriptorOf m (processorOf cpu).gdtr selector =
      if selector.getLsbD 2 = true ∨ selector.toNat / 8 = 0 ∨ 6 ≤ selector.toNat / 8 then none
      else some (readDescriptor m (gdtEntry cpu (selector.toNat / 8))) := by
  have hmask : (selector &&& 0xFFF8).toNat = selector.toNat / 8 * 8 :=
    toNat_and_not_lowBits (k := 3)
  have hzero : selector &&& 0xFFF8 = 0 ↔ selector.toNat / 8 = 0 := by
    rw [← BitVec.toNat_inj, hmask]
    simp
  have hlimit : (processorOf cpu).gdtr.limit.toNat < (selector &&& 0xFFF8).toNat + 7 ↔
      6 ≤ selector.toNat / 8 := by
    show 47 < _ ↔ _
    omega
  have hentry : (processorOf cpu).gdtr.base + (selector &&& 0xFFF8).setWidth 32 =
      gdtEntry cpu (selector.toNat / 8) := by
    have hwidth : (selector &&& 0xFFF8).setWidth 32 =
        BitVec.ofNat 32 (8 * (selector.toNat / 8)) := by
      refine BitVec.eq_of_toNat_eq ?_
      rw [BitVec.toNat_setWidth, hmask, BitVec.toNat_ofNat, Nat.mul_comm]
    show gdtEntry cpu 0 + _ = _
    rw [hwidth, gdtEntry, gdtEntry, BitVec.add_assoc, ← BitVec.ofNat_add]
  unfold descriptorOf
  dsimp only
  rw [hentry]
  simp only [hzero, hlimit]

/-- A table register is loaded as its descriptor has been written. -/
theorem loadTable_stores {desc : BitVec 32} {l : BitVec 16} {b : BitVec 32} :
    loadTable (store32 (store16 m desc l) (desc + 2) b) desc = ⟨l, b⟩ := by
  have hlimit : load16 (store32 (store16 m desc l) (desc + 2) b) desc =
      load16 (store16 m desc l) desc := by
    refine load16_congr fun x hx => store32_frame fun hx' => ?_
    simp only [InBytes] at hx hx'
    bv_omega
  unfold loadTable
  rw [hlimit, load16_store16, load32_store32]

/-- `ltr` marks the TSS busy. -/
theorem readDescriptor_busy {e : BitVec 32} :
    readDescriptor (store8 m (e + 5) (m (e + 5) ||| 2)) e =
      { readDescriptor m e with access := (readDescriptor m e).access ||| 2 } := by
  simp [readDescriptor, load16, store8, BitVec.add_assoc]

/-- `ltr` for the TSS of the CPU. -/
theorem loadTaskRegister_eq
    (hd : readDescriptor m (gdtEntry cpu 5) = ⟨taskState cpu, 103, 0x89, 0⟩) :
    loadTaskRegister m (processorOf cpu).gdtr (gdtSegTss ||| 3) =
      some (store8 m (gdtEntry cpu 5 + 5) (m (gdtEntry cpu 5 + 5) ||| 2), taskState cpu, 103) := by
  have hselector : (gdtSegTss ||| 3).toNat / 8 = 5 := by decide
  have hnone : ¬((gdtSegTss ||| 3).getLsbD 2 = true ∨ 5 = 0 ∨ 6 ≤ 5) := by decide
  have hentry : (processorOf cpu).gdtr.base + ((gdtSegTss ||| 3) &&& 0xFFF8).setWidth 32 =
      gdtEntry cpu 5 := by
    show gdtEntry cpu 0 + 40 = _
    rw [gdtEntry, gdtEntry, BitVec.add_assoc]
    rfl
  unfold loadTaskRegister
  rw [descriptorOf_eq, hselector, if_neg hnone, hd, Option.bind_some, hentry]
  refine if_pos ?_
  show (0x89 : BitVec 8).getLsbD 7 = true ∧ (0x89 : BitVec 8).extractLsb' 0 5 = 9
  decide

/-- The memory when `lgdt` is executed. -/
def gdtMemory (m : Memory) (cpu : BitVec 32) : Memory :=
  store32 (store16 (setupGdt m cpu) (gdtDesc cpu) (8 * 6 - 1)) (gdtDesc cpu + 2) (gdtEntry cpu 0)

/-- The memory when `lidt` is executed. -/
def idtMemory (m : Memory) (cpu : BitVec 32) (h : Handlers) : Memory :=
  store32 (store16 (setupIdt m cpu h) (idtDesc cpu) (8 * 0x100 - 1)) (idtDesc cpu + 2)
    (idtEntry cpu 0)

/-- The fields of the TSS that are set at the end. -/
def tssMemory (m : Memory) (cpu : BitVec 32) : Memory :=
  store16 (store16 m (taskState cpu + 8) gdtSegKernData) (taskState cpu + 102) 0xFFFF

theorem onlyIn_desc {d : Nat} {l : BitVec 16} {b : BitVec 32} :
    OnlyIn (cpu + BitVec.ofNat 32 d) 6 m (store32 (store16 m (cpu + BitVec.ofNat 32 d) l)
      (cpu + BitVec.ofNat 32 d + 2) b) := by
  have hbase : OnlyIn (cpu + BitVec.ofNat 32 d + BitVec.ofNat 32 2) 4 (store16 m _ l)
      (store32 (store16 m (cpu + BitVec.ofNat 32 d) l) (cpu + BitVec.ofNat 32 d + 2) b) :=
    onlyIn_store32
  exact (onlyIn_store16.mono (by decide)).trans (hbase.of_add (by decide) (by decide))

theorem onlyIn_setupGdt : OnlyIn (cpu + BitVec.ofNat 32 112) 48 m (setupGdt m cpu) := by
  have hentry : ∀ {m : Memory} {j : Nat} {b l : BitVec 32} {a f : BitVec 8}, j < 6 →
      OnlyIn (cpu + BitVec.ofNat 32 112) 48 m (gdtSetupEntry m (gdtEntry cpu j) b l a f) := by
    intro m j b l a f hj
    refine OnlyIn.of_offsets onlyIn_gdtSetupEntry ?_ ?_ ?_
    all_goals omega
  unfold setupGdt
  exact (hentry (by decide)).trans ((hentry (by decide)).trans ((hentry (by decide)).trans
    ((hentry (by decide)).trans ((hentry (by decide)).trans (hentry (by decide))))))

theorem gdtMemory_descriptor (hi : i < 6) : readDescriptor (gdtMemory m cpu) (gdtEntry cpu i) =
    if i = 5 then ⟨taskState cpu, 103, 0x89, 0⟩ else gdtDescriptor cpu i := by
  rw [← setupGdt_descriptor (m := m) hi]
  exact readDescriptor_congr
    (OnlyIn.eq_beside onlyIn_desc (by omega) (by omega) (by decide))

/-- After the GDT is loaded, the bytes of it change no more. -/
theorem gdt_kept : ∀ x, InBytes (cpu + BitVec.ofNat 32 112) 48 x →
    tssMemory (idtMemory m cpu h) cpu x = m x := by
  have hss : taskState cpu + 8 = cpu + BitVec.ofNat 32 16 := BitVec.add_assoc _ _ _
  have hiomap : taskState cpu + 102 = cpu + BitVec.ofNat 32 110 := BitVec.add_assoc _ _ _
  intro x hx
  unfold tssMemory
  rw [hss, hiomap]
  rw [OnlyIn.eq_beside onlyIn_store16 (by decide) (by decide) (by decide) x hx,
    OnlyIn.eq_beside onlyIn_store16 (by decide) (by decide) (by decide) x hx, idtMemory]
  exact (OnlyIn.eq_beside onlyIn_desc (by decide) (by decide) (by decide) x hx).trans
    (OnlyIn.eq_beside onlyIn_setupIdt (by decide) (by decide) (by decide) x hx)

theorem idtMemory_gate (hi : i < 0x100) :
    readGate (tssMemory (idtMemory m cpu h) cpu) (idtEntry cpu i) = idtGate h i := by
  have hss : taskState cpu + 8 = cpu + BitVec.ofNat 32 16 := BitVec.add_assoc _ _ _
  have hiomap : taskState cpu + 102 = cpu + BitVec.ofNat 32 110 := BitVec.add_assoc _ _ _
  rw [← @setupIdt_gate m cpu h i hi]
  refine readGate_congr fun x hx => ?_
  unfold tssMemory
  rw [hss, hiomap]
  rw [OnlyIn.eq_beside onlyIn_store16 (by omega) (by omega) (by decide) x hx,
    OnlyIn.eq_beside onlyIn_store16 (by omega) (by omega) (by decide) x hx, idtMemory]
  exact OnlyIn.eq_beside onlyIn_desc (by omega) (by omega) (by decide) x hx

/-- The processor after this part of `Initialize_ThisProcessor`. -/
theorem initializeTables_eq : initializeTables m cpu h =
    some (tssMemory (idtMemory (store8 (gdtMemory m cpu) (gdtEntry cpu 5 + 5)
      (gdtMemory m cpu (gdtEntry cpu 5 + 5) ||| 2)) cpu h) cpu, processorOf cpu) := by
  have hgdtr : loadTable (gdtMemory m cpu) (gdtDesc cpu) = (processorOf cpu).gdtr :=
    loadTable_stores
  have hidtr : ∀ m, loadTable (idtMemory m cpu h) (idtDesc cpu) = (processorOf cpu).idtr :=
    fun _ => loadTable_stores
  have htss : readDescriptor (gdtMemory m cpu) (gdtEntry cpu 5) =
      ⟨taskState cpu, 103, 0x89, 0⟩ := (gdtMemory_descriptor (by decide)).trans (if_pos rfl)
  have hltr := loadTaskRegister_eq htss
  rw [← hgdtr] at hltr
  unfold initializeTables
  dsimp only
  rw [← gdtMemory, hltr, Option.map_some]
  dsimp only
  rw [← idtMemory, hgdtr, hidtr, ← tssMemory]
  rfl

/-- The tables that it leaves, with nothing changed outside of the block of the CPU. -/
theorem tablesAt_initializeTables : ∃ m', initializeTables m cpu h = some (m', processorOf cpu) ∧
    OnlyIn cpu 2220 m m' ∧ TablesAt cpu h m' := by
  have hbusy : gdtEntry cpu 5 + 5 = cpu + BitVec.ofNat 32 157 := BitVec.add_assoc _ _ _
  refine ⟨_, initializeTables_eq, ?_, ⟨?_, fun i hi => idtMemory_gate hi, ?_⟩⟩
  · have hgdt : OnlyIn cpu 2220 m (gdtMemory m cpu) :=
      (onlyIn_setupGdt.of_add (by decide) (by decide)).trans
        (onlyIn_desc.of_add (by decide) (by decide))
    have hidt : ∀ m, OnlyIn cpu 2220 m (idtMemory m cpu h) := fun m =>
      (onlyIn_setupIdt.of_add (by decide) (by decide)).trans
        (onlyIn_desc.of_add (by decide) (by decide))
    have htss : ∀ m, OnlyIn cpu 2220 m (tssMemory m cpu) := by
      intro m
      have hss : taskState cpu + 8 = cpu + BitVec.ofNat 32 16 := BitVec.add_assoc _ _ _
      have hiomap : taskState cpu + 102 = cpu + BitVec.ofNat 32 110 := BitVec.add_assoc _ _ _
      unfold tssMemory
      rw [hss, hiomap]
      exact (onlyIn_store16.of_add (by decide) (by decide)).trans
        (onlyIn_store16.of_add (by decide) (by decide))
    rw [hbusy]
    exact hgdt.trans ((onlyIn_store8.of_add (by decide) (by decide)).trans
      ((hidt _).trans (htss _)))
  · intro i hi
    have hentry : gdtEntry cpu i = cpu + BitVec.ofNat 32 112 + BitVec.ofNat 32 (8 * i) := by
      rw [gdtEntry, BitVec.ofNat_add, ← BitVec.add_assoc]
    have hinside : ∀ x, InBytes (gdtEntry cpu i) 8 x →
        InBytes (cpu + BitVec.ofNat 32 112) 48 x := by
      intro x hx
      rw [hentry] at hx
      exact hx.of_add (by omega) (by decide)
    refine (readDescriptor_congr fun x hx => gdt_kept x (hinside x hx)).trans ?_
    by_cases hlast : i = 5
    · subst hlast
      refine readDescriptor_busy.trans ?_
      rw [gdtMemory_descriptor hi, if_pos rfl]
      have haccess : (0x89 : BitVec 8) ||| 2 = 0x8B := by decide
      dsimp only
      rw [haccess]
      rfl
    · rw [hbusy]
      refine (readDescriptor_congr
        (OnlyIn.eq_beside onlyIn_store8 (by omega) (by omega) (by decide))).trans ?_
      exact (gdtMemory_descriptor hi).trans (if_neg hlast)
  · have hapart : Apart (taskState cpu + 8) 2 (taskState cpu + 102) 2 :=
      apart_add (i := 8) (j := 102) (by decide) (by decide)
    unfold tssMemory
    rw [load16_store16_of_apart hapart, load16_store16]

end tables

/-! ## Section 6: Entering the Kernel -/

section entering

variable {m m' : Memory} {cpu : BitVec 32} {h : Handlers} {cpl : BitVec 2} {software : Bool}
  {vec : BitVec 8} {selector : BitVec 16}

/-- What changes outside of the block, or in `esp0`, does not change the tables. -/
theorem TablesAt.congr (ht : TablesAt cpu h m) (hm : SameTables cpu m m') : TablesAt cpu h m' := by
  have hesp : esp0Field cpu = cpu + BitVec.ofNat 32 12 := BitVec.add_assoc _ _ _
  have hss : taskState cpu + 8 = cpu + BitVec.ofNat 32 16 := BitVec.add_assoc _ _ _
  have hsame : ∀ {i n x}, 16 ≤ i → i + n ≤ 2220 → InBytes (cpu + BitVec.ofNat 32 i) n x →
      m' x = m x := by
    intro i n x hlow hhigh hx
    refine hm x (hx.of_add (by omega) (by decide)) fun hx' => ?_
    rw [hesp] at hx'
    exact apart_add (by omega) (by omega) x hx' hx
  refine ⟨fun i hi => ?_, fun i hi => ?_, ?_⟩
  · rw [← ht.descriptors i hi]
    exact readDescriptor_congr fun x hx => hsame (by omega) (by omega) hx
  · rw [← ht.gates i hi]
    exact readGate_congr fun x hx => hsame (by omega) (by omega) hx
  · rw [← ht.stack, hss]
    exact load16_congr fun x hx => hsame (by decide) (by decide) hx

/-- The stack of the kernel. -/
theorem TablesAt.stackFor (ht : TablesAt cpu h m) :
    stackFor m (processorOf cpu) 0 = some (gdtSegKernData, load32 m (esp0Field cpu)) := by
  have hesp : (processorOf cpu).tssBase + 4 + 8 * (0 : BitVec 2).setWidth 32 = esp0Field cpu :=
    BitVec.add_zero _
  have hss : esp0Field cpu + 4 = taskState cpu + 8 := BitVec.add_assoc _ _ _
  have hdescriptor : descriptorOf m (processorOf cpu).gdtr gdtSegKernData =
      some ⟨0, 0xFFFFF, 0x92, 0xC⟩ := by
    rw [descriptorOf_eq, if_neg (by decide)]
    exact congrArg some (ht.descriptors 2 (by decide))
  have hfits : ¬((processorOf cpu).tssLimit.toNat < 4 + 8 * (0 : BitVec 2).toNat + 5 ∨
      gdtSegKernData.extractLsb' 0 2 ≠ 0) := by
    show ¬((103 : BitVec 20).toNat < _ ∨ _)
    decide
  unfold Gates.stackFor
  dsimp only
  rw [hesp, hss, ht.stack, if_neg hfits, hdescriptor]
  rfl

/-- The code segment of the kernel. -/
theorem TablesAt.kernCode (ht : TablesAt cpu h m) :
    descriptorOf m (processorOf cpu).gdtr gdtSegKernCode = some ⟨0, 0xFFFFF, 0x9A, 0xC⟩ := by
  rw [descriptorOf_eq, if_neg (by decide)]
  exact congrArg some (ht.descriptors 1 (by decide))

theorem idtEntry_eq : (processorOf cpu).idtr.base + BitVec.ofNat 32 (8 * vec.toNat) =
    idtEntry cpu vec.toNat := by
  show idtEntry cpu 0 + _ = _
  rw [idtEntry, idtEntry, BitVec.add_assoc, ← BitVec.ofNat_add]

/-- An interrupt through a gate to the code segment of the kernel. -/
theorem TablesAt.interrupt_gate (ht : TablesAt cpu h m) {address : BitVec 32} {type : BitVec 8}
    (hgate : readGate m (idtEntry cpu vec.toNat) = ⟨address, gdtSegKernCode, type⟩)
    (htype : type = 0x8E ∨ type = 0xEF) :
    interrupt m (processorOf cpu) cpl software vec =
      if software = true ∧ type.extractLsb' 5 2 < cpl then none
      else some ⟨gdtSegKernCode, address,
        if cpl = 0 then none else some (gdtSegKernData, load32 m (esp0Field cpu)),
        type.extractLsb' 0 5 = 0xE⟩ := by
  have hinside : ¬(processorOf cpu).idtr.limit.toNat < 8 * vec.toNat + 7 := by
    show ¬2047 < _
    omega
  have hkind : ¬(type.extractLsb' 0 5 ≠ 0xE ∧ type.extractLsb' 0 5 ≠ 0xF) := by
    rcases htype with rfl | rfl
    · decide
    · decide
  have hpresent : ¬type.getLsbD 7 = false := by
    rcases htype with rfl | rfl
    · decide
    · decide
  have hcode : ∀ c : BitVec 2, ¬(¬(⟨0, 0xFFFFF, 0x9A, 0xC⟩ : Descriptor).Present ∨
      ¬(⟨0, 0xFFFFF, 0x9A, 0xC⟩ : Descriptor).IsCode ∨
        c < (⟨0, 0xFFFFF, 0x9A, 0xC⟩ : Descriptor).dpl) := by
    unfold Descriptor.Present Descriptor.IsCode Descriptor.dpl
    decide
  have hlevel : (⟨0, 0xFFFFF, 0x9A, 0xC⟩ : Descriptor).dpl = 0 := by decide
  have hconforming : ¬(⟨0, 0xFFFFF, 0x9A, 0xC⟩ : Descriptor).Conforming := by
    unfold Descriptor.Conforming
    decide
  unfold interrupt
  rw [if_neg hinside, idtEntry_eq, hgate]
  dsimp only
  rw [if_neg hkind]
  refine if_congr Iff.rfl rfl ?_
  rw [if_neg hpresent, ht.kernCode, Option.bind_some, if_neg (hcode cpl), hlevel]
  by_cases hcpl : cpl = 0
  · subst hcpl
    rw [if_pos (Or.inr rfl), if_pos rfl]
    rfl
  · rw [if_neg (not_or.mpr ⟨hconforming, Ne.symm hcpl⟩), ht.stackFor, if_neg hcpl]
    rfl

/-- Where there is no gate, the kernel is not entered. -/
theorem interrupt_none (hgate : readGate m (idtEntry cpu vec.toNat) = ⟨0, 0, 0⟩) :
    interrupt m (processorOf cpu) cpl software vec = none := by
  have hinside : ¬(processorOf cpu).idtr.limit.toNat < 8 * vec.toNat + 7 := by
    show ¬2047 < _
    omega
  unfold interrupt
  rw [if_neg hinside, idtEntry_eq, hgate]
  exact if_pos (by decide)

/-- Every interrupt enters the kernel as it should. -/
theorem TablesAt.interrupt_eq (ht : TablesAt cpu h m) :
    interrupt m (processorOf cpu) cpl software vec =
      kernelEntry h (load32 m (esp0Field cpu)) cpl software vec := by
  have hgate := ht.gates vec.toNat vec.isLt
  have huser : (0 : BitVec 2) < cpl ↔ cpl ≠ 0 := by
    revert cpl
    decide
  -- the gates of the three interrupts are not for user code
  have hintr : ∀ address, readGate m (idtEntry cpu vec.toNat) = ⟨address, gdtSegKernCode, 0x8E⟩ →
      interrupt m (processorOf cpu) cpl software vec =
        if software = true ∧ cpl ≠ 0 then none
        else some ⟨gdtSegKernCode, address,
          if cpl = 0 then none else some (gdtSegKernData, load32 m (esp0Field cpu)), true⟩ := by
    intro address hread
    rw [ht.interrupt_gate hread (Or.inl rfl)]
    exact if_congr (and_congr_right fun _ => huser) rfl rfl
  unfold kernelEntry
  dsimp only
  by_cases h80 : vec = 0x80
  · subst h80
    rw [ht.interrupt_gate hgate (Or.inr rfl), if_pos rfl]
    have hall : ∀ c : BitVec 2, ¬(0xEF : BitVec 8).extractLsb' 5 2 < c := by decide
    exact if_neg fun hlt => hall cpl hlt.2
  rw [if_neg h80]
  by_cases h20 : vec = 0x20
  · subst h20
    rw [hintr _ hgate]
    rfl
  by_cases h21 : vec = 0x21
  · subst h21
    rw [hintr _ hgate]
    rfl
  by_cases h30 : vec = 0x30
  · subst h30
    rw [hintr _ hgate]
    rfl
  have hne : ∀ v : BitVec 8, vec ≠ v → vec.toNat ≠ v.toNat := fun v hv heq =>
    hv (BitVec.eq_of_toNat_eq heq)
  have hnone : idtGate h vec.toNat = ⟨0, 0, 0⟩ := by
    have h80' : vec.toNat ≠ 0x80 := hne 0x80 h80
    have h30' : vec.toNat ≠ 0x30 := hne 0x30 h30
    have h21' : vec.toNat ≠ 0x21 := hne 0x21 h21
    have h20' : vec.toNat ≠ 0x20 := hne 0x20 h20
    unfold idtGate
    rw [if_neg h80', if_neg h30', if_neg h21', if_neg h20']
  rw [if_neg h20, if_neg h21, if_neg h30, interrupt_none (hgate.trans hnone), ite_self]

/-- The selectors of the code segment for user code, with any privilege level requested. -/
theorem userCode_iff : selector &&& 0xFFFC = gdtSegUserCode ↔
    selector.getLsbD 2 = false ∧ selector.toNat / 8 = 3 := by
  have hmask : (selector &&& 0xFFFC).toNat = selector.toNat / 4 * 4 :=
    toNat_and_not_lowBits (k := 2)
  have hbit : selector.getLsbD 2 = decide (selector.toNat / 4 % 2 = 1) := by
    rw [BitVec.getLsbD, Nat.testBit_eq_decide_div_mod_eq]
  have hlast : decide (selector.toNat / 4 % 2 = 1) = false ↔ selector.toNat / 4 % 2 = 0 := by
    rw [decide_eq_false_iff_not]
    omega
  rw [← BitVec.toNat_inj, hmask, hbit, hlast]
  show _ = 24 ↔ _
  omega

/-- User code that jumps to another segment stays user code. -/
theorem TablesAt.farTransfer_eq (ht : TablesAt cpu h m) :
    farTransfer m (processorOf cpu) 3 selector =
      if selector &&& 0xFFFC = gdtSegUserCode then some 3 else none := by
  unfold farTransfer
  dsimp only
  rw [descriptorOf_eq, if_congr userCode_iff rfl rfl]
  generalize hn : selector.toNat / 8 = n
  by_cases hbad : selector.getLsbD 2 = true ∨ n = 0 ∨ 6 ≤ n
  · have hnot : ¬(selector.getLsbD 2 = false ∧ n = 3) := by
      rintro ⟨hbit, rfl⟩
      rw [hbit] at hbad
      simp at hbad
    rw [if_pos hbad, if_neg hnot]
    rfl
  obtain ⟨hbit, hlow, hhigh⟩ : selector.getLsbD 2 = false ∧ n ≠ 0 ∧ n < 6 := by
    simpa [not_or] using hbad
  rw [if_neg hbad, Option.bind_some, ht.descriptors n hhigh, hbit]
  generalize selector.extractLsb' 0 2 = rpl
  have h₁ : gdtDescriptor cpu 1 = ⟨0, 0xFFFFF, 0x9A, 0xC⟩ := rfl
  have h₂ : gdtDescriptor cpu 2 = ⟨0, 0xFFFFF, 0x92, 0xC⟩ := rfl
  have h₃ : gdtDescriptor cpu 3 = ⟨0, 0xFFFFF, 0xFA, 0xC⟩ := rfl
  have h₄ : gdtDescriptor cpu 4 = ⟨0, 0xFFFFF, 0xF2, 0xC⟩ := rfl
  obtain rfl | rfl | rfl | rfl | rfl : n = 1 ∨ n = 2 ∨ n = 3 ∨ n = 4 ∨ n = 5 := by omega
  · rw [h₁]
    revert rpl
    decide
  · rw [h₂]
    revert rpl
    decide
  · rw [h₃]
    revert rpl
    decide
  · rw [h₄]
    revert rpl
    decide
  · -- the TSS is for the kernel only
    have hpresent : (gdtDescriptor cpu 5).Present := by
      show (0x8B : BitVec 8).getLsbD 7 = true
      decide
    have hsystem : (gdtDescriptor cpu 5).IsSystem := by
      show (0x8B : BitVec 8).getLsbD 4 = false
      decide
    have hdpl : (gdtDescriptor cpu 5).dpl < 3 := by
      show (0x8B : BitVec 8).extractLsb' 5 2 < 3
      decide
    rw [if_neg (not_not_intro hpresent), if_pos hsystem, if_pos (Or.inl hdpl)]
    rfl

/-- When `Initialize_ThisProcessor` has set up the tables, and whatever changes outside of them or
    in `esp0` afterwards, an interrupt enters the kernel at its handler, on the stack in `esp0`
    when it comes from user code. User code itself gets in through the vector `0x80` only: other
    vectors are refused, and so is every jump to a segment other than its own. -/
theorem ways_into_kernel (m : Memory) (cpu : BitVec 32) (h : Handlers) : ∃ m' p,
    initializeTables m cpu h = some (m', p) ∧ OnlyIn cpu 2220 m m' ∧
      ∀ m'', SameTables cpu m' m'' →
        (∀ cpl software vec, interrupt m'' p cpl software vec =
          kernelEntry h (load32 m'' (esp0Field cpu)) cpl software vec) ∧
        ∀ selector, farTransfer m'' p 3 selector =
          if selector &&& 0xFFFC = gdtSegUserCode then some 3 else none := by
  obtain ⟨m', hinit, honly, htables⟩ := @tablesAt_initializeTables m cpu h
  refine ⟨m', processorOf cpu, hinit, honly, fun m'' hm => ?_⟩
  have htables' := htables.congr hm
  exact ⟨fun _ _ _ => htables'.interrupt_eq, fun _ => htables'.farTransfer_eq⟩

/-- `Context_SetupProcess` has set `esp0`; a user program makes a system call and tries the vector
    of the timer. -/
theorem ways_into_kernel_systemCall : ∃ m p, initializeTables (fun _ => 0) 0x80200000
      ⟨0x80101000, 0x80101010, 0x80101020, 0x80101030⟩ = some (m, p) ∧
    let m := store32 m (esp0Field 0x80200000) 0x80302000
    interrupt m p 3 true 0x80 =
        some ⟨gdtSegKernCode, 0x80101030, some (gdtSegKernData, 0x80302000), false⟩ ∧
      interrupt m p 3 true 0x20 = none ∧ farTransfer m p 3 gdtSegKernCode = none := by
  obtain ⟨m, p, hinit, -, hways⟩ := ways_into_kernel (fun _ => 0) 0x80200000
    ⟨0x80101000, 0x80101010, 0x80101020, 0x80101030⟩
  obtain ⟨hinterrupt, hjump⟩ := hways (store32 m (esp0Field 0x80200000) 0x80302000)
    fun x _ hx => store32_frame hx
  refine ⟨m, p, hinit, ?_, ?_, ?_⟩
  · rw [hinterrupt, load32_store32]
    rfl
  · rw [hinterrupt]
    rfl
  · rw [hjump]
    rfl

end entering

end Gates

end Avos
