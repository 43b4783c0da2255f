import Avos.Bootloader.Services

/-! # Reading from Disk

  `bootloader/multiboot/src/diskio.c`. Sectors are read one by one, by an interrupt of the BIOS,
  to a buffer in low memory, and copied from there.

  The BIOS is a machine with a state of its own (`DiskBios`). The packets that it is given by
  `DS:SI` are passed to the model as they are; the data goes to the address in the packet.

  A call leaves the sectors that the BIOS delivers before its first failure one behind the other
  in memory, and changes nothing else but the buffer (`readFromDisk_delivered`). A BIOS that reads
  whatever it is asked for (`Serves`) delivers all of them (`readFromDisk_serves`).
-/

open ByteMemory

namespace Avos.Multiboot

/-! ## Section 1: The Functions -/

/-- `struct DiskIO_Geometry`, as far as the boot loader reads it. -/
structure DiskGeometry where
  size : BitVec 16
  bytesPerSector : BitVec 16

/-- `struct DiskIO_DAP`. -/
structure DiskAddressPacket where
  size : BitVec 8
  sectors : BitVec 8
  memoryOffset : BitVec 16
  memorySegment : BitVec 16
  startSector : BitVec 64

/-- The address that the packet names. -/
def DiskAddressPacket.address (dap : DiskAddressPacket) : BitVec 32 :=
  (dap.memorySegment.setWidth 32 <<< 4) + dap.memoryOffset.setWidth 32

/-- The services of interrupt 0x13 that the boot loader calls. -/
structure DiskBios (β : Type*) where
  /-- `AX = 0x4100`. -/
  checkExtensions : β → Registers → Registers × β
  /-- `AX = 0x4800`, for a packet of the given size. -/
  getGeometry : β → Registers → BitVec 16 → DiskGeometry × Registers × β
  /-- `AX = 0x4200`. The bytes go to the address in the packet. -/
  read : β → Registers → DiskAddressPacket → List (BitVec 8) × Registers × β

/-- `DISKIO_MAX_SECTOR_SIZE`. -/
def diskIOMaxSectorSize : BitVec 16 := 0x1000

/-- `regs.dx = v`. -/
def Registers.withDx (r : Registers) (v : BitVec 16) : Registers :=
  { r with edx := r.edx.extractLsb' 16 16 ++ v }

/-- The packet for a sector. -/
def diskAddressPacket (buffer : BitVec 32) (startSector : BitVec 64) : DiskAddressPacket where
  size := 0x10
  sectors := 1
  memoryOffset := (buffer &&& 0xF).setWidth 16
  memorySegment := (buffer >>> 4).setWidth 16
  startSector := startSector

section functions

variable {β : Type*} (B : DiskBios β)

/-- `DiskIO_CheckForBIOSExtensions`. -/
def checkForBiosExtensions (drive : BitVec 8) (s : Loader β) : Bool × Loader β :=
  let regs := { service 0x4100 with ebx := 0x55AA }.withDx (drive.setWidth 16)
  let answer := B.checkExtensions s.bios regs
  let s := { s with bios := answer.2 }
  (¬(answer.1.Carry ∨ answer.1.bx ≠ 0xAA55 ∨ answer.1.cx &&& 1 = 0), s)

/-- `DiskIO_GetDiskGeometry`. -/
def getDiskGeometry (drive : BitVec 8) (size : BitVec 16) (s : Loader β) :
    Option DiskGeometry × Loader β :=
  let answer := B.getGeometry s.bios ((service 0x4800).withDx (drive.setWidth 16)) size
  let s := { s with bios := answer.2.2 }
  (if answer.2.1.Carry then none else some answer.1, s)

/-- The loop of `DiskIO_ReadFromDisk`, with the given number of sectors still to be read. A sector
    is copied byte by byte, upwards. -/
def readSectors (drive : BitVec 8) (buffer : BitVec 32) (bytesPerSector : BitVec 16) :
    Nat → DiskAddressPacket → Registers → BitVec 32 → BitVec 32 → Loader β → BitVec 32 × Loader β
  | 0, _, _, _, bytesRead, s => (bytesRead, s)
  | n + 1, dap, regs, dst, bytesRead, s =>
      let regs := (regs.withAx 0x4200).withDx (drive.setWidth 16)
      let answer := B.read s.bios regs dap
      let m := storeBytes s.mem dap.address answer.1
      if answer.2.1.Carry then (bytesRead, ⟨m, answer.2.2⟩)
      else
        let m := memmoveUp m dst buffer bytesPerSector.toNat
        readSectors drive buffer bytesPerSector n
          { dap with startSector := dap.startSector + 1 } answer.2.1
          (dst + bytesPerSector.setWidth 32) (bytesRead + bytesPerSector.setWidth 32)
          ⟨m, answer.2.2⟩

/-- `DiskIO_ReadFromDisk`; `buffer` is `DiskIO_LowMemoryBuffer`. -/
def readFromDisk (buffer : BitVec 32) (drive : BitVec 8) (memStartAddr : BitVec 32)
    (diskStartSector : BitVec 64) (numSectors : BitVec 32) (s : Loader β) :
    BitVec 32 × Loader β :=
  if numSectors = 0 then (0, s)
  else
    let (extensions, s) := checkForBiosExtensions B drive s
    if ¬extensions then (0, s)
    else
      match getDiskGeometry B drive 0x1A s with
      | (none, s) => (0, s)
      | (some geom, s) =>
          if diskIOMaxSectorSize < geom.size then (0, s)
          else
            readSectors B drive buffer geom.bytesPerSector numSectors.toNat
              (diskAddressPacket buffer diskStartSector) clearRegistry memStartAddr 0 s

end functions

/-! ## Section 2: The Sectors That Are Delivered -/

/-- The registers of a call for the drive. -/
structure IsDiskCall (ax : BitVec 16) (drive : BitVec 8) (r : Registers) : Prop where
  ax : r.ax = ax
  dx : r.dx = drive.setWidth 16

/-- The BIOS has sectors of one size for the drive, and never stores more than a sector, as long
    as it is in one of the states `ok`. Any call may fail. -/
structure DeliversSectors {β : Type*} (B : DiskBios β) (ok : β → Prop) (drive : BitVec 8)
    (bytesPerSector : BitVec 16) : Prop where
  extensions : ∀ st r, ok st → IsDiskCall 0x4100 drive r → r.bx = 0x55AA →
    ok (B.checkExtensions st r).2
  geometry : ∀ st r size, ok st → IsDiskCall 0x4800 drive r →
    let answer := B.getGeometry st r size
    (¬answer.2.1.Carry → answer.1.bytesPerSector = bytesPerSector) ∧ ok answer.2.2
  read : ∀ st r dap, ok st → IsDiskCall 0x4200 drive r → dap.sectors = 1 →
    let answer := B.read st r dap
    answer.1.length ≤ bytesPerSector.toNat ∧
      (¬answer.2.1.Carry → answer.1.length = bytesPerSector.toNat) ∧ ok answer.2.2

section delivered

variable {β : Type*} (B : DiskBios β)

/-- What the BIOS delivers for up to `n` calls, before the first one that fails. -/
def readsBefore (drive : BitVec 8) :
    Nat → DiskAddressPacket → Registers → β → List (List (BitVec 8))
  | 0, _, _, _ => []
  | n + 1, dap, regs, st =>
      let answer := B.read st ((regs.withAx 0x4200).withDx (drive.setWidth 16)) dap
      if answer.2.1.Carry then []
      else answer.1 ::
        readsBefore drive n { dap with startSector := dap.startSector + 1 } answer.2.1 answer.2.2

/-- The sectors that the BIOS delivers for a call of `DiskIO_ReadFromDisk`. -/
def deliveredSectors (buffer : BitVec 32) (drive : BitVec 8) (diskStartSector : BitVec 64)
    (numSectors : BitVec 32) (s : Loader β) : List (List (BitVec 8)) :=
  if numSectors = 0 then []
  else
    let (extensions, s) := checkForBiosExtensions B drive s
    if ¬extensions then []
    else
      match getDiskGeometry B drive 0x1A s with
      | (none, _) => []
      | (some geom, s) =>
          if diskIOMaxSectorSize < geom.size then []
          else
            readsBefore B drive numSectors.toNat (diskAddressPacket buffer diskStartSector)
              clearRegistry s.bios

end delivered

section delivers

variable {β : Type*} {B : DiskBios β} {ok : β → Prop} {drive : BitVec 8}
  {bytesPerSector : BitVec 16} {buffer dst : BitVec 32} {s : Loader β} {m m' : Memory}
  {a : BitVec 64} {n : Nat}

theorem ax_withDx {r : Registers} {v : BitVec 16} : (r.withDx v).ax = r.ax := rfl

theorem dx_withDx {r : Registers} {v : BitVec 16} : (r.withDx v).dx = v := by
  show (r.edx.extractLsb' 16 16 ++ v).setWidth 16 = v
  rw [BitVec.setWidth_append]
  simp

/-- A buffer below 1 MiB has a segment and an offset. -/
theorem address_diskAddressPacket (h : buffer.toNat < 0x100000) :
    (diskAddressPacket buffer a).address = buffer := by
  have hlow : (buffer &&& 0xF).toNat = buffer.toNat % 16 := by
    rw [BitVec.toNat_and]
    exact Nat.and_two_pow_sub_one_eq_mod _ 4
  show ((buffer >>> 4).setWidth 16).setWidth 32 <<< 4 + ((buffer &&& 0xF).setWidth 16).setWidth 32 =
    buffer
  apply BitVec.eq_of_toNat_eq
  simp only [BitVec.toNat_add, BitVec.toNat_shiftLeft, BitVec.toNat_setWidth,
    BitVec.toNat_ushiftRight, hlow, Nat.shiftRight_eq_div_pow, Nat.shiftLeft_eq]
  omega

/-- Bytes have come to `dst`, and nothing else has changed but the buffer. -/
structure ReadsTo (m : Memory) (dst buffer : BitVec 32) (size : Nat) (l : List (BitVec 8))
    (m' : Memory) : Prop where
  bytes : HasBytes m' dst l
  frame : ∀ x, ¬InBytes dst l.length x → ¬InBytes buffer size x → m' x = m x

/-- A sector that the BIOS has left in the buffer is copied. -/
theorem readsTo_sector {l : List (BitVec 8)} (hl : l.length ≤ 2 ^ 32)
    (hapart : Apart dst l.length buffer l.length) :
    ReadsTo m dst buffer l.length l
      (memmoveUp (storeBytes m buffer l) dst buffer l.length) := by
  constructor
  · intro i hi
    have hsrc : ¬InBytes dst i (buffer + BitVec.ofNat 32 i) := by
      intro hin
      exact hapart _ (hin.mono (by omega)) (inBytes_add hi hl)
    rw [memmoveUp_add hl hi hsrc, storeBytes_add hl hi]
  · intro x hdst hbuffer
    rw [onlyIn_memmoveUp hl x hdst, onlyIn_storeBytes hl x hbuffer]

/-- Bytes behind those that have come before. -/
theorem ReadsTo.append {m'' : Memory} {l l' : List (BitVec 8)} {size : Nat} {next : BitVec 32}
    (h : ReadsTo m dst buffer size l m') (h' : ReadsTo m' next buffer size l' m'')
    (hnext : next = dst + BitVec.ofNat 32 l.length)
    (hlength : (l ++ l').length ≤ 2 ^ 32) (hapart : Apart dst l.length buffer size) :
    ReadsTo m dst buffer size (l ++ l') m'' := by
  rw [List.length_append] at hlength
  subst hnext
  constructor
  · apply (h.bytes.of_eq ?_).append h'.bytes
    intro i hi
    apply h'.frame
    · rw [inBytes_add_iff (by omega) (by omega)]
      omega
    · exact hapart _ (inBytes_add hi (by omega))
  · intro x hdst hbuffer
    rw [List.length_append] at hdst
    rw [h'.frame x ?_ hbuffer, h.frame x ?_ hbuffer]
    · exact fun hin => hdst (hin.mono (by omega))
    · exact fun hin => hdst (hin.of_add (by omega) (by omega))

/-- The call of the loop. -/
theorem isDiskCall_read {regs : Registers} :
    IsDiskCall 0x4200 drive ((regs.withAx 0x4200).withDx (drive.setWidth 16)) :=
  ⟨ax_withDx.trans ax_withAx, dx_withDx⟩

theorem DeliversSectors.length_flatten {dap : DiskAddressPacket} {regs : Registers} {st : β}
    (h : DeliversSectors B ok drive bytesPerSector) (hok : ok st) (hsectors : dap.sectors = 1) :
    (readsBefore B drive n dap regs st).flatten.length =
      (readsBefore B drive n dap regs st).length * bytesPerSector.toNat := by
  induction n generalizing dap regs st with
  | zero => exact (Nat.zero_mul _).symm
  | succ n ih =>
    obtain ⟨-, hlength, hok'⟩ := h.read st _ dap hok (@isDiskCall_read drive regs) hsectors
    rw [readsBefore]
    split
    · exact (Nat.zero_mul _).symm
    · next hcarry =>
      rw [List.flatten_cons, List.length_append, List.length_cons, Nat.succ_mul, hlength hcarry,
        @ih { dap with startSector := dap.startSector + 1 } _ _ hok' hsectors, Nat.add_comm]

/-- The loop reads the sectors one behind the other, up to the first failure. -/
theorem readSectors_delivered {dap : DiskAddressPacket} {regs : Registers} {bytesRead : BitVec 32}
    (h : DeliversSectors B ok drive bytesPerSector) (hok : ok s.bios) (hsectors : dap.sectors = 1)
    (haddress : dap.address = buffer)
    (hn : (readsBefore B drive n dap regs s.bios).length * bytesPerSector.toNat ≤ 2 ^ 32)
    (hapart : Apart dst ((readsBefore B drive n dap regs s.bios).length * bytesPerSector.toNat)
      buffer bytesPerSector.toNat) :
    let out := readSectors B drive buffer bytesPerSector n dap regs dst bytesRead s
    let sectors := readsBefore B drive n dap regs s.bios
    out.1 = bytesRead + BitVec.ofNat 32 (sectors.length * bytesPerSector.toNat) ∧
      ok out.2.bios ∧
      ReadsTo s.mem dst buffer bytesPerSector.toNat sectors.flatten out.2.mem := by
  induction n generalizing dap regs dst bytesRead s with
  | zero =>
    refine ⟨?_, hok, fun i hi => absurd hi (Nat.not_lt_zero i), fun _ _ _ => rfl⟩
    show bytesRead = bytesRead + BitVec.ofNat 32 (0 * bytesPerSector.toNat)
    rw [Nat.zero_mul]
    exact (BitVec.add_zero _).symm
  | succ n ih =>
    obtain ⟨hstored, hlength, hok'⟩ :=
      h.read s.bios _ dap hok (@isDiskCall_read drive regs) hsectors
    have hwidth : bytesPerSector.setWidth 32 = BitVec.ofNat 32 bytesPerSector.toNat := by
      apply BitVec.eq_of_toNat_eq
      rw [BitVec.toNat_setWidth, BitVec.toNat_ofNat]
    rw [readSectors, haddress, readsBefore]
    rw [readsBefore] at hn hapart
    generalize B.read s.bios ((regs.withAx 0x4200).withDx (drive.setWidth 16)) dap = answer at *
    by_cases hcarry : answer.2.1.Carry
    · -- the call may have stored something to the buffer
      rw [if_pos hcarry, if_pos hcarry]
      refine ⟨?_, hok', fun i hi => absurd hi (Nat.not_lt_zero i), fun x _ hbuffer => ?_⟩
      · show bytesRead = bytesRead + BitVec.ofNat 32 (0 * bytesPerSector.toNat)
        rw [Nat.zero_mul]
        exact (BitVec.add_zero _).symm
      · exact onlyIn_storeBytes (by omega) x fun hin => hbuffer (hin.mono hstored)
    · have hsector := hlength hcarry
      rw [if_neg hcarry, List.length_cons, Nat.succ_mul] at hn hapart
      rw [if_neg hcarry, if_neg hcarry]
      dsimp only
      rw [List.length_cons, Nat.succ_mul, List.flatten_cons]
      -- the first sector
      have hfirst : ReadsTo s.mem dst buffer bytesPerSector.toNat answer.1
          (memmoveUp (storeBytes s.mem buffer answer.1) dst buffer bytesPerSector.toNat) := by
        rw [← hsector]
        apply readsTo_sector (by omega)
        intro x hdst hbuffer
        exact hapart x (hdst.mono (by omega)) (hbuffer.mono (by omega))
      -- the others
      have hrest : Apart (dst + bytesPerSector.setWidth 32)
          ((readsBefore B drive n { dap with startSector := dap.startSector + 1 } answer.2.1
            answer.2.2).length * bytesPerSector.toNat) buffer bytesPerSector.toNat := by
        intro x hdst hbuffer
        rw [hwidth] at hdst
        exact hapart x (hdst.of_add (by omega) hn) hbuffer
      obtain ⟨hread, hokOut, hreads⟩ := @ih _ ⟨_, _⟩
        { dap with startSector := dap.startSector + 1 } answer.2.1 _ hok' hsectors haddress
          (Nat.le_trans (Nat.le_add_right _ _) hn) hrest
      have hflat := @DeliversSectors.length_flatten _ _ _ _ _ n
        { dap with startSector := dap.startSector + 1 } answer.2.1 _ h hok' hsectors
      refine ⟨?_, hokOut, ?_⟩
      · rw [hread, hwidth, BitVec.add_assoc, ← BitVec.ofNat_add, Nat.add_comm]
      · apply hfirst.append hreads
        · rw [hwidth, hsector]
        · rw [List.length_append, hflat, hsector]
          omega
        · intro x hdst hbuffer
          rw [hsector] at hdst
          exact hapart x (hdst.mono (by omega)) hbuffer

/-- Where no sector is delivered, no memory changes. -/
theorem ReadsTo.of_eq {size : Nat} (hm : m' = m) : ReadsTo m dst buffer size [] m' :=
  ⟨fun i hi => absurd hi (Nat.not_lt_zero i), fun x _ _ => congrFun hm x⟩

theorem DeliversSectors.checkForBiosExtensions (h : DeliversSectors B ok drive bytesPerSector)
    (hok : ok s.bios) :
    ok (checkForBiosExtensions B drive s).2.bios ∧
      (checkForBiosExtensions B drive s).2.mem = s.mem := by
  let regs := { service 0x4100 with ebx := 0x55AA }.withDx (drive.setWidth 16)
  exact ⟨h.extensions s.bios regs hok ⟨ax_withDx.trans ax_withAx, dx_withDx⟩ rfl, rfl⟩

theorem DeliversSectors.getDiskGeometry {size : BitVec 16}
    (h : DeliversSectors B ok drive bytesPerSector) (hok : ok s.bios) :
    ok (getDiskGeometry B drive size s).2.bios ∧ (getDiskGeometry B drive size s).2.mem = s.mem ∧
      ∀ geom, (getDiskGeometry B drive size s).1 = some geom →
        geom.bytesPerSector = bytesPerSector := by
  let regs := (service 0x4800).withDx (drive.setWidth 16)
  obtain ⟨hbytes, hok'⟩ := h.geometry s.bios regs size hok ⟨ax_withDx.trans ax_withAx, dx_withDx⟩
  refine ⟨hok', rfl, fun geom hgeom => ?_⟩
  unfold Multiboot.getDiskGeometry at hgeom
  dsimp only at hgeom
  split at hgeom
  · exact nomatch hgeom
  · next hcarry =>
    obtain rfl := Option.some.inj hgeom
    exact hbytes hcarry

/-- A call reads the sectors that the BIOS delivers. -/
theorem readFromDisk_delivered {startSector : BitVec 64} {numSectors : BitVec 32}
    (h : DeliversSectors B ok drive bytesPerSector) (hok : ok s.bios)
    (hbuffer : buffer.toNat < 0x100000)
    (hn : (deliveredSectors B buffer drive startSector numSectors s).length *
      bytesPerSector.toNat ≤ 2 ^ 32)
    (hapart : Apart dst ((deliveredSectors B buffer drive startSector numSectors s).length *
      bytesPerSector.toNat) buffer bytesPerSector.toNat) :
    let out := readFromDisk B buffer drive dst startSector numSectors s
    let sectors := deliveredSectors B buffer drive startSector numSectors s
    out.1 = BitVec.ofNat 32 (sectors.length * bytesPerSector.toNat) ∧ ok out.2.bios ∧
      ReadsTo s.mem dst buffer bytesPerSector.toNat sectors.flatten out.2.mem := by
  have hnone : (0 : BitVec 32) = BitVec.ofNat 32 (0 * bytesPerSector.toNat) := by
    rw [Nat.zero_mul]
    rfl
  unfold readFromDisk
  unfold deliveredSectors at hn hapart ⊢
  by_cases hzero : numSectors = 0
  · rw [if_pos hzero, if_pos hzero]
    exact ⟨hnone, hok, ReadsTo.of_eq rfl⟩
  rw [if_neg hzero] at hn hapart
  rw [if_neg hzero, if_neg hzero]
  obtain ⟨hok₁, hmem₁⟩ := h.checkForBiosExtensions hok
  generalize checkForBiosExtensions B drive s = checked at *
  obtain ⟨extensions, s₁⟩ := checked
  dsimp only at *
  cases extensions with
  | false => exact ⟨hnone, hok₁, ReadsTo.of_eq hmem₁⟩
  | true =>
    obtain ⟨hok₂, hmem₂, hgeom⟩ := @h.getDiskGeometry _ _ _ _ _ s₁ 0x1A hok₁
    rw [if_neg (by simp)] at hn hapart ⊢
    rw [if_neg (by simp)]
    generalize getDiskGeometry B drive 0x1A s₁ = measured at *
    obtain ⟨geom, s₂⟩ := measured
    dsimp only at *
    rw [hmem₁] at hmem₂
    cases geom with
    | none => exact ⟨hnone, hok₂, ReadsTo.of_eq hmem₂⟩
    | some geom =>
      dsimp only at *
      by_cases hsize : diskIOMaxSectorSize < geom.size
      · rw [if_pos hsize, if_pos hsize]
        exact ⟨hnone, hok₂, ReadsTo.of_eq hmem₂⟩
      · rw [if_neg hsize] at hn hapart
        rw [if_neg hsize, if_neg hsize, hgeom geom rfl, ← hmem₂]
        obtain ⟨hread, hokOut, hreads⟩ := @readSectors_delivered _ _ _ _ _ _ dst s₂ _ _ _ 0 h hok₂
          rfl (address_diskAddressPacket hbuffer) hn hapart
        refine ⟨?_, hokOut, hreads⟩
        rw [hread]
        exact BitVec.zero_add _

end delivers

/-! ## Section 3: A Disk That Is Read -/

/-- The BIOS reads the sectors of the drive, as long as it is in one of the states `ok`. -/
structure Serves {β : Type*} (B : DiskBios β) (ok : β → Prop) (drive : BitVec 8)
    (bytesPerSector : BitVec 16) (sector : BitVec 64 → List (BitVec 8)) : Prop where
  pos : 0 < bytesPerSector.toNat
  le : bytesPerSector ≤ diskIOMaxSectorSize
  length : ∀ a, (sector a).length = bytesPerSector.toNat
  extensions : ∀ st r, ok st → IsDiskCall 0x4100 drive r → r.bx = 0x55AA →
    let answer := B.checkExtensions st r
    (¬answer.1.Carry ∧ answer.1.bx = 0xAA55 ∧ answer.1.cx &&& 1 = 1) ∧ ok answer.2
  geometry : ∀ st r size, ok st → IsDiskCall 0x4800 drive r →
    let answer := B.getGeometry st r size
    (¬answer.2.1.Carry ∧ answer.1.size ≤ diskIOMaxSectorSize ∧
      answer.1.bytesPerSector = bytesPerSector) ∧ ok answer.2.2
  read : ∀ st r dap, ok st → IsDiskCall 0x4200 drive r → dap.sectors = 1 →
    let answer := B.read st r dap
    (¬answer.2.1.Carry ∧ answer.1 = sector dap.startSector) ∧ ok answer.2.2

/-- The bytes of `n` sectors. -/
def sectorBytes (sector : BitVec 64 → List (BitVec 8)) : BitVec 64 → Nat → List (BitVec 8)
  | _, 0 => []
  | a, n + 1 => sector a ++ sectorBytes sector (a + 1) n

section serves

variable {β : Type*} {B : DiskBios β} {ok : β → Prop} {drive : BitVec 8}
  {bytesPerSector : BitVec 16} {sector : BitVec 64 → List (BitVec 8)} {buffer dst : BitVec 32}
  {s : Loader β} {m m' : Memory} {a : BitVec 64} {n : Nat}

theorem length_sectorBytes {size : Nat} (h : ∀ a, (sector a).length = size) :
    (sectorBytes sector a n).length = n * size := by
  induction n generalizing a with
  | zero => exact (Nat.zero_mul _).symm
  | succ n ih => rw [sectorBytes, List.length_append, h, ih, Nat.succ_mul, Nat.add_comm]

theorem Serves.length_sectorBytes (h : Serves B ok drive bytesPerSector sector) :
    (sectorBytes sector a n).length = n * bytesPerSector.toNat :=
  Multiboot.length_sectorBytes h.length

/-- The BIOS delivers its sectors. -/
theorem Serves.delivers (h : Serves B ok drive bytesPerSector sector) :
    DeliversSectors B ok drive bytesPerSector where
  extensions st r hok hcall hbx := (h.extensions st r hok hcall hbx).2
  geometry st r size hok hcall := by
    obtain ⟨⟨-, -, hbytes⟩, hok'⟩ := h.geometry st r size hok hcall
    exact ⟨fun _ => hbytes, hok'⟩
  read st r dap hok hcall hsectors := by
    obtain ⟨⟨-, hsector⟩, hok'⟩ := h.read st r dap hok hcall hsectors
    have hlength := h.length dap.startSector
    rw [← hsector] at hlength
    exact ⟨Nat.le_of_eq hlength, fun _ => hlength, hok'⟩

/-- No call fails. -/
theorem Serves.readsBefore_eq {dap : DiskAddressPacket} {regs : Registers} {st : β}
    (h : Serves B ok drive bytesPerSector sector) (hok : ok st) (hsectors : dap.sectors = 1) :
    (readsBefore B drive n dap regs st).length = n ∧
      (readsBefore B drive n dap regs st).flatten = sectorBytes sector dap.startSector n := by
  induction n generalizing dap regs st with
  | zero => exact ⟨rfl, rfl⟩
  | succ n ih =>
    obtain ⟨⟨hcarry, hsector⟩, hok'⟩ := h.read st _ dap hok (@isDiskCall_read drive regs) hsectors
    obtain ⟨hlen, hflat⟩ := @ih { dap with startSector := dap.startSector + 1 } _ _ hok' hsectors
    rw [readsBefore, if_neg hcarry, List.length_cons, List.flatten_cons, hlen, hflat, hsector]
    exact ⟨rfl, rfl⟩

/-- All the sectors are delivered. -/
theorem Serves.deliveredSectors_eq {startSector : BitVec 64} {numSectors : BitVec 32}
    (h : Serves B ok drive bytesPerSector sector) (hok : ok s.bios) :
    let sectors := deliveredSectors B buffer drive startSector numSectors s
    sectors.length = numSectors.toNat ∧
      sectors.flatten = sectorBytes sector startSector numSectors.toNat := by
  intro sectors
  by_cases hzero : numSectors = 0
  · have hout : sectors = [] := if_pos hzero
    rw [hout, hzero]
    exact ⟨rfl, rfl⟩
  let regs := { service 0x4100 with ebx := 0x55AA }.withDx (drive.setWidth 16)
  obtain ⟨⟨hcarry, hbx, hcx⟩, hok'⟩ := h.extensions s.bios regs hok
    ⟨ax_withDx.trans ax_withAx, dx_withDx⟩ rfl
  let st := (B.checkExtensions s.bios regs).2
  have hextensions : checkForBiosExtensions B drive s = (true, { s with bios := st }) := by
    have hno : ¬((B.checkExtensions s.bios regs).1.Carry ∨
        (B.checkExtensions s.bios regs).1.bx ≠ 0xAA55 ∨
          (B.checkExtensions s.bios regs).1.cx &&& 1 = 0) := by
      rw [hbx, hcx]
      simp [hcarry]
    exact Prod.ext (decide_eq_true hno) rfl
  obtain ⟨⟨hcarry', hsize, -⟩, hok''⟩ := h.geometry st
    ((service 0x4800).withDx (drive.setWidth 16)) 0x1A hok' ⟨ax_withDx.trans ax_withAx, dx_withDx⟩
  let answer := B.getGeometry st ((service 0x4800).withDx (drive.setWidth 16)) 0x1A
  have hgeometry : getDiskGeometry B drive 0x1A { s with bios := st } =
      (some answer.1, { s with bios := answer.2.2 }) :=
    Prod.ext (if_neg hcarry') rfl
  have hout : sectors = readsBefore B drive numSectors.toNat
      (diskAddressPacket buffer startSector) clearRegistry answer.2.2 := by
    show deliveredSectors B buffer drive startSector numSectors s = _
    rw [deliveredSectors, if_neg hzero, hextensions]
    dsimp only
    rw [if_neg (by simp), hgeometry]
    exact if_neg (BitVec.not_lt.mpr hsize)
  rw [hout]
  exact h.readsBefore_eq hok'' rfl

/-- A call reads the sectors to memory. -/
theorem readFromDisk_serves {startSector : BitVec 64} {numSectors : BitVec 32}
    (h : Serves B ok drive bytesPerSector sector) (hok : ok s.bios)
    (hbuffer : buffer.toNat < 0x100000) (hn : numSectors.toNat * bytesPerSector.toNat ≤ 2 ^ 32)
    (hapart : Apart dst (numSectors.toNat * bytesPerSector.toNat) buffer bytesPerSector.toNat) :
    let out := readFromDisk B buffer drive dst startSector numSectors s
    out.1 = BitVec.ofNat 32 (numSectors.toNat * bytesPerSector.toNat) ∧ ok out.2.bios ∧
      ReadsTo s.mem dst buffer bytesPerSector.toNat
        (sectorBytes sector startSector numSectors.toNat) out.2.mem := by
  obtain ⟨hlength, hflat⟩ :=
    @h.deliveredSectors_eq _ _ _ _ _ _ buffer s startSector numSectors hok
  rw [← hlength] at hn hapart
  have hread := readFromDisk_delivered h.delivers hok hbuffer hn hapart
  dsimp only at hread
  rwa [hlength, hflat] at hread

end serves

end Avos.Multiboot
