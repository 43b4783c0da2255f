import Avos.Bootloader.DiskIO

/-! # The Bounce Buffer of the Disk Reads

  `DiskIO_LowMemoryBuffer` has room for `DISKIO_MAX_SECTOR_SIZE` bytes. `DiskIO_ReadFromDisk`
  copies `bytes_per_sector` bytes from it, a number that the BIOS reports. The check that is to
  keep the two apart looks at the size of the geometry packet in place of the sector size.

  The accesses of the copying loop are recorded beside the run (`CopyLog`); forgetting them gives
  the run back (`readFromDiskLogged_eq`). `ReadsSafely` is what one expects of a call.
-/

open ByteMemory

namespace Avos.Multiboot

/-- The accesses of the copying loop, in order: the indices of `DiskIO_LowMemoryBuffer` that are
    read, and the addresses that are written through `dst`. -/
structure CopyLog where
  indices : List Nat
  stores : List (BitVec 32)

/-! ## Section 1: The Accesses -/

/-- `*(dst++) = DiskIO_LowMemoryBuffer[j]`, for `j` from `0` to `n - 1`. -/
def copyLogged (dst buffer : BitVec 32) : Nat → Memory × CopyLog → Memory × CopyLog
  | 0, x => x
  | n + 1, x =>
      let (m, log) := copyLogged dst buffer n x
      (store8 m (dst + BitVec.ofNat 32 n) (m (buffer + BitVec.ofNat 32 n)),
        ⟨log.indices ++ [n], log.stores ++ [dst + BitVec.ofNat 32 n]⟩)

section functions

variable {β : Type*} (B : DiskBios β)

/-- The loop of `DiskIO_ReadFromDisk`, with its accesses. -/
def readSectorsLogged (drive : BitVec 8) (buffer : BitVec 32) (bytesPerSector : BitVec 16) :
    Nat → DiskAddressPacket → Registers → BitVec 32 → BitVec 32 → CopyLog → Loader β →
      (BitVec 32 × Loader β) × CopyLog
  | 0, _, _, _, bytesRead, log, s => ((bytesRead, s), log)
  | n + 1, dap, regs, dst, bytesRead, log, s =>
      let regs := (regs.withAx 0x4200).withDx (drive.setWidth 16)
      let answer := B.read s.bios regs dap
      let m := storeBytes s.mem dap.address answer.1
      if answer.2.1.Carry then ((bytesRead, ⟨m, answer.2.2⟩), log)
      else
        let (m, log) := copyLogged dst buffer bytesPerSector.toNat (m, log)
        readSectorsLogged drive buffer bytesPerSector n
          { dap with startSector := dap.startSector + 1 } answer.2.1
          (dst + bytesPerSector.setWidth 32) (bytesRead + bytesPerSector.setWidth 32) log
          ⟨m, answer.2.2⟩

/-- `DiskIO_ReadFromDisk`, with its accesses. -/
def readFromDiskLogged (buffer : BitVec 32) (drive : BitVec 8) (memStartAddr : BitVec 32)
    (diskStartSector : BitVec 64) (numSectors : BitVec 32) (s : Loader β) :
    (BitVec 32 × Loader β) × CopyLog :=
  if numSectors = 0 then ((0, s), ⟨[], []⟩)
  else
    let (extensions, s) := checkForBiosExtensions B drive s
    if ¬extensions then ((0, s), ⟨[], []⟩)
    else
      match getDiskGeometry B drive 0x1A s with
      | (none, s) => ((0, s), ⟨[], []⟩)
      | (some geom, s) =>
          if diskIOMaxSectorSize < geom.size then ((0, s), ⟨[], []⟩)
          else
            readSectorsLogged B drive buffer geom.bytesPerSector numSectors.toNat
              (diskAddressPacket buffer diskStartSector) clearRegistry memStartAddr 0 ⟨[], []⟩ s

end functions

section logged

variable {β : Type*} {B : DiskBios β} {ok : β → Prop} {drive : BitVec 8}
  {bytesPerSector : BitVec 16} {buffer dst : BitVec 32} {s : Loader β} {m : Memory}
  {log : CopyLog} {n : Nat}

/-- The addresses from `dst` on. -/
def addressesFrom (dst : BitVec 32) (n : Nat) : List (BitVec 32) :=
  (List.range n).map fun i => dst + BitVec.ofNat 32 i

theorem addressesFrom_add {k : Nat} :
    addressesFrom dst (n + k) =
      addressesFrom dst n ++ addressesFrom (dst + BitVec.ofNat 32 n) k := by
  unfold addressesFrom
  rw [List.range_add, List.map_append, List.map_map]
  congr 1
  apply List.map_congr_left
  intro i _
  show dst + BitVec.ofNat 32 (n + i) = _
  rw [BitVec.ofNat_add, BitVec.add_assoc]

/-- The copy of a sector reads the indices from 0 on, and writes the addresses from `dst` on. -/
theorem copyLogged_eq : copyLogged dst buffer n (m, log) = (memmoveUp m dst buffer n,
    ⟨log.indices ++ List.range n, log.stores ++ addressesFrom dst n⟩) := by
  induction n with
  | zero => simp [copyLogged, memmoveUp, addressesFrom]
  | succ n ih =>
    rw [copyLogged, ih, addressesFrom_add, List.range_succ]
    simp [memmoveUp, addressesFrom]

/-- The accesses that the loop makes for the given number of sectors. -/
def sectorLog (dst : BitVec 32) (bytesPerSector : BitVec 16) (count : Nat) : CopyLog :=
  ⟨(List.replicate count (List.range bytesPerSector.toNat)).flatten,
    addressesFrom dst (count * bytesPerSector.toNat)⟩

/-- The accesses of the loop are those for the sectors that the BIOS delivers. -/
theorem readSectorsLogged_eq {dap : DiskAddressPacket} {regs : Registers} {bytesRead : BitVec 32} :
    readSectorsLogged B drive buffer bytesPerSector n dap regs dst bytesRead log s =
      (readSectors B drive buffer bytesPerSector n dap regs dst bytesRead s,
        let made := sectorLog dst bytesPerSector (readsBefore B drive n dap regs s.bios).length
        ⟨log.indices ++ made.indices, log.stores ++ made.stores⟩) := by
  induction n generalizing dap regs dst bytesRead log s with
  | zero => simp [readSectorsLogged, readSectors, readsBefore, sectorLog, addressesFrom]
  | succ n ih =>
    have hwidth : bytesPerSector.setWidth 32 = BitVec.ofNat 32 bytesPerSector.toNat := by
      apply BitVec.eq_of_toNat_eq
      rw [BitVec.toNat_setWidth, BitVec.toNat_ofNat]
    rw [readSectorsLogged, readSectors, readsBefore]
    dsimp only
    split
    · simp [sectorLog, addressesFrom]
    · rw [copyLogged_eq]
      dsimp only
      rw [ih]
      simp only [sectorLog, List.length_cons, List.replicate_succ, List.flatten_cons,
        List.append_assoc, Nat.succ_mul, Nat.add_comm _ bytesPerSector.toNat, addressesFrom_add,
        hwidth]

/-- A call makes the accesses for the sectors that the BIOS delivers, and does nothing else than
    the call without the record. -/
theorem readFromDiskLogged_eq (h : DeliversSectors B ok drive bytesPerSector) (hok : ok s.bios)
    (startSector : BitVec 64) (numSectors : BitVec 32) :
    readFromDiskLogged B buffer drive dst startSector numSectors s =
      (readFromDisk B buffer drive dst startSector numSectors s,
        sectorLog dst bytesPerSector
          (deliveredSectors B buffer drive startSector numSectors s).length) := by
  have hnone : sectorLog dst bytesPerSector 0 = ⟨[], []⟩ := by simp [sectorLog, addressesFrom]
  unfold readFromDiskLogged readFromDisk deliveredSectors
  by_cases hzero : numSectors = 0
  · rw [if_pos hzero, if_pos hzero, if_pos hzero, List.length_nil, hnone]
  rw [if_neg hzero, if_neg hzero, if_neg hzero]
  obtain ⟨hok₁, -⟩ := h.checkForBiosExtensions hok
  generalize checkForBiosExtensions B drive s = checked at *
  obtain ⟨extensions, s₁⟩ := checked
  dsimp only at *
  cases extensions with
  | false => exact congrArg _ hnone.symm
  | true =>
    obtain ⟨-, -, hgeom⟩ := @h.getDiskGeometry _ _ _ _ _ s₁ 0x1A hok₁
    rw [if_neg (by simp), if_neg (by simp), if_neg (by simp)]
    generalize getDiskGeometry B drive 0x1A s₁ = measured at *
    obtain ⟨geom, s₂⟩ := measured
    cases geom with
    | none => exact congrArg _ hnone.symm
    | some geom =>
      dsimp only at *
      by_cases hsize : diskIOMaxSectorSize < geom.size
      · rw [if_pos hsize, if_pos hsize, if_pos hsize, List.length_nil, hnone]
      · rw [if_neg hsize, if_neg hsize, if_neg hsize, hgeom geom rfl, readSectorsLogged_eq]
        simp only [List.nil_append]

end logged

/-! ## Section 2: The Reads Inside the Buffer -/

/-- The call reads the buffer inside its bounds, writes the sectors that the BIOS delivers one
    behind the other from `dst` on, byte by byte and nothing else, and returns their size. The
    BIOS itself stores to the buffer, a sector at most. -/
structure ReadsSafely {β : Type*} (B : DiskBios β) (buffer : BitVec 32) (drive : BitVec 8)
    (dst : BitVec 32) (startSector : BitVec 64) (numSectors : BitVec 32)
    (bytesPerSector : BitVec 16) (s : Loader β) : Prop where
  inside : ∀ j ∈ (readFromDiskLogged B buffer drive dst startSector numSectors s).2.indices,
    j < diskIOMaxSectorSize.toNat
  stores : (readFromDiskLogged B buffer drive dst startSector numSectors s).2.stores =
    addressesFrom dst ((deliveredSectors B buffer drive startSector numSectors s).length *
      bytesPerSector.toNat)
  memory : ReadsTo s.mem dst buffer bytesPerSector.toNat
    (deliveredSectors B buffer drive startSector numSectors s).flatten
    (readFromDiskLogged B buffer drive dst startSector numSectors s).1.2.mem
  result : (readFromDiskLogged B buffer drive dst startSector numSectors s).1.1 =
    BitVec.ofNat 32 ((deliveredSectors B buffer drive startSector numSectors s).length *
      bytesPerSector.toNat)

section bounds

variable {β : Type*} {B : DiskBios β} {ok : β → Prop} {drive : BitVec 8}
  {bytesPerSector : BitVec 16} {buffer dst : BitVec 32} {startSector : BitVec 64}
  {numSectors : BitVec 32} {s : Loader β}

theorem mem_sectorLog_indices {j count : Nat} :
    j ∈ (sectorLog dst bytesPerSector count).indices ↔ count ≠ 0 ∧ j < bytesPerSector.toNat := by
  simp [sectorLog, List.mem_flatten, List.mem_replicate, List.mem_range]

/-- A sector that is larger than the buffer is read past its end. -/
theorem ReadsSafely.bounds
    (hr : ReadsSafely B buffer drive dst startSector numSectors bytesPerSector s)
    (h : DeliversSectors B ok drive bytesPerSector) (hok : ok s.bios) :
    bytesPerSector ≤ diskIOMaxSectorSize ∨
      deliveredSectors B buffer drive startSector numSectors s = [] := by
  by_contra hno
  rw [not_or, BitVec.not_le, BitVec.lt_def, ← List.length_eq_zero_iff] at hno
  have hin := hr.inside
  rw [readFromDiskLogged_eq h hok] at hin
  exact Nat.lt_irrefl _ (hin _ (mem_sectorLog_indices.mpr ⟨hno.2, hno.1⟩))

/-- A call is safe exactly if the sectors are not larger than the buffer, or none is read. -/
theorem readsSafely_iff (h : DeliversSectors B ok drive bytesPerSector) (hok : ok s.bios)
    (hbuffer : buffer.toNat < 0x100000)
    (hn : (deliveredSectors B buffer drive startSector numSectors s).length *
      bytesPerSector.toNat < 2 ^ 32)
    (hapart : Apart dst ((deliveredSectors B buffer drive startSector numSectors s).length *
      bytesPerSector.toNat) buffer diskIOMaxSectorSize.toNat) :
    ReadsSafely B buffer drive dst startSector numSectors bytesPerSector s ↔
      bytesPerSector ≤ diskIOMaxSectorSize ∨
        deliveredSectors B buffer drive startSector numSectors s = [] := by
  constructor
  · exact fun hr => hr.bounds h hok
  · intro hcond
    have hapart' : Apart dst ((deliveredSectors B buffer drive startSector numSectors s).length *
        bytesPerSector.toNat) buffer bytesPerSector.toNat := by
      rcases hcond with hle | hnil
      · exact fun x hdst hin => hapart x hdst (hin.mono hle)
      · intro x hdst _
        rw [hnil, List.length_nil, Nat.zero_mul] at hdst
        exact Nat.not_lt_zero _ hdst
    obtain ⟨hresult, -, hmemory⟩ := readFromDisk_delivered h hok hbuffer (Nat.le_of_lt hn) hapart'
    have hlogged := @readFromDiskLogged_eq _ _ _ _ _ buffer dst _ h hok startSector numSectors
    refine ⟨?_, ?_, ?_, ?_⟩
    · intro j hj
      rw [hlogged, mem_sectorLog_indices] at hj
      rcases hcond with hle | hnil
      · exact Nat.lt_of_lt_of_le hj.2 hle
      · exact absurd (congrArg List.length hnil) hj.1
    · rw [hlogged]
      rfl
    · rw [hlogged]
      exact hmemory
    · rw [hlogged]
      exact hresult

end bounds

/-! ## Section 3: A Drive with Large Sectors -/

/-- The answer of a BIOS with the extensions. -/
def extensionsAnswer : Registers := { clearRegistry with ebx := 0xAA55, ecx := 1 }

/-- A drive of zeros with sectors of the given size. -/
def zeroDrive (bytesPerSector : BitVec 16) : DiskBios Unit where
  checkExtensions _ _ := (extensionsAnswer, ())
  getGeometry _ _ _ := (⟨0x1A, bytesPerSector⟩, extensionsAnswer, ())
  read _ _ _ := (List.replicate bytesPerSector.toNat 0, extensionsAnswer, ())

def zeroLoader : Loader Unit := ⟨fun _ => 0, ()⟩

theorem deliversSectors_zeroDrive (bytesPerSector : BitVec 16) :
    DeliversSectors (zeroDrive bytesPerSector) (fun _ => True) 0x80 bytesPerSector where
  extensions _ _ _ _ _ := trivial
  geometry _ _ _ _ _ := ⟨fun _ => rfl, trivial⟩
  read _ _ _ _ _ _ :=
    ⟨Nat.le_of_eq List.length_replicate, fun _ => List.length_replicate, trivial⟩

theorem deliveredSectors_zeroDrive (bytesPerSector : BitVec 16) :
    deliveredSectors (zeroDrive bytesPerSector) 0x8000 0x80 0 1 zeroLoader =
      [List.replicate bytesPerSector.toNat 0] := by
  have hcarry : ¬extensionsAnswer.Carry := by decide
  have hextensions : checkForBiosExtensions (zeroDrive bytesPerSector) 0x80 zeroLoader =
      (true, zeroLoader) := by
    have hno : ¬(extensionsAnswer.Carry ∨ extensionsAnswer.bx ≠ 0xAA55 ∨
        extensionsAnswer.cx &&& 1 = 0) := by decide
    exact Prod.ext (decide_eq_true hno) rfl
  have hgeometry : getDiskGeometry (zeroDrive bytesPerSector) 0x80 0x1A zeroLoader =
      (some ⟨0x1A, bytesPerSector⟩, zeroLoader) := Prod.ext (if_neg hcarry) rfl
  rw [deliveredSectors, if_neg (by decide), hextensions]
  dsimp only
  rw [if_neg (by decide), hgeometry]
  dsimp only
  rw [if_neg (by decide)]
  exact if_neg hcarry

/-- One sector of 512 bytes. -/
theorem readsSafely_iff_zeroDrive :
    ReadsSafely (zeroDrive 0x200) 0x8000 0x80 0x100000 0 1 0x200 zeroLoader := by
  apply (readsSafely_iff (deliversSectors_zeroDrive 0x200) trivial (by decide) ?_ ?_).mpr
  · exact .inl (by decide)
  · rw [deliveredSectors_zeroDrive]
    decide
  · rw [deliveredSectors_zeroDrive]
    intro x hdst hbuffer
    have hdst' : (x - 0x100000).toNat < 512 := hdst
    have hbuffer' : (x - 0x8000).toNat < 4096 := hbuffer
    bv_omega

/-- One sector of 4097 bytes: the last byte comes from behind the buffer. -/
theorem not_readsSafely_zeroDrive :
    ¬ReadsSafely (zeroDrive 0x1001) 0x8000 0x80 0x100000 0 1 0x1001 zeroLoader := by
  intro hr
  rcases hr.bounds (deliversSectors_zeroDrive 0x1001) trivial with hle | hnil
  · exact absurd hle (by decide)
  · rw [deliveredSectors_zeroDrive] at hnil
    exact List.cons_ne_nil _ _ hnil

end Avos.Multiboot
