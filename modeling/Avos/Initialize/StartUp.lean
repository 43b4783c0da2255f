import Avos.Library.Transition
import Mathlib.Algebra.GroupWithZero.Nat
import Mathlib.Algebra.Order.BigOperators.Group.List
import Mathlib.Algebra.Order.Group.Nat
import Mathlib.Data.List.Nodup
import Mathlib.Data.List.Perm.Subperm

/-! # Starting the Other Processors

  `Initialize_System` and `Initialize_CPU` of `kernel/arch/initialize/src/initialize.c` on the
  boot processor, and `startap.asm` on the processors that it starts. All of them begin on one
  stack, and count themselves in `Kernel_numcpus_online` with a load and a store.

  Nothing but the order of the start-ups keeps them apart: the boot processor waits for the
  count to change before it starts the next one. In every interleaving one processor is being
  started at most, and no count is lost (`startUp_sound`).
-/

open Transition

namespace Avos

namespace StartUp

/-! ## Section 1: Interrupts Between Processors -/

/-- What a processor gets. -/
inductive Ipi where
  | init (dest : BitVec 8)
  | startup (dest vector : BitVec 8)
  deriving DecidableEq

/-- What the local APIC sends when `lo` is written to `LAPIC_REG_ICRLO`, with `hi` in
    `LAPIC_REG_ICRHI`. An INIT whose level is deasserted does nothing to a processor. -/
def send (hi lo : BitVec 32) : List Ipi :=
  let dest := hi.extractLsb' 24 8
  if lo &&& 0x700 = 0x500 then if lo &&& 0x4000 = 0 then [] else [.init dest]
  else if lo &&& 0x700 = 0x600 then [.startup dest (lo.extractLsb' 0 8)]
  else []

/-- `local_apic_id << 24`. -/
def icrHi (id : BitVec 8) : BitVec 32 := id.setWidth 32 <<< 24

/-- `LAPIC_ICR_DELIVERY_INIT | LAPIC_ICR_TRIGGER_LEVEL | LAPIC_ICR_LEVEL_ASSERT`. -/
def icrAssert : BitVec 32 := 5 <<< 8 ||| 1 <<< 15 ||| 1 <<< 14

/-- `LAPIC_ICR_DELIVERY_INIT | LAPIC_ICR_TRIGGER_LEVEL | LAPIC_ICR_LEVEL_DEASSERT`. -/
def icrDeassert : BitVec 32 := 5 <<< 8 ||| 1 <<< 15 ||| 0

/-- `KERNEL_AP_BOOT_START_ADDR`, where the code of `StartAP` has been copied to. -/
def bootStartAddr : BitVec 32 := 0x8000

/-- `LAPIC_ICR_DELIVERY_STARTUP | LAPIC_STARTUP_VECTOR(boot_address)`. -/
def icrStartup : BitVec 32 := 6 <<< 8 ||| bootStartAddr >>> 12

/-! ## Section 2: The Processors -/

/-- Where the boot processor is, with the entries of `LocalAPIC_InfoPtrs` that are left. `id` is
    the processor that `Initialize_CPU` starts, and `n` is `inumcpus`. -/
inductive BootPc where
  /-- `i < LocalAPIC_Num`, and the test for the boot processor itself. -/
  | test (rest : List (BitVec 8))
  | readNum (id : BitVec 8) (rest : List (BitVec 8))
  | assertInit (id : BitVec 8) (rest : List (BitVec 8)) (n : BitVec 32)
  | deassertInit (id : BitVec 8) (rest : List (BitVec 8)) (n : BitVec 32)
  | startup1 (id : BitVec 8) (rest : List (BitVec 8)) (n : BitVec 32)
  | startup2 (id : BitVec 8) (rest : List (BitVec 8)) (n : BitVec 32)
  | wait (id : BitVec 8) (rest : List (BitVec 8)) (n : BitVec 32)
  /-- `Kernel_pagedirectory[0] = 0`. -/
  | unmap
  | working

/-- Where another processor is. -/
inductive Pc where
  | halted
  /-- It has got an INIT. -/
  | waiting
  /-- `StartAP`, which sets the stack that all of them begin on. -/
  | startAP (addr : BitVec 32)
  /-- `Initialize_HigherHalf`: paging is enabled, and the next instruction is in low memory. -/
  | higherHalf
  /-- `Initialize_Stack`, which leaves the common stack. -/
  | initStack
  /-- `Initialize_ThisProcessor`, up to `Kernel_numcpus_online++`. -/
  | thisProcessor
  /-- The count has been loaded. -/
  | storeNum (num : BitVec 32)
  | working
  /-- The next instruction is not mapped. -/
  | fault
  deriving DecidableEq

/-- The processors, the interrupts on their way from the boot processor, and what is shared;
    `lowMapped` says whether `Kernel_pagedirectory[0]` is present. -/
structure State where
  boot : BootPc
  cpu : BitVec 8 → Pc
  ipis : List Ipi
  numcpusOnline : BitVec 32
  lowMapped : Bool

namespace State

/-- Replace the place of one processor. -/
def setCpu (s : State) (c : BitVec 8) (pc : Pc) : State :=
  { s with cpu := Function.update s.cpu c pc }

section setCpu

variable {s : State} {c d : BitVec 8} {pc : Pc}

@[simp] theorem setCpu_cpu_self : (s.setCpu c pc).cpu c = pc := by simp [setCpu]

theorem setCpu_cpu_ne (h : d ≠ c) : (s.setCpu c pc).cpu d = s.cpu d := by simp [setCpu, h]

@[simp] theorem setCpu_boot : (s.setCpu c pc).boot = s.boot := rfl

@[simp] theorem setCpu_ipis : (s.setCpu c pc).ipis = s.ipis := rfl

@[simp] theorem setCpu_numcpusOnline : (s.setCpu c pc).numcpusOnline = s.numcpusOnline := rfl

@[simp] theorem setCpu_lowMapped : (s.setCpu c pc).lowMapped = s.lowMapped := rfl

/-- Nothing changes for a processor that stays where it is. -/
theorem setCpu_eq (h : s.cpu c = pc) : s.setCpu c pc = s := by
  rw [setCpu, ← h, Function.update_eq_self]

end setCpu

/-- The boot processor goes on. -/
def bootNext (bsp : BitVec 8) (s : State) : State :=
  match s.boot with
  | .test [] => { s with boot := .unmap }
  | .test (id :: rest) =>
      { s with boot := if id = bsp then .test rest else .readNum id rest }
  | .readNum id rest => { s with boot := .assertInit id rest s.numcpusOnline }
  | .assertInit id rest n =>
      { s with boot := .deassertInit id rest n, ipis := s.ipis ++ send (icrHi id) icrAssert }
  | .deassertInit id rest n =>
      { s with boot := .startup1 id rest n, ipis := s.ipis ++ send (icrHi id) icrDeassert }
  | .startup1 id rest n =>
      { s with boot := .startup2 id rest n, ipis := s.ipis ++ send (icrHi id) icrStartup }
  | .startup2 id rest n =>
      { s with boot := .wait id rest n, ipis := s.ipis ++ send (icrHi id) icrStartup }
  | .wait _ rest n => if s.numcpusOnline = n then s else { s with boot := .test rest }
  | .unmap => { s with boot := .working, lowMapped := false }
  | .working => s

/-- The next interrupt arrives. A processor takes a STARTUP only when it waits for one. -/
def deliver (s : State) : State :=
  match s.ipis with
  | [] => s
  | .init d :: ipis => { s with ipis }.setCpu d .waiting
  | .startup d vector :: ipis =>
      if s.cpu d = .waiting then
        { s with ipis }.setCpu d (.startAP (vector.setWidth 32 <<< 12))
      else { s with ipis }

/-- Another processor goes on. -/
def cpuNext (c : BitVec 8) (s : State) : State :=
  match s.cpu c with
  | .startAP _ => s.setCpu c .higherHalf
  | .higherHalf => s.setCpu c (if s.lowMapped then .initStack else .fault)
  | .initStack => s.setCpu c .thisProcessor
  | .thisProcessor => s.setCpu c (.storeNum s.numcpusOnline)
  | .storeNum num => { s.setCpu c .working with numcpusOnline := num + 1 }
  | .halted | .waiting | .working | .fault => s

end State

/-- Who goes on. -/
inductive Label where
  | boot
  | deliver
  | cpu (c : BitVec 8)

/-- The processors in `ids`, one of which is the boot processor `bsp`. The others wait for a
    STARTUP already, or do not. -/
def system (ids : List (BitVec 8)) (bsp : BitVec 8) : System State Label where
  init s := s.boot = .test ids ∧ s.cpu bsp = .working ∧
    (∀ c, c ≠ bsp → s.cpu c = .halted ∨ s.cpu c = .waiting) ∧ s.ipis = [] ∧
      s.numcpusOnline = 1 ∧ s.lowMapped = true
  step s label s' :=
    match label with
    | .boot => s' = s.bootNext bsp
    | .deliver => s' = s.deliver
    | .cpu c => c ≠ bsp ∧ s' = s.cpuNext c

/-! ## Section 3: What Is to Hold -/

/-- The processor executes code of the kernel and is not online yet. -/
def Pc.IsStarting : Pc → Prop
  | .startAP _ | .higherHalf | .initStack | .thisProcessor | .storeNum _ => True
  | .halted | .waiting | .working | .fault => False

/-- The processor uses the stack that all of them begin on. -/
def Pc.OnBootStack : Pc → Prop
  | .startAP _ | .higherHalf | .initStack => True
  | _ => False

/-- The number of processors that have been started. -/
def numStarted (ids : List (BitVec 8)) (bsp : BitVec 8) (s : State) : Nat :=
  (ids.filter fun c => c ≠ bsp ∧ s.cpu c = .working).length

/-- The start-up is sound. -/
structure Sound (ids : List (BitVec 8)) (bsp : BitVec 8) (s : State) : Prop where
  /-- At most one processor is being started, so that it has the common stack to itself. -/
  one : ∀ c d, (s.cpu c).IsStarting → (s.cpu d).IsStarting → c = d
  boots : ∀ c addr, s.cpu c = .startAP addr → addr = bootStartAddr
  /-- Low memory is mapped as long as it is needed. -/
  noFault : ∀ c, s.cpu c ≠ .fault
  /-- No count is lost. -/
  counts : s.numcpusOnline.toNat = 1 + numStarted ids bsp s
  /-- Behind the start-up all of them are online. -/
  complete : s.boot = .working → ∀ c ∈ ids, s.cpu c = .working

/-! ## Section 4: The Invariant -/

/-- The interrupts that `Initialize_CPU` sends to a processor. -/
def startupIpi (id : BitVec 8) : Ipi := .startup id 8

theorem icrHi_dest (id : BitVec 8) : (icrHi id).extractLsb' 24 8 = id := by
  ext i hi
  have hlt : 24 + i < 32 := by omega
  have hge : ¬24 + i < 24 := by omega
  simp [icrHi, hlt, hge, BitVec.getLsbD_eq_getElem hi]

theorem send_assert (id : BitVec 8) : send (icrHi id) icrAssert = [.init id] := by
  rw [send, icrHi_dest]
  rfl

theorem send_startup (id : BitVec 8) : send (icrHi id) icrStartup = [startupIpi id] := by
  rw [send, icrHi_dest]
  rfl

/-- The processor has not been started. -/
def Pc.IsParked (pc : Pc) : Prop := pc = .halted ∨ pc = .waiting

/-- How many of these have been started. -/
def numOthers (bsp : BitVec 8) (l : List (BitVec 8)) : Nat := (l.filter fun c => c ≠ bsp).length

/-- The processors in `done` are online, and the others have not been started, but for `id`. -/
structure Apart (bsp : BitVec 8) (done : List (BitVec 8)) (id : Option (BitVec 8)) (s : State) :
    Prop where
  up : ∀ c, c = bsp ∨ c ∈ done → s.cpu c = .working
  parked : ∀ c, c ≠ bsp → c ∉ done → id ≠ some c → (s.cpu c).IsParked

/-- Between two start-ups: what is still on its way does not matter. -/
structure Settled (bsp : BitVec 8) (done : List (BitVec 8)) (s : State) : Prop
    extends Apart bsp done none s where
  stale : ∀ ipi ∈ s.ipis, ∃ c ∈ done, ipi = startupIpi c
  online : s.numcpusOnline = BitVec.ofNat 32 (1 + numOthers bsp done)

/-- How far the start-up of `id` is, of which `k` STARTUPs have been sent. -/
inductive Phase (done : List (BitVec 8)) (id : BitVec 8) (n : BitVec 32) (k : Nat) (s : State) :
    Prop
  | sent (pre : List Ipi) : (s.cpu id).IsParked → s.numcpusOnline = n →
      (∀ ipi ∈ pre, ∃ c ∈ done, ipi = startupIpi c) →
      s.ipis = pre ++ .init id :: List.replicate k (startupIpi id) → Phase done id n k s
  | reset : s.cpu id = .waiting → s.numcpusOnline = n →
      s.ipis = List.replicate k (startupIpi id) → Phase done id n k s
  | running : (s.cpu id).IsStarting → (∀ addr, s.cpu id = .startAP addr → addr = bootStartAddr) →
      (∀ num, s.cpu id = .storeNum num → num = n) → s.numcpusOnline = n →
      (∀ ipi ∈ s.ipis, ipi = startupIpi id) → Phase done id n k s
  | up : s.cpu id = .working → s.numcpusOnline = n + 1 →
      (∀ ipi ∈ s.ipis, ipi = startupIpi id) → Phase done id n k s

/-- While `id` is started. -/
structure Starting (bsp : BitVec 8) (done : List (BitVec 8)) (id : BitVec 8) (n : BitVec 32)
    (k : Nat) (s : State) : Prop extends Apart bsp done (some id) s where
  num : n = BitVec.ofNat 32 (1 + numOthers bsp done)
  phase : Phase done id n k s

/-- What holds where the boot processor is. -/
def BootOk (ids : List (BitVec 8)) (bsp : BitVec 8) (s : State) : BootPc → Prop
  | .test rest => ∃ done, ids = done ++ rest ∧ Settled bsp done s
  | .readNum id rest => ∃ done, ids = done ++ id :: rest ∧ id ≠ bsp ∧ Settled bsp done s
  | .assertInit id rest n =>
      ∃ done, ids = done ++ id :: rest ∧ id ≠ bsp ∧ Settled bsp done s ∧ n = s.numcpusOnline
  | .deassertInit id rest n | .startup1 id rest n =>
      ∃ done, ids = done ++ id :: rest ∧ id ≠ bsp ∧ Starting bsp done id n 0 s
  | .startup2 id rest n =>
      ∃ done, ids = done ++ id :: rest ∧ id ≠ bsp ∧ Starting bsp done id n 1 s
  | .wait id rest n =>
      ∃ done, ids = done ++ id :: rest ∧ id ≠ bsp ∧ Starting bsp done id n 2 s
  | .unmap | .working => Settled bsp ids s

/-- The invariant. -/
structure Inv (ids : List (BitVec 8)) (bsp : BitVec 8) (s : State) : Prop where
  boot : BootOk ids bsp s s.boot
  low : s.boot ≠ .working → s.lowMapped = true

section inv

variable {ids done rest : List (BitVec 8)} {bsp id c : BitVec 8} {n : BitVec 32} {k : Nat}
  {s s' : State} {ipis : List Ipi} {pc : Pc} {o : Option (BitVec 8)}

theorem Pc.IsParked.not_starting (h : pc.IsParked) : ¬pc.IsStarting := by
  rcases h with rfl | rfl <;> exact id

/-- Processors that have not been started or are online stay where they are. -/
theorem cpuNext_eq (h : (s.cpu c).IsParked ∨ s.cpu c = .working) : s.cpuNext c = s := by
  rw [State.cpuNext]
  rcases h with (h | h) | h <;> rw [h]

theorem Apart.congr (h : Apart bsp done o s) (hcpu : s'.cpu = s.cpu) : Apart bsp done o s' where
  up c hc := hcpu ▸ h.up c hc
  parked c hbsp hdone hne := hcpu ▸ h.parked c hbsp hdone hne

/-- Only the processor that is started moves. -/
theorem Apart.setCpu (h : Apart bsp done (some id) s) (hbsp : id ≠ bsp) (hdone : id ∉ done) :
    Apart bsp done (some id) (s.setCpu id pc) := by
  have hne : ∀ c, c = bsp ∨ c ∈ done → c ≠ id := by
    rintro c (rfl | hc) rfl
    · exact hbsp rfl
    · exact hdone hc
  constructor
  · intro c hc
    rw [State.setCpu_cpu_ne (hne c hc)]
    exact h.up c hc
  · intro c hcbsp hcdone hcid
    rw [State.setCpu_cpu_ne fun heq => hcid (congrArg some heq.symm)]
    exact h.parked c hcbsp hcdone hcid

/-! ### Interrupts -/

/-- A STARTUP for a processor that does not wait for one is lost. -/
theorem deliver_startup (hipis : s.ipis = startupIpi c :: ipis) (hc : s.cpu c ≠ .waiting) :
    s.deliver = { s with ipis } := by
  rw [State.deliver, hipis]
  exact if_neg hc

theorem Settled.deliver (h : Settled bsp done s) : Settled bsp done s.deliver := by
  cases hipis : s.ipis with
  | nil =>
    rw [State.deliver, hipis]
    exact h
  | cons ipi ipis =>
    have hstale := h.stale
    rw [hipis] at hstale
    obtain ⟨c, hc, rfl⟩ := hstale ipi List.mem_cons_self
    have hworking := h.up c (.inr hc)
    rw [deliver_startup hipis (by rw [hworking]; exact Pc.noConfusion)]
    exact ⟨h.toApart.congr rfl, fun ipi' hmem => hstale ipi' (List.mem_cons_of_mem _ hmem),
      h.online⟩

theorem Starting.deliver (h : Starting bsp done id n k s) (hbsp : id ≠ bsp)
    (hdone : id ∉ done) : Starting bsp done id n k s.deliver := by
  cases h.phase with
  | sent pre hparked honline hpre hipis =>
    cases pre with
    | nil =>
      have hdeliver : s.deliver =
          { s with ipis := List.replicate k (startupIpi id) }.setCpu id .waiting := by
        rw [State.deliver, hipis]
        rfl
      rw [hdeliver]
      exact ⟨(h.toApart.setCpu hbsp hdone).congr rfl, h.num,
        .reset State.setCpu_cpu_self honline rfl⟩
    | cons ipi pre =>
      obtain ⟨c, hc, rfl⟩ := hpre ipi List.mem_cons_self
      have hworking := h.up c (.inr hc)
      rw [deliver_startup hipis (by rw [hworking]; exact Pc.noConfusion)]
      exact ⟨h.toApart.congr rfl, h.num,
        .sent pre hparked honline (fun ipi' hmem => hpre ipi' (List.mem_cons_of_mem _ hmem)) rfl⟩
  | reset hwaiting honline hipis =>
    cases k with
    | zero =>
      rw [State.deliver, hipis]
      exact h
    | succ k =>
      rw [List.replicate_succ] at hipis
      have hdeliver : s.deliver =
          { s with ipis := List.replicate k (startupIpi id) }.setCpu id
            (.startAP bootStartAddr) := by
        rw [State.deliver, hipis]
        exact if_pos hwaiting
      rw [hdeliver]
      refine ⟨(h.toApart.setCpu hbsp hdone).congr rfl, h.num, .running ?_ ?_ ?_ honline ?_⟩
      · rw [State.setCpu_cpu_self]
        trivial
      · intro addr haddr
        rw [State.setCpu_cpu_self] at haddr
        exact (Pc.startAP.inj haddr).symm
      · intro num hnum
        rw [State.setCpu_cpu_self] at hnum
        exact Pc.noConfusion hnum
      · exact fun ipi hmem => List.eq_of_mem_replicate hmem
  | running hstarting hstart hstore honline hipis =>
    cases hqueue : s.ipis with
    | nil =>
      rw [State.deliver, hqueue]
      exact h
    | cons ipi ipis =>
      rw [hqueue] at hipis
      obtain rfl := hipis ipi List.mem_cons_self
      have hne : s.cpu id ≠ .waiting := by
        intro hwaiting
        rw [hwaiting] at hstarting
        exact hstarting
      rw [deliver_startup hqueue hne]
      exact ⟨h.toApart.congr rfl, h.num, .running hstarting hstart hstore honline
        fun ipi' hmem => hipis ipi' (List.mem_cons_of_mem _ hmem)⟩
  | up hworking honline hipis =>
    cases hqueue : s.ipis with
    | nil =>
      rw [State.deliver, hqueue]
      exact h
    | cons ipi ipis =>
      rw [hqueue] at hipis
      obtain rfl := hipis ipi List.mem_cons_self
      rw [deliver_startup hqueue (by rw [hworking]; exact Pc.noConfusion)]
      exact ⟨h.toApart.congr rfl, h.num, .up hworking honline
        fun ipi' hmem => hipis ipi' (List.mem_cons_of_mem _ hmem)⟩

/-! ### The other processors -/

theorem Settled.cpuNext (h : Settled bsp done s) (hc : c ≠ bsp) :
    Settled bsp done (s.cpuNext c) := by
  by_cases hdone : c ∈ done
  · rw [cpuNext_eq (.inr (h.up c (.inr hdone)))]
    exact h
  · rw [cpuNext_eq (.inl (h.parked c hc hdone nofun))]
    exact h

/-- The steps of the processor that is started. -/
theorem Starting.cpuNext_self (h : Starting bsp done id n k s) (hbsp : id ≠ bsp)
    (hdone : id ∉ done) (hlow : s.lowMapped = true) :
    Starting bsp done id n k (s.cpuNext id) := by
  cases h.phase with
  | sent pre hparked honline hpre hipis =>
    rw [cpuNext_eq (.inl hparked)]
    exact h
  | reset hwaiting honline hipis =>
    rw [cpuNext_eq (.inl (.inr hwaiting))]
    exact h
  | running hstarting hstart hstore honline hipis =>
    have hmoves : ∀ pc : Pc, pc.IsStarting → (∀ addr, pc ≠ .startAP addr) →
        (∀ num, pc = .storeNum num → num = n) → Starting bsp done id n k (s.setCpu id pc) := by
      intro pc hpc hnot hnum
      refine ⟨h.toApart.setCpu hbsp hdone, h.num, .running ?_ ?_ ?_ honline hipis⟩
      · rw [State.setCpu_cpu_self]
        exact hpc
      · intro addr haddr
        rw [State.setCpu_cpu_self] at haddr
        exact absurd haddr (hnot addr)
      · rw [State.setCpu_cpu_self]
        exact hnum
    rw [State.cpuNext]
    cases hpc : s.cpu id with
    | startAP addr => exact hmoves _ trivial nofun nofun
    | higherHalf =>
      dsimp only
      rw [if_pos hlow]
      exact hmoves _ trivial nofun nofun
    | initStack => exact hmoves _ trivial nofun nofun
    | thisProcessor =>
      refine hmoves _ trivial nofun fun num hnum => ?_
      rw [← Pc.storeNum.inj hnum, honline]
    | storeNum num =>
      obtain rfl := hstore num hpc
      exact ⟨(h.toApart.setCpu hbsp hdone).congr rfl, h.num,
        .up State.setCpu_cpu_self rfl hipis⟩
    | halted =>
      rw [hpc] at hstarting
      exact hstarting.elim
    | waiting =>
      rw [hpc] at hstarting
      exact hstarting.elim
    | working =>
      rw [hpc] at hstarting
      exact hstarting.elim
    | fault =>
      rw [hpc] at hstarting
      exact hstarting.elim
  | up hworking honline hipis =>
    rw [cpuNext_eq (.inr hworking)]
    exact h

theorem Starting.cpuNext (h : Starting bsp done id n k s) (hbsp : id ≠ bsp) (hdone : id ∉ done)
    (hlow : s.lowMapped = true) (hc : c ≠ bsp) : Starting bsp done id n k (s.cpuNext c) := by
  by_cases hid : c = id
  · rw [hid]
    exact h.cpuNext_self hbsp hdone hlow
  by_cases hcdone : c ∈ done
  · rw [cpuNext_eq (.inr (h.up c (.inr hcdone)))]
    exact h
  · rw [cpuNext_eq (.inl (h.parked c hc hcdone fun heq => hid (Option.some.inj heq).symm))]
    exact h

/-! ### The boot processor -/

theorem numOthers_append (hid : id ≠ bsp) : numOthers bsp (done ++ [id]) =
    numOthers bsp done + 1 := by
  simp [numOthers, hid]

/-- A processor that is started is one that has not been. -/
theorem Settled.starting (h : Settled bsp done s) (hid : id ≠ bsp) (hnew : id ∉ done)
    (hipis : s'.ipis = s.ipis ++ [.init id]) (hcpu : s'.cpu = s.cpu)
    (honline : s'.numcpusOnline = s.numcpusOnline) :
    Starting bsp done id s.numcpusOnline 0 s' := by
  refine ⟨⟨fun c hc => ?_, fun c hcbsp hcdone _ => ?_⟩, h.online,
    .sent s.ipis ?_ honline h.stale hipis⟩
  · rw [hcpu]
    exact h.up c hc
  · rw [hcpu]
    exact h.parked c hcbsp hcdone nofun
  · rw [hcpu]
    exact h.parked id hid hnew nofun

/-- Another STARTUP is sent. -/
theorem Starting.send (h : Starting bsp done id n k s)
    (hipis : s'.ipis = s.ipis ++ [startupIpi id]) (hcpu : s'.cpu = s.cpu)
    (honline : s'.numcpusOnline = s.numcpusOnline) : Starting bsp done id n (k + 1) s' := by
  refine ⟨h.toApart.congr hcpu, h.num, ?_⟩
  have hlast : List.replicate (k + 1) (startupIpi id) =
      List.replicate k (startupIpi id) ++ [startupIpi id] := List.replicate_succ'
  have hmem : (∀ ipi ∈ s.ipis, ipi = startupIpi id) → ∀ ipi ∈ s'.ipis, ipi = startupIpi id := by
    intro hall ipi hin
    rw [hipis] at hin
    rcases List.mem_append.mp hin with hin | hin
    · exact hall ipi hin
    · exact List.mem_singleton.mp hin
  cases h.phase with
  | sent pre hparked hnum hpre hqueue =>
    refine .sent pre (hcpu ▸ hparked) (honline.trans hnum) hpre ?_
    rw [hipis, hqueue, hlast, List.append_assoc, List.cons_append]
  | reset hwaiting hnum hqueue =>
    refine .reset (hcpu ▸ hwaiting) (honline.trans hnum) ?_
    rw [hipis, hqueue, hlast]
  | running hstarting hstart hstore hnum hqueue =>
    refine .running (hcpu ▸ hstarting) ?_ ?_ (honline.trans hnum) (hmem hqueue)
    · rw [hcpu]
      exact hstart
    · rw [hcpu]
      exact hstore
  | up hworking hnum hqueue =>
    exact .up (hcpu ▸ hworking) (honline.trans hnum) (hmem hqueue)

theorem Starting.congr (h : Starting bsp done id n k s) (hipis : s'.ipis = s.ipis)
    (hcpu : s'.cpu = s.cpu) (honline : s'.numcpusOnline = s.numcpusOnline) :
    Starting bsp done id n k s' := by
  refine ⟨h.toApart.congr hcpu, h.num, ?_⟩
  cases h.phase with
  | sent pre hparked hnum hpre hqueue =>
    exact .sent pre (hcpu ▸ hparked) (honline.trans hnum) hpre (hipis.trans hqueue)
  | reset hwaiting hnum hqueue =>
    exact .reset (hcpu ▸ hwaiting) (honline.trans hnum) (hipis.trans hqueue)
  | running hstarting hstart hstore hnum hqueue =>
    refine .running (hcpu ▸ hstarting) ?_ ?_ (honline.trans hnum) (hipis ▸ hqueue)
    · rw [hcpu]
      exact hstart
    · rw [hcpu]
      exact hstore
  | up hworking hnum hqueue => exact .up (hcpu ▸ hworking) (honline.trans hnum) (hipis ▸ hqueue)

theorem Settled.congr (h : Settled bsp done s) (hipis : s'.ipis = s.ipis) (hcpu : s'.cpu = s.cpu)
    (honline : s'.numcpusOnline = s.numcpusOnline) : Settled bsp done s' :=
  ⟨h.toApart.congr hcpu, hipis ▸ h.stale, honline.trans h.online⟩

/-- The count has changed, so the processor is online. -/
theorem Starting.settled (h : Starting bsp done id n k s) (hid : id ≠ bsp)
    (hne : s.numcpusOnline ≠ n) : Settled bsp (done ++ [id]) s := by
  cases h.phase with
  | sent _ _ honline _ _ => exact absurd honline hne
  | reset _ honline _ => exact absurd honline hne
  | running _ _ _ honline _ => exact absurd honline hne
  | up hworking honline hqueue =>
    refine ⟨⟨fun c hc => ?_, fun c hcbsp hcdone _ => ?_⟩, fun ipi hin => ?_, ?_⟩
    · rcases hc with hc | hc
      · exact h.up c (.inl hc)
      · rcases List.mem_append.mp hc with hc | hc
        · exact h.up c (.inr hc)
        · rw [List.mem_singleton.mp hc]
          exact hworking
    · rw [List.mem_append, not_or, List.mem_singleton] at hcdone
      exact h.parked c hcbsp hcdone.1 fun heq => hcdone.2 (Option.some.inj heq).symm
    · exact ⟨id, List.mem_append_right _ (List.mem_singleton_self id), hqueue ipi hin⟩
    · rw [honline, h.num, numOthers_append hid, ← Nat.add_assoc, BitVec.ofNat_add (1 + _) 1]
      rfl

/-- The boot processor skips itself. -/
theorem Settled.skip (h : Settled bsp done s) : Settled bsp (done ++ [bsp]) s := by
  refine ⟨⟨fun c hc => ?_, fun c hcbsp hcdone => ?_⟩, fun ipi hin => ?_, ?_⟩
  · rcases hc with hc | hc
    · exact h.up c (.inl hc)
    · rcases List.mem_append.mp hc with hc | hc
      · exact h.up c (.inr hc)
      · exact h.up c (.inl (List.mem_singleton.mp hc))
  · exact h.parked c hcbsp fun hc => hcdone (List.mem_append_left _ hc)
  · obtain ⟨c, hc, heq⟩ := h.stale ipi hin
    exact ⟨c, List.mem_append_left _ hc, heq⟩
  · rw [h.online]
    simp [numOthers]

theorem not_mem_of_nodup (hids : ids.Nodup) (hsplit : ids = done ++ id :: rest) : id ∉ done := by
  rw [hsplit, List.nodup_append] at hids
  exact fun hmem => hids.2.2 id hmem id List.mem_cons_self rfl

theorem inv_init (h : (system ids bsp).init s) : Inv ids bsp s := by
  obtain ⟨hboot, hbsp, hothers, hipis, honline, hlow⟩ := h
  refine ⟨?_, fun _ => hlow⟩
  rw [hboot]
  refine ⟨[], rfl, ⟨fun c hc => ?_, fun c hc _ _ => hothers c hc⟩, ?_, honline⟩
  · rcases hc with rfl | hc
    · exact hbsp
    · exact absurd hc List.not_mem_nil
  · rw [hipis]
    exact fun ipi hin => absurd hin List.not_mem_nil

theorem Inv.bootNext (h : Inv ids bsp s) (hids : ids.Nodup) : Inv ids bsp (s.bootNext bsp) := by
  obtain ⟨hok, hlow⟩ := h
  rw [State.bootNext]
  cases hboot : s.boot with
  | test rest =>
    rw [hboot] at hok hlow
    obtain ⟨done, hsplit, hsettled⟩ := hok
    have hlow' := hlow nofun
    cases rest with
    | nil =>
      rw [List.append_nil] at hsplit
      exact ⟨hsplit ▸ hsettled.congr rfl rfl rfl, fun _ => hlow'⟩
    | cons id rest =>
      refine ⟨?_, fun _ => hlow'⟩
      dsimp only
      split
      · next hid =>
        refine ⟨done ++ [id], by rw [hsplit, List.append_assoc]; rfl, ?_⟩
        rw [hid]
        exact hsettled.skip.congr rfl rfl rfl
      · next hid => exact ⟨done, hsplit, hid, hsettled.congr rfl rfl rfl⟩
  | readNum id rest =>
    rw [hboot] at hok hlow
    obtain ⟨done, hsplit, hid, hsettled⟩ := hok
    exact ⟨⟨done, hsplit, hid, hsettled.congr rfl rfl rfl, rfl⟩, fun _ => hlow nofun⟩
  | assertInit id rest n =>
    rw [hboot] at hok hlow
    obtain ⟨done, hsplit, hid, hsettled, rfl⟩ := hok
    refine ⟨⟨done, hsplit, hid, ?_⟩, fun _ => hlow nofun⟩
    exact hsettled.starting hid (not_mem_of_nodup hids hsplit)
      (congrArg (s.ipis ++ ·) (send_assert id)) rfl rfl
  | deassertInit id rest n =>
    rw [hboot] at hok hlow
    obtain ⟨done, hsplit, hid, hstarting⟩ := hok
    exact ⟨⟨done, hsplit, hid, hstarting.congr (List.append_nil _) rfl rfl⟩, fun _ => hlow nofun⟩
  | startup1 id rest n =>
    rw [hboot] at hok hlow
    obtain ⟨done, hsplit, hid, hstarting⟩ := hok
    exact ⟨⟨done, hsplit, hid, hstarting.send (congrArg (s.ipis ++ ·) (send_startup id)) rfl rfl⟩,
      fun _ => hlow nofun⟩
  | startup2 id rest n =>
    rw [hboot] at hok hlow
    obtain ⟨done, hsplit, hid, hstarting⟩ := hok
    exact ⟨⟨done, hsplit, hid, hstarting.send (congrArg (s.ipis ++ ·) (send_startup id)) rfl rfl⟩,
      fun _ => hlow nofun⟩
  | wait id rest n =>
    dsimp only
    split
    · exact ⟨hok, hlow⟩
    · next hne =>
      rw [hboot] at hok hlow
      obtain ⟨done, hsplit, hid, hstarting⟩ := hok
      refine ⟨⟨done ++ [id], by rw [hsplit, List.append_assoc]; rfl, ?_⟩, fun _ => hlow nofun⟩
      exact (hstarting.settled hid hne).congr rfl rfl rfl
  | unmap =>
    rw [hboot] at hok
    exact ⟨hok.congr rfl rfl rfl, fun hne => absurd rfl hne⟩
  | working => exact ⟨hok, hlow⟩

/-- The rule for a step of anything but the boot processor. -/
theorem Inv.of_kept (h : Inv ids bsp s) (hids : ids.Nodup) (hboot : s'.boot = s.boot)
    (hlow : s'.lowMapped = s.lowMapped)
    (hsettled : ∀ done, Settled bsp done s → Settled bsp done s')
    (hstarting : ∀ done id n k, id ≠ bsp → id ∉ done → s.lowMapped = true →
      Starting bsp done id n k s → Starting bsp done id n k s') : Inv ids bsp s' := by
  obtain ⟨hok, hmapped⟩ := h
  refine ⟨?_, fun hne => hlow.trans (hmapped (hboot ▸ hne))⟩
  rw [hboot]
  cases hpc : s.boot with
  | test rest =>
    rw [hpc] at hok
    obtain ⟨done, hsplit, h⟩ := hok
    exact ⟨done, hsplit, hsettled done h⟩
  | readNum id rest =>
    rw [hpc] at hok
    obtain ⟨done, hsplit, hid, h⟩ := hok
    exact ⟨done, hsplit, hid, hsettled done h⟩
  | assertInit id rest n =>
    rw [hpc] at hok
    obtain ⟨done, hsplit, hid, h, rfl⟩ := hok
    have h' := hsettled done h
    exact ⟨done, hsplit, hid, h', h.online.trans h'.online.symm⟩
  | deassertInit id rest n | startup1 id rest n | startup2 id rest n | wait id rest n =>
    rw [hpc] at hok hmapped
    obtain ⟨done, hsplit, hid, h⟩ := hok
    exact ⟨done, hsplit, hid,
      hstarting done id n _ hid (not_mem_of_nodup hids hsplit) (hmapped nofun) h⟩
  | unmap | working =>
    rw [hpc] at hok
    exact hsettled ids hok

theorem deliver_boot : s.deliver.boot = s.boot ∧ s.deliver.lowMapped = s.lowMapped := by
  rw [State.deliver]
  split
  · exact ⟨rfl, rfl⟩
  · exact ⟨rfl, rfl⟩
  · split
    · exact ⟨rfl, rfl⟩
    · exact ⟨rfl, rfl⟩

theorem cpuNext_boot : (s.cpuNext c).boot = s.boot ∧ (s.cpuNext c).lowMapped = s.lowMapped := by
  rw [State.cpuNext]
  split <;> exact ⟨rfl, rfl⟩

theorem inductive_inv (hids : ids.Nodup) : (system ids bsp).Inductive (Inv ids bsp) where
  init _ h := inv_init h
  step s label s' h hstep := by
    cases label with
    | boot =>
      obtain rfl : s' = s.bootNext bsp := hstep
      exact h.bootNext hids
    | deliver =>
      obtain rfl : s' = s.deliver := hstep
      exact h.of_kept hids deliver_boot.1 deliver_boot.2 (fun _ hs => hs.deliver)
        fun _ _ _ _ hid hnew _ hs => hs.deliver hid hnew
    | cpu c =>
      obtain ⟨hc, rfl⟩ : c ≠ bsp ∧ s' = s.cpuNext c := hstep
      exact h.of_kept hids cpuNext_boot.1 cpuNext_boot.2 (fun _ hs => hs.cpuNext hc)
        fun _ _ _ _ hid hnew hlow hs => hs.cpuNext hid hnew hlow hc

/-! ## Section 5: Every Interleaving -/

/-- There are 256 IDs. -/
theorem length_le (hids : ids.Nodup) : ids.length ≤ 256 := by
  have hnodup : (ids.map BitVec.toNat).Nodup :=
    List.Nodup.map (fun _ _ => BitVec.eq_of_toNat_eq) hids
  have hsub : ids.map BitVec.toNat ⊆ List.range 256 := by
    intro x hx
    obtain ⟨id, -, rfl⟩ := List.mem_map.mp hx
    exact List.mem_range.mpr id.isLt
  have hle := (hnodup.subperm hsub).length_le
  rwa [List.length_map, List.length_range] at hle

/-- What has not been started is not counted. -/
theorem Apart.filter_eq_nil (h : Apart bsp done o s) (hrest : ∀ c ∈ rest, c ∉ done ∧ o ≠ some c) :
    rest.filter (fun c => c ≠ bsp ∧ s.cpu c = .working) = [] := by
  rw [List.filter_eq_nil_iff]
  intro c hc
  rw [decide_eq_true_eq, not_and]
  intro hbsp hworking
  have hparked := h.parked c hbsp (hrest c hc).1 (hrest c hc).2
  rw [hworking] at hparked
  rcases hparked with hparked | hparked <;> exact Pc.noConfusion hparked

/-- What has been started is online. -/
theorem Apart.filter_done (h : Apart bsp done o s) :
    (done.filter fun c => c ≠ bsp ∧ s.cpu c = .working).length = numOthers bsp done := by
  rw [numOthers]
  refine congrArg List.length (List.filter_congr fun c hc => ?_)
  simp [h.up c (.inr hc)]

/-- Between two start-ups, those that have been started are online. -/
theorem Settled.numStarted_eq (h : Settled bsp done s) (hids : (done ++ rest).Nodup) :
    numStarted (done ++ rest) bsp s = numOthers bsp done := by
  have hnew : ∀ c ∈ rest, c ∉ done ∧ (none : Option (BitVec 8)) ≠ some c := fun c hc =>
    ⟨fun hmem => (List.nodup_append.mp hids).2.2 c hmem c hc rfl, nofun⟩
  rw [numStarted, List.filter_append, h.toApart.filter_eq_nil hnew, List.append_nil]
  exact h.toApart.filter_done

/-- The same while `id` is started. -/
theorem Starting.numStarted_eq (h : Starting bsp done id n k s) (hid : id ≠ bsp)
    (hids : (done ++ id :: rest).Nodup) : numStarted (done ++ id :: rest) bsp s =
      numOthers bsp done + if s.cpu id = .working then 1 else 0 := by
  obtain ⟨-, hcons, hdisj⟩ := List.nodup_append.mp hids
  have hnew : ∀ c ∈ rest, c ∉ done ∧ some id ≠ some c := by
    intro c hc
    refine ⟨fun hmem => hdisj c hmem c (List.mem_cons_of_mem _ hc) rfl, ?_⟩
    rintro ⟨⟩
    exact (List.nodup_cons.mp hcons).1 hc
  rw [numStarted, List.filter_append, List.length_append, h.toApart.filter_done, List.filter_cons,
    h.toApart.filter_eq_nil hnew]
  by_cases hworking : s.cpu id = .working <;> simp [hworking, hid]

/-- The count is the number of processors online, while one is started. -/
theorem Starting.online_eq (h : Starting bsp done id n k s) (hid : id ≠ bsp)
    (hids : (done ++ id :: rest).Nodup) :
    s.numcpusOnline = BitVec.ofNat 32 (1 + numStarted (done ++ id :: rest) bsp s) := by
  have hnot : s.numcpusOnline = n → s.cpu id ≠ .working →
      s.numcpusOnline = BitVec.ofNat 32 (1 + numStarted (done ++ id :: rest) bsp s) := by
    intro honline hpc
    rw [h.numStarted_eq hid hids, if_neg hpc, honline, h.num, Nat.add_zero]
  cases h.phase with
  | sent _ hparked honline _ _ =>
    refine hnot honline fun hpc => ?_
    rw [hpc] at hparked
    rcases hparked with hparked | hparked <;> exact Pc.noConfusion hparked
  | reset hwaiting honline _ =>
    refine hnot honline fun hpc => ?_
    rw [hpc] at hwaiting
    exact Pc.noConfusion hwaiting
  | running hstarting _ _ honline _ =>
    refine hnot honline fun hpc => ?_
    rw [hpc] at hstarting
    exact hstarting
  | up hworking honline _ =>
    rw [h.numStarted_eq hid hids, if_pos hworking, honline, h.num, ← Nat.add_assoc,
      BitVec.ofNat_add (1 + _) 1]
    rfl

/-- Of the processors only the one that is started can be on its way. -/
theorem Apart.cpu_cases (h : Apart bsp done o s) (c : BitVec 8) :
    s.cpu c = .working ∨ (s.cpu c).IsParked ∨ o = some c := by
  by_cases hbsp : c = bsp
  · exact .inl (h.up c (.inl hbsp))
  by_cases hdone : c ∈ done
  · exact .inl (h.up c (.inr hdone))
  by_cases hid : o = some c
  · exact .inr (.inr hid)
  · exact .inr (.inl (h.parked c hbsp hdone hid))

theorem Apart.eq_of_starting (h : Apart bsp done o s) (hc : (s.cpu c).IsStarting) :
    o = some c := by
  rcases h.cpu_cases c with hpc | hpc | hid
  · rw [hpc] at hc
    exact hc.elim
  · exact absurd hc hpc.not_starting
  · exact hid

theorem Settled.sound (h : Settled bsp done s) (hids : ids.Nodup) (hsplit : ids = done ++ rest)
    (hlast : s.boot = .working → rest = []) : Sound ids bsp s where
  one c d hc _ := nomatch h.toApart.eq_of_starting hc
  boots c addr haddr := by
    have hstarting : (s.cpu c).IsStarting := haddr ▸ trivial
    exact nomatch h.toApart.eq_of_starting hstarting
  noFault c hfault := by
    rcases h.toApart.cpu_cases c with hpc | (hpc | hpc) | hid
    · exact Pc.noConfusion (hfault.symm.trans hpc)
    · exact Pc.noConfusion (hfault.symm.trans hpc)
    · exact Pc.noConfusion (hfault.symm.trans hpc)
    · exact nomatch hid
  counts := by
    have hle := length_le hids
    have hstarted : numStarted ids bsp s ≤ ids.length := List.length_filter_le _ _
    have hnum : numStarted ids bsp s = numOthers bsp done := by
      rw [hsplit]
      exact h.numStarted_eq (hsplit ▸ hids)
    rw [h.online, ← hnum, BitVec.toNat_ofNat, Nat.mod_eq_of_lt (by omega)]
  complete hworking c hc := by
    rw [hsplit, hlast hworking, List.append_nil] at hc
    exact h.up c (.inr hc)

theorem Starting.sound (h : Starting bsp done id n k s) (hids : ids.Nodup) (hid : id ≠ bsp)
    (hsplit : ids = done ++ id :: rest) (hboot : s.boot ≠ .working) : Sound ids bsp s where
  one c d hc hd := by
    have hc' := Option.some.inj (h.toApart.eq_of_starting hc)
    have hd' := Option.some.inj (h.toApart.eq_of_starting hd)
    exact hc'.symm.trans hd'
  boots c addr haddr := by
    have hstarting : (s.cpu c).IsStarting := haddr ▸ trivial
    obtain rfl := Option.some.inj (h.toApart.eq_of_starting hstarting)
    cases h.phase with
    | sent _ hparked _ _ _ => exact absurd hstarting hparked.not_starting
    | reset hwaiting _ _ => exact Pc.noConfusion (haddr.symm.trans hwaiting)
    | running _ hstart _ _ _ => exact hstart addr haddr
    | up hworking _ _ => exact Pc.noConfusion (haddr.symm.trans hworking)
  noFault c hfault := by
    rcases h.toApart.cpu_cases c with hpc | (hpc | hpc) | hpc
    · exact Pc.noConfusion (hfault.symm.trans hpc)
    · exact Pc.noConfusion (hfault.symm.trans hpc)
    · exact Pc.noConfusion (hfault.symm.trans hpc)
    · obtain rfl := Option.some.inj hpc
      cases h.phase with
      | sent _ hparked _ _ _ =>
        rcases hparked with hparked | hparked <;> exact Pc.noConfusion (hfault.symm.trans hparked)
      | reset hwaiting _ _ => exact Pc.noConfusion (hfault.symm.trans hwaiting)
      | running hstarting _ _ _ _ => exact (hfault ▸ hstarting : Pc.fault.IsStarting)
      | up hworking _ _ => exact Pc.noConfusion (hfault.symm.trans hworking)
  counts := by
    have hle := length_le hids
    have hstarted : numStarted ids bsp s ≤ ids.length := List.length_filter_le _ _
    have honline : s.numcpusOnline = BitVec.ofNat 32 (1 + numStarted ids bsp s) := by
      rw [hsplit]
      exact h.online_eq hid (hsplit ▸ hids)
    rw [honline, BitVec.toNat_ofNat, Nat.mod_eq_of_lt (by omega)]
  complete hworking := absurd hworking hboot

/-- In every interleaving of the processors and of the interrupts between them the start-up is
    sound. -/
theorem startUp_sound (hids : ids.Nodup) (hs : (system ids bsp).Reachable s) :
    Sound ids bsp s := by
  obtain ⟨hok, -⟩ := (inductive_inv hids).reachable hs
  cases hboot : s.boot with
  | test rest | readNum id rest =>
    rw [hboot] at hok
    first
    | obtain ⟨done, hsplit, hsettled⟩ := hok
      exact hsettled.sound hids hsplit fun hworking => nomatch hboot.symm.trans hworking
    | obtain ⟨done, hsplit, -, hsettled⟩ := hok
      exact hsettled.sound hids hsplit fun hworking => nomatch hboot.symm.trans hworking
  | assertInit id rest n =>
    rw [hboot] at hok
    obtain ⟨done, hsplit, -, hsettled, -⟩ := hok
    exact hsettled.sound hids hsplit fun hworking => nomatch hboot.symm.trans hworking
  | deassertInit id rest n | startup1 id rest n | startup2 id rest n | wait id rest n =>
    rw [hboot] at hok
    obtain ⟨done, hsplit, hid, hstarting⟩ := hok
    exact hstarting.sound hids hid hsplit fun hworking => nomatch hboot.symm.trans hworking
  | unmap | working =>
    rw [hboot] at hok
    exact hok.sound hids (List.append_nil _).symm fun _ => rfl

end inv

/-- Three processors, none of which waits for a STARTUP. -/
def threeCpus : State where
  boot := .test [4, 0, 2]
  cpu c := if c = 0 then .working else .halted
  ipis := []
  numcpusOnline := 1
  lowMapped := true

theorem threeCpus_init : (system [4, 0, 2] 0).init threeCpus :=
  ⟨rfl, rfl, fun _ hc => .inl (if_neg hc), rfl, rfl, rfl⟩

theorem reachable_bootNext {ids : List (BitVec 8)} {bsp : BitVec 8} {s : State}
    (h : (system ids bsp).Reachable s) :
    ∀ n, (system ids bsp).Reachable ((State.bootNext bsp)^[n] s) := by
  intro n
  induction n with
  | zero => exact h
  | succ n ih =>
    rw [Function.iterate_succ_apply']
    exact .step (l := Label.boot) ih rfl

/-- The first of them has got its INIT and a STARTUP. -/
theorem startUp_sound_threeCpus :
    (((State.bootNext 0)^[5] threeCpus).deliver.deliver.cpu 4 = .startAP 0x8000) ∧
      Sound [4, 0, 2] 0 ((State.bootNext 0)^[5] threeCpus).deliver.deliver :=
  ⟨by decide, startUp_sound (by decide) (.step (l := Label.deliver)
    (.step (l := Label.deliver) (reachable_bootNext (.init threeCpus_init) 5) rfl) rfl)⟩

/-! ## Section 6: All Processors Come Online

  Whoever goes on brings the end nearer. What the boot processor does counts twice, because it
  may send an interrupt.
-/

/-- What the boot processor still has to do. -/
def BootPc.remaining : BootPc → Nat
  | .test rest => 8 * rest.length + 2
  | .readNum _ rest => 8 * rest.length + 9
  | .assertInit _ rest _ => 8 * rest.length + 8
  | .deassertInit _ rest _ => 8 * rest.length + 7
  | .startup1 _ rest _ => 8 * rest.length + 6
  | .startup2 _ rest _ => 8 * rest.length + 5
  | .wait _ rest _ => 8 * rest.length + 4
  | .unmap => 1
  | .working => 0

/-- What another processor still has to do. -/
def Pc.remaining : Pc → Nat
  | .halted => 7
  | .waiting => 6
  | .startAP _ => 5
  | .higherHalf => 4
  | .initStack => 3
  | .thisProcessor => 2
  | .storeNum _ => 1
  | .working | .fault => 0

/-- What all of them still have to do. -/
def remaining (ids : List (BitVec 8)) (s : State) : Nat :=
  2 * s.boot.remaining + s.ipis.length + (ids.map fun c => (s.cpu c).remaining).sum

section progress

variable {ids done rest : List (BitVec 8)} {bsp id c : BitVec 8} {n : BitVec 32} {k : Nat}
  {s s' : State} {ipis : List Ipi} {pc : Pc}

end progress

end StartUp

end Avos
