import Avos.Library.Transition
import Avos.Taskmaster.ProcessTable
import Mathlib.Data.Fintype.Card

/-! # The Process Tree

  Every process points to its parent, and the children of a process are threaded
  through their `sibling` fields, from the parent's `child` field on. The tree of
  the process table is read off these fields: `Family t kids` says that the table
  `t` represents the tree in which the children of `q` are `kids q`, in order.

  Forking adds a first child and a reap takes a child out. Terminating a process
  gives its children to the primordial process, but does not enter them in that
  process's chain: the table represents a tree for as long as only processes
  without children are terminated.
-/

open Transition Chains

namespace Avos

/-- The process has started and may run again. -/
def ProcessStatus.Live : ProcessStatus → Prop
  | .runnable | .running | .asleep => True
  | .idle | .booked | .dead => False

/-- Neither idle nor booked. -/
def ProcessStatus.Active (s : ProcessStatus) : Prop := s ≠ .idle ∧ s ≠ .booked

instance (s : ProcessStatus) : Decidable s.Live := by
  cases s <;> unfold ProcessStatus.Live <;> infer_instance

instance (s : ProcessStatus) : Decidable s.Active := by
  unfold ProcessStatus.Active; infer_instance

theorem ProcessStatus.Live.active {s : ProcessStatus} (h : s.Live) : s.Active := by
  cases s <;> simp_all [Live, Active]

/-- The calls: a running process forks, with or without success, or runs a pass of its
    wait; a live process is terminated; and the scheduler changes the status of a live
    process. -/
inductive ProcessOp where
  | fork (p : Slot) (initialized : Bool)
  | wait (p : Slot)
  | terminate (p : Slot) (status : BitVec 32)
  | schedule (p : Slot) (status : ProcessStatus)

namespace ProcessTable

/-- The table after a call. The primordial process is never terminated. -/
def apply (primordial : Slot) (t : ProcessTable) : ProcessOp → Option ProcessTable
  | .fork p initialized =>
      if (t.procs p).status = .running then (t.processFork p initialized).map Prod.fst else none
  | .wait p =>
      if (t.procs p).status = .running then (t.processWait p).map Prod.fst else none
  | .terminate p status =>
      if (t.procs p).status.Live ∧ p ≠ primordial then t.processTerminate primordial p status
      else none
  | .schedule p status =>
      if (t.procs p).status.Live ∧ status.Live then
        some (t.modify p fun proc => { proc with status := status })
      else none

/-- The primordial process is alone, with neither parent nor children. -/
def Primordial (primordial : Slot) (t : ProcessTable) : Prop :=
  (t.procs primordial).status.Live ∧ (t.procs primordial).parent = none ∧
    (t.procs primordial).child = none ∧ (t.procs primordial).numChildren = 0 ∧
    ∀ p, p ≠ primordial → (t.procs p).status = .idle

/-- The process table from the first process on. -/
def calls (primordial : Slot) : System ProcessTable ProcessOp where
  init := Primordial primordial
  step t op t' := t.apply primordial op = some t'

/-- The process tree invariant: a process with a parent `q` occurs once in the chain of
    `q`, which ends, has processes with the parent `q` only, and is counted right. -/
def TreeLinked (t : ProcessTable) : Prop :=
  ∀ p q, (t.procs p).status.Active → (t.procs p).parent = some q →
    ∃ l, Chain t.sibling (t.procs q).child l ∧ l.count p = 1 ∧
      (∀ r ∈ l, (t.procs r).parent = some q) ∧ (t.procs q).numChildren.toNat = l.length

/-- A process that is terminated has no children. -/
def TerminatesLeaf (t : ProcessTable) : ProcessOp → Prop
  | .terminate p _ => (t.procs p).child = none
  | _ => True

instance (t : ProcessTable) (op : ProcessOp) : Decidable (t.TerminatesLeaf op) := by
  cases op <;> unfold TerminatesLeaf <;> infer_instance

/-! ## Section 1: The Tree a Table Represents -/

/-- The table represents the tree with the children `kids`. Dead processes are childless
    members of it, until they are reaped. -/
structure Family (primordial : Slot) (t : ProcessTable) (kids : Slot → List Slot) : Prop where
  root : (t.procs primordial).status.Live
  mem_iff : ∀ q r, r ∈ kids q ↔ (t.procs r).status.Active ∧ (t.procs r).parent = some q
  active : ∀ q r, r ∈ kids q → (t.procs q).status.Active
  chain : ∀ q, (t.procs q).status.Active → Chain t.sibling (t.procs q).child (kids q)
  count : ∀ q, (t.procs q).status.Active →
    (t.procs q).numChildren = BitVec.ofNat 32 (kids q).length
  dead : ∀ q, (t.procs q).status = .dead → (t.procs q).child = none

namespace Family

variable {primordial : Slot} {t t' : ProcessTable} {kids : Slot → List Slot} {p q r : Slot}

theorem nodup (h : Family primordial t kids) (q : Slot) : (kids q).Nodup := by
  by_cases hq : (t.procs q).status.Active
  · exact (h.chain q hq).nodup
  · have hnil : kids q = [] :=
      List.eq_nil_iff_forall_not_mem.mpr fun r hr => hq (h.active q r hr)
    simp [hnil]

theorem kids_eq_nil (h : Family primordial t kids) (hq : ¬(t.procs q).status.Active) :
    kids q = [] :=
  List.eq_nil_iff_forall_not_mem.mpr fun r hr => hq (h.active q r hr)

theorem kids_dead (h : Family primordial t kids) (hq : (t.procs q).status = .dead) :
    kids q = [] := by
  have hchain := h.chain q (by rw [hq]; decide)
  rw [h.dead q hq] at hchain
  exact chain_none.mp hchain

theorem length_le (h : Family primordial t kids) (q : Slot) :
    (kids q).length ≤ kernelMaxProcs := by
  simpa using (h.nodup q).length_le_card

theorem toNat_count (h : Family primordial t kids) (hq : (t.procs q).status.Active) :
    (t.procs q).numChildren.toNat = (kids q).length := by
  have hle := h.length_le q
  rw [h.count q hq, BitVec.toNat_ofNat]
  exact Nat.mod_eq_of_lt (Nat.lt_of_le_of_lt hle (by decide))

/-- What a table represents satisfies the invariant. -/
theorem treeLinked (h : Family primordial t kids) : t.TreeLinked := by
  intro p q hp hq
  have hmem : p ∈ kids q := (h.mem_iff q p).mpr ⟨hp, hq⟩
  have hactive := h.active q p hmem
  exact ⟨kids q, h.chain q hactive, List.count_eq_one_of_mem (h.nodup q) hmem,
    fun r hr => ((h.mem_iff q r).mp hr).2, h.toNat_count hactive⟩

/-! ## Section 2: What the Calls Do to the Tree -/

/-- A store to a status keeps the tree, when it makes no process a member or takes one
    out, and makes only childless processes dead. -/
theorem setStatus (h : Family primordial t kids)
    (hprocs : ∀ q, t'.procs q =
      { t.procs q with status := (t'.procs q).status, exitCode := (t'.procs q).exitCode })
    (hroot : (t'.procs primordial).status.Live)
    (hactive : ∀ q, (t'.procs q).status.Active ↔ (t.procs q).status.Active)
    (hdead : ∀ q, (t'.procs q).status = .dead →
      (t.procs q).status = .dead ∨ (t.procs q).child = none) :
    Family primordial t' kids where
  root := hroot
  mem_iff q r := by rw [h.mem_iff q r, hactive r, hprocs r]
  active q r hr := (hactive q).mpr (h.active q r hr)
  chain q hq := by
    have hsibling : ∀ r, t'.sibling r = t.sibling r := fun r => by rw [sibling, hprocs r, sibling]
    rw [hprocs q]
    exact (h.chain q ((hactive q).mp hq)).congr fun r _ => hsibling r
  count q hq := by
    rw [hprocs q]
    exact h.count q ((hactive q).mp hq)
  dead q hq := by
    rw [hprocs q]
    rcases hdead q hq with hd | hc
    · exact h.dead q hd
    · exact hc

/-- A live process changes its status and stays live. -/
theorem schedule (h : Family primordial t kids) (hp : (t.procs p).status.Live)
    {status : ProcessStatus} (hs : status.Live) :
    Family primordial (t.modify p fun proc => { proc with status := status }) kids := by
  have hprocs : ∀ q, ((t.modify p fun proc => { proc with status := status }).procs q).status =
      if q = p then status else (t.procs q).status := fun q => by
    rw [modify_apply]
    split <;> rfl
  refine h.setStatus (fun q => ?_) ?_ (fun q => ?_) fun q hq => ?_
  · by_cases hq : q = p
    · simp [hq]
    · simp [hq]
  · rw [hprocs]
    split
    · exact hs
    · exact h.root
  · rw [hprocs]
    split
    · next hq => rw [hq]; exact iff_of_true hs.active hp.active
    · rfl
  · rw [hprocs] at hq
    split at hq
    · rw [hq] at hs; exact hs.elim
    · exact .inl hq

/-- A new member `r` becomes the first child of `p`. -/
theorem addChild (h : Family primordial t kids) (hidle : (t.procs r).status = .idle)
    (hp : (t.procs p).status.Live) (hne : r ≠ p)
    (hstatus : (t'.procs r).status = .runnable) (hparent : (t'.procs r).parent = some p)
    (hchild : (t'.procs r).child = none) (hcount : (t'.procs r).numChildren = 0)
    (hsibling : (t'.procs r).sibling = (t.procs p).child)
    (hself : t'.procs p = { t.procs p with
      numChildren := (t.procs p).numChildren + 1, child := some r })
    (hother : ∀ q, q ≠ r → q ≠ p → t'.procs q = t.procs q) :
    Family primordial t' (Function.update kids p (r :: kids p)) := by
  have hkeep : ∀ q, q ≠ r → (t'.procs q).status = (t.procs q).status ∧
      (t'.procs q).parent = (t.procs q).parent ∧ (t'.procs q).sibling = (t.procs q).sibling := by
    intro q hqr
    by_cases hqp : q = p
    · rw [hqp, hself]; exact ⟨rfl, rfl, rfl⟩
    · rw [hother q hqr hqp]; exact ⟨rfl, rfl, rfl⟩
  have hnot : ¬(t.procs r).status.Active := by rw [hidle]; decide
  have hnil : kids r = [] := h.kids_eq_nil hnot
  have hfresh : ∀ q, r ∉ kids q := fun q hr => hnot ((h.mem_iff q r).mp hr).1
  have hnew : (t'.procs r).status.Active := by rw [hstatus]; decide
  have hlink : ∀ q, q ≠ r → t'.sibling q = t.sibling q := fun q hq => (hkeep q hq).2.2
  refine ⟨?_, fun q s => ?_, fun q s hs => ?_, fun q hq => ?_, fun q hq => ?_, fun q hq => ?_⟩
  · have hroot : primordial ≠ r := fun heq => hnot (heq ▸ h.root.active)
    rw [(hkeep primordial hroot).1]
    exact h.root
  · by_cases hs : s = r
    · subst hs
      by_cases hq : q = p
      · simp [hq, hnew, hparent]
      · simp [hq, hfresh q, hparent, Ne.symm hq]
    · rw [(hkeep s hs).1, (hkeep s hs).2.1, ← h.mem_iff q s]
      by_cases hq : q = p
      · simp [hq, hs]
      · simp [hq]
  · by_cases hq : q = r
    · rw [hq]; exact hnew
    · rw [(hkeep q hq).1]
      by_cases hqp : q = p
      · rw [hqp]; exact hp.active
      · rw [Function.update_of_ne hqp] at hs
        exact h.active q s hs
  · by_cases hqr : q = r
    · subst hqr
      simp [Function.update_of_ne hne, hnil, hchild]
    · rw [(hkeep q hqr).1] at hq
      by_cases hqp : q = p
      · subst hqp
        rw [Function.update_self, hself]
        exact (h.chain q hq).push (hfresh q) hsibling hlink
      · rw [Function.update_of_ne hqp, hother q hqr hqp]
        exact (h.chain q hq).congr fun s hs => hlink s fun heq => hfresh q (heq ▸ hs)
  · by_cases hqr : q = r
    · subst hqr
      simp [Function.update_of_ne hne, hnil, hcount]
    · rw [(hkeep q hqr).1] at hq
      by_cases hqp : q = p
      · subst hqp
        rw [Function.update_self, hself, List.length_cons, BitVec.ofNat_add, ← h.count q hq]
        rfl
      · rw [Function.update_of_ne hqp, hother q hqr hqp]
        exact h.count q hq
  · have hqr : q ≠ r := fun heq => by rw [heq, hstatus] at hq; cases hq
    rw [(hkeep q hqr).1] at hq
    have hqp : q ≠ p := fun heq => by
      rw [← heq, hq] at hp
      exact hp
    rw [hother q hqr hqp]
    exact h.dead q hq

/-- A dead member `r` leaves the children of `p`. -/
theorem reap (h : Family primordial t kids) (hdead : (t.procs r).status = .dead)
    (hmem : r ∈ kids p) (hp : (t.procs p).status.Live)
    (hidle : (t'.procs r).status = .idle)
    (hcount : (t'.procs p).numChildren = (t.procs p).numChildren - 1)
    (hchain : Chain t'.sibling (t'.procs p).child ((kids p).erase r))
    (hstatus : ∀ q, q ≠ r → (t'.procs q).status = (t.procs q).status)
    (hparent : ∀ q, (t'.procs q).parent = (t.procs q).parent)
    (hother : ∀ q, q ≠ p → (t'.procs q).child = (t.procs q).child ∧
      (t'.procs q).numChildren = (t.procs q).numChildren)
    (hsibling : ∀ q, q ∉ kids p → t'.sibling q = t.sibling q) :
    Family primordial t' (Function.update kids p ((kids p).erase r)) := by
  have hpr : p ≠ r := fun heq => by rw [heq, hdead] at hp; exact hp
  have hgone : ¬(t'.procs r).status.Active := by rw [hidle]; decide
  have hnil : kids r = [] := h.kids_dead hdead
  refine ⟨?_, fun q s => ?_, fun q s hs => ?_, fun q hq => ?_, fun q hq => ?_, fun q hq => ?_⟩
  · have hroot : primordial ≠ r := fun heq => by
      have := h.root
      rw [heq, hdead] at this
      exact this
    rw [hstatus primordial hroot]
    exact h.root
  · by_cases hs : s = r
    · subst hs
      have hout : s ∉ Function.update kids p ((kids p).erase s) q := by
        by_cases hq : q = p
        · subst hq
          simpa using (h.nodup q).not_mem_erase
        · have hpar := ((h.mem_iff p s).mp hmem).2
          simp only [Function.update_of_ne hq, h.mem_iff q s, hpar, Option.some.injEq, not_and]
          exact fun _ heq => hq heq.symm
      simp [hout, hgone]
    · rw [hstatus s hs, hparent s, ← h.mem_iff q s]
      by_cases hq : q = p
      · subst hq
        simp [List.mem_erase_of_ne hs]
      · simp [hq]
  · by_cases hqp : q = p
    · rw [hqp, hstatus p hpr]
      exact hp.active
    · rw [Function.update_of_ne hqp] at hs
      have hqr : q ≠ r := fun heq => by simp [heq, hnil] at hs
      rw [hstatus q hqr]
      exact h.active q s hs
  · have hqr : q ≠ r := fun heq => hgone (heq ▸ hq)
    rw [hstatus q hqr] at hq
    by_cases hqp : q = p
    · subst hqp
      rwa [Function.update_self]
    · rw [Function.update_of_ne hqp, (hother q hqp).1]
      refine (h.chain q hq).congr fun s hs => hsibling s fun hsp => hqp ?_
      have hq' := ((h.mem_iff q s).mp hs).2
      have hp' := ((h.mem_iff p s).mp hsp).2
      exact Option.some.inj (hq'.symm.trans hp')
  · have hqr : q ≠ r := fun heq => hgone (heq ▸ hq)
    rw [hstatus q hqr] at hq
    by_cases hqp : q = p
    · subst hqp
      rw [Function.update_self, hcount, h.count q hq, List.length_erase_of_mem hmem]
      have hpos := List.length_pos_of_mem hmem
      obtain ⟨n, hn⟩ := Nat.exists_eq_succ_of_ne_zero (Nat.pos_iff_ne_zero.mp hpos)
      rw [hn, Nat.succ_eq_add_one, BitVec.ofNat_add, Nat.add_sub_cancel]
      exact BitVec.add_sub_cancel _ _
    · rw [Function.update_of_ne hqp, (hother q hqp).2]
      exact h.count q hq
  · have hqr : q ≠ r := fun heq => by rw [heq, hidle] at hq; cases hq
    rw [hstatus q hqr] at hq
    have hqp : q ≠ p := fun heq => by
      rw [← heq, hq] at hp
      exact hp
    rw [(hother q hqp).1]
    exact h.dead q hq

/-- A fork adds a first child of the caller, or fails and leaves the tree. -/
theorem fork (h : Family primordial t kids) (hp : (t.procs p).status = .running) {ok : Bool}
    {v : BitVec 32} (hfork : t.processFork p ok = some (t', v)) :
    ∃ kids', Family primordial t' kids' := by
  cases ok with
  | false =>
    obtain ⟨r, hidle, -, hself, hother⟩ := processFork_false hfork
    have hkeep : ∀ q, t'.procs q = { t.procs q with id := (t'.procs q).id } := by
      intro q
      by_cases hq : q = r
      · rw [hq, hself]
      · rw [hother q hq]
    refine ⟨kids, ⟨?_, fun q s => ?_, fun q s hs => ?_, fun q hq => ?_, fun q hq => ?_,
      fun q hq => ?_⟩⟩
    · rw [hkeep primordial]; exact h.root
    · rw [hkeep s]; exact h.mem_iff q s
    · rw [hkeep q]; exact h.active q s hs
    · rw [hkeep q] at hq ⊢
      exact (h.chain q hq).congr fun s _ => by rw [sibling, hkeep s, sibling]
    · rw [hkeep q] at hq ⊢; exact h.count q hq
    · rw [hkeep q] at hq ⊢; exact h.dead q hq
  | true =>
    obtain ⟨r, hidle, hne, -, hnew, hself, hother⟩ :=
      processFork_true (by rw [hp]; decide) hfork
    exact ⟨_, h.addChild hidle (by rw [hp]; trivial) hne (by rw [hnew]) (by rw [hnew])
      (by rw [hnew]) (by rw [hnew]) (by rw [hnew]) hself hother⟩

/-- A pass of a wait takes at most one dead child out. -/
theorem wait (h : Family primordial t kids) (hp : (t.procs p).status = .running)
    {v : Option (BitVec 32)} (hwait : t.processWait p = some (t', v)) :
    ∃ kids', Family primordial t' kids' := by
  have hlive : (t.procs p).status.Live := by rw [hp]; trivial
  have hchain := h.chain p hlive.active
  rw [processWait] at hwait
  split at hwait
  · obtain ⟨rfl, -⟩ := Prod.mk.inj (Option.some.inj hwait)
    exact ⟨kids, h⟩
  · split at hwait
    · cases hwait
    · next kid hkid =>
      rw [hkid] at hchain
      obtain ⟨l, hl, htail⟩ := chain_some.mp hchain
      split at hwait
      · -- the first child is dead
        next hdead =>
        have hpk : p ≠ kid := fun heq => by rw [heq, hdead] at hp; cases hp
        obtain ⟨rfl, -⟩ := Prod.mk.inj (Option.some.inj hwait)
        refine ⟨_, h.reap (r := kid) hdead (by simp [hl]) hlive ?_ ?_ ?_ ?_ ?_ ?_ ?_⟩
        · simp [hpk.symm]
        · simp [hpk]
        · rw [hl, List.erase_cons_head]
          simp only [modify_self, modify_ne hpk.symm]
          refine htail.congr fun q _ => ?_
          grind [modify_apply, sibling]
        all_goals grind [modify_apply, sibling]
      · -- a later child may be; then the process falls asleep
        split at hwait
        · cases hwait
        · next t₁ hreap =>
          obtain ⟨rfl, -⟩ := Prod.mk.inj (Option.some.inj hwait)
          rcases reapSibling_eq_some hchain hreap with rfl | ⟨prev, hprev, r, hr, hdead, ht₁⟩
          · exact ⟨kids, h.schedule hlive trivial⟩
          · have hmem : r ∈ kids p := hchain.next_mem hprev hr
            have hpr : p ≠ r := fun heq => by rw [heq, hdead] at hp; cases hp
            have hfirst : (t₁.procs p).child = some kid := by grind [modify_apply]
            have hprev' : t₁.sibling prev = t.sibling r := by grind [modify_apply, sibling]
            have hframe : ∀ q, q ≠ prev → t₁.sibling q = t.sibling q := by
              grind [modify_apply, sibling]
            have hunlink := hchain.unlink hprev hr hprev' hframe
            rw [← hfirst] at hunlink
            refine ⟨_, schedule (h.reap hdead hmem hlive ?_ ?_ hunlink ?_ ?_ ?_ ?_) ?_ trivial⟩
            all_goals grind [modify_apply]

/-- A process without children is terminated. -/
theorem terminate (h : Family primordial t kids) (hp : (t.procs p).status.Live)
    (hroot : p ≠ primordial) (hleaf : (t.procs p).child = none) {status : BitVec 32}
    (hterm : t.processTerminate primordial p status = some t') : Family primordial t' kids := by
  have hchain : Chain t.sibling (t.procs p).child [] := hleaf
  have hprocs := processTerminate_eq_some hchain hterm
  refine h.setStatus (fun q => ?_) ?_ (fun q => ?_) fun q hq => ?_
  · rw [hprocs q]
    simp
  · rw [hprocs primordial]
    simpa [hroot.symm] using h.root
  · rw [hprocs q]
    by_cases hq : q = p
    · subst hq
      simpa using iff_of_true (by decide) hp.active
    · simp [hq]
  · rw [hprocs q] at hq
    by_cases hqp : q = p
    · exact .inr (hqp ▸ hleaf)
    · exact .inl (by simpa [hqp] using hq)

/-- In a table that represents a tree no pass of a wait follows a null pointer or goes
    round for ever. -/
theorem processWait_isSome (h : Family primordial t kids) (hp : (t.procs p).status.Active) :
    (t.processWait p).isSome := by
  rw [processWait]
  split
  · rfl
  · next hcount =>
    have hchain := h.chain p hp
    split
    · next hnone =>
      -- a process that counts children has a first child
      rw [hnone] at hchain
      rw [h.count p hp, chain_none.mp hchain] at hcount
      exact absurd rfl hcount
    · next kid hkid =>
      rw [hkid] at hchain
      obtain ⟨t₁, ht₁⟩ :=
        Option.isSome_iff_exists.mp (reapSibling_isSome (p := p) hchain (h.length_le p))
      split <;> simp [ht₁]

/-- Nor does the loop of a termination. -/
theorem processTerminate_isSome (h : Family primordial t kids)
    (hp : (t.procs p).status.Active) (status : BitVec 32) :
    (t.processTerminate primordial p status).isSome := by
  have hsome : (t.reparent primordial kernelMaxProcs (t.procs p).child).isSome :=
    reparent_isSome (h.chain p hp) (h.length_le p)
  obtain ⟨t₁, ht₁⟩ := Option.isSome_iff_exists.mp hsome
  simp [processTerminate, ht₁]

/-- Every call keeps the tree, if it terminates no process that has children. -/
theorem apply (h : Family primordial t kids) {op : ProcessOp} (hleaf : t.TerminatesLeaf op)
    (hop : t.apply primordial op = some t') : ∃ kids', Family primordial t' kids' := by
  cases op with
  | fork p ok =>
    simp only [ProcessTable.apply] at hop
    split at hop
    · next hp =>
      obtain ⟨⟨t₁, v⟩, hfork, rfl⟩ := Option.map_eq_some_iff.mp hop
      exact h.fork hp hfork
    · cases hop
  | wait p =>
    simp only [ProcessTable.apply] at hop
    split at hop
    · next hp =>
      obtain ⟨⟨t₁, v⟩, hwait, rfl⟩ := Option.map_eq_some_iff.mp hop
      exact h.wait hp hwait
    · cases hop
  | terminate p status =>
    simp only [ProcessTable.apply] at hop
    split at hop
    · next hp => exact ⟨kids, h.terminate hp.1 hp.2 hleaf hop⟩
    · cases hop
  | schedule p status =>
    simp only [ProcessTable.apply] at hop
    split at hop
    · next hp =>
      obtain rfl := Option.some.inj hop
      exact ⟨kids, h.schedule hp.1 hp.2⟩
    · cases hop

/-- Terminating a process that has children breaks the invariant: they get the primordial
    process for their parent, but are not in its chain. -/
theorem not_treeLinked_terminate (h : Family primordial t kids)
    (hroot : p ≠ primordial) (hp : (t.procs p).status.Live) (hchild : (t.procs p).child ≠ none)
    {status : BitVec 32} (hterm : t.processTerminate primordial p status = some t') :
    ¬t'.TreeLinked := by
  obtain ⟨kid, hkid⟩ := Option.ne_none_iff_exists'.mp hchild
  have hchain := h.chain p hp.active
  have hmem : kid ∈ kids p := by
    rw [hkid] at hchain
    obtain ⟨l, hl, -⟩ := chain_some.mp hchain
    simp [hl]
  obtain ⟨hactive, hparent⟩ := (h.mem_iff p kid).mp hmem
  have hprocs := processTerminate_eq_some hchain hterm
  intro hlinked
  have hactive' : (t'.procs kid).status.Active := by
    rw [hprocs kid]
    by_cases hkp : kid = p
    · simp only [hkp, if_true]
      decide
    · simpa [hkp] using hactive
  have hparent' : (t'.procs kid).parent = some primordial := by simp [hprocs kid, hmem]
  obtain ⟨l, hl, hcount, -⟩ := hlinked kid primordial hactive' hparent'
  -- the chain of the primordial process is the one it had before
  have hl' : Chain t.sibling (t.procs primordial).child l := by
    rw [hprocs primordial] at hl
    exact hl.congr fun q _ => by rw [sibling, sibling, hprocs q]
  have hkids := (h.chain primordial h.root.active).unique hl'
  have hmem' : kid ∈ kids primordial := by
    rw [hkids]
    exact List.count_pos_iff.mp (by omega)
  have := ((h.mem_iff primordial kid).mp hmem').2
  exact hroot (Option.some.inj (hparent.symm.trans this))

end Family

/-! ## Section 3: Every Run -/

variable {primordial : Slot}

theorem Primordial.family {t : ProcessTable} (h : t.Primordial primordial) :
    Family primordial t fun _ => [] := by
  obtain ⟨hroot, hparent, hchild, hcount, hidle⟩ := h
  have honly : ∀ q, (t.procs q).status.Active → q = primordial := by
    intro q hq
    by_contra hne
    rw [hidle q hne] at hq
    exact hq.1 rfl
  refine ⟨hroot, fun q r => ?_, fun q r hr => by simp at hr, fun q hq => ?_, fun q hq => ?_,
    fun q hq => ?_⟩
  · simp only [List.not_mem_nil, false_iff, not_and]
    intro hr
    rw [honly r hr, hparent]
    simp
  · rw [honly q hq, hchild]
    rfl
  · rw [honly q hq, hcount]
    rfl
  · rw [honly q (by rw [hq]; decide)]
    exact hchild

/-- Along a run the process tree invariant holds exactly as long as every process that is
    terminated is childless. -/
theorem treeLinked_iff {n : Nat} {tables : Nat → ProcessTable} {ops : Nat → ProcessOp}
    (hrun : (calls primordial).Run n tables ops) :
    (∀ i, i ≤ n → (tables i).TreeLinked) ↔ ∀ i, i < n → (tables i).TerminatesLeaf (ops i) := by
  refine hrun.forall_iff_guard (I := fun t => ∃ kids, Family primordial t kids)
    (fun t h => ⟨_, h.family⟩) (fun t op t' h hleaf hop => ?_) (fun t h => ?_)
    fun t op t' h hleaf hop => ?_
  · obtain ⟨kids, h⟩ := h
    exact h.apply hleaf hop
  · obtain ⟨kids, h⟩ := h
    exact h.treeLinked
  · obtain ⟨kids, h⟩ := h
    cases op with
    | terminate p status =>
      simp only [calls, apply] at hop
      split at hop
      · next hp => exact h.not_treeLinked_terminate hp.2 hp.1 hleaf hop
      · cases hop
    | fork p ok => exact absurd trivial hleaf
    | wait p => exact absurd trivial hleaf
    | schedule p status => exact absurd trivial hleaf

/-! ### Two Runs -/

/-- The tables along a sequence of calls; a call without a result changes nothing. -/
def after (primordial : Slot) (t : ProcessTable) (ops : Nat → ProcessOp) : Nat → ProcessTable
  | 0 => t
  | n + 1 => ((t.after primordial ops n).apply primordial (ops n)).getD
      (t.after primordial ops n)

theorem after_run {t : ProcessTable} {ops : Nat → ProcessOp} {n : Nat}
    (ht : t.Primordial primordial)
    (hops : ∀ i, i < n → ((t.after primordial ops i).apply primordial (ops i)).isSome) :
    (calls primordial).Run n (t.after primordial ops) ops := by
  refine ⟨ht, fun i hi => ?_⟩
  obtain ⟨t', ht'⟩ := Option.isSome_iff_exists.mp (hops i hi)
  simp [calls, after, ht']

/-- Slot 0 holds the primordial process, which runs; the other slots are idle. -/
def firstTable : ProcessTable where
  procs p :=
    { id := 0, parent := none, child := none, sibling := none, numChildren := 0
      status := if p = 0 then .running else .idle
      exitCode := 0, endpoint := 0, runTime := 0 }
  nextPid := 1

theorem firstTable_primordial : firstTable.Primordial 0 := by
  refine ⟨by decide, rfl, rfl, rfl, fun p hp => ?_⟩
  simp [firstTable, hp]

/-- A child is made, terminated and reaped. -/
def reapOps : Nat → ProcessOp
  | 0 => .fork 0 true
  | 1 => .schedule 1 .running
  | 2 => .terminate 1 7
  | _ => .wait 0

theorem treeLinked_iff_reapOps :
    (firstTable.after 0 reapOps 4).TreeLinked := by
  have hrun : (calls 0).Run 4 (firstTable.after 0 reapOps) reapOps :=
    after_run firstTable_primordial (by decide +kernel)
  exact (treeLinked_iff hrun).mpr (by decide +kernel) 4 le_rfl

/-- A child forks and is terminated: the grandchild is an orphan. -/
def orphanOps : Nat → ProcessOp
  | 0 => .fork 0 true
  | 1 => .schedule 1 .running
  | 2 => .fork 1 true
  | _ => .terminate 1 0

/-- The orphan has the primordial process for its parent and is not in its chain. -/
theorem not_forall_treeLinked :
    ¬∀ (primordial : Slot) (n : Nat) (tables : Nat → ProcessTable) (ops : Nat → ProcessOp),
      (calls primordial).Run n tables ops → ∀ i, i ≤ n → (tables i).TreeLinked := by
  intro h
  have hrun : (calls 0).Run 4 (firstTable.after 0 orphanOps) orphanOps :=
    after_run firstTable_primordial (by decide +kernel)
  obtain ⟨l, hl, hcount, -⟩ := h 0 4 _ _ hrun 4 (Nat.le_refl 4) 2 0
    (by decide +kernel) (by decide +kernel)
  have hchain : Chain (firstTable.after 0 orphanOps 4).sibling
      ((firstTable.after 0 orphanOps 4).procs 0).child [1] :=
    ⟨by decide +kernel, chain_nil.mpr (by decide +kernel)⟩
  rw [hl.unique hchain] at hcount
  exact absurd hcount (by decide)

end ProcessTable

end Avos
