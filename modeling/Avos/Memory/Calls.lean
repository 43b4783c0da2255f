import Avos.Library.Transition
import Avos.Memory.Refinement

/-! # The Callers of the Page Allocator

  Callers acquire blocks of any order, write to the blocks they hold and
  release them. `pageCalls` is the transition system of all their runs. An arena
  shows a pool when the allocator represents it and what the callers hold are
  its outstanding blocks; each call is followed by what it does to the pool. -/

open Links Buddy Transition

namespace Avos

/-! ## Calls -/

/-- The allocator, and what its callers hold: the pointers, with their orders. -/
structure Arena where
  mem : PhysMem
  held : List (Nat × Nat)

/-- `store` is a caller's write to the two words at the start of a page it holds. -/
inductive Call where
  | acquire (order : Nat)
  | release (pointer order : Nat)
  | store (pointer order page next prev : Nat)

/-- Orders are at most 10, and a caller releases or writes to what is held. -/
def Call.Allowed (a : Arena) : Call → Prop
  | acquire k => k ≤ pageMaxOrder
  | release ptr k => (ptr, k) ∈ a.held
  | store ptr k x _ _ => (ptr, k) ∈ a.held ∧ x < 2 ^ k

instance (a : Arena) (c : Call) : Decidable (c.Allowed a) := by
  cases c <;> unfold Call.Allowed <;> infer_instance

/-- Both words of the node at an address. -/
def PhysMem.poke (s : PhysMem) (node next prev : Nat) : PhysMem :=
  { s with nodes := ⟨Function.update s.nodes.next node next,
                     Function.update s.nodes.prev node prev⟩ }

def Arena.exec (a : Arena) : Call → Arena
  | .acquire k =>
      ⟨(a.mem.pageAcquire k).2,
        if (a.mem.pageAcquire k).1 = pageListNull then a.held
        else ((a.mem.pageAcquire k).1, k) :: a.held⟩
  | .release ptr k => ⟨a.mem.pageRelease ptr k, a.held.erase (ptr, k)⟩
  | .store ptr _ x next prev => ⟨a.mem.poke (w32 (ptr + x * 2 ^ 12)) next prev, a.held⟩

/-- The calls made from a state on. -/
def pageCalls (start : Arena) : System Arena Call where
  init a := a = start
  step a c a' := c.Allowed a ∧ a' = a.exec c

/-- The states reached by a sequence of calls. -/
def Arena.after (start : Arena) (calls : Nat → Call) : Nat → Arena
  | 0 => start
  | n + 1 => (start.after calls n).exec (calls n)

theorem Arena.run_after {start : Arena} {calls : Nat → Call} {n : Nat}
    (h : ∀ i, i < n → (calls i).Allowed (start.after calls i)) :
    (pageCalls start).Run n (start.after calls) calls :=
  ⟨rfl, fun i hi => ⟨h i hi, rfl⟩⟩

/-- What the holder of a block has. -/
def handle (b : Block) : Nat × Nat := (blockNode b.order b.number, b.order)

theorem handle_fst (b : Block) : (handle b).1 = pageNode b.page := by
  unfold handle blockNode Block.page
  rfl

@[simp] theorem handle_snd (b : Block) : (handle b).2 = b.order := rfl

theorem Arena.exec_release_mem (a : Arena) (ptr k : Nat) :
    (a.exec (.release ptr k)).mem = a.mem.pageRelease ptr k := rfl

/-- The pool and the blocks behind an arena. All nodes that have been stored to, and
    the first nodes of all blocks, are among `S`. -/
structure Arena.Shows (S : Nat → Prop) (a : Arena) (P : Pool) (out : List Block) : Prop where
  held : a.held = out.map handle
  rep : PhysMem.Rep S a.mem P
  valid : PhysMem.Valid P out
  covers : PhysMem.Covers S P out

/-! ## What each call does -/

namespace Arena

variable {S : Nat → Prop} {a : Arena} {P P' : Pool} {out : List Block} {k p : Nat} {b : Block}

theorem pageNode_of_dvd (hp : 2 ^ k ∣ p) : pageNode p = blockNode k (p / 2 ^ k) := by
  rw [blockNode, Nat.div_mul_cancel hp]

theorem Shows.acquire_none (h : a.Shows S P out) (hk : k ≤ pageMaxOrder)
    (hacq : P.acquire pageMaxOrder k = none) : a.exec (.acquire k) = a := by
  simp [exec, h.rep.pageAcquire_none hk hacq]

theorem Shows.acquire_some (h : a.Shows S P out) (hk : k ≤ pageMaxOrder)
    (hacq : P.acquire pageMaxOrder k = some (p, P')) :
    (a.exec (.acquire k)).Shows S P' (blockOf k p :: out) := by
  obtain ⟨hptr, hrep⟩ := h.rep.pageAcquire h.valid h.covers hk hacq
  refine ⟨?_, hrep, h.valid.acquire hacq hk, h.covers.congr (Pool.total_acquire hacq hk)⟩
  simp only [exec]
  rw [hptr, if_neg (pageNode_ne_null p), h.held, List.map_cons, handle, blockOf_number,
    blockOf_order, pageNode_of_dvd (Pool.aligned_of_acquire hacq hk)]

theorem Shows.page_lt (h : a.Shows S P out) (hb : b ∈ out) : b.page < numPages :=
  h.valid.bounded _ (PhysMem.total_pos_of_mem hb b.contains_page)

/-- Two blocks held have different handles. -/
theorem Shows.handle_inj (h : a.Shows S P out) {c : Block} (hb : b ∈ out) (hc : c ∈ out)
    (heq : handle b = handle c) : b = c := by
  obtain ⟨hnode, horder⟩ := Prod.mk.inj heq
  have hpages : b.page = c.page := by
    rw [blockNode, blockNode] at hnode
    exact pageNode_inj (h.page_lt hb) (h.page_lt hc) hnode
  rw [← blockOf_page b, ← blockOf_page c, hpages, horder]

/-- The block behind a handle. -/
theorem Shows.block_of_held (h : a.Shows S P out) {ptr : Nat} (hheld : (ptr, k) ∈ a.held) :
    ∃ b ∈ out, (handle b).1 = ptr ∧ (handle b).2 = k := by
  rw [h.held] at hheld
  obtain ⟨b, hb, heq⟩ := List.mem_map.mp hheld
  exact ⟨b, hb, by rw [heq], by rw [heq]⟩

theorem physAddr_handle (h : a.Shows S P out) (hb : b ∈ out) :
    physAddr (handle b).1 = b.page * 2 ^ 12 := by
  rw [handle_fst]
  exact physAddr_pageNode (h.page_lt hb)

theorem total_front (hb : b ∈ out) (x : Nat) :
    P.total pageMaxOrder (blockOf b.order b.page :: out.erase b) x
      = P.total pageMaxOrder out x := by
  rw [blockOf_page, Pool.total_perm (List.perm_cons_erase hb)]

/-- A block held may be taken for the one in front. -/
theorem Shows.front (h : a.Shows S P out) (hb : b ∈ out) :
    PhysMem.Valid P (blockOf b.order b.page :: out.erase b) := by
  rw [blockOf_page]
  exact h.valid.perm (List.perm_cons_erase hb)

/-- A release, as long as the block is aligned to every order it merges at, and
    merges with free blocks only. -/
theorem Shows.release (h : a.Shows S P out) (hb : b ∈ out)
    (hfree : P.MergesFree b.page b.order (pageMaxOrder - b.order))
    (haligned : ∀ j, b.order ≤ j → j < (Pool.mergeUp b.page (pageMaxOrder - b.order) b.order P).1 →
      2 ^ j ∣ b.page) :
    (a.exec (.release (handle b).1 (handle b).2)).Shows S
      (P.release pageMaxOrder b.order b.page) (out.erase b) := by
  have hk : b.order ≤ pageMaxOrder := h.valid.orders b hb
  have htotal : ∀ x, (P.release pageMaxOrder b.order b.page).total pageMaxOrder (out.erase b) x
      = P.total pageMaxOrder out x := fun x => by
    rw [Pool.release, Pool.total_mergeUp (by omega) hfree, total_front hb]
  refine ⟨?_, ?_, (h.front hb).release hfree, h.covers.congr htotal⟩
  · change a.held.erase (handle b) = _
    rw [h.held]
    exact PhysMem.map_erase_of_inj (fun c hc heq => h.handle_inj hc hb heq)
  · rw [exec_release_mem, handle_fst, handle_snd]
    refine h.rep.pageRelease (h.front hb) (h.covers.congr (total_front hb)) hfree
      (h.page_lt hb) ?_
    intro j hj hlt
    have hle := (Pool.le_mergeUp_order (p := b.page) (k := b.order) (P := P)
      (pageMaxOrder - b.order)).2
    exact PhysMem.kernAddr_pageBuddy (haligned j hj hlt) (by omega) (h.page_lt hb)

theorem Shows.store (h : a.Shows S P out) (hb : b ∈ out) {x : Nat} (hx : x < 2 ^ b.order)
    (next prev : Nat) :
    (a.exec (.store (handle b).1 (handle b).2 x next prev)).Shows S P out := by
  have hin : (blockOf b.order b.page).Contains (b.page + x) := by
    rw [blockOf_page]
    change (b.number * 2 ^ b.order + x) / 2 ^ b.order = b.number
    rw [Nat.mul_comm, Nat.mul_add_div (Nat.two_pow_pos _), Nat.div_eq_of_lt hx, Nat.add_zero]
  have haddr : w32 ((handle b).1 + x * 2 ^ 12) = pageNode (b.page + x) := by
    rw [handle_fst]
    unfold pageNode kernAddr w32
    omega
  refine ⟨h.held, ⟨⟨fun k hk => ?_, h.rep.written⟩, h.rep.bits⟩, h.valid, h.covers⟩
  have hne : ∀ n ∈ P.lists k, blockNode k n ≠ pageNode (b.page + x) :=
    fun n hn => PhysMem.blockNode_ne_hand (h.front hb) hk hn hin
  refine (h.rep.isList k hk).congr (fun c hc => ?_) (fun c hc => ?_)
  · obtain ⟨n, hn, rfl⟩ := List.mem_map.mp hc
    simp only [exec, PhysMem.poke, haddr, Function.update_of_ne (hne n hn)]
  · obtain ⟨n, hn, rfl⟩ := List.mem_map.mp hc
    simp only [exec, PhysMem.poke, haddr, Function.update_of_ne (hne n hn)]

end Arena

end Avos
