import Mathlib.Data.List.Basic
import Mathlib.Data.List.Nodup
import Mathlib.Logic.Function.Basic
import Mathlib.Tactic.Common

/-! # Intrusive Singly Linked Chains

  Nodes of type `α` with one link each, `next : α → Option α`. `Chain next head l`
  says that following the links from `head` visits exactly the nodes `l`, in
  order, and then ends. A chain that ends visits no node twice.

  Three edits are covered: a new node at the front, the first node taken off, and
  a later node taken out by a store to the link of the node before it.
-/

namespace Chains

variable {α : Type*}

/-- Following the links from `head` visits the nodes `l` and ends. -/
def Chain (next : α → Option α) : Option α → List α → Prop
  | head, [] => head = none
  | head, a :: l => head = some a ∧ Chain next (next a) l

section facts

variable {next next' : α → Option α} {head : Option α} {l : List α} {a b : α}

@[simp] theorem chain_nil : Chain next head [] ↔ head = none := Iff.rfl

@[simp] theorem chain_cons : Chain next head (a :: l) ↔ head = some a ∧ Chain next (next a) l :=
  Iff.rfl

@[simp] theorem chain_none : Chain next none l ↔ l = [] := by
  cases l <;> simp

theorem chain_some : Chain next (some a) l ↔ ∃ l', l = a :: l' ∧ Chain next (next a) l' := by
  cases l with
  | nil => simp
  | cons b l =>
    constructor
    · rintro ⟨hab, hl⟩
      obtain rfl : a = b := Option.some.inj hab
      exact ⟨l, rfl, hl⟩
    · rintro ⟨l', heq, hl⟩
      obtain ⟨rfl, rfl⟩ := List.cons.inj heq
      exact ⟨rfl, hl⟩

/-- A chain is determined by its links. -/
theorem Chain.unique {l' : List α} (h : Chain next head l) (h' : Chain next head l') :
    l = l' := by
  induction l generalizing head l' with
  | nil =>
    obtain rfl : head = none := h
    exact (chain_none.mp h').symm
  | cons a l ih =>
    obtain ⟨rfl, hl⟩ := h
    obtain ⟨l'', rfl, hl''⟩ := chain_some.mp h'
    rw [ih hl hl'']

/-- A chain depends on the links of its own nodes only. -/
theorem Chain.congr (h : Chain next head l) (hnext : ∀ a ∈ l, next' a = next a) :
    Chain next' head l := by
  induction l generalizing head with
  | nil => exact h
  | cons a l ih =>
    refine ⟨h.1, ?_⟩
    rw [hnext a (by simp)]
    exact ih h.2 fun b hb => hnext b (by simp [hb])

/-- The rest of a chain, from one of its nodes on, is a chain. -/
theorem Chain.split (h : Chain next head l) (ha : a ∈ l) :
    ∃ l₁ l₂, l = l₁ ++ a :: l₂ ∧ Chain next (next a) l₂ := by
  induction l generalizing head with
  | nil => simp at ha
  | cons b l ih =>
    by_cases hab : a = b
    · subst hab
      exact ⟨[], l, rfl, h.2⟩
    · obtain ⟨l₁, l₂, rfl, hl⟩ := ih h.2 (by simpa [hab] using ha)
      exact ⟨b :: l₁, l₂, rfl, hl⟩

theorem Chain.next_mem (h : Chain next head l) (ha : a ∈ l) (hb : next a = some b) : b ∈ l := by
  obtain ⟨l₁, l₂, rfl, hl⟩ := h.split ha
  rw [hb] at hl
  obtain ⟨l₃, rfl, _⟩ := chain_some.mp hl
  simp

/-- No node of a chain comes back later: the links after it would go round for ever. -/
theorem Chain.not_mem_tail (h : Chain next (next a) l) : a ∉ l := by
  intro ha
  obtain ⟨l₁, l₂, heq, hl⟩ := h.split ha
  have hlen := congrArg List.length (heq.symm.trans (h.unique hl))
  simp only [List.length_append, List.length_cons] at hlen
  omega

theorem Chain.nodup (h : Chain next head l) : l.Nodup := by
  induction l generalizing head with
  | nil => simp
  | cons a l ih => exact List.nodup_cons.mpr ⟨h.2.not_mem_tail, ih h.2⟩

end facts

/-! ## Edits -/

section edits

variable {next next' : α → Option α} {head : Option α} {l : List α} {a b : α}

/-- A new node, linked to the old front. -/
theorem Chain.push (h : Chain next head l) (ha : a ∉ l) (hlink : next' a = head)
    (hframe : ∀ c, c ≠ a → next' c = next c) : Chain next' (some a) (a :: l) := by
  refine ⟨rfl, ?_⟩
  rw [hlink]
  exact h.congr fun c hc => hframe c fun hca => ha (hca ▸ hc)

/-- The link of `a` is redirected past its successor `b`. -/
theorem Chain.unlink [DecidableEq α] (h : Chain next head l) (ha : a ∈ l) (hb : next a = some b)
    (hlink : next' a = next b) (hframe : ∀ c, c ≠ a → next' c = next c) :
    Chain next' head (l.erase b) := by
  induction l generalizing head with
  | nil => simp at ha
  | cons c l ih =>
    have hnd := h.nodup
    obtain ⟨rfl, hl⟩ := h
    by_cases hac : a = c
    · subst hac
      rw [hb] at hl
      obtain ⟨l', rfl, hl'⟩ := chain_some.mp hl
      have hba : a ≠ b := fun hab => hl'.not_mem_tail (hab ▸ by simp_all)
      rw [List.erase_cons_tail (by simpa using hba), List.erase_cons_head]
      refine ⟨rfl, ?_⟩
      rw [hlink]
      exact hl'.congr fun d hd => hframe d fun hda => by simp_all
    · have hal : a ∈ l := by simpa [hac] using ha
      have hbl : b ∈ l := hl.next_mem hal hb
      have hcb : c ≠ b := fun hcb => (List.nodup_cons.mp hnd).1 (hcb ▸ hbl)
      rw [List.erase_cons_tail (by simpa using hcb)]
      refine ⟨rfl, ?_⟩
      rw [hframe c fun hca => hac hca.symm]
      exact ih hl hal

end edits

end Chains
