import Mathlib.Data.List.Basic
import Mathlib.Tactic.Common

/-! # Intrusive Doubly Linked Lists

  A heap of nodes of type `α`, each with a `next` and a `prev` field, holds
  any number of lists whose nodes are threaded through these fields. A list
  ends in a distinguished null node, at both ends.

  `IsList L null head l` says that `head` is the first node of a list of `L`
  with exactly the nodes `l`, in order. Three edits are shown to do what they
  should: inserting at the front, taking the first node off, and unlinking a
  node from the middle. Each is stated through the fields the edit leaves
  behind, so that any sequence of stores with this effect may use it.
-/

namespace Links

variable {α : Type*}

/-- The two fields of every node. -/
structure Heap (α : Type*) where
  next : α → α
  prev : α → α

/-- The nodes `l`, starting at `p` and reached from `back`, are linked both ways. -/
def Linked (L : Heap α) (null : α) : α → α → List α → Prop
  | _, p, [] => p = null
  | back, p, a :: l => p = a ∧ a ≠ null ∧ L.prev a = back ∧ Linked L null a (L.next a) l

/-- `head` is the first node of a null-terminated list with the nodes `l`. -/
def IsList (L : Heap α) (null head : α) (l : List α) : Prop :=
  l.Nodup ∧ Linked L null null head l

section facts

variable {L L' : Heap α} {null head back p : α} {l : List α}

@[simp] theorem linked_nil : Linked L null back p [] ↔ p = null := Iff.rfl

@[simp] theorem linked_cons {a : α} :
    Linked L null back p (a :: l) ↔
      p = a ∧ a ≠ null ∧ L.prev a = back ∧ Linked L null a (L.next a) l := Iff.rfl

@[simp] theorem isList_nil : IsList L null head [] ↔ head = null := by
  simp [IsList]

theorem Linked.ne_null (h : Linked L null back p l) : ∀ a ∈ l, a ≠ null := by
  induction l generalizing back p with
  | nil => simp
  | cons b l ih =>
    obtain ⟨_, hb, _, hl⟩ := h
    intro a ha
    rcases List.mem_cons.mp ha with rfl | ha
    · exact hb
    · exact ih hl a ha

theorem IsList.ne_null (h : IsList L null head l) : ∀ a ∈ l, a ≠ null :=
  h.2.ne_null

theorem IsList.nodup (h : IsList L null head l) : l.Nodup := h.1

/-- A list is determined by its links. -/
theorem Linked.unique {l' : List α} (h : Linked L null back p l) (h' : Linked L null back p l') :
    l = l' := by
  induction l generalizing back p l' with
  | nil =>
    cases l' with
    | nil => rfl
    | cons b l' => exact absurd (h'.1.symm.trans h) h'.2.1
  | cons a l ih =>
    cases l' with
    | nil => exact absurd (h.1.symm.trans h') h.2.1
    | cons b l' =>
      obtain rfl : a = b := h.1.symm.trans h'.1
      rw [ih h.2.2.2 h'.2.2.2]

theorem IsList.unique {l' : List α} (h : IsList L null head l) (h' : IsList L null head l') :
    l = l' := h.2.unique h'.2

/-- The first node, or null when there is none. -/
theorem IsList.head_eq (h : IsList L null head l) : head = l.headD null := by
  cases l with
  | nil => exact h.2
  | cons a l => exact h.2.1

theorem IsList.head_eq_null_iff (h : IsList L null head l) : head = null ↔ l = [] := by
  cases l with
  | nil => simpa using h
  | cons a l => simpa [h.2.1] using h.2.2.1

theorem IsList.head_mem (h : IsList L null head l) (hne : head ≠ null) : head ∈ l := by
  cases l with
  | nil => exact absurd h.2 hne
  | cons a l => simp [h.2.1]

/-! ### Frame

  A list depends on the fields of its own nodes only. -/

theorem Linked.congr (h : Linked L null back p l)
    (hnext : ∀ a ∈ l, L'.next a = L.next a) (hprev : ∀ a ∈ l, L'.prev a = L.prev a) :
    Linked L' null back p l := by
  induction l generalizing back p with
  | nil => exact h
  | cons a l ih =>
    obtain ⟨rfl, ha, hback, hl⟩ := h
    refine ⟨rfl, ha, ?_, ?_⟩
    · rw [hprev p (by simp), hback]
    · rw [hnext p (by simp)]
      exact ih hl (fun b hb => hnext b (by simp [hb])) (fun b hb => hprev b (by simp [hb]))

theorem IsList.congr (h : IsList L null head l)
    (hnext : ∀ a ∈ l, L'.next a = L.next a) (hprev : ∀ a ∈ l, L'.prev a = L.prev a) :
    IsList L' null head l :=
  ⟨h.1, h.2.congr hnext hprev⟩

/-! ### Neighbours -/

/-- The predecessor of the first node is the node before the list, that of a
    later one is in the list. -/
theorem Linked.prev_mem {a : α} (h : Linked L null back p l) (hnd : l.Nodup) (ha : a ∈ l) :
    L.prev a = back ∧ a = p ∨ L.prev a ∈ l ∧ a ≠ p := by
  induction l generalizing back p with
  | nil => simp at ha
  | cons b l ih =>
    obtain ⟨rfl, hb, hback, hl⟩ := h
    obtain ⟨hpl, hndl⟩ := List.nodup_cons.mp hnd
    rcases List.mem_cons.mp ha with rfl | ha'
    · exact .inl ⟨hback, rfl⟩
    · refine .inr ⟨?_, fun heq => hpl (heq ▸ ha')⟩
      rcases ih hl hndl ha' with ⟨hprev, _⟩ | ⟨hprev, _⟩
      · simp [hprev]
      · simp [hprev]

/-- The successor of a node is null or in the list. -/
theorem Linked.next_mem {a : α} (h : Linked L null back p l) (ha : a ∈ l) :
    L.next a = null ∨ L.next a ∈ l := by
  induction l generalizing back p with
  | nil => simp at ha
  | cons b l ih =>
    obtain ⟨rfl, _, _, hl⟩ := h
    rcases List.mem_cons.mp ha with rfl | ha'
    · cases l with
      | nil => exact .inl hl
      | cons c l => exact .inr (by simp [hl.1])
    · rcases ih hl ha' with h | h
      · exact .inl h
      · exact .inr (by simp [h])

/-- A node of a list is not its own neighbour. -/
theorem Linked.neighbours_ne {b : α} (h : Linked L null back p l) (hnd : l.Nodup)
    (hback : back ∉ l) (hb : b ∈ l) : L.prev b ≠ b ∧ L.next b ≠ b := by
  induction l generalizing back p with
  | nil => simp at hb
  | cons a l ih =>
    obtain ⟨rfl, hp, hprev, hl⟩ := h
    obtain ⟨hpl, hndl⟩ := List.nodup_cons.mp hnd
    rcases List.mem_cons.mp hb with rfl | hbl
    · refine ⟨fun heq => hback (by simp [← hprev, heq]), fun heq => ?_⟩
      rcases l with _ | ⟨c, l⟩
      · exact hp (heq ▸ hl)
      · exact hpl (by rw [← heq, hl.1]; simp)
    · exact ih hl hndl hpl hbl

theorem IsList.neighbours_ne {b : α} (h : IsList L null head l) (hb : b ∈ l) :
    L.prev b ≠ b ∧ L.next b ≠ b :=
  h.2.neighbours_ne h.1 (fun hmem => h.ne_null null hmem rfl) hb

theorem IsList.prev_mem {b : α} (h : IsList L null head l) (hb : b ∈ l) (hne : L.prev b ≠ null) :
    L.prev b ∈ l := by
  rcases h.2.prev_mem h.1 hb with ⟨heq, _⟩ | ⟨hm, _⟩
  · exact absurd heq hne
  · exact hm

theorem IsList.next_mem {b : α} (h : IsList L null head l) (hb : b ∈ l) (hne : L.next b ≠ null) :
    L.next b ∈ l :=
  (h.2.next_mem hb).resolve_left hne

end facts

/-! ## Edits -/

section edits

variable {L L' : Heap α} {null head back p : α} {l : List α}

theorem IsList.push {a : α} (h : IsList L null head l) (ha : a ≠ null) (hal : a ∉ l)
    (hanext : L'.next a = head) (haprev : L'.prev a = null)
    (hhead : head ≠ null → L'.prev head = a)
    (hnext : ∀ b ∈ l, L'.next b = L.next b)
    (hprev : ∀ b ∈ l, b ≠ head → L'.prev b = L.prev b) :
    IsList L' null a (a :: l) := by
  refine ⟨List.nodup_cons.mpr ⟨hal, h.1⟩, rfl, ha, haprev, ?_⟩
  rw [hanext]
  cases l with
  | nil => exact h.2
  | cons b l =>
    obtain ⟨rfl, hb, _, hl⟩ := h.2
    have hbl : head ∉ l := (List.nodup_cons.mp h.1).1
    refine ⟨rfl, hb, hhead hb, ?_⟩
    rw [hnext head (by simp)]
    refine hl.congr (fun c hc => hnext c (by simp [hc])) (fun c hc => ?_)
    exact hprev c (by simp [hc]) (fun heq => hbl (heq ▸ hc))

theorem IsList.pop {a : α} (h : IsList L null head (a :: l))
    (hhead : L.next a ≠ null → L'.prev (L.next a) = null)
    (hnext : ∀ b ∈ l, L'.next b = L.next b)
    (hprev : ∀ b ∈ l, b ≠ L.next a → L'.prev b = L.prev b) :
    IsList L' null (L.next a) l := by
  refine ⟨(List.nodup_cons.mp h.1).2, ?_⟩
  obtain ⟨_, _, _, hl⟩ := h.2
  cases l with
  | nil => exact hl
  | cons b l =>
    obtain ⟨hb, hbn, _, hl'⟩ := hl
    have hbl : b ∉ l := by
      have := (List.nodup_cons.mp h.1).2
      exact (List.nodup_cons.mp this).1
    refine ⟨hb, hbn, hb ▸ hhead (hb ▸ hbn), ?_⟩
    rw [hnext b (by simp)]
    refine hl'.congr (fun c hc => hnext c (by simp [hc])) (fun c hc => ?_)
    exact hprev c (by simp [hc]) (fun heq => hbl (hb ▸ heq ▸ hc))

variable [DecidableEq α]

/-- Unlinking `b`: its neighbours now point past it. Induction on the list,
    with the node before it (`back`) and its first node (`p`) general. -/
theorem Linked.unlink {b : α} (h : Linked L null back p l) (hnd : l.Nodup) (hback : back ∉ l)
    (hb : b ∈ l)
    (hnext : ∀ a ∈ l, a ≠ b → L'.next a = if a = L.prev b then L.next b else L.next a)
    (hprev : ∀ a ∈ l, a ≠ b → L'.prev a = if a = L.next b then L.prev b else L.prev a) :
    Linked L' null back (if b = p then L.next b else p) (l.erase b) := by
  induction l generalizing back p with
  | nil => simp at hb
  | cons a l ih =>
    obtain ⟨rfl, hp, hpb, hl⟩ := h
    obtain ⟨hpl, hndl⟩ := List.nodup_cons.mp hnd
    by_cases hbp : b = p
    · -- the first node goes: its successor is now reached from `back`
      subst hbp
      simp only [List.erase_cons_head, if_true]
      cases l with
      | nil => exact hl
      | cons c l =>
        obtain ⟨hc, hcn, hcb, hl'⟩ := hl
        obtain ⟨hcl, _⟩ := List.nodup_cons.mp hndl
        have hcb' : c ≠ b := fun h => hpl (by simp [h])
        have hprevne : ∀ d ∈ c :: l, d ≠ L.prev b := by
          intro d hd heq
          exact hback (by rw [← hpb, ← heq]; exact List.mem_cons_of_mem _ hd)
        refine ⟨hc, hcn, ?_, ?_⟩
        · rw [hprev c (by simp) hcb', if_pos hc.symm, hpb]
        · rw [hnext c (by simp) hcb', if_neg (hprevne c (by simp))]
          refine hl'.congr (fun d hd => ?_) (fun d hd => ?_)
          · rw [hnext d (by simp [hd]) (fun h => hpl (by simp [← h, hd])),
              if_neg (hprevne d (by simp [hd]))]
          · rw [hprev d (by simp [hd]) (fun h => hpl (by simp [← h, hd])),
              if_neg (fun h => hcl (by rw [← hc, ← h]; exact hd))]
    · -- a later node goes: `p` stays, and its successor may have changed
      have hbl : b ∈ l := (List.mem_cons.mp hb).resolve_left hbp
      have hpb' : p ≠ b := fun h => hbp h.symm
      rw [if_neg hbp, List.erase_cons_tail (by simpa using hpb')]
      have hrec := ih hl hndl hpl hbl
        (fun c hc => hnext c (by simp [hc])) (fun c hc => hprev c (by simp [hc]))
      have hnextp : L'.next p = if b = L.next p then L.next b else L.next p := by
        rw [hnext p (by simp) hpb']
        rcases hl.prev_mem hndl hbl with ⟨h1, h2⟩ | ⟨h1, h2⟩
        · rw [if_pos h1.symm, if_pos h2]
        · rw [if_neg (fun heq : p = L.prev b => hpl (heq ▸ h1)), if_neg h2]
      refine ⟨rfl, hp, ?_, hnextp ▸ hrec⟩
      rw [hprev p (by simp) hpb', if_neg, hpb]
      intro heq
      rcases hl.next_mem hbl with h | h
      · exact hp (heq.trans h)
      · exact hpl (heq ▸ h)

theorem IsList.unlink {K : Heap α} {b : α} (h : IsList L null head l) (hb : b ∈ l)
    (hnext : ∀ a ∈ l, a ≠ b → K.next a = if a = L.prev b then L.next b else L.next a)
    (hprev : ∀ a ∈ l, a ≠ b → K.prev a = if a = L.next b then L.prev b else L.prev a) :
    IsList K null (if L.prev b = null then L.next b else head) (l.erase b) := by
  refine ⟨h.1.erase b, ?_⟩
  have hnull : null ∉ l := fun hmem => h.ne_null null hmem rfl
  have hcond : (L.prev b = null) ↔ b = head := by
    rcases h.2.prev_mem h.1 hb with ⟨h1, h2⟩ | ⟨h1, h2⟩
    · exact iff_of_true h1 h2
    · exact iff_of_false (fun heq => hnull (heq ▸ h1)) h2
  simpa only [hcond] using h.2.unlink h.1 hnull hb hnext hprev

end edits

end Links
