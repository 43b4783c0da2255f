import Avos.Clib.String
import Avos.Library.Walk
import Mathlib.Algebra.Order.Group.Nat

/-! # The Multiboot Information Record

  The functions of `bootloader/multiboot/src/multiboot.c` on the record that the boot loader
  hands to the kernel: a start of eight bytes, tags that carry their own size, and a
  terminator.

  `IsRecord` says what memory a record is in, and with which tags. `extends_terminateTag` is
  the one rule for a tag that is written over the terminator.
-/

open ByteMemory Walks

namespace Avos.Multiboot

/-! ## Section 1: The Functions -/

/-- `MEMORY_NULL_PTR`. -/
def memoryNullPtr : BitVec 32 := 0xFFFFFFFF

/-- `Multiboot_CheckForValidMBI`. -/
def checkForValidMbi (m : Memory) (mbi : BitVec 32) : Bool :=
  if mbi % 8 ≠ 0 ∨ load32 m (mbi + 4) ≠ 0 ∨ load32 m mbi < 16 ∨ load32 m mbi % 8 ≠ 0 then false
  else
    let term := load32 m mbi + mbi - 8
    if load32 m term ≠ 0 ∨ load32 m (term + 4) ≠ 8 then false else true

/-- `Multiboot_CreateEmptyMBI`. -/
def createEmptyMbi (m : Memory) (mbi : BitVec 32) : Bool × Memory :=
  if mbi % 8 ≠ 0 then (false, m)
  else
    let m := store32 m mbi 16
    let m := store32 m (mbi + 4) 0
    let m := store32 m (mbi + 8) 0
    (true, store32 m (mbi + 8 + 4) 8)

/-- `mbi_tag->type != 0 && (uint32_t)mbi_tag < mbi_addr + mbi_start->total_size`. -/
def InMbi (m : Memory) (mbi tag : BitVec 32) : Prop :=
  load32 m tag ≠ 0 ∧ tag < mbi + load32 m mbi

instance (m : Memory) (mbi : BitVec 32) : DecidablePred (InMbi m mbi) :=
  fun _ => inferInstanceAs (Decidable (_ ∧ _))

/-- `mbi_tag->size + (uint32_t)mbi_tag`. -/
def nextMbiTag (m : Memory) (tag : BitVec 32) : BitVec 32 := load32 m (tag + 4) + tag

/-- The loop of `Multiboot_FindMBITagAddress`. It is left when the tag is found. -/
def searchMbi (m : Memory) (fuel : Nat) (mbi type : BitVec 32) :
    Option (Except (BitVec 32) (BitVec 32)) :=
  whileLoop (InMbi m mbi) (nextMbiTag m)
    (fun tag ret => if load32 m tag = type then .error tag else .ok ret) fuel (mbi + 8) (mbi + 8)

/-- `Multiboot_FindMBITagAddress`. -/
def findMbiTagAddress (fuel : Nat) (m : Memory) (mbi type : BitVec 32) : Option (BitVec 32) :=
  if ¬checkForValidMbi m mbi then some memoryNullPtr
  else
    match searchMbi m fuel mbi type with
    | none => none
    | some out =>
        let ret := match out with
          | .error tag => tag
          | .ok ret => ret
        if load32 m ret = type then some ret
        else
          let term := load32 m mbi + mbi - 8
          if load32 m term ≠ 0 ∨ load32 m (term + 4) ≠ 8 then some memoryNullPtr else some term

/-- `Multiboot_TerminateTag`. -/
def terminateTag (m : Memory) (mbi tag : BitVec 32) : Bool × Memory :=
  if mbi % 8 ≠ 0 ∨ load32 m (mbi + 4) ≠ 0 ∨ load32 m mbi % 8 ≠ 0 then (false, m)
  else
    let term := load32 m (tag + 4) + tag
    if load32 m tag = 0 ∧ load32 m (tag + 4) = 8 then (true, m)
    else if load32 m (tag + 4) = 0 then (true, store32 (store32 m term 0) (term + 4) 8)
    else
      let m := store32 (store32 m term 0) (term + 4) 8
      (true, store32 m mbi (load32 m mbi + load32 m (tag + 4)))

/-- The step of the kernel's walk in `Page_BuddyMaps_Initialize`:
    `mbi_tag + ((mbi_tag->size + 7) & ~7)`. -/
def nextKernelTag (m : Memory) (tag : BitVec 32) : BitVec 32 :=
  tag + ((load32 m (tag + 4) + 7) &&& ~~~7)

/-! ## Section 2: Records -/

/-- A tag that a record may hold. -/
structure MbiTag where
  type : BitVec 32
  size : Nat
  type_ne : type ≠ 0
  size_ge : 8 ≤ size
  size_mod : size % 8 = 0

/-- The bytes that tags take. -/
def tagBytes (l : List MbiTag) : Nat := (l.map MbiTag.size).sum

/-- The tags `l` follow each other from `a` on. -/
def TagsAt (m : Memory) : BitVec 32 → List MbiTag → Prop
  | _, [] => True
  | a, t :: l => load32 m a = t.type ∧ load32 m (a + 4) = BitVec.ofNat 32 t.size ∧
      TagsAt m (a + BitVec.ofNat 32 t.size) l

/-- Where the tags that follow each other from `a` on begin. -/
def tagAddrs : BitVec 32 → List MbiTag → List (BitVec 32)
  | _, [] => []
  | a, t :: l => a :: tagAddrs (a + BitVec.ofNat 32 t.size) l

/-- Where the tags of a record end: the terminator. -/
def termAddr (mbi : BitVec 32) (l : List MbiTag) : BitVec 32 :=
  mbi + 8 + BitVec.ofNat 32 (tagBytes l)

/-- A record with the tags `l`: they follow each other without gaps from offset 8 to the
    terminator, which is the last eight bytes. It ends before the address space does. -/
structure IsRecord (m : Memory) (mbi : BitVec 32) (l : List MbiTag) : Prop where
  aligned : mbi.toNat % 8 = 0
  fits : mbi.toNat + (16 + tagBytes l) < 2 ^ 32
  total : load32 m mbi = BitVec.ofNat 32 (16 + tagBytes l)
  reserved : load32 m (mbi + 4) = 0
  tags : TagsAt m (mbi + 8) l
  termType : load32 m (termAddr mbi l) = 0
  termSize : load32 m (termAddr mbi l + 4) = 8

section tags

variable {m m' : Memory} {a : BitVec 32} {l l' : List MbiTag} {t : MbiTag}

@[simp] theorem tagBytes_nil : tagBytes [] = 0 := rfl

@[simp] theorem tagBytes_cons : tagBytes (t :: l) = t.size + tagBytes l := by simp [tagBytes]

@[simp] theorem tagBytes_append : tagBytes (l ++ l') = tagBytes l + tagBytes l' := by
  simp [tagBytes]

theorem tagBytes_mod : tagBytes l % 8 = 0 := by
  induction l with
  | nil => rfl
  | cons t l ih =>
    have := t.size_mod
    rw [tagBytes_cons]
    omega

theorem length_tagAddrs : (tagAddrs a l).length = l.length := by
  induction l generalizing a with
  | nil => rfl
  | cons t l ih => exact congrArg (· + 1) ih

theorem tagsAt_append :
    TagsAt m a (l ++ l') ↔ TagsAt m a l ∧ TagsAt m (a + BitVec.ofNat 32 (tagBytes l)) l' := by
  induction l generalizing a with
  | nil => simp [TagsAt]
  | cons t l ih =>
    simp only [List.cons_append, TagsAt, ih, tagBytes_cons, BitVec.ofNat_add, BitVec.add_assoc,
      and_assoc]

theorem TagsAt.congr (h : TagsAt m a l) (hm : ∀ x, InBytes a (tagBytes l) x → m' x = m x)
    (hl : tagBytes l ≤ 2 ^ 32) : TagsAt m' a l := by
  induction l generalizing a with
  | nil => trivial
  | cons t l ih =>
    obtain ⟨htype, hsize, hl'⟩ := h
    have hge := t.size_ge
    rw [tagBytes_cons] at hm hl
    refine ⟨?_, ?_, ih hl' (fun x hx => hm x (hx.of_add (by omega) hl)) (by omega)⟩
    · exact (load32_congr fun x hx => hm x (hx.mono (by omega))).trans htype
    · have h4 : load32 m' (a + BitVec.ofNat 32 4) = load32 m (a + BitVec.ofNat 32 4) :=
        load32_congr_of_add hm (by omega) hl
      exact h4.trans hsize

end tags

/-! ## Section 3: Reading a Record -/

section records

variable {m m' : Memory} {mbi a b : BitVec 32} {l : List MbiTag} {t : MbiTag} {fuel : Nat}
  {type : BitVec 32}

theorem umod8_eq_zero_iff : a % 8 = 0 ↔ a.toNat % 8 = 0 := by
  have h8 : (8 : BitVec 32).toNat = 8 := rfl
  rw [← BitVec.toNat_inj, BitVec.toNat_umod, h8]
  rfl

theorem termAddr_eq : termAddr mbi l = mbi + BitVec.ofNat 32 (8 + tagBytes l) := by
  rw [termAddr, BitVec.ofNat_add, BitVec.add_assoc]
  rfl

theorem termAddr_add (k : Nat) :
    termAddr mbi l + BitVec.ofNat 32 k = mbi + BitVec.ofNat 32 (8 + tagBytes l + k) := by
  rw [termAddr_eq, BitVec.add_assoc, ← BitVec.ofNat_add]

theorem toNat_termAddr (h : mbi.toNat + (16 + tagBytes l) < 2 ^ 32) :
    (termAddr mbi l).toNat = mbi.toNat + 8 + tagBytes l := by
  rw [termAddr_eq, BitVec.toNat_add, BitVec.toNat_ofNat]
  omega

/-- What is inside a record decides that it is one. -/
theorem IsRecord.congr (h : IsRecord m mbi l)
    (hm : ∀ x, InBytes mbi (16 + tagBytes l) x → m' x = m x) : IsRecord m' mbi l := by
  have hfits := h.fits
  have hload : ∀ i, i + 4 ≤ 16 + tagBytes l →
      load32 m' (mbi + BitVec.ofNat 32 i) = load32 m (mbi + BitVec.ofNat 32 i) :=
    fun i hi => load32_congr_of_add hm hi (by omega)
  have hterm := h.termType
  have hsize := h.termSize
  rw [termAddr_eq] at hterm hsize
  rw [BitVec.add_assoc] at hsize
  refine ⟨h.aligned, hfits, ?_, (hload 4 (by omega)).trans h.reserved, ?_, ?_, ?_⟩
  · have h0 := hload 0 (by omega)
    simp only [BitVec.add_zero] at h0
    exact h0.trans h.total
  · exact h.tags.congr (fun x hx => hm x (hx.of_add (i := 8) (by omega) (by omega))) (by omega)
  · rw [termAddr_eq]
    exact (hload _ (by omega)).trans hterm
  · rw [termAddr_eq, BitVec.add_assoc]
    have h4 := hload (8 + tagBytes l + 4) (by omega)
    rw [BitVec.ofNat_add _ 4] at h4
    exact h4.trans hsize

theorem IsRecord.total_toNat (h : IsRecord m mbi l) :
    (load32 m mbi).toNat = 16 + tagBytes l := by
  have := h.fits
  rw [h.total, BitVec.toNat_ofNat]
  omega

/-- `mbi_start->total_size + mbi_addr - 8`. -/
theorem IsRecord.term_eq (h : IsRecord m mbi l) :
    load32 m mbi + mbi - 8 = termAddr mbi l := by
  have h16 : BitVec.ofNat 32 (16 + tagBytes l) = 8 + BitVec.ofNat 32 (tagBytes l) + 8 := by
    rw [show 16 + tagBytes l = 8 + tagBytes l + 8 by omega, BitVec.ofNat_add, BitVec.ofNat_add]
    rfl
  rw [h.total, h16, termAddr, BitVec.add_comm, ← BitVec.add_assoc, BitVec.add_sub_cancel,
    ← BitVec.add_assoc]

theorem IsRecord.not_badTerm (h : IsRecord m mbi l) :
    ¬(load32 m (termAddr mbi l) ≠ 0 ∨ load32 m (termAddr mbi l + 4) ≠ 8) := fun hbad =>
  hbad.elim (fun htype => htype h.termType) fun hsize => hsize h.termSize

theorem IsRecord.checkForValidMbi (h : IsRecord m mbi l) : checkForValidMbi m mbi = true := by
  have htotal := h.total_toNat
  have hmod := tagBytes_mod (l := l)
  have h16 : (16 : BitVec 32).toNat = 16 := rfl
  rw [Multiboot.checkForValidMbi, h.term_eq, if_neg]
  · exact if_neg h.not_badTerm
  · simp only [ne_eq, umod8_eq_zero_iff, not_or, not_not, BitVec.lt_def, h16]
    exact ⟨h.aligned, h.reserved, by omega, by omega⟩

/-- The tag of a type, if there is one. -/
def findTag (type : BitVec 32) : BitVec 32 → List MbiTag → Option (BitVec 32)
  | _, [] => none
  | a, t :: l => if t.type = type then some a else findTag type (a + BitVec.ofNat 32 t.size) l

/-- A tag begins after the tags before it. -/
theorem mem_tagAddrs (hb : b ∈ tagAddrs a l) :
    ∃ l₁ t l₂, l = l₁ ++ t :: l₂ ∧ b = a + BitVec.ofNat 32 (tagBytes l₁) := by
  induction l generalizing a with
  | nil => exact absurd hb List.not_mem_nil
  | cons t l ih =>
    rcases List.mem_cons.mp hb with rfl | hb
    · exact ⟨[], t, l, rfl, (BitVec.add_zero _).symm⟩
    · obtain ⟨l₁, t', l₂, rfl, rfl⟩ := ih hb
      refine ⟨t :: l₁, t', l₂, rfl, ?_⟩
      rw [tagBytes_cons, BitVec.ofNat_add, BitVec.add_assoc]

/-- A walk by the sizes of the tags. -/
theorem walk_tagAddrs {cond : BitVec 32 → Prop} {next : BitVec 32 → BitVec 32}
    (h : TagsAt m a l) (hcond : ∀ b ∈ tagAddrs a l, cond b)
    (hnext : ∀ b, ∀ t : MbiTag, load32 m (b + 4) = BitVec.ofNat 32 t.size →
      next b = b + BitVec.ofNat 32 t.size)
    (hend : ¬cond (a + BitVec.ofNat 32 (tagBytes l))) : Walk cond next a (tagAddrs a l) := by
  induction l generalizing a with
  | nil => exact walk_nil.mpr (by simpa [tagBytes] using hend)
  | cons t l ih =>
    obtain ⟨_, hsize, hl⟩ := h
    refine walk_cons.mpr ⟨rfl, hcond a List.mem_cons_self, ?_⟩
    rw [hnext a t hsize]
    refine ih hl (fun b hb => hcond b (List.mem_cons_of_mem _ hb)) ?_
    rwa [tagBytes_cons, BitVec.ofNat_add, ← BitVec.add_assoc] at hend

theorem IsRecord.type_ne (h : IsRecord m mbi l) (hb : b ∈ tagAddrs (mbi + 8) l) :
    load32 m b ≠ 0 := by
  obtain ⟨l₁, t, l₂, rfl, rfl⟩ := mem_tagAddrs hb
  rw [(tagsAt_append.mp h.tags).2.1]
  exact t.type_ne

/-- The boot loader's walk over a record. -/
theorem IsRecord.walk (h : IsRecord m mbi l) :
    Walk (InMbi m mbi) (nextMbiTag m) (mbi + 8) (tagAddrs (mbi + 8) l) := by
  refine walk_tagAddrs h.tags (fun b hb => ⟨h.type_ne hb, ?_⟩)
    (fun b t ht => by rw [nextMbiTag, ht, BitVec.add_comm]) fun hc => hc.1 h.termType
  obtain ⟨l₁, t, l₂, rfl, rfl⟩ := mem_tagAddrs hb
  have hfits := h.fits
  have htotal := h.total_toNat
  have hge := t.size_ge
  have h8 : (8 : BitVec 32).toNat = 8 := rfl
  simp only [tagBytes_append, tagBytes_cons] at hfits htotal
  rw [BitVec.lt_def, BitVec.toNat_add, BitVec.toNat_add, BitVec.toNat_add, htotal, h8,
    BitVec.toNat_ofNat]
  omega

/-- A multiple of eight is not changed by rounding it up. -/
theorem round_ofNat {n : Nat} (hn : n % 8 = 0) :
    (BitVec.ofNat 32 n + 7) &&& ~~~7 = BitVec.ofNat 32 n := by
  have h7 : (7 : BitVec 32).toNat = 7 := rfl
  refine BitVec.eq_of_toNat_eq ((toNat_and_not_lowBits (k := 3)).trans ?_)
  rw [BitVec.toNat_add, h7, BitVec.toNat_ofNat]
  omega

/-- The kernel's walk goes over the same tags. -/
theorem IsRecord.kernelWalk (h : IsRecord m mbi l) :
    Walk (fun tag => load32 m tag ≠ 0) (nextKernelTag m) (mbi + 8) (tagAddrs (mbi + 8) l) :=
  walk_tagAddrs h.tags (fun _ hb => h.type_ne hb)
    (fun b t ht => by rw [nextKernelTag, ht, round_ofNat t.size_mod])
    fun hc => hc h.termType

/-- What the loop of `Multiboot_FindMBITagAddress` makes of the tags. -/
theorem foldlM_search (h : TagsAt m a l) (ret : BitVec 32) :
    (tagAddrs a l).foldlM (fun ret tag => if load32 m tag = type then
        (.error tag : Except (BitVec 32) (BitVec 32)) else .ok ret) ret =
      match findTag type a l with
      | some b => .error b
      | none => .ok ret := by
  induction l generalizing a with
  | nil => rfl
  | cons t l ih =>
    obtain ⟨htype, _, hl⟩ := h
    rw [tagAddrs, List.foldlM_cons, htype, findTag]
    by_cases ht : t.type = type
    · rw [if_pos ht, if_pos ht]
      rfl
    · rw [if_neg ht, if_neg ht]
      exact ih hl

theorem findTag_type (h : TagsAt m a l) (hb : findTag type a l = some b) :
    load32 m b = type := by
  induction l generalizing a with
  | nil => exact nomatch hb
  | cons t l ih =>
    obtain ⟨htype, _, hl⟩ := h
    rw [findTag] at hb
    split at hb
    · rename_i ht
      obtain rfl := Option.some.inj hb
      exact htype.trans ht
    · exact ih hl hb

/-- The first tag, or the terminator, does not have a type that no tag has. -/
theorem IsRecord.first_type (h : IsRecord m mbi l) (hnone : findTag type (mbi + 8) l = none)
    (hfirst : load32 m (mbi + 8) = type) : mbi + 8 = termAddr mbi l := by
  cases l with
  | nil => exact (BitVec.add_zero _).symm
  | cons t l =>
    rw [findTag, if_pos (h.tags.1.symm.trans hfirst)] at hnone
    exact nomatch hnone

/-- `Multiboot_FindMBITagAddress` finds the tag of the type if there is one, and the
    terminator otherwise. -/
theorem IsRecord.findMbiTagAddress_eq (h : IsRecord m mbi l)
    (hfuel : (tagAddrs (mbi + 8) l).length < fuel) :
    findMbiTagAddress fuel m mbi type =
      some ((findTag type (mbi + 8) l).getD (termAddr mbi l)) := by
  rw [findMbiTagAddress, if_neg (by simp [h.checkForValidMbi]), searchMbi,
    whileLoop_of_walk h.walk hfuel, foldlM_search h.tags, h.term_eq]
  cases hfind : findTag type (mbi + 8) l with
  | some b => exact if_pos (findTag_type h.tags hfind)
  | none =>
    by_cases hfirst : load32 m (mbi + 8) = type
    · exact (if_pos hfirst).trans (congrArg some (h.first_type hfind hfirst))
    · exact (if_neg hfirst).trans (if_neg h.not_badTerm)

/-- A larger bound does not change the result of `Multiboot_FindMBITagAddress`. -/
theorem findMbiTagAddress_mono {k : Nat} (h : findMbiTagAddress fuel m mbi type = some a)
    (hk : fuel ≤ k) : findMbiTagAddress k m mbi type = some a := by
  rw [findMbiTagAddress] at h ⊢
  split at h
  · next hbad =>
    rw [if_pos hbad]
    exact h
  · next hgood =>
    rw [if_neg hgood]
    cases hsearch : searchMbi m fuel mbi type with
    | none =>
      rw [hsearch] at h
      exact nomatch h
    | some out =>
      rw [hsearch] at h
      have hsearch' : searchMbi m k mbi type = some out := whileLoop_mono hsearch hk
      rw [hsearch']
      exact h

/-! ## Section 4: Adding a Tag -/

/-- The record with the tags `l` in `m` has got the tags `new` in `m'`. Of its bytes only
    `total_size` and the terminator have changed. -/
structure Extends (mbi : BitVec 32) (l : List MbiTag) (m m' : Memory) (new : List MbiTag) :
    Prop where
  record : IsRecord m' mbi (l ++ new)
  same : ∀ x, InBytes (mbi + 4) (4 + tagBytes l) x → m' x = m x

variable {m₁ : Memory} {n : Nat} {new new' : List MbiTag}

theorem Extends.refl (h : IsRecord m mbi l) : Extends mbi l m m [] where
  record := by rwa [List.append_nil]
  same _ _ := rfl

theorem Extends.trans (h : Extends mbi l m m₁ new) (h' : Extends mbi (l ++ new) m₁ m' new') :
    Extends mbi l m m' (new ++ new') where
  record := List.append_assoc l new new' ▸ h'.record
  same x hx := (h'.same x (hx.mono (by rw [tagBytes_append]; omega))).trans (h.same x hx)

/-- The eight bytes of a terminator are written at `a`. -/
def newTerm (m : Memory) (a : BitVec 32) : Memory := store32 (store32 m a 0) (a + 4) 8

theorem onlyIn_newTerm : OnlyIn a 8 m (newTerm m a) := by
  have h : OnlyIn (a + BitVec.ofNat 32 4) 4 (store32 m a 0) (newTerm m a) := onlyIn_store32
  exact (onlyIn_store32.mono (by decide)).trans (h.of_add (by decide) (by decide))

theorem load32_newTerm : load32 (newTerm m a) a = 0 := by
  have h : OnlyIn (a + BitVec.ofNat 32 4) 4 (store32 m a 0) (newTerm m a) := onlyIn_store32
  have h0 := h.load32_add (j := 0) (.inl (by decide)) (by decide) (by decide)
  simp only [BitVec.add_zero] at h0
  exact h0.trans load32_store32

theorem load32_newTerm_size : load32 (newTerm m a) (a + 4) = 8 := load32_store32

/-- `Multiboot_TerminateTag` writes behind the tag and to the size of the record. -/
theorem terminateTag_frame {tag x : BitVec 32}
    (hterm : ¬InBytes (load32 m (tag + 4) + tag) 8 x) (hmbi : ¬InBytes mbi 4 x) :
    (terminateTag m mbi tag).2 x = m x := by
  have hnew : newTerm m (load32 m (tag + 4) + tag) x = m x := onlyIn_newTerm x hterm
  unfold terminateTag
  split
  · rfl
  dsimp only
  split
  · rfl
  split
  · exact hnew
  · exact (store32_frame hmbi).trans hnew

theorem isRecord_createEmptyMbi (halign : mbi.toNat % 8 = 0) (hfits : mbi.toNat + 16 < 2 ^ 32) :
    (createEmptyMbi m mbi).1 = true ∧ IsRecord (createEmptyMbi m mbi).2 mbi [] := by
  have hres : createEmptyMbi m mbi =
      (true, newTerm (store32 (store32 m mbi 16) (mbi + 4) 0) (mbi + 8)) :=
    if_neg (not_not.mpr (umod8_eq_zero_iff.mpr halign))
  rw [hres]
  generalize hm₁ : store32 (store32 m mbi 16) (mbi + 4) 0 = m₁
  have hnew : OnlyIn (mbi + BitVec.ofNat 32 8) 8 m₁ (newTerm m₁ (mbi + 8)) := onlyIn_newTerm
  have hreserved : OnlyIn (mbi + BitVec.ofNat 32 4) 4 (store32 m mbi 16) m₁ := by
    rw [← hm₁]
    exact onlyIn_store32
  have hterm : termAddr mbi [] = mbi + 8 := BitVec.add_zero _
  refine ⟨rfl, halign, by simpa using hfits, ?_, ?_, trivial, ?_, ?_⟩
  · have h0 := hnew.load32_add (j := 0) (.inl (by decide)) (by decide) (by decide)
    have h0' := hreserved.load32_add (j := 0) (.inl (by decide)) (by decide) (by decide)
    rw [BitVec.add_zero] at h0 h0'
    exact h0.trans (h0'.trans load32_store32)
  · have h4 := hnew.load32_add (j := 4) (.inl (by decide)) (by decide) (by decide)
    refine h4.trans ?_
    rw [← hm₁]
    exact load32_store32
  · rw [hterm]
    exact load32_newTerm
  · rw [hterm]
    exact load32_newTerm_size

/-- A change from the terminator on leaves the start of the record and its tags. -/
theorem IsRecord.eq_of_onlyIn (h : IsRecord m mbi l) (honly : OnlyIn (termAddr mbi l) n m m₁)
    (hroom : (termAddr mbi l).toNat + n < 2 ^ 32) {x : BitVec 32}
    (hx : InBytes mbi (8 + tagBytes l) x) : m₁ x = m x := by
  rw [toNat_termAddr h.fits] at hroom
  rw [termAddr_eq] at honly
  obtain ⟨p, hp, rfl⟩ := hx.exists_offset
  exact honly.eq_add (.inl hp) (by omega) (by omega)

/-- The tags of a record, and another tag behind them, with a terminator. -/
theorem IsRecord.append_tag (h : IsRecord m mbi l) (t : MbiTag)
    (hsame : ∀ x, InBytes (mbi + 4) (4 + tagBytes l) x → m' x = m x)
    (hfits : mbi.toNat + (16 + tagBytes l + t.size) < 2 ^ 32)
    (htotal : load32 m' mbi = load32 m mbi + BitVec.ofNat 32 t.size)
    (htype : load32 m' (termAddr mbi l) = t.type)
    (hsize : load32 m' (termAddr mbi l + 4) = BitVec.ofNat 32 t.size)
    (htermType : load32 m' (termAddr mbi l + BitVec.ofNat 32 t.size) = 0)
    (htermSize : load32 m' (termAddr mbi l + BitVec.ofNat 32 t.size + 4) = 8) :
    IsRecord m' mbi (l ++ [t]) := by
  have hbytes : tagBytes (l ++ [t]) = tagBytes l + t.size := by simp
  have hterm : termAddr mbi (l ++ [t]) = termAddr mbi l + BitVec.ofNat 32 t.size := by
    rw [termAddr, hbytes, BitVec.ofNat_add, ← BitVec.add_assoc, termAddr]
  refine ⟨h.aligned, by omega, ?_, ?_, ?_, hterm ▸ htermType, hterm ▸ htermSize⟩
  · rw [htotal, h.total, hbytes, ← BitVec.ofNat_add, Nat.add_assoc]
  · exact (load32_congr fun x hx => hsame x (hx.mono (by omega))).trans h.reserved
  · refine tagsAt_append.mpr ⟨h.tags.congr (fun x hx => ?_) (by omega), htype, hsize, trivial⟩
    refine hsame x (InBytes.of_add (i := 4) (n := tagBytes l) ?_ (by omega) (by omega))
    rwa [BitVec.add_assoc]

section terminate

variable (h : IsRecord m mbi l) (honly : OnlyIn (termAddr mbi l) n m m₁)
  (hroom : (termAddr mbi l).toNat + n < 2 ^ 32)

include h honly hroom

/-- `Multiboot_TerminateTag` accepts the start of the record. -/
theorem terminateTag_guard :
    ¬(mbi % 8 ≠ 0 ∨ load32 m₁ (mbi + 4) ≠ 0 ∨ load32 m₁ mbi % 8 ≠ 0) := by
  have hsame : ∀ x, InBytes mbi (8 + tagBytes l) x → m₁ x = m x :=
    fun x hx => h.eq_of_onlyIn honly hroom hx
  have htotal : load32 m₁ mbi = load32 m mbi :=
    load32_congr fun x hx => hsame x (hx.mono (by omega))
  have hreserved : load32 m₁ (mbi + BitVec.ofNat 32 4) = load32 m (mbi + BitVec.ofNat 32 4) :=
    load32_congr_of_add hsame (by omega) (by have := h.fits; omega)
  have hmod := tagBytes_mod (l := l)
  have htotal' := h.total_toNat
  rintro (hbad | hbad | hbad)
  · exact hbad (umod8_eq_zero_iff.mpr h.aligned)
  · exact hbad (hreserved.trans h.reserved)
  · rw [htotal] at hbad
    exact hbad (umod8_eq_zero_iff.mpr (by omega))

/-- A tag of size 0 is undone. -/
theorem extends_terminateTag_zero (hn : 8 ≤ n)
    (htype : load32 m₁ (termAddr mbi l) ≠ 0) (hsize : load32 m₁ (termAddr mbi l + 4) = 0) :
    (terminateTag m₁ mbi (termAddr mbi l)).1 = true ∧
      Extends mbi l m (terminateTag m₁ mbi (termAddr mbi l)).2 [] := by
  have hres : terminateTag m₁ mbi (termAddr mbi l) = (true, newTerm m₁ (termAddr mbi l)) := by
    rw [terminateTag, if_neg (terminateTag_guard h honly hroom)]
    refine (if_neg fun hnull => htype hnull.1).trans ((if_pos hsize).trans ?_)
    have hzero : (0 : BitVec 32) + termAddr mbi l = termAddr mbi l := BitVec.zero_add _
    rw [hsize, hzero]
    rfl
  rw [hres]
  have honly' : OnlyIn (termAddr mbi l) n m (newTerm m₁ (termAddr mbi l)) :=
    honly.trans (onlyIn_newTerm.mono hn)
  have hsame : ∀ x, InBytes mbi (8 + tagBytes l) x → newTerm m₁ (termAddr mbi l) x = m x :=
    fun x hx => h.eq_of_onlyIn honly' hroom hx
  have hfits := h.fits
  refine ⟨rfl, ⟨?_, fun x hx => hsame x (hx.of_add (i := 4) (by omega) (by omega))⟩⟩
  rw [List.append_nil]
  refine ⟨h.aligned, hfits, ?_, ?_, ?_, load32_newTerm, load32_newTerm_size⟩
  · exact (load32_congr fun x hx => hsame x (hx.mono (by omega))).trans h.total
  · exact (load32_congr fun x hx => hsame x (hx.of_add (i := 4) (by omega) (by omega))).trans
      h.reserved
  · exact h.tags.congr (fun x hx => hsame x (hx.of_add (i := 8) (by omega) (by omega)))
      (by omega)

/-- A tag over the terminator, a new terminator behind it, and the new size. -/
theorem extends_newTerm (t : MbiTag) (hn : t.size + 8 ≤ n)
    (htype : load32 m₁ (termAddr mbi l) = t.type)
    (hsize : load32 m₁ (termAddr mbi l + 4) = BitVec.ofNat 32 t.size) :
    Extends mbi l m (store32 (newTerm m₁ (termAddr mbi l + BitVec.ofNat 32 t.size)) mbi
      (load32 m mbi + BitVec.ofNat 32 t.size)) [t] := by
  have hfits := h.fits
  have hroom' := hroom
  rw [toNat_termAddr hfits] at hroom'
  have hge := t.size_ge
  rw [termAddr_add]
  generalize hm₂ : newTerm m₁ (mbi + BitVec.ofNat 32 (8 + tagBytes l + t.size)) = m₂
  generalize hv : load32 m mbi + BitVec.ofNat 32 t.size = v
  have hnew : OnlyIn (mbi + BitVec.ofNat 32 (8 + tagBytes l + t.size)) 8 m₁ m₂ :=
    hm₂ ▸ onlyIn_newTerm
  have hstart : OnlyIn (mbi + BitVec.ofNat 32 0) 4 m₂ (store32 m₂ mbi v) := by
    rw [BitVec.add_zero]
    exact onlyIn_store32
  have hload : ∀ j, 4 ≤ j → j + 4 ≤ 16 + tagBytes l + t.size →
      load32 (store32 m₂ mbi v) (mbi + BitVec.ofNat 32 j) = load32 m₂ (mbi + BitVec.ofNat 32 j) :=
    fun j hj hj' => hstart.load32_add (.inr (by omega)) (by omega) (by omega)
  have htag : ∀ k, k + 4 ≤ t.size →
      load32 (store32 m₂ mbi v) (termAddr mbi l + BitVec.ofNat 32 k) =
        load32 m₁ (termAddr mbi l + BitVec.ofNat 32 k) := by
    intro k hk
    rw [termAddr_add, hload _ (by omega) (by omega)]
    exact hnew.load32_add (.inl (by omega)) (by omega) (by omega)
  have hsame : ∀ x, InBytes (mbi + 4) (4 + tagBytes l) x → store32 m₂ mbi v x = m x := by
    intro x hx
    obtain ⟨p, hp, rfl⟩ := hx.exists_offset
    have hx' : mbi + 4 + BitVec.ofNat 32 p = mbi + BitVec.ofNat 32 (4 + p) := by
      rw [BitVec.ofNat_add, ← BitVec.add_assoc]
      rfl
    rw [hx', hstart.eq_add (.inr (by omega)) (by omega) (by omega),
      hnew.eq_add (.inl (by omega)) (by omega) (by omega)]
    exact h.eq_of_onlyIn honly hroom (inBytes_add (by omega) (by omega))
  refine ⟨h.append_tag t hsame (by omega) ?_ ?_ ?_ ?_ ?_, hsame⟩
  · rw [load32_store32, hv]
  · have h0 := htag 0 (by omega)
    rw [BitVec.add_zero] at h0
    exact h0.trans htype
  · exact (htag 4 (by omega)).trans hsize
  · rw [termAddr_add, hload _ (by omega) (by omega), ← hm₂]
    exact load32_newTerm
  · have h4 : load32 m₂ (mbi + BitVec.ofNat 32 (8 + tagBytes l + t.size) + 4) = 8 := by
      rw [← hm₂]
      exact load32_newTerm_size
    have hstep := hload (8 + tagBytes l + t.size + 4) (by omega) (by omega)
    rw [BitVec.ofNat_add _ 4, ← BitVec.add_assoc] at hstep
    rw [termAddr_add]
    exact hstep.trans h4

/-- A tag that has been written over the terminator becomes a tag of the record. -/
theorem extends_terminateTag (t : MbiTag) (hn : t.size + 8 ≤ n)
    (htype : load32 m₁ (termAddr mbi l) = t.type)
    (hsize : load32 m₁ (termAddr mbi l + 4) = BitVec.ofNat 32 t.size) :
    (terminateTag m₁ mbi (termAddr mbi l)).1 = true ∧
      Extends mbi l m (terminateTag m₁ mbi (termAddr mbi l)).2 [t] := by
  have hroom' := hroom
  have hfits := h.fits
  rw [toNat_termAddr hfits] at hroom'
  have hge := t.size_ge
  have hne : load32 m₁ (termAddr mbi l + 4) ≠ 0 := by
    rw [hsize]
    intro h0
    have hzero := congrArg BitVec.toNat h0
    have h00 : (0 : BitVec 32).toNat = 0 := rfl
    rw [BitVec.toNat_ofNat, h00] at hzero
    omega
  have hterm : load32 m₁ (termAddr mbi l + 4) + termAddr mbi l =
      termAddr mbi l + BitVec.ofNat 32 t.size := by
    rw [hsize, BitVec.add_comm]
  -- the new terminator is apart from `total_size` and from the size of the tag
  have hnew : OnlyIn (mbi + BitVec.ofNat 32 (8 + tagBytes l + t.size)) 8 m₁
      (newTerm m₁ (termAddr mbi l + BitVec.ofNat 32 t.size)) := by
    rw [termAddr_add]
    exact onlyIn_newTerm
  have htotal : load32 (newTerm m₁ (termAddr mbi l + BitVec.ofNat 32 t.size)) mbi =
      load32 m mbi := by
    have h0 := hnew.load32_add (j := 0) (.inl (by omega)) (by omega) (by omega)
    rw [BitVec.add_zero] at h0
    exact h0.trans (load32_congr fun x hx => h.eq_of_onlyIn honly hroom (hx.mono (by omega)))
  have hsize' : load32 (newTerm m₁ (termAddr mbi l + BitVec.ofNat 32 t.size))
      (termAddr mbi l + 4) = BitVec.ofNat 32 t.size := by
    have h4 := hnew.load32_add (j := 8 + tagBytes l + 4) (.inl (by omega)) (by omega) (by omega)
    rw [← termAddr_add] at h4
    exact h4.trans hsize
  have hres : terminateTag m₁ mbi (termAddr mbi l) =
      (true, store32 (newTerm m₁ (termAddr mbi l + BitVec.ofNat 32 t.size)) mbi
        (load32 m mbi + BitVec.ofNat 32 t.size)) := by
    rw [terminateTag, if_neg (terminateTag_guard h honly hroom)]
    refine (if_neg fun hnull => t.type_ne (htype.symm.trans hnull.1)).trans
      ((if_neg hne).trans ?_)
    rw [hterm]
    exact congrArg (fun v => (true,
      store32 (newTerm m₁ (termAddr mbi l + BitVec.ofNat 32 t.size)) mbi v))
      (congrArg₂ (· + ·) htotal hsize')
  rw [hres]
  exact ⟨rfl, extends_newTerm h honly hroom t hn htype hsize⟩

end terminate

end records

end Avos.Multiboot
