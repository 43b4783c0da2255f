import Avos.Bootloader.Savers

/-! # What Is Written into a Tag

  A tag is followed from its first store on as a change to memory from the terminator on
  (`Filled`), until it becomes a tag of the record or is undone (`Saves`). The services write
  into their part of it only.
-/

open ByteMemory Walks

namespace Avos.Multiboot

/-! ## Section 1: A Tag in the Making -/

/-- In `m₁` there is a type and a size at `tag`, and only `n` bytes from there on are not as in
    `m`. -/
structure Filled (tag type size : BitVec 32) (n : Nat) (m m₁ : Memory) : Prop where
  only : OnlyIn tag n m m₁
  type_eq : load32 m₁ tag = type
  size_eq : load32 m₁ (tag + 4) = size

section filled

variable {m m₁ m₂ : Memory} {tag type size mbi : BitVec 32} {n k : Nat} {l : List MbiTag}

/-- A change behind the size. -/
theorem Filled.write (h : Filled tag type size n m m₁) (i : Nat)
    (hm : OnlyIn (tag + BitVec.ofNat 32 i) k m₁ m₂) (hi : 8 ≤ i ∧ i + k ≤ n) (hn : n < 2 ^ 32) :
    Filled tag type size n m m₂ where
  only := h.only.trans (hm.of_add hi.2 (Nat.le_of_lt hn))
  type_eq := by
    have h0 := hm.load32_add (j := 0) (.inl (by omega)) (by omega) (by omega)
    rw [BitVec.add_zero] at h0
    exact h0.trans h.type_eq
  size_eq := (hm.load32_add (j := 4) (.inl (by omega)) (by omega) (by omega)).trans h.size_eq

theorem Filled.mono (h : Filled tag type size n m m₁) (hn : n ≤ k) :
    Filled tag type size k m m₁ := ⟨h.only.mono hn, h.type_eq, h.size_eq⟩

/-- The size is written again. -/
theorem Filled.setSize (h : Filled tag type size n m m₁) (size' : BitVec 32) (hn : 8 ≤ n)
    (hn' : n < 2 ^ 32) : Filled tag type size' n m (store32 m₁ (tag + 4) size') := by
  have hm : OnlyIn (tag + BitVec.ofNat 32 4) 4 m₁ (store32 m₁ (tag + 4) size') := onlyIn_store32
  refine ⟨h.only.trans (hm.of_add (by omega) (Nat.le_of_lt hn')), ?_, load32_store32⟩
  have h0 := hm.load32_add (j := 0) (.inl (by omega)) (by omega) (by omega)
  rw [BitVec.add_zero] at h0
  exact h0.trans h.type_eq

theorem filled_type (hn : 4 ≤ n) :
    Filled tag type (load32 m (tag + 4)) n m (store32 m tag type) := by
  have hm : OnlyIn (tag + BitVec.ofNat 32 0) 4 m (store32 m tag type) := by
    rw [BitVec.add_zero]
    exact onlyIn_store32
  exact ⟨onlyIn_store32.mono hn, load32_store32,
    hm.load32_add (j := 4) (.inr (by omega)) (by omega) (by omega)⟩

theorem filled_writeTag (hn : 8 ≤ n) (hn' : n < 2 ^ 32) :
    Filled tag type size n m (writeTag m tag type size) :=
  (filled_type (by omega)).setSize size hn hn'

/-- The record with the tags `l` in `m` has got the tags `new` in `m'`, and no type has come
    twice. -/
structure Saves (mbi : BitVec 32) (l : List MbiTag) (m m' : Memory) (new : List MbiTag) : Prop
    extends Extends mbi l m m' new where
  nodup : (l.map MbiTag.type).Nodup → ((l ++ new).map MbiTag.type).Nodup

theorem Saves.refl (h : IsRecord m mbi l) : Saves mbi l m m [] :=
  ⟨.refl h, fun h => by rwa [List.append_nil]⟩

theorem Saves.trans {m' : Memory} {new new' : List MbiTag} (h : Saves mbi l m m₁ new)
    (h' : Saves mbi (l ++ new) m₁ m' new') : Saves mbi l m m' (new ++ new') :=
  ⟨h.toExtends.trans h'.toExtends, fun hl => by
    rw [← List.append_assoc]
    exact h'.nodup (h.nodup hl)⟩

/-- The tag is complete, and becomes a tag of the record. -/
theorem Filled.saves (h : IsRecord m mbi l) (t : MbiTag)
    (hf : Filled (termAddr mbi l) t.type (BitVec.ofNat 32 t.size) n m m₁)
    (hroom : (termAddr mbi l).toNat + n < 2 ^ 32) (hn : t.size + 8 ≤ n)
    (hnew : ∀ t' ∈ l, t'.type ≠ t.type) :
    (terminateTag m₁ mbi (termAddr mbi l)).1 = true ∧
      Saves mbi l m (terminateTag m₁ mbi (termAddr mbi l)).2 [t] := by
  obtain ⟨hres, hext⟩ := extends_terminateTag h hf.only hroom t hn hf.type_eq hf.size_eq
  refine ⟨hres, hext, fun hl => ?_⟩
  rw [List.map_append, List.nodup_append]
  refine ⟨hl, List.nodup_singleton _, fun a ha b hb => ?_⟩
  obtain ⟨t', ht', rfl⟩ := List.mem_map.mp ha
  obtain rfl : b = t.type := by simpa using hb
  exact hnew t' ht'

/-- The tag is undone. -/
theorem Filled.drops (h : IsRecord m mbi l) (hf : Filled (termAddr mbi l) type size n m m₁)
    (htype : type ≠ 0) (hroom : (termAddr mbi l).toNat + n < 2 ^ 32) (hn : 8 ≤ n) :
    Saves mbi l m
      (terminateTag (store32 m₁ (termAddr mbi l + 4) 0) mbi (termAddr mbi l)).2 [] := by
  have hzero := hf.setSize 0 hn (by omega)
  have hext := (extends_terminateTag_zero h hzero.only hroom hn
    (by rw [hzero.type_eq]; exact htype) hzero.size_eq).2
  exact ⟨hext, fun h => by rwa [List.append_nil]⟩

end filled

/-! ## Section 2: What the Services Change -/

section services

variable {β : Type*} {B : Bios β} {fuel : Nat} {s s' : Loader β} {m m' : Memory}
  {addr a : BitVec 32} {n k i : Nat}

theorem withRoom_eq_some {α : Type*} {k : Option α} {x : α} :
    withRoom a n k = some x ↔ a.toNat + n < 2 ^ 32 ∧ k = some x := by
  rw [withRoom]
  split
  · rename_i h
    exact (and_iff_right h).symm
  · rename_i h
    exact ⟨(fun hx => nomatch hx), fun hx => absurd hx.1 h⟩

theorem onlyIn_store32_add {v : BitVec 32} (hi : i + 4 ≤ n) (hn : n ≤ 2 ^ 32) :
    OnlyIn a n m (store32 m (a + BitVec.ofNat 32 i) v) :=
  onlyIn_store32.of_add hi hn

theorem onlyIn_store16_add {v : BitVec 16} (hi : i + 2 ≤ n) (hn : n ≤ 2 ^ 32) :
    OnlyIn a n m (store16 m (a + BitVec.ofNat 32 i) v) :=
  onlyIn_store16.of_add hi hn

theorem onlyIn_biosStore {id : BitVec 8} {r : Registers} (hn : n ≤ 2 ^ 32) :
    OnlyIn a n s.mem (biosStore B id r a n s).2.mem := by
  have hlen : ((B.interrupt s.bios id r).1.take n).length ≤ n := List.length_take_le _ _
  exact (onlyIn_storeBytes (by omega)).mono hlen

/-- Both results of a service change memory there only. -/
theorem onlyIn_ite {ρ : Type*} {p : Prop} [Decidable p] {x y : ρ × Loader β}
    (hx : OnlyIn a n m x.2.mem) (hy : OnlyIn a n m y.2.mem) :
    OnlyIn a n m (if p then x else y).2.mem := by
  split
  · exact hx
  · exact hy

theorem onlyIn_storeBasicInfo : OnlyIn addr 8 s.mem (storeBasicInfo B addr s).2.mem := by
  have hlow : ∀ {m v}, OnlyIn addr 8 m (store32 m addr v) := onlyIn_store32.mono (by decide)
  have hhigh : ∀ {m v}, OnlyIn addr 8 m (store32 m (addr + 4) v) :=
    onlyIn_store32_add (i := 4) (by decide) (by decide)
  simp only [storeBasicInfo, biosInterrupt]
  refine onlyIn_ite .refl (onlyIn_ite hlow (onlyIn_ite ?_ (onlyIn_ite ?_ (onlyIn_ite ?_ ?_))))
  · exact (hlow.trans hhigh).trans hhigh
  · exact (hlow.trans hhigh).trans hhigh
  · exact hlow.trans hhigh
  · exact (hlow.trans hhigh).trans hhigh

theorem onlyIn_storeApmInfo : OnlyIn addr 20 s.mem (storeApmInfo B addr s).2.mem := by
  have h32 : ∀ {m v}, OnlyIn addr 20 m (store32 m (addr + 4) v) :=
    onlyIn_store32_add (i := 4) (by decide) (by decide)
  have h16 : ∀ {m v} (i : Nat), i + 2 ≤ 20 →
      OnlyIn addr 20 m (store16 m (addr + BitVec.ofNat 32 i) v) :=
    fun i hi => onlyIn_store16_add hi (by decide)
  simp only [storeApmInfo, biosInterrupt]
  refine onlyIn_ite .refl (onlyIn_ite .refl (onlyIn_ite .refl (onlyIn_ite .refl ?_)))
  exact (((((((OnlyIn.trans (onlyIn_store16.mono (by decide)) (h16 2 (by decide))).trans h32).trans
    (h16 8 (by decide))).trans (h16 10 (by decide))).trans (h16 12 (by decide))).trans
    (h16 14 (by decide))).trans (h16 16 (by decide))).trans (h16 18 (by decide))

/-- `System_StoreAPMInfo` stores something. -/
def HasApm (B : Bios β) (bios : β) : Prop := (storeApmInfo B 0 ⟨fun _ => 0, bios⟩).1 ≠ 0

theorem ite_last {ρ : Type*} {p : Prop} [Decidable p] {a a' : BitVec 32} {x y x' y' : BitVec 32 × ρ}
    (hx : x.1 ≠ a ↔ x'.1 ≠ a') (hy : y.1 ≠ a ↔ y'.1 ≠ a') :
    (if p then x else y).1 ≠ a ↔ (if p then x' else y').1 ≠ a' := by
  split
  · exact hx
  · exact hy

theorem storeApmInfo_last : (storeApmInfo B addr s).1 ≠ addr ↔ HasApm B s.bios := by
  have hne : ∀ a : BitVec 32, a + 20 ≠ a := fun a h => by
    have := congrArg BitVec.toNat h
    rw [BitVec.toNat_add] at this
    have h20 : (20 : BitVec 32).toNat = 20 := rfl
    omega
  have hfails : addr ≠ addr ↔ (0 : BitVec 32) ≠ 0 :=
    iff_of_false (not_not.mpr rfl) (not_not.mpr rfl)
  simp only [HasApm, storeApmInfo, biosInterrupt]
  exact ite_last hfails (ite_last hfails (ite_last hfails (ite_last hfails
    (iff_of_true (hne addr) (hne 0)))))

/-- One round of the memory map loop writes the entry, and keeps `ESI`. -/
theorem onlyIn_e820Round {regs : Registers} {v : BitVec 32} :
    OnlyIn a 24 s.mem
      (biosStore B 0x15 regs a 24 { s with mem := store32 s.mem (a + 20) v }).2.mem :=
  (onlyIn_store32_add (i := 20) (by decide) (by decide)).trans (onlyIn_biosStore (by decide))

/-- The memory map service fills entries one behind the other. -/
theorem e820Loop_spec {last : BitVec 32} : ∀ (fuel i : Nat) (regs : Registers) (s : Loader β),
    addr.toNat + 24 * i < 2 ^ 32 → regs.esi = BitVec.ofNat 32 (24 * i) →
    e820Loop B addr fuel (addr + BitVec.ofNat 32 (24 * i)) regs s = some (last, s') →
    ∃ k, i ≤ k ∧ last = addr + BitVec.ofNat 32 (24 * k) ∧
      addr.toNat + (24 * k + 32) < 2 ^ 32 ∧ OnlyIn addr (24 * k + 24) s.mem s'.mem := by
  intro fuel
  induction fuel with
  | zero => intro i regs s _ _ h; exact nomatch h
  | succ fuel ih =>
    intro i regs s hi hesi h
    rw [e820Loop, withRoom_eq_some, toNat_add_ofNat hi] at h
    obtain ⟨hroom, h⟩ := h
    have hentry : ∀ k, i ≤ k → 24 * k + 24 ≤ 2 ^ 32 → ∀ {m₁ m₂ : Memory},
        OnlyIn (addr + BitVec.ofNat 32 (24 * i)) 24 m₁ m₂ → OnlyIn addr (24 * k + 24) m₁ m₂ :=
      fun k hk hk' _ _ hm => hm.of_add (by omega) hk'
    have hnext : addr + BitVec.ofNat 32 (24 * i) + 24 =
        addr + BitVec.ofNat 32 (24 * (i + 1)) := by
      rw [Nat.mul_add, BitVec.ofNat_add, ← BitVec.add_assoc]
      rfl
    have hesi' : regs.esi + 0x18 = BitVec.ofNat 32 (24 * (i + 1)) := by
      rw [hesi, Nat.mul_add, BitVec.ofNat_add]
      rfl
    dsimp only at h
    generalize hcall : biosStore B 0x15 _ _ 24 _ = r at h
    have honly : OnlyIn (addr + BitVec.ofNat 32 (24 * i)) 24 s.mem r.2.mem := by
      rw [← hcall]
      exact onlyIn_e820Round
    have hkeep : r.1.esi = regs.esi := by
      rw [← hcall]
      exact B.keeps_esi _ _ rfl
    split at h
    · obtain ⟨rfl, rfl⟩ := Prod.mk.inj (Option.some.inj h)
      exact ⟨i, le_refl i, by rw [hkeep, hesi], by omega, hentry i (le_refl i) (by omega) honly⟩
    split at h
    · rw [hnext] at h
      obtain ⟨k, hk, hlast, hroom', hm⟩ := ih (i + 1) _ r.2 (by omega)
        (by rw [← hesi', ← hkeep]) h
      exact ⟨k, by omega, hlast, hroom', (hentry k (by omega) (by omega) honly).trans hm⟩
    · obtain ⟨k, hk, hlast, hroom', hm⟩ := ih i _ r.2 hi (hkeep.trans hesi) h
      exact ⟨k, hk, hlast, hroom', (hentry k hk (by omega) honly).trans hm⟩

theorem storeE820Info_spec {last : BitVec 32}
    (h : storeE820Info B fuel addr s = some (last, s')) :
    ∃ k, last = addr + BitVec.ofNat 32 (24 * k) ∧ addr.toNat + (24 * k + 32) < 2 ^ 32 ∧
      OnlyIn addr (24 * k + 24) s.mem s'.mem := by
  have h0 : addr + BitVec.ofNat 32 (24 * 0) = addr := BitVec.add_zero _
  obtain ⟨k, _, hk⟩ := e820Loop_spec (B := B) fuel 0
    { clearRegistry with edi := addr &&& 0xF, es := (addr >>> 4).setWidth 16 } s
    (by have := addr.isLt; omega) rfl (by rw [h0]; exact h)
  exact ⟨k, hk⟩

/-- The blocks of RAM are written one behind the other. -/
theorem storeBlocks_spec {table : BitVec 32} {c : Nat} : ∀ (fuel i : Nat) (m : Memory),
    addr.toNat + 16 * i < 2 ^ 32 → storeBlocks table n addr fuel i m = some (c, m') →
    i ≤ c ∧ addr.toNat + (16 * c + 24) < 2 ^ 32 ∧ OnlyIn addr (16 * c + 16) m m' := by
  intro fuel
  induction fuel with
  | zero => intro i m _ h; exact nomatch h
  | succ fuel ih =>
    intro i m hi h
    rw [storeBlocks, withRoom_eq_some, blockEntry, toNat_add_ofNat hi] at h
    obtain ⟨hroom, h⟩ := h
    dsimp only at h
    split at h
    · obtain ⟨rfl, rfl⟩ := Prod.mk.inj (Option.some.inj h)
      exact ⟨le_refl i, by omega, .refl⟩
    · obtain ⟨hc, hroom', hm⟩ := ih (i + 1) _ (by omega) h
      refine ⟨by omega, hroom', OnlyIn.trans ?_ hm⟩
      -- the block, and the address of the next one
      have hptr : ∀ {m v} (j : Nat), j + 8 ≤ 24 → OnlyIn (addr + BitVec.ofNat 32 (16 * i)) 24 m
          (store64 m (addr + BitVec.ofNat 32 (16 * i) + BitVec.ofNat 32 j) v) :=
        fun j hj => onlyIn_store64.of_add hj (by decide)
      refine OnlyIn.of_add (i := 16 * i) (k := 24) ?_ (by omega) (by omega)
      exact (((OnlyIn.trans (onlyIn_store64.mono (by decide)) (hptr 8 (by decide))).trans
        (hptr 8 (by decide))).trans (hptr 16 (by decide)))

theorem onlyIn_pageAlignBlocks (hn : 16 * n ≤ 2 ^ 32) :
    OnlyIn addr (16 * n) m (pageAlignBlocks addr m n) := by
  induction n with
  | zero => exact .refl
  | succ n ih =>
    have hblock : ∀ {m v}, OnlyIn addr (16 * (n + 1)) m (store64 m (blockEntry addr n) v) :=
      onlyIn_store64.of_add (by omega) hn
    have hsize : ∀ {m v}, OnlyIn addr (16 * (n + 1)) m (store64 m (blockEntry addr n + 8) v) := by
      intro m v
      refine OnlyIn.of_add (i := 16 * n) (k := 16) ?_ (by omega) hn
      exact onlyIn_store64.of_add (i := 8) (by decide) (by decide)
    exact (((ih (by omega)).mono (by omega)).trans hblock).trans hsize

theorem removeEmpty_spec : ∀ (r i k : Nat) (m : Memory), 16 * k < 2 ^ 32 →
    (removeEmpty addr r i k m).1 ≤ k ∧ OnlyIn addr (16 * k) m (removeEmpty addr r i k m).2 := by
  intro r
  induction r with
  | zero => intro i k m _; exact ⟨le_refl k, .refl⟩
  | succ r ih =>
    intro i k m hk
    rw [removeEmpty]
    split
    · exact ⟨le_refl k, .refl⟩
    split
    · rename_i hik _
      obtain ⟨hle, hm⟩ := ih (i + 1) (k - 1)
        (memmove m (blockEntry addr i) (blockEntry addr (i + 1))
          (BitVec.ofNat 32 ((k - i - 1) * 16))) (by omega)
      refine ⟨by omega, OnlyIn.trans ?_ (hm.mono (by omega))⟩
      refine onlyIn_memmove.of_add ?_ (Nat.le_of_lt hk)
      rw [BitVec.toNat_ofNat]
      omega
    · exact ih (i + 1) k m hk

theorem storeInfo_spec {pageAlign : Bool} {table last : BitVec 32}
    (h : storeInfo fuel addr pageAlign table n m = some (last, m')) :
    ∃ k c, last = addr + BitVec.ofNat 32 (16 * k) ∧ k ≤ c ∧
      addr.toNat + (16 * c + 24) < 2 ^ 32 ∧ OnlyIn addr (16 * c + 16) m m' := by
  rw [storeInfo, withRoom_eq_some] at h
  obtain ⟨_, h⟩ := h
  split at h
  · exact nomatch h
  · rename_i c m₁ hblocks
    obtain ⟨_, hroom, hm⟩ := storeBlocks_spec fuel 0 _ (by have := addr.isLt; omega) hblocks
    obtain ⟨rfl, rfl⟩ := Prod.mk.inj (Option.some.inj h)
    have hstart : OnlyIn addr (16 * c + 16) m (store64 (store64 m addr 0) (addr + 8) 0) :=
      OnlyIn.trans (onlyIn_store64.mono (by omega))
        (onlyIn_store64.of_add (i := 8) (by omega) (by omega))
    have halign : OnlyIn addr (16 * c + 16) m₁
        (if pageAlign then pageAlignBlocks addr m₁ c else m₁) := by
      split
      · exact (onlyIn_pageAlignBlocks (by omega)).mono (by omega)
      · exact .refl
    obtain ⟨hle, hremove⟩ := @removeEmpty_spec addr c 0 c
      (if pageAlign then pageAlignBlocks addr m₁ c else m₁) (by omega)
    exact ⟨_, c, rfl, hle, hroom,
      ((hstart.trans hm).trans halign).trans (hremove.mono (by omega))⟩

theorem length_smbios (m : Memory) (a : BitVec 32) :
    ((m a).setWidth 32).toNat ≤ 255 ∧ ((load16 m a).setWidth 32).toNat ≤ 65535 := by
  have h8 := (m a).isLt
  have h16 := (load16 m a).isLt
  rw [BitVec.toNat_setWidth, BitVec.toNat_setWidth]
  omega

/-- The tables of the SMBIOS, up to a multiple of eight; or nothing at all. -/
theorem storeSmbiosInfo_spec (h8 : addr.toNat % 8 = 0) (hroom : addr.toNat + 0x101F8 < 2 ^ 32) :
    OnlyIn addr 0x101F0 m (storeSmbiosInfo addr m).2 ∧
      ∃ k, (storeSmbiosInfo addr m).1 = addr + BitVec.ofNat 32 k ∧ k ≤ 0x101E8 ∧ k % 8 = 0 ∧
        (k = 0 ∨ 8 ≤ k) ∧ (k = 0 ↔ findSmbios m = none) := by
  unfold storeSmbiosInfo
  cases hfind : findSmbios m with
  | none => exact ⟨.refl, 0, (BitVec.add_zero _).symm, by omega, rfl, .inl rfl, by simp⟩
  | some ept =>
    dsimp only
    have hoffset : ∀ (j : Nat) (x : BitVec 32),
        addr + BitVec.ofNat 32 j + x = addr + BitVec.ofNat 32 (j + x.toNat) := by
      intro j x
      rw [BitVec.ofNat_add, BitVec.ofNat_toNat, BitVec.setWidth_eq, BitVec.add_assoc]
    -- the version, and the two copies behind it
    generalize hm₁ : memset (store8 (store8 m addr _) _ _) _ _ _ = m₁
    have honly₁ : OnlyIn addr 0x101F0 m m₁ := by
      have hmajor : ∀ {m v}, OnlyIn addr 0x101F0 m (store8 m addr v) :=
        onlyIn_store8.mono (by decide)
      have hminor : ∀ {m v}, OnlyIn addr 0x101F0 m (store8 m (addr + 1) v) :=
        onlyIn_store8.of_add (i := 1) (by decide) (by decide)
      have hzero : ∀ {m}, OnlyIn addr 0x101F0 m (memset m (addr + 2) 0 6) :=
        (onlyIn_memset (by decide)).of_add (i := 2) (by decide) (by decide)
      rw [← hm₁]
      exact (hmajor.trans hminor).trans hzero
    generalize hm₂ : memmove m₁ (addr + 8) ept _ = m₂
    have honly₂ : OnlyIn addr 0x101F0 m₁ m₂ := by
      rw [← hm₂]
      have := (length_smbios m₁ (ept + 5)).1
      exact onlyIn_memmove.of_add (i := 8) (by omega) (by decide)
    have hb := (length_smbios m₂ (ept + 5)).1
    have hdst := hoffset 8 ((m₂ (ept + 5)).setWidth 32)
    generalize ((m₂ (ept + 5)).setWidth 32).toNat = b at hb hdst
    have hdst' : addr + 8 + (m₂ (ept + 5)).setWidth 32 = addr + BitVec.ofNat 32 (8 + b) := hdst
    rw [hdst']
    generalize hm₃ : memmove m₂ (addr + BitVec.ofNat 32 (8 + b)) _ _ = m₃
    have honly₃ : OnlyIn addr 0x101F0 m₂ m₃ := by
      rw [← hm₃]
      have := (length_smbios m₂ (ept + 19)).2
      exact onlyIn_memmove.of_add (by omega) (by decide)
    have hc := (length_smbios m₃ (ept + 19)).2
    rw [hoffset]
    generalize ((load16 m₃ (ept + 19)).setWidth 32).toNat = c at hc
    have honly := (honly₁.trans honly₂).trans honly₃
    have hmod : ((addr + BitVec.ofNat 32 (8 + b + c)) % 8).toNat = (8 + b + c) % 8 := by
      have h8' : (8 : BitVec 32).toNat = 8 := rfl
      rw [BitVec.toNat_umod, h8', toNat_add_ofNat (by omega)]
      omega
    split
    · -- zeros make it a multiple of eight
      have hpad : (8 - (addr + BitVec.ofNat 32 (8 + b + c)) % 8).toNat = 8 - (8 + b + c) % 8 := by
        have h8' : (8 : BitVec 32).toNat = 8 := rfl
        rw [BitVec.toNat_sub, hmod, h8']
        omega
      rw [hoffset, hpad]
      have hset : OnlyIn addr 0x101F0 m₃ (memset m₃ (addr + BitVec.ofNat 32 (8 + b + c)) 0
          (8 - (8 + b + c) % 8)) :=
        (onlyIn_memset (by omega)).of_add (by omega) (by decide)
      refine ⟨honly.trans hset, 8 + b + c + (8 - (8 + b + c) % 8), rfl, by omega, by omega,
        by omega, ?_⟩
      exact iff_of_false (by omega) (fun h => nomatch h)
    · rename_i hz
      have hz' : (8 + b + c) % 8 = 0 := by
        rw [← hmod, not_not.mp hz]
        rfl
      exact ⟨honly, 8 + b + c, rfl, by omega, hz', by omega,
        iff_of_false (by omega) (fun h => nomatch h)⟩

/-- `System_StoreACPIInfo` stores something. -/
def HasAcpi (fuel : Nat) (old : Bool) (m : Memory) : Prop :=
  let ebda := (load16 m 0x40E).setWidth 32 <<< 4
  ∃ ptr, findRsdp m old (ebda + 0x400) fuel ebda = some (some ptr)

theorem storeAcpiInfo_spec {old : Bool} {last : BitVec 32}
    (h : storeAcpiInfo fuel addr old m = some (last, m')) :
    OnlyIn addr (if old then 20 else 36) m m' ∧ (last ≠ addr ↔ HasAcpi fuel old m) := by
  rw [storeAcpiInfo] at h
  rw [HasAcpi]
  dsimp only at h ⊢
  split at h
  · exact nomatch h
  · rename_i hnone
    obtain ⟨rfl, rfl⟩ := Prod.mk.inj (Option.some.inj h)
    refine ⟨.refl, iff_of_false (not_not.mpr rfl) ?_⟩
    rintro ⟨ptr, hptr⟩
    rw [hnone] at hptr
    exact nomatch hptr
  · rename_i ptr hptr
    obtain ⟨rfl, rfl⟩ := Prod.mk.inj (Option.some.inj h)
    have hmove : ∀ src len : BitVec 32, OnlyIn addr len.toNat m (memmove m addr src len) :=
      fun _ _ => onlyIn_memmove
    have hne : addr + (if old then 20 else 36) ≠ addr := fun h => by
      have := congrArg BitVec.toNat h
      rw [BitVec.toNat_add] at this
      have h20 : (20 : BitVec 32).toNat = 20 := rfl
      have h36 : (36 : BitVec 32).toNat = 36 := rfl
      split at this <;> omega
    refine ⟨?_, iff_of_true hne ⟨ptr, hptr⟩⟩
    cases old
    · exact hmove _ 36
    · exact hmove _ 20

/-! The video services. -/

theorem onlyIn_vbeStoreInfo : OnlyIn addr 512 s.mem (vbeStoreInfo B addr s).2.mem := by
  have hsig : OnlyIn addr 512 s.mem (storeBytes s.mem addr [0x56, 0x42, 0x45, 0x32]) :=
    (onlyIn_storeBytes (by decide)).mono (by decide)
  have hstore : ∀ {r : Registers} {b : β}, OnlyIn addr 512 s.mem
      (biosStore B 0x10 r addr 512
        ⟨storeBytes s.mem addr [0x56, 0x42, 0x45, 0x32], b⟩).2.mem :=
    hsig.trans (onlyIn_biosStore (by decide))
  simp only [vbeStoreInfo]
  exact onlyIn_ite hstore (onlyIn_ite hstore hstore)

theorem onlyIn_vbeStorePModeInfo : OnlyIn addr 6 s.mem (vbeStorePModeInfo B addr s).2.mem := by
  have h16 : ∀ {m v} (i : Nat), i + 2 ≤ 6 →
      OnlyIn addr 6 m (store16 m (addr + BitVec.ofNat 32 i) v) :=
    fun i hi => onlyIn_store16_add hi (by decide)
  simp only [vbeStorePModeInfo, biosInterrupt]
  refine onlyIn_ite .refl ?_
  exact ((OnlyIn.trans (onlyIn_store16.mono (by decide)) (h16 2 (by decide))).trans
    (h16 4 (by decide)))

theorem onlyIn_vbeGetModeInfo {mode : BitVec 16} :
    OnlyIn addr 256 s.mem (vbeGetModeInfo B mode addr s).2.mem := by
  rw [vbeGetModeInfo]
  exact onlyIn_ite .refl (onlyIn_biosStore (by decide))

theorem vbeSetMode_mem {mode : BitVec 16} : (vbeSetMode B mode s).2.mem = s.mem := by
  rw [vbeSetMode]
  split
  · rfl
  · rfl

theorem vbeGetCurrentMode_mem : (vbeGetCurrentMode B s).2.mem = s.mem := rfl

/-! The search for a mode asks the BIOS and leaves memory alone. -/

theorem searchModes_mem {modes buffer : BitVec 32} {candidate : BitVec 16 → Bool}
    {wanted : ModeInfo → Bool} {mode : Option (BitVec 16)} :
    ∀ (n i : Nat) (s : Loader β),
      searchModes B modes buffer candidate wanted n i s = some (mode, s') → s'.mem = s.mem := by
  intro n
  induction n with
  | zero => intro i s h; exact nomatch h
  | succ n ih =>
    intro i s h
    rw [searchModes] at h
    dsimp only at h
    split at h
    · obtain ⟨_, rfl⟩ := Prod.mk.inj (Option.some.inj h)
      rfl
    split at h
    · exact ih _ _ h
    split at h
    · obtain ⟨_, rfl⟩ := Prod.mk.inj (Option.some.inj h)
      rfl
    · exact (ih _ _ h :)

theorem searchLoops_mem {modes buffer : BitVec 32} {mode : BitVec 16} :
    ∀ (loops : List ModeLoop) (s : Loader β),
      searchLoops B fuel modes buffer loops s = some (mode, s') → s'.mem = s.mem := by
  intro loops
  induction loops with
  | nil =>
    intro s h
    obtain ⟨_, rfl⟩ := Prod.mk.inj (Option.some.inj h)
    rfl
  | cons loop loops ih =>
    intro s h
    rw [searchLoops] at h
    split at h
    · exact nomatch h
    · rename_i hs
      obtain ⟨_, rfl⟩ := Prod.mk.inj (Option.some.inj h)
      exact searchModes_mem _ _ _ hs
    · rename_i hs
      exact (ih _ h).trans (searchModes_mem _ _ _ hs)

theorem vbeGetTextMode_mem {modes buffer width height : BitVec 32} {mode : BitVec 16}
    (h : vbeGetTextMode B fuel modes buffer width height s = some (mode, s')) :
    s'.mem = s.mem := by
  rw [vbeGetTextMode] at h
  split at h
  · exact searchLoops_mem _ _ h
  · exact searchLoops_mem _ _ h

theorem vbeGetMode_mem {modes buffer width height depth : BitVec 32} {mode : BitVec 16}
    (h : vbeGetMode B fuel modes buffer width height depth s = some (mode, s')) :
    s'.mem = s.mem := by
  rw [vbeGetMode] at h
  split at h
  · exact searchLoops_mem _ _ h
  split at h
  · split at h
    · exact nomatch h
    · rename_i hs
      split at h
      · obtain ⟨_, rfl⟩ := Prod.mk.inj (Option.some.inj h)
        exact vbeGetTextMode_mem hs
      · exact (searchLoops_mem _ _ h).trans (vbeGetTextMode_mem hs)
  · exact searchLoops_mem _ _ h

/-! The command line. -/

theorem readChar_mem : (readChar B s).2.mem = s.mem := rfl

theorem waitForEnter_mem : ∀ (n : Nat) (s : Loader β),
    waitForEnter B n s = some s' → s'.mem = s.mem := by
  intro n
  induction n with
  | zero => intro s h; exact nomatch h
  | succ n ih =>
    intro s h
    rw [waitForEnter] at h
    split at h
    rename_i c s₁ hread
    have hmem : s₁.mem = s.mem := by
      have hc := readChar_mem (B := B) (s := s)
      rwa [hread] at hc
    split at h
    · obtain rfl := Option.some.inj h
      exact hmem
    · exact (ih _ h).trans hmem

/-- The place on the screen is as far from the prompt as the place in the buffer from its
    start, and stays so. -/
theorem typeChar_spec {c : BitVec 8} {line column pos : Nat}
    (hpos : 80 * line + column = 167 + pos) (hcol : column < 80) (hmax : pos ≤ 1022)
    (hback : ¬(c = 8 ∧ line = 2 ∧ column = 7)) :
    let r := typeChar addr c line column pos m
    80 * r.1 + r.2.1 = 167 + r.2.2.1 ∧ r.2.1 < 80 ∧ r.2.2.1 ≤ 1023 ∧
      OnlyIn addr 1024 m r.2.2.2 := by
  have hput : OnlyIn addr 1024 m (store8 m (addr + BitVec.ofNat 32 pos) c) :=
    onlyIn_store8.of_add (by omega) (by decide)
  rw [typeChar]
  split
  · split
    · exact ⟨by simp only; omega, by simp, by simp only; omega, hput⟩
    · exact ⟨by simp only; omega, by simp only; omega, by simp only; omega, hput⟩
  split
  · rename_i hc
    have hstart : ¬(line = 2 ∧ column = 7) := fun h => hback ⟨hc, h⟩
    split
    · exact ⟨by simp only; omega, by simp, by simp only; omega, .refl⟩
    · exact ⟨by simp only; omega, by simp only; omega, by simp only; omega, .refl⟩
  · exact ⟨hpos, hcol, by simp only; omega, .refl⟩

/-- The command goes to the buffer, and has at most 1023 characters. -/
theorem readLoop_spec : ∀ (n line column pos : Nat) (s : Loader β),
    80 * line + column = 167 + pos → column < 80 → pos ≤ 1022 →
    readLoop B addr n line column pos s = some s' →
    OnlyIn addr 1024 s.mem s'.mem ∧ ∃ k ≤ 1023, s'.mem (addr + BitVec.ofNat 32 k) = 0 := by
  intro n
  induction n with
  | zero => intro line column pos s _ _ _ h; exact nomatch h
  | succ n ih =>
    intro line column pos s hpos hcol hmax h
    rw [readLoop] at h
    split at h
    rename_i c s₁ hread
    have hmem : s₁.mem = s.mem := by
      have hc := readChar_mem (B := B) (s := s)
      rwa [hread] at hc
    rw [← hmem]
    have hend : ∀ {m : Memory} (k : Nat), k ≤ 1023 →
        OnlyIn addr 1024 m (store8 m (addr + BitVec.ofNat 32 k) 0) :=
      fun k hk => onlyIn_store8.of_add (by omega) (by decide)
    split at h
    · exact ih _ _ _ _ hpos hcol hmax h
    rename_i hback
    split at h
    · obtain rfl := Option.some.inj h
      exact ⟨hend pos (by omega), pos, by omega, store8_self⟩
    have hspec := @typeChar_spec s₁.mem addr _ _ _ _ hpos hcol hmax hback
    split at h
    rename_i line' column' pos' m' htype
    rw [htype] at hspec
    obtain ⟨hpos', hcol', hmax', hm'⟩ := hspec
    dsimp only at h hpos' hcol' hmax' hm'
    split at h
    · -- the buffer is full
      split at h
      · exact nomatch h
      · rename_i s₂ hwait
        obtain rfl := Option.some.inj h
        have hmem₂ : s₂.mem = m' := waitForEnter_mem _ _ hwait
        refine ⟨hm'.trans ?_, pos', hmax', store8_self⟩
        dsimp only
        rw [hmem₂]
        exact hend pos' hmax'
    · rename_i hfull
      obtain ⟨hm, hzero⟩ := ih _ _ _ _ hpos' hcol' (by omega) h
      exact ⟨hm'.trans hm, hzero⟩

theorem readCommand_spec (h : readCommand B fuel addr s = some s') :
    OnlyIn addr 1024 s.mem s'.mem ∧ ∃ k ≤ 1023, s'.mem (addr + BitVec.ofNat 32 k) = 0 :=
  readLoop_spec fuel 2 7 0 s rfl (by decide) (by decide) h

/-- A string ends at its first zero. -/
theorem stringLength_le (hk : m (addr + BitVec.ofNat 32 k) = 0) : ∀ (fuel i : Nat) {r : Nat},
    i ≤ k → stringLength m addr fuel i = some r → r ≤ k := by
  intro fuel
  induction fuel with
  | zero => intro i r _ h; exact nomatch h
  | succ fuel ih =>
    intro i r hi h
    rw [stringLength] at h
    split at h
    · exact Option.some.inj h ▸ hi
    · rename_i hne
      have hik : i ≠ k := fun heq => hne (heq ▸ hk)
      exact ih (i + 1) (by omega) h

end services

end Avos.Multiboot
