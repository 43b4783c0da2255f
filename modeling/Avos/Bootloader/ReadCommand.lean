import Avos.Bootloader.Outcomes

/-! # The Command Line

  `Console_ReadCommand` of `bootloader/multiboot/src/console.c` is a line editor. It keeps the
  place in the buffer, and the line and the column of the cursor; the end of the buffer is told
  by the cursor. `editKey` says what a key does to the characters that are held, and the loop
  is followed key by key against it.

  `readLoopLog` is the loop with a log of what the model of the boot loader leaves out: where
  the cursor has been, and where stores have gone to. The line is at most 14 and the column at
  most 79, so that a `uint8_t` holds them.

  `Multiboot_SaveBootCommand` counts in `tag->size` in two loops (`saveBootCommandCounted`).
-/

open ByteMemory Walks

namespace Avos.Multiboot

/-! ## Section 1: A Line Editor -/

/-- A key, with the characters `held` so far. Nothing is taken when there are 1023 of them. -/
def editKey (held : List (BitVec 8)) (c : BitVec 8) : List (BitVec 8) :=
  if held.length = 1023 then held
  else if 0x20 ≤ c ∧ c < 0x7F then held ++ [c]
  else if c = 8 then held.dropLast
  else held

/-- The characters that are held after some keys. -/
def edited (keys : List (BitVec 8)) : List (BitVec 8) := keys.foldl editKey []

section editor

variable {held keys : List (BitVec 8)} {c : BitVec 8}

theorem length_editKey_le (h : held.length ≤ 1023) : (editKey held c).length ≤ 1023 := by
  unfold editKey
  split
  · exact h
  split
  · rw [List.length_append, List.length_singleton]
    omega
  split
  · rw [List.length_dropLast]
    omega
  · exact h

theorem length_foldl_editKey_le (h : held.length ≤ 1023) :
    (keys.foldl editKey held).length ≤ 1023 := by
  induction keys generalizing held with
  | nil => exact h
  | cons c keys ih => exact ih (length_editKey_le h)

/-- A full buffer stays as it is. -/
theorem foldl_editKey_full (h : held.length = 1023) : keys.foldl editKey held = held := by
  induction keys with
  | nil => rfl
  | cons c keys ih =>
    rw [List.foldl_cons, editKey, if_pos h]
    exact ih

theorem length_foldl_editKey_le_add :
    (keys.foldl editKey held).length ≤ held.length + keys.length := by
  induction keys generalizing held with
  | nil => exact Nat.le_refl _
  | cons c keys ih =>
    have hstep : (editKey held c).length ≤ held.length + 1 := by
      unfold editKey
      split
      · omega
      split
      · simp
      split
      · rw [List.length_dropLast]
        omega
      · omega
    have hrest := @ih (editKey held c)
    rw [List.length_cons, List.foldl_cons]
    omega

/-- No zero is held. -/
theorem ne_zero_of_mem_editKey (h : ∀ x ∈ held, x ≠ 0) : ∀ x ∈ editKey held c, x ≠ 0 := by
  intro x hx
  unfold editKey at hx
  split at hx
  · exact h x hx
  split at hx
  · next hc =>
    rcases List.mem_append.mp hx with hx | hx
    · exact h x hx
    · rw [List.mem_singleton] at hx
      intro hzero
      rw [← hx, hzero] at hc
      exact absurd hc.1 (by decide)
  split at hx
  · exact h x (List.mem_of_mem_dropLast hx)
  · exact h x hx

theorem ne_zero_of_mem_edited : ∀ x ∈ edited keys, x ≠ 0 := by
  have hfold : ∀ (keys held : List (BitVec 8)), (∀ x ∈ held, x ≠ 0) →
      ∀ x ∈ keys.foldl editKey held, x ≠ 0 := by
    intro keys
    induction keys with
    | nil => exact fun _ h => h
    | cons c keys ih => exact fun held h => ih _ (ne_zero_of_mem_editKey h)
  exact hfold keys [] (by simp)

end editor

/-! ## Section 2: The Loop with a Log -/

/-- Where the cursor has been, and where stores have gone to. -/
structure CommandLog where
  cursors : List (Nat × Nat)
  stores : List (BitVec 32)

/-- A round of the loop before the others. -/
def CommandLog.cons (cursor : Nat × Nat) (stores : List (BitVec 32)) (log : CommandLog) :
    CommandLog :=
  ⟨cursor :: log.cursors, stores ++ log.stores⟩

section readLoop

variable {β : Type*} (B : Bios β)

/-- The loop of `Console_ReadCommand`, with the places of the cursor and the stores of every
    round. The last place is that at which the buffer is full. -/
def readLoopLog (buffer : BitVec 32) : Nat → Nat → Nat → Nat → Loader β →
    Option (Loader β × CommandLog)
  | 0, _, _, _, _ => none
  | n + 1, line, column, pos, s =>
      let (c, s) := readChar B s
      -- a backspace over the prompt: `continue`
      if c = 8 ∧ line = 2 ∧ column = 7 then
        (readLoopLog buffer n line column pos s).map
          (Prod.map id (CommandLog.cons (line, column) []))
      else if c = 0x0D then
        some ({ s with mem := store8 s.mem (buffer + BitVec.ofNat 32 pos) 0 },
          ⟨[(line, column)], [buffer + BitVec.ofNat 32 pos]⟩)
      else
        let stores := if 0x20 ≤ c ∧ c < 0x7F then [buffer + BitVec.ofNat 32 pos] else []
        let place := (line, column)
        let (line, column, pos, m) := typeChar buffer c line column pos s.mem
        let s := { s with mem := m }
        -- `end_line` and `end_column`: 1023 characters behind the start
        if line = 14 ∧ column = 70 then
          match waitForEnter B n s with
          | none => none
          | some s => some ({ s with mem := store8 s.mem (buffer + BitVec.ofNat 32 pos) 0 },
              ⟨[place, (line, column)], stores ++ [buffer + BitVec.ofNat 32 pos]⟩)
        else
          (readLoopLog buffer n line column pos s).map (Prod.map id (CommandLog.cons place stores))

/-- `Console_ReadCommand`, with a log. -/
def readCommandLog (fuel : Nat) (buffer : BitVec 32) (s : Loader β) :
    Option (Loader β × CommandLog) :=
  readLoopLog B buffer fuel 2 7 0 s

variable {B} {buffer : BitVec 32}

theorem map_fst_cons {log : Option (Loader β × CommandLog)} {place : Nat × Nat}
    {stores : List (BitVec 32)} :
    (log.map (Prod.map id (CommandLog.cons place stores))).map Prod.fst = log.map Prod.fst := by
  cases log <;> rfl

/-- Without its log it is the loop. -/
theorem readLoopLog_fst : ∀ (n line column pos : Nat) (s : Loader β),
    (readLoopLog B buffer n line column pos s).map Prod.fst =
      readLoop B buffer n line column pos s := by
  intro n
  induction n with
  | zero => exact fun _ _ _ _ => rfl
  | succ n ih =>
    intro line column pos s
    rw [readLoopLog, readLoop]
    dsimp only
    split
    · rw [map_fst_cons, ih]
    split
    · rfl
    split
    · cases waitForEnter B n _ <;> rfl
    · rw [map_fst_cons, ih]

theorem readCommandLog_fst {fuel : Nat} {s : Loader β} :
    (readCommandLog B fuel buffer s).map Prod.fst = readCommand B fuel buffer s :=
  readLoopLog_fst _ _ _ _ _

/-! ## Section 3: Keys -/

/-- The BIOS after a character has been read. -/
def afterKey (B : Bios β) (b : β) : β := (B.interrupt b 0x16 clearRegistry).2.2

/-- `Console_ReadChar` gives these characters, one call after the other. -/
def TypesKeys (B : Bios β) : β → List (BitVec 8) → Prop
  | _, [] => True
  | b, c :: keys => (readChar B ⟨fun _ => 0, b⟩).1 = c ∧ TypesKeys B (afterKey B b) keys

theorem TypesKeys.readChar_eq {b : β} {c : BitVec 8} {keys : List (BitVec 8)} {m : Memory}
    (h : TypesKeys B b (c :: keys)) : readChar B ⟨m, b⟩ = (c, ⟨m, afterKey B b⟩) :=
  Prod.ext h.1 rfl

/-- The wait ends with the first Enter. -/
theorem waitForEnter_eq {m : Memory} : ∀ (keys : List (BitVec 8)) (n : Nat) (b : β),
    TypesKeys B b (keys ++ [0x0D]) → 0x0D ∉ keys → keys.length < n →
    waitForEnter B n ⟨m, b⟩ = some ⟨m, (afterKey B)^[keys.length + 1] b⟩ := by
  intro keys
  induction keys with
  | nil =>
    intro n b h _ hn
    obtain ⟨n, rfl⟩ := Nat.exists_eq_add_one_of_ne_zero (Nat.ne_of_gt hn)
    rw [waitForEnter, h.readChar_eq]
    exact if_pos rfl
  | cons c keys ih =>
    intro n b h henter hn
    obtain ⟨n, rfl⟩ := Nat.exists_eq_add_one_of_ne_zero (Nat.ne_of_gt (Nat.zero_lt_of_lt hn))
    rw [List.length_cons] at hn
    rw [List.mem_cons, not_or] at henter
    rw [waitForEnter, h.readChar_eq]
    dsimp only
    rw [if_neg fun hc => henter.1 hc.symm, ih n _ h.2 henter.2 (by omega)]
    rfl

/-! ## Section 4: The Loop Against the Editor -/

variable {m m' : Memory} {held keys : List (BitVec 8)} {c : BitVec 8} {line column : Nat}

theorem hasBytes_nil {a : BitVec 32} : HasBytes m a [] := by
  intro i hi
  exact absurd hi (Nat.not_lt_zero i)

/-- A byte behind those that are there. -/
theorem HasBytes.store8_append {a : BitVec 32} {l : List (BitVec 8)} (h : HasBytes m a l)
    (hl : l.length < 2 ^ 32) :
    HasBytes (store8 m (a + BitVec.ofNat 32 l.length) c) a (l ++ [c]) := by
  refine HasBytes.append (h.of_eq fun i hi => ?_) ?_
  · exact store8_ne (add_ofNat_ne (by omega) (by omega) hl)
  · intro i hi
    obtain rfl : i = 0 := by simpa using hi
    rw [BitVec.add_zero]
    exact store8_self

theorem HasBytes.dropLast {a : BitVec 32} {l : List (BitVec 8)} (h : HasBytes m a l) :
    HasBytes m a l.dropLast := by
  intro i hi
  rw [List.length_dropLast] at hi
  rw [h i (by omega), List.getD_eq_getElem _ _ (by omega),
    List.getD_eq_getElem _ _ (by rw [List.length_dropLast]; omega), List.getElem_dropLast]

/-- A key does to the buffer what it does to the characters that are held. -/
theorem typeChar_edit (hbytes : HasBytes m buffer held) (hmax : held.length ≤ 1022) :
    let r := typeChar buffer c line column held.length m
    r.2.2.1 = (editKey held c).length ∧ HasBytes r.2.2.2 buffer (editKey held c) := by
  unfold typeChar editKey
  rw [if_neg (show held.length ≠ 1023 by omega)]
  split
  · have hput := hbytes.store8_append (c := c) (by omega)
    have hlength : held.length + 1 = (held ++ [c]).length := by simp
    split
    · exact ⟨hlength, hput⟩
    · exact ⟨hlength, hput⟩
  split
  · split
    · exact ⟨List.length_dropLast.symm, hbytes.dropLast⟩
    · exact ⟨List.length_dropLast.symm, hbytes.dropLast⟩
  · exact ⟨rfl, hbytes⟩

/-- What a run of the loop over the keys leaves behind, when it begins with the characters
    `held` in the buffer. -/
structure EditsLine (B : Bios β) (buffer : BitVec 32) (m : Memory) (b : β)
    (held keys : List (BitVec 8)) (s' : Loader β) (log : CommandLog) : Prop where
  /-- The characters and a zero are in the buffer. -/
  bytes : HasBytes s'.mem buffer (keys.foldl editKey held ++ [0])
  /-- Only the buffer has changed, by the stores of the log. -/
  only : OnlyIn buffer 1024 m s'.mem
  stores : ∀ a ∈ log.stores, InBytes buffer 1024 a
  /-- Before each key the cursor is as many places behind the start as characters are held. -/
  cursors : ∀ i line column, log.cursors[i]? = some (line, column) →
    80 * line + column = 80 * 2 + 7 + ((keys.take i).foldl editKey held).length
  /-- The log goes on until the buffer is full, or Enter is pressed. -/
  covers : ∀ i ≤ keys.length, (∀ j < i, ((keys.take j).foldl editKey held).length ≠ 1023) →
    i < log.cursors.length
  /-- The keys have been read, and Enter. -/
  bios : s'.bios = (afterKey B)^[keys.length + 1] b

/-- The Enter in front of which nothing is typed. -/
theorem editsLine_enter {b : β} (hbytes : HasBytes m buffer held) (hmax : held.length ≤ 1022)
    (hplace : 80 * line + column = 80 * 2 + 7 + held.length) :
    EditsLine B buffer m b held []
      ⟨store8 m (buffer + BitVec.ofNat 32 held.length) 0, afterKey B b⟩
      ⟨[(line, column)], [buffer + BitVec.ofNat 32 held.length]⟩ where
  bytes := hbytes.store8_append (by omega)
  only := onlyIn_store8.of_add (by omega) (by decide)
  stores := by
    intro a ha
    rw [List.mem_singleton.mp ha]
    exact inBytes_add (by omega) (by decide)
  cursors := by
    intro i line' column' hi
    obtain ⟨hlt, heq⟩ := List.getElem?_eq_some_iff.mp hi
    obtain rfl : i = 0 := by simpa using hlt
    obtain ⟨rfl, rfl⟩ := Prod.mk.inj heq
    exact hplace
  covers := by
    intro i hi _
    rw [List.length_nil, Nat.le_zero] at hi
    rw [hi]
    exact Nat.one_pos
  bios := rfl

/-- The key that fills the buffer, the keys that are not taken, and Enter. -/
theorem editsLine_full {b : β} {stores : List (BitVec 32)} {line' column' : Nat}
    (hbytes : HasBytes m' buffer (editKey held c)) (hfull : (editKey held c).length = 1023)
    (hplace : 80 * line + column = 80 * 2 + 7 + held.length)
    (hplace' : 80 * line' + column' = 80 * 2 + 7 + (editKey held c).length)
    (honly : OnlyIn buffer 1024 m m') (hstores : ∀ a ∈ stores, InBytes buffer 1024 a) :
    EditsLine B buffer m b held (c :: keys)
      ⟨store8 m' (buffer + BitVec.ofNat 32 (editKey held c).length) 0,
        (afterKey B)^[keys.length + 1] (afterKey B b)⟩
      ⟨[(line, column), (line', column')],
        stores ++ [buffer + BitVec.ofNat 32 (editKey held c).length]⟩ where
  bytes := by
    rw [List.foldl_cons, foldl_editKey_full hfull]
    exact hbytes.store8_append (by omega)
  only := honly.trans (onlyIn_store8.of_add (by omega) (by decide))
  stores := by
    intro a ha
    rcases List.mem_append.mp ha with ha | ha
    · exact hstores a ha
    · rw [List.mem_singleton.mp ha]
      exact inBytes_add (by omega) (by decide)
  cursors := by
    intro i line'' column'' hi
    obtain ⟨hlt, heq⟩ := List.getElem?_eq_some_iff.mp hi
    cases i with
    | zero =>
      obtain ⟨rfl, rfl⟩ := Prod.mk.inj heq
      exact hplace
    | succ i =>
      have hlt' : i + 1 < 2 := hlt
      obtain rfl : i = 0 := by omega
      obtain ⟨rfl, rfl⟩ := Prod.mk.inj heq
      exact hplace'
  covers := by
    intro i _ hfree
    by_contra hi
    rw [not_lt] at hi
    exact hfree 1 hi hfull
  bios := rfl

/-- A key after which the loop goes on. -/
theorem EditsLine.cons {b : β} {s' : Loader β} {log : CommandLog} {stores : List (BitVec 32)}
    (h : EditsLine B buffer m' (afterKey B b) (editKey held c) keys s' log)
    (hplace : 80 * line + column = 80 * 2 + 7 + held.length) (honly : OnlyIn buffer 1024 m m')
    (hstores : ∀ a ∈ stores, InBytes buffer 1024 a) :
    EditsLine B buffer m b held (c :: keys) s' (log.cons (line, column) stores) where
  bytes := h.bytes
  only := honly.trans h.only
  stores := by
    intro a ha
    rcases List.mem_append.mp ha with ha | ha
    · exact hstores a ha
    · exact h.stores a ha
  cursors := by
    intro i line' column' hi
    cases i with
    | zero =>
      obtain ⟨rfl, rfl⟩ := Prod.mk.inj (Option.some.inj hi)
      exact hplace
    | succ i => exact h.cursors i line' column' hi
  covers := by
    intro i hi hfree
    cases i with
    | zero => exact Nat.succ_pos _
    | succ i =>
      refine Nat.succ_lt_succ (h.covers i (Nat.le_of_succ_le_succ hi) fun j hj => ?_)
      exact hfree (j + 1) (Nat.succ_lt_succ hj)
  bios := h.bios

/-- The loop does to the buffer what the editor does to the characters held. By induction on
    the keys: the cursor and the place in the buffer stay in step. -/
theorem readLoopLog_edits : ∀ (keys : List (BitVec 8)) (n line column : Nat) (b : β) (m : Memory)
    (held : List (BitVec 8)), TypesKeys B b (keys ++ [0x0D]) → 0x0D ∉ keys → keys.length < n →
    HasBytes m buffer held → held.length ≤ 1022 →
    80 * line + column = 80 * 2 + 7 + held.length → column < 80 →
    ∃ s' log, readLoopLog B buffer n line column held.length ⟨m, b⟩ = some (s', log) ∧
      EditsLine B buffer m b held keys s' log := by
  intro keys
  induction keys with
  | nil =>
    intro n line column b m held h _ hn hbytes hmax hplace hcol
    obtain ⟨n, rfl⟩ := Nat.exists_eq_add_one_of_ne_zero (Nat.ne_of_gt hn)
    refine ⟨_, _, ?_, editsLine_enter hbytes hmax hplace⟩
    rw [readLoopLog, h.readChar_eq]
    dsimp only
    rw [if_neg (by simp), if_pos rfl]
  | cons c keys ih =>
    intro n line column b m held h henter hn hbytes hmax hplace hcol
    obtain ⟨n, rfl⟩ := Nat.exists_eq_add_one_of_ne_zero (Nat.ne_of_gt (Nat.zero_lt_of_lt hn))
    rw [List.length_cons] at hn
    rw [List.mem_cons, not_or] at henter
    rw [readLoopLog, h.readChar_eq]
    dsimp only
    split
    · next hback =>
      -- a backspace where nothing is held leaves the cursor at its start
      obtain ⟨rfl, rfl, rfl⟩ := hback
      have hnil : held = [] := List.eq_nil_of_length_eq_zero (by omega)
      subst hnil
      obtain ⟨s', log, hlog, hedits⟩ := ih n 2 7 (afterKey B b) m [] h.2 henter.2 (by omega)
        hbytes hmax hplace hcol
      refine ⟨s', log.cons (2, 7) [], ?_, hedits.cons hplace .refl (by simp)⟩
      rw [hlog]
      rfl
    · next hback =>
      rw [if_neg fun hc => henter.1 hc.symm]
      have hspec := @typeChar_spec m buffer c line column held.length hplace hcol hmax hback
      have hedit := @typeChar_edit buffer m held c line column hbytes hmax
      generalize typeChar buffer c line column held.length m = r at hspec hedit
      obtain ⟨line', column', pos', m'⟩ := r
      obtain ⟨hplace', hcol', hmax', honly⟩ := hspec
      obtain ⟨rfl, hbytes'⟩ := hedit
      dsimp only at hplace' hcol' hmax' honly hbytes' ⊢
      have hstores : ∀ a ∈ (if 0x20 ≤ c ∧ c < 0x7F then [buffer + BitVec.ofNat 32 held.length]
          else []), InBytes buffer 1024 a := by
        intro a ha
        split at ha
        · rw [List.mem_singleton.mp ha]
          exact inBytes_add (by omega) (by decide)
        · exact absurd ha List.not_mem_nil
      -- the end of the buffer is at line 14, column 70
      split
      · next hfull =>
        obtain ⟨rfl, rfl⟩ := hfull
        rw [waitForEnter_eq keys n (afterKey B b) h.2 henter.2 (by omega)]
        exact ⟨_, _, rfl, editsLine_full hbytes' (by omega) hplace hplace' honly hstores⟩
      · next hfree =>
        obtain ⟨s', log, hlog, hedits⟩ := ih n line' column' (afterKey B b) m' (editKey held c)
          h.2 henter.2 (by omega) hbytes' (by omega) hplace' hcol'
        refine ⟨s', _, ?_, hedits.cons hplace honly hstores⟩
        rw [hlog]
        rfl

end readLoop

/-! ## Section 5: The Loops of the Tag -/

/-- `for (i = 0; (mbi_cmd->string)[i] != '\0'; i++) (mbi_cmd->size)++;`, with a bound. -/
def countCommand (tag : BitVec 32) : Nat → Nat → Memory → Option (Nat × Memory)
  | 0, _, _ => none
  | n + 1, i, m =>
      if m (tag + 8 + BitVec.ofNat 32 i) ≠ 0 then
        countCommand tag n (i + 1) (store32 m (tag + 4) (load32 m (tag + 4) + 1))
      else some (i, m)

/-- `for (; (mbi_cmd->size) % 8 != 0; i++)`, with a bound. -/
def padCommand (tag : BitVec 32) : Nat → Nat → Memory → Option Memory
  | 0, _, _ => none
  | n + 1, i, m =>
      if load32 m (tag + 4) % 8 ≠ 0 then
        let m := store32 m (tag + 4) (load32 m (tag + 4) + 1)
        padCommand tag n (i + 1) (store8 m (tag + 8 + BitVec.ofNat 32 i) 0)
      else some m

section tag

variable {β : Type*} (B : Bios β) (fuel : Nat) (mbi : BitVec 32)

/-- `Multiboot_SaveBootCommand`, as its loops have it. -/
def saveBootCommandCounted (s : Loader β) : Option (Bool × Loader β) :=
  saveTag fuel mbi 1 s fun tag => withRoom tag 1056 <|
    match readCommand B fuel (tag + 8) { s with mem := writeTag s.mem tag 1 8 } with
    | none => none
    | some s =>
        match countCommand tag fuel 0 s.mem with
        | none => none
        | some (i, m) =>
            let m := store32 m (tag + 4) (load32 m (tag + 4) + 1)
            match padCommand tag 8 (i + 1) m with
            | none => none
            | some m => finishTag mbi tag (terminateTag m mbi tag).1 { s with mem := m }

variable {B} {fuel} {mbi} {m m' : Memory} {a tag : BitVec 32} {s s' : Loader β}

/-- `&(mbi_cmd->string)[i]`. -/
theorem string_add {i : Nat} : tag + 8 + BitVec.ofNat 32 i = tag + BitVec.ofNat 32 (8 + i) := by
  rw [BitVec.ofNat_add 8, ← BitVec.add_assoc]
  rfl

/-- The first loop finds the end of the string, and has counted its characters in the size. -/
theorem countCommand_eq {k : Nat} (hk : k ≤ 1023) (hend : m (tag + 8 + BitVec.ofNat 32 k) = 0) :
    ∀ (n i : Nat) (m' : Memory), i ≤ k → OnlyIn (tag + 4) 4 m m' →
      load32 m' (tag + 4) = BitVec.ofNat 32 (8 + i) →
      (stringLength m (tag + 8) n i = none ∧ countCommand tag n i m' = none) ∨
        ∃ j m'', stringLength m (tag + 8) n i = some j ∧ countCommand tag n i m' = some (j, m'') ∧
          OnlyIn (tag + 4) 4 m m'' ∧ load32 m'' (tag + 4) = BitVec.ofNat 32 (8 + j) := by
  intro n
  induction n with
  | zero => exact fun _ _ _ _ _ => .inl ⟨rfl, rfl⟩
  | succ n ih =>
    intro i m' hi honly hsize
    have hbyte : m' (tag + 8 + BitVec.ofNat 32 i) = m (tag + 8 + BitVec.ofNat 32 i) := by
      have honly' : OnlyIn (tag + BitVec.ofNat 32 4) 4 m m' := honly
      rw [string_add]
      exact honly'.eq_add (.inr (by omega)) (by decide) (by omega)
    rw [stringLength, countCommand, hbyte]
    by_cases hzero : m (tag + 8 + BitVec.ofNat 32 i) = 0
    · rw [if_pos hzero, if_neg (not_not.mpr hzero)]
      exact .inr ⟨i, m', rfl, rfl, honly, hsize⟩
    · have hik : i ≠ k := fun heq => hzero (heq ▸ hend)
      rw [if_neg hzero, if_pos hzero]
      refine ih (i + 1) _ (by omega) (honly.trans onlyIn_store32) ?_
      rw [load32_store32, hsize, ← Nat.add_assoc, BitVec.ofNat_add (8 + i)]
      rfl

/-- The second loop writes as many zeros as are missing to a multiple of eight. By induction on
    their number. -/
theorem padCommand_eq {size i : Nat} (hi : i + 8 ≤ 2 ^ 31) (hsize : size < 2 ^ 31) :
    ∀ (rest n j : Nat), rest ≤ n → j + rest < 8 → (size + j + rest) % 8 = 0 →
      padCommand tag (n + 1) (i + j)
          (store32 (memset m (tag + 8 + BitVec.ofNat 32 i) 0 j) (tag + 4)
            (BitVec.ofNat 32 (size + j))) =
        some (store32 (memset m (tag + 8 + BitVec.ofNat 32 i) 0 (j + rest)) (tag + 4)
          (BitVec.ofNat 32 (size + j + rest))) := by
  have hmod : ∀ k < 8, BitVec.ofNat 32 (size + k) % 8 = 0 ↔ (size + k) % 8 = 0 := by
    intro k hk
    rw [umod8_eq_zero_iff, BitVec.toNat_ofNat, @Nat.mod_eq_of_lt (size + k) _ (by omega)]
  intro rest
  induction rest with
  | zero =>
    intro n j _ hj hzero
    rw [padCommand, load32_store32, if_neg (not_not.mpr ((hmod j (by omega)).mpr hzero))]
    rfl
  | succ rest ih =>
    intro n j hn hj hzero
    obtain ⟨n, rfl⟩ := Nat.exists_eq_add_one_of_ne_zero (show n ≠ 0 by omega)
    have hne : ¬BitVec.ofNat 32 (size + j) % 8 = 0 := by
      rw [hmod j (by omega)]
      omega
    have hcell : tag + 8 + BitVec.ofNat 32 (i + j) =
        tag + 8 + BitVec.ofNat 32 i + BitVec.ofNat 32 j := by
      rw [BitVec.ofNat_add, ← BitVec.add_assoc]
    have hapart : ¬InBytes (tag + 4) 4 (tag + 8 + BitVec.ofNat 32 (i + j)) := by
      rw [string_add]
      intro hin
      have := (inBytes_add_iff (i := 4) (n := 4) (by decide) (by omega)).mp hin
      omega
    have hnext : BitVec.ofNat 32 (size + j) + 1 = BitVec.ofNat 32 (size + (j + 1)) := by
      rw [← Nat.add_assoc, BitVec.ofNat_add (size + j)]
      rfl
    rw [padCommand, load32_store32, if_pos hne, hnext]
    dsimp only
    rw [onlyIn_store32.store32_eq, store8_store32_comm hapart, hcell, Nat.add_assoc i]
    -- the same number of bytes, one of them now among those that are done
    have hrest := ih n (j + 1) (by omega) (by omega) (by omega)
    rw [Nat.add_right_comm j 1 rest, ← Nat.add_assoc size j 1, Nat.add_right_comm _ 1 rest] at hrest
    exact hrest

/-- The loops do what `saveBootCommand` says at once. -/
theorem saveBootCommandCounted_eq :
    saveBootCommandCounted B fuel mbi s = saveBootCommand B fuel mbi s := by
  unfold saveBootCommandCounted saveBootCommand
  refine congrArg (saveTag fuel mbi 1 s) (funext fun tag => congrArg (withRoom tag 1056) ?_)
  cases hread : readCommand B fuel (tag + 8) { s with mem := writeTag s.mem tag 1 8 } with
  | none => rfl
  | some s₁ =>
    obtain ⟨honly, k, hk, hend⟩ := readCommand_spec hread
    have hsize : load32 s₁.mem (tag + 4) = BitVec.ofNat 32 (8 + 0) := by
      have honly' : OnlyIn (tag + BitVec.ofNat 32 8) 1024 (writeTag s.mem tag 1 8) s₁.mem := honly
      have h4 := honly'.load32_add (j := 4) (.inl (by decide)) (by decide) (by decide)
      exact h4.trans load32_store32
    dsimp only
    rcases countCommand_eq hk hend fuel 0 s₁.mem (Nat.zero_le k) .refl hsize with
      ⟨hlength, hcount⟩ | ⟨j, m₂, hlength, hcount, hm₂, hsize₂⟩
    · rw [hlength, hcount]
    · have hj : j ≤ 1023 := (stringLength_le hend _ _ (Nat.zero_le k) hlength).trans hk
      rw [hlength, hcount]
      dsimp only
      have hnext : BitVec.ofNat 32 (8 + j) + 1 = BitVec.ofNat 32 (8 + j + 1 + 0) := by
        rw [BitVec.ofNat_add (8 + j) 1]
        rfl
      have hpad := @padCommand_eq s₁.mem tag (8 + j + 1) (j + 1) (by omega) (by omega)
        ((8 - (8 + j + 1) % 8) % 8) 7 0 (by omega) (by omega) (by omega)
      rw [hsize₂, hnext, hm₂.store32_eq]
      simp only [Nat.zero_add, Nat.add_zero] at hpad ⊢
      rw [show memset s₁.mem (tag + 8 + BitVec.ofNat 32 (j + 1)) 0 0 = s₁.mem from rfl] at hpad
      rw [hpad]

/-! ## Section 6: The Tag -/

theorem stringLength_eq {l : List (BitVec 8)} (h : HasBytes m a (l ++ [0]))
    (hl : ∀ x ∈ l, x ≠ 0) : ∀ (n i : Nat), i ≤ l.length → l.length < i + n →
    stringLength m a n i = some l.length := by
  intro n
  induction n with
  | zero => intro i hi hn; omega
  | succ n ih =>
    intro i hi hn
    have hbyte := h i (by rw [List.length_append, List.length_singleton]; omega)
    rw [stringLength, hbyte]
    -- a character, which is not a zero, or the zero behind them
    rcases Nat.lt_or_eq_of_le hi with hlt | rfl
    · rw [List.getD_append _ _ _ _ hlt, List.getD_eq_getElem _ _ hlt,
        if_neg (hl _ (List.getElem_mem hlt))]
      exact ih (i + 1) hlt (by omega)
    · rw [List.getD_append_right _ _ _ _ (Nat.le_refl _), Nat.sub_self]
      exact if_pos rfl

/-- Zeros behind some bytes. -/
theorem HasBytes.memset_append {l : List (BitVec 8)} {n : Nat} (h : HasBytes m a l)
    (hn : l.length + n < 2 ^ 32) :
    HasBytes (memset m (a + BitVec.ofNat 32 l.length) 0 n) a (l ++ List.replicate n 0) := by
  refine HasBytes.append (h.of_eq fun i hi => ?_) fun i hi => ?_
  · exact (onlyIn_memset (by omega)).eq_add (.inl hi) (by omega) (by omega)
  · rw [List.length_replicate] at hi
    rw [memset_eq (by omega)]
    dsimp only
    rw [if_pos (inBytes_add hi (by omega))]
    simp [hi]

/-- The size of a tag with a command of `n` characters. -/
def commandSize (n : Nat) : Nat := (8 + n + 1 + 7) / 8 * 8

/-- The tag of a command. -/
def commandTag (n : Nat) : MbiTag where
  type := 1
  size := commandSize n
  type_ne := by decide
  size_ge := by
    rw [commandSize]
    omega
  size_mod := Nat.mul_mod_left _ _

/-- In `m'` the record has got a tag with the command `l`, a zero, and zeros up to the end of
    the tag. -/
structure HasCommand (mbi : BitVec 32) (tags : List MbiTag) (m m' : Memory)
    (l : List (BitVec 8)) : Prop extends Extends mbi tags m m' [commandTag l.length] where
  string : HasBytes m' (termAddr mbi tags + 8)
    (l ++ List.replicate (commandSize l.length - (8 + l.length)) 0)

theorem commandSize_eq (n : Nat) : commandSize n = 8 + n + 1 + (8 - (8 + n + 1) % 8) % 8 := by
  rw [commandSize]
  omega

/-- A change behind the tag and to the size of the record leaves the string. -/
theorem hasBytes_terminateTag {tags : List MbiTag} {l : List (BitVec 8)} {size : Nat}
    (hmbi : mbi.toNat + (16 + tagBytes tags) < 2 ^ 32)
    (hroom : (termAddr mbi tags).toNat + (size + 8) < 2 ^ 32)
    (hsize : load32 m (termAddr mbi tags + 4) = BitVec.ofNat 32 size) (hl : 8 + l.length ≤ size)
    (h : HasBytes m (termAddr mbi tags + 8) l) :
    HasBytes (terminateTag m mbi (termAddr mbi tags)).2 (termAddr mbi tags + 8) l := by
  refine h.of_eq fun i hi => ?_
  rw [toNat_termAddr hmbi] at hroom
  rw [string_add]
  -- behind the string is the terminator, and before it the size of the record
  refine terminateTag_frame (fun hin => ?_) fun hin => ?_
  · rw [hsize, BitVec.add_comm] at hin
    have := (inBytes_add_iff (by omega) (by omega)).mp hin
    omega
  · have hin' : InBytes (mbi + BitVec.ofNat 32 0) 4
        (termAddr mbi tags + BitVec.ofNat 32 (8 + i)) := by
      rwa [BitVec.add_zero]
    rw [termAddr_add] at hin'
    have := (inBytes_add_iff (by omega) (by omega)).mp hin'
    omega

/-- The command that has been read is put into the tag. -/
theorem saveBootCommand_eq {tags : List MbiTag} {l : List (BitVec 8)} {s₁ : Loader β}
    (h : IsRecord s.mem mbi tags) (hnew : ∀ t ∈ tags, t.type ≠ 1)
    (hfuel : tags.length < fuel) (hroom : (termAddr mbi tags).toNat + 1056 < 2 ^ 32)
    (hread : readCommand B fuel (termAddr mbi tags + 8)
      { s with mem := writeTag s.mem (termAddr mbi tags) 1 8 } = some s₁)
    (hbytes : HasBytes s₁.mem (termAddr mbi tags + 8) (l ++ [0]))
    (hzero : ∀ x ∈ l, x ≠ 0) (hl : l.length ≤ 1023) (hfuel' : l.length < fuel) :
    ∃ s', saveBootCommand B fuel mbi s = some (true, s') ∧ s'.bios = s₁.bios ∧
      HasCommand mbi tags s.mem s'.mem l := by
  have hlength := stringLength_eq hbytes hzero fuel 0 (Nat.zero_le _) (by omega)
  have hf : Filled (termAddr mbi tags) 1 8 1056 s.mem s₁.mem :=
    (filled_writeTag (by decide) (by decide)).write 8 (readCommand_spec hread).1 (by decide)
      (by decide)
  have hsize := commandSize_eq l.length
  have hzeros : OnlyIn (termAddr mbi tags + BitVec.ofNat 32 (8 + (l.length + 1)))
      ((8 - (8 + l.length + 1) % 8) % 8) s₁.mem
      (memset s₁.mem (termAddr mbi tags + 8 + BitVec.ofNat 32 (l.length + 1)) 0
        ((8 - (8 + l.length + 1) % 8) % 8)) := by
    rw [string_add]
    exact onlyIn_memset (by omega)
  -- the whole tag, before `Multiboot_TerminateTag`
  have hf' := (hf.write _ hzeros (by omega) (by decide)).setSize
    (BitVec.ofNat 32 (commandSize l.length)) (by decide) (by decide)
  -- the string, with its zeros
  have hstring := hbytes.memset_append (n := (8 - (8 + l.length + 1) % 8) % 8)
    (by rw [List.length_append, List.length_singleton]; omega)
  have hlist : l ++ List.replicate (commandSize l.length - (8 + l.length)) 0 =
      l ++ [0] ++ List.replicate ((8 - (8 + l.length + 1) % 8) % 8) (0 : BitVec 8) := by
    rw [List.append_assoc, show commandSize l.length - (8 + l.length) =
      (8 - (8 + l.length + 1) % 8) % 8 + 1 by omega, List.replicate_succ]
    rfl
  rw [← hlist, List.length_append, List.length_singleton] at hstring
  generalize hm₁ : memset s₁.mem (termAddr mbi tags + 8 + BitVec.ofNat 32 (l.length + 1)) 0
    ((8 - (8 + l.length + 1) % 8) % 8) = m₁ at hzeros hf' hstring
  have hstring' : HasBytes (store32 m₁ (termAddr mbi tags + 4)
      (BitVec.ofNat 32 (commandSize l.length))) (termAddr mbi tags + 8)
      (l ++ List.replicate (commandSize l.length - (8 + l.length)) 0) := by
    refine hstring.of_eq fun i hi => ?_
    have hsize : OnlyIn (termAddr mbi tags + BitVec.ofNat 32 4) 4 m₁
        (store32 m₁ (termAddr mbi tags + 4) (BitVec.ofNat 32 (commandSize l.length))) :=
      onlyIn_store32
    rw [List.length_append, List.length_replicate] at hi
    rw [string_add]
    exact hsize.eq_add (.inr (by omega)) (by decide) (by omega)
  obtain ⟨hres, hext⟩ := extends_terminateTag h hf'.only hroom (commandTag l.length)
    (show commandSize l.length + 8 ≤ 1056 by omega) hf'.type_eq hf'.size_eq
  have hsize₂ := hf'.size_eq
  generalize hm₂ : store32 m₁ (termAddr mbi tags + 4) (BitVec.ofNat 32 (commandSize l.length)) =
    m₂ at hstring' hres hext hsize₂
  refine ⟨⟨(terminateTag m₂ mbi (termAddr mbi tags)).2, s₁.bios⟩, ?_, rfl, hext,
    hasBytes_terminateTag h.fits (by omega) hsize₂ ?_ hstring'⟩
  · rw [saveBootCommand, saveTag_eq h (length_tagAddrs ▸ hfuel) hnew, withRoom, if_pos hroom,
      hread]
    dsimp only
    rw [hlength]
    dsimp only
    rw [← hsize, hm₁, hm₂, finishTag, hres]
  · rw [List.length_append, List.length_replicate]
    omega

end tag

/-! ## Section 7: What Is Typed Is What Is Stored -/

section command

variable {β : Type*} {B : Bios β} {b : β} {keys : List (BitVec 8)} {fuel : Nat}

theorem readCommandLog_edits (hkeys : TypesKeys B b (keys ++ [0x0D])) (henter : 0x0D ∉ keys)
    (hfuel : keys.length < fuel) (buffer : BitVec 32) (m : Memory) :
    ∃ s' log, readCommandLog B fuel buffer ⟨m, b⟩ = some (s', log) ∧
      readCommand B fuel buffer ⟨m, b⟩ = some s' ∧ EditsLine B buffer m b [] keys s' log := by
  obtain ⟨s', log, hlog, hedits⟩ := @readLoopLog_edits _ B buffer keys fuel 2 7 b m []
    hkeys henter hfuel hasBytes_nil (by decide) (by decide) (by decide)
  have hlog' : readCommandLog B fuel buffer ⟨m, b⟩ = some (s', log) := hlog
  refine ⟨s', log, hlog', ?_, hedits⟩
  rw [← readCommandLog_fst, hlog']
  rfl

/-- The keys in front of the first Enter leave in the buffer what the editor holds, and a zero;
    the stores are to the buffer, the cursor is always as far from its start as the characters
    reach, and nothing is read behind that Enter. `Multiboot_SaveBootCommand` makes of it a tag
    that is rounded up with zeros. -/
theorem readCommand_edits (hkeys : TypesKeys B b (keys ++ [0x0D])) (henter : 0x0D ∉ keys)
    (hfuel : keys.length < fuel) :
    (edited keys).length ≤ 1023 ∧
      (∀ buffer m, ∃ s' log, readCommandLog B fuel buffer ⟨m, b⟩ = some (s', log) ∧
        readCommand B fuel buffer ⟨m, b⟩ = some s' ∧ EditsLine B buffer m b [] keys s' log) ∧
      ∀ mbi tags m, IsRecord m mbi tags → (∀ t ∈ tags, t.type ≠ 1) → tags.length < fuel →
        (termAddr mbi tags).toNat + 1056 < 2 ^ 32 →
        ∃ s', saveBootCommandCounted B fuel mbi ⟨m, b⟩ = some (true, s') ∧
          HasCommand mbi tags m s'.mem (edited keys) := by
  have hlength : (edited keys).length ≤ 1023 := length_foldl_editKey_le (Nat.zero_le _)
  refine ⟨hlength, readCommandLog_edits hkeys henter hfuel, ?_⟩
  intro mbi tags m h hnew htags hroom
  have hle : (edited keys).length ≤ ([] : List (BitVec 8)).length + keys.length :=
    length_foldl_editKey_le_add
  rw [List.length_nil, Nat.zero_add] at hle
  obtain ⟨s₁, log, -, hread, hedits⟩ := readCommandLog_edits hkeys henter hfuel
    (termAddr mbi tags + 8) (writeTag m (termAddr mbi tags) 1 8)
  obtain ⟨s', hsave, -, hcommand⟩ := saveBootCommand_eq (s := ⟨m, b⟩) h hnew htags hroom hread
    hedits.bytes ne_zero_of_mem_edited hlength (Nat.lt_of_le_of_lt hle hfuel)
  exact ⟨s', saveBootCommandCounted_eq.trans hsave, hcommand⟩

end command

/-- A BIOS that answers with the keys of a list, and with Enter behind them. -/
def typist : Bios (List (BitVec 8)) where
  interrupt b _ r := ([], { r with eax := (b.headD 0x0D).setWidth 32 }, b.tail)
  keeps_esi _ _ _ := rfl

/-- `ol`, a backspace and `k`. -/
theorem readCommand_edits_ok :
    (∃ s' log, readCommandLog typist 5 0x2000 ⟨fun _ => 0, [0x6F, 0x6C, 8, 0x6B]⟩ =
      some (s', log) ∧ HasBytes s'.mem 0x2000 [0x6F, 0x6B, 0]) ∧
    ∃ s', saveBootCommandCounted typist 5 0x1000
        ⟨(createEmptyMbi (fun _ => 0) 0x1000).2, [0x6F, 0x6C, 8, 0x6B]⟩ = some (true, s') ∧
      HasCommand 0x1000 [] (createEmptyMbi (fun _ => 0) 0x1000).2 s'.mem [0x6F, 0x6B] := by
  have hkeys : TypesKeys typist [0x6F, 0x6C, 8, 0x6B] ([0x6F, 0x6C, 8, 0x6B] ++ [0x0D]) :=
    ⟨by decide, by decide, by decide, by decide, by decide, trivial⟩
  obtain ⟨-, hread, hsave⟩ := @readCommand_edits _ _ _ _ 5 hkeys (by decide) (by decide)
  have hheld : edited [0x6F, 0x6C, 8, 0x6B] = [0x6F, 0x6B] := by decide
  obtain ⟨s', log, hlog, -, hedits⟩ := hread 0x2000 (fun _ => 0)
  rw [hheld] at hsave
  exact ⟨⟨s', log, hlog, hedits.bytes⟩, hsave 0x1000 [] _
    (isRecord_createEmptyMbi (by decide) (by decide)).2 (by simp) (by decide) (by decide)⟩

end Avos.Multiboot
