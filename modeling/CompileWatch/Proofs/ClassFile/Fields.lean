import CompileWatch.Proofs.ClassFile.Reading

/-!
# Fields of a byte string

What a reader of a field does is known from the bytes in front of it: it is there exactly if there
are enough of them, and its value is computed from the first ones.

- `byteAt`, `word16At`, `int32At`: the numbers at a place of a byte string.
- `Read.Takes`: a reader of a field; `takes_skip`, `takes_u8`, `takes_u16`, `takes_i32`.
- `Read.Asks`: how many bytes a reader asks for at most, with a law for each way of composing
  readers.
-/

namespace CompileWatch

/-! ### Numbers -/

/-- A byte as a number, which is zero behind the end. -/
def byteAt (bytes : Bytes) (i : Nat) : Nat := (bytes.getD i 0).toNat

/-- A number of two bytes. -/
def word16At (bytes : Bytes) (i : Nat) : Nat := byteAt bytes i * 0x100 + byteAt bytes (i + 1)

/-- A signed number of four bytes. -/
def int32At (bytes : Bytes) (i : Nat) : Int :=
  Read.signed32 (byteAt bytes i * 0x1000000 + byteAt bytes (i + 1) * 0x10000 +
    byteAt bytes (i + 2) * 0x100 + byteAt bytes (i + 3))

theorem byteAt_lt (bytes : Bytes) (i : Nat) : byteAt bytes i < 0x100 := UInt8.toNat_lt _

/-- A signed number of four bytes has 32 bits. -/
theorem int32At_bounds (bytes : Bytes) (i : Nat) :
    -0x80000000 ≤ int32At bytes i ∧ int32At bytes i < 0x80000000 := by
  have h0 := byteAt_lt bytes i
  have h1 := byteAt_lt bytes (i + 1)
  have h2 := byteAt_lt bytes (i + 2)
  have h3 := byteAt_lt bytes (i + 3)
  unfold int32At Read.signed32
  split <;> omega

/-- Behind bytes that are dropped, a byte has a smaller place. -/
theorem byteAt_drop (bytes : Bytes) (n i : Nat) :
    byteAt (bytes.drop n) i = byteAt bytes (n + i) := by
  simp [byteAt, List.getD_eq_getElem?_getD, List.getElem?_drop]

theorem int32At_drop (bytes : Bytes) (n i : Nat) :
    int32At (bytes.drop n) i = int32At bytes (n + i) := by
  simp only [int32At, byteAt_drop, Nat.add_assoc]

/-- A byte that is there stays what it is when others follow. -/
theorem byteAt_append {bytes : Bytes} {i : Nat} (h : i < bytes.length) (rest : Bytes) :
    byteAt (bytes ++ rest) i = byteAt bytes i := by
  simp [byteAt, List.getD_eq_getElem?_getD, List.getElem?_append_left h]

/-- A word of two bytes that are there stays what it is. -/
theorem word16At_append {bytes : Bytes} {i : Nat} (h : i + 2 ≤ bytes.length) (rest : Bytes) :
    word16At (bytes ++ rest) i = word16At bytes i := by
  rw [word16At, word16At, byteAt_append (by omega), byteAt_append (by omega)]

/-- A signed number of four bytes that are there stays what it is. -/
theorem int32At_append {bytes : Bytes} {i : Nat} (h : i + 4 ≤ bytes.length) (rest : Bytes) :
    int32At (bytes ++ rest) i = int32At bytes i := by
  simp only [int32At]
  rw [byteAt_append (by omega), byteAt_append (by omega), byteAt_append (by omega),
    byteAt_append (by omega)]

/-! ### Fields -/

namespace Read

variable {α β : Type}

/-- A reader of a field: it takes so many bytes, and fails when there are fewer. -/
def Takes (p : Read α) (n : Nat) (value : Bytes → α) : Prop :=
  ∀ offset rest, p ⟨offset, rest⟩ =
    if n ≤ rest.length then .ok (value rest, ⟨offset + n, rest.drop n⟩)
    else .error (.truncated offset n)

theorem takes_skip (n : Nat) : Takes (skip n) n fun _ => () := by
  intro offset rest
  simp only [skip, covers_iff]

/-- A byte is what its place holds. -/
theorem takes_u8 : Takes u8 1 (byteAt · 0) := by
  rintro offset (_ | ⟨a, rest⟩)
  · rfl
  · simp [u8, byteAt]

/-- Two bytes are a word with the high byte first. -/
theorem takes_u16 : Takes u16 2 (word16At · 0) := by
  rintro offset (_ | ⟨a, _ | ⟨b, rest⟩⟩)
  · rfl
  · rfl
  · simp [u16, word16At, byteAt]

/-- Four bytes are a signed number. -/
theorem takes_i32 : Takes i32 4 (int32At · 0) := by
  rintro offset (_ | ⟨a, _ | ⟨b, _ | ⟨d, _ | ⟨e, rest⟩⟩⟩⟩)
  · rfl
  · rfl
  · rfl
  · rfl
  · have hlong : 4 ≤ (a :: b :: d :: e :: rest).length := Nat.le_add_left 4 _
    rw [if_pos hlong]
    rfl

/-- A field in front of others is there when there are enough bytes for it. -/
theorem Takes.bind_eq_ok_iff {p : Read α} {n : Nat} {value : Bytes → α} (h : Takes p n value)
    {f : α → Read β} {offset : Nat} {rest : Bytes} {r : β × Cursor} :
    (p >>= f) ⟨offset, rest⟩ = .ok r ↔
      n ≤ rest.length ∧ f (value rest) ⟨offset + n, rest.drop n⟩ = .ok r := by
  show Except.bind (p ⟨offset, rest⟩) (fun r => f r.1 r.2) = _ ↔ _
  rw [h]
  split
  next hn => exact ⟨fun hr => ⟨hn, hr⟩, And.right⟩
  next hn => exact ⟨fun hr => (nomatch hr), fun hr => absurd hr.1 hn⟩

/-- A reader that stays at its bytes, and asks for at most so many at a time. -/
structure Asks (limit : Nat) (p : Read α) : Prop where
  stays (c : Cursor) (a : α) (d : Cursor) (h : p c = .ok (a, d)) :
    d.offset + d.rest.length = c.offset + c.rest.length
  asked (c : Cursor) (offset needed : Nat) (h : p c = .error (.truncated offset needed)) :
    offset ≤ c.offset + c.rest.length ∧ needed ≤ limit

section

variable {limit : Nat}

theorem asks_pure (a : α) : Asks limit (pure a : Read α) where
  stays := by
    rintro c b d ⟨⟩
    rfl
  asked := nofun

/-- A failure that does not ask for bytes keeps any limit. -/
theorem asks_fail {e : FormatError} (he : ∀ offset needed, e ≠ .truncated offset needed) :
    Asks limit (fail e : Read α) where
  stays := nofun
  asked _ offset needed h := absurd (Except.error.inj h) (he offset needed)

theorem asks_ofExcept {r : Except FormatError α}
    (hr : ∀ offset needed, r ≠ .error (.truncated offset needed)) :
    Asks limit (liftM r : Read α) := by
  cases r with
  | ok a => exact asks_pure a
  | error e => exact asks_fail fun offset needed he => hr offset needed (congrArg _ he)

theorem asks_offset : Asks limit Read.offset where
  stays := by
    rintro c b d ⟨⟩
    rfl
  asked := nofun

/-- What takes a number of bytes asks for no more than these. -/
theorem asks_of_takes {p : Read α} {n : Nat} {value : Bytes → α} (h : Takes p n value)
    (hn : n ≤ limit) : Asks limit p where
  stays := by
    rintro ⟨offset, rest⟩ a d hd
    rw [h] at hd
    split at hd
    next hlong =>
      cases hd
      rw [List.length_drop]
      show offset + n + (rest.length - n) = offset + rest.length
      omega
    next => cases hd
  asked := by
    rintro ⟨offset, rest⟩ _ _ hd
    rw [h] at hd
    split at hd
    next => cases hd
    next =>
      cases hd
      exact ⟨Nat.le_add_right _ _, hn⟩

theorem asks_skip {n : Nat} (h : n ≤ limit) : Asks limit (skip n) := asks_of_takes (takes_skip n) h

theorem asks_i32 (h : 4 ≤ limit) : Asks limit i32 := asks_of_takes takes_i32 h

/-- One reader after another; what the second asks for may depend on what the first has read. -/
theorem asks_bind {p : Read α} {f : α → Read β} (hp : Asks limit p)
    (hf : ∀ a, (∃ c d, p c = .ok (a, d)) → Asks limit (f a)) : Asks limit (p >>= f) where
  stays c b d h := by
    obtain ⟨a, between, hfirst, hsecond⟩ := exists_of_bind_eq_ok h
    have hrest := (hf a ⟨c, between, hfirst⟩).stays between b d hsecond
    rw [hrest, hp.stays c a between hfirst]
  asked c offset needed h := by
    cases hc : p c with
    | error e =>
      rw [bind_run_of_error hc] at h
      cases h
      exact hp.asked c offset needed hc
    | ok r =>
      have hsecond : f r.1 r.2 = .error (.truncated offset needed) :=
        (bind_run_of_ok hc).symm.trans h
      rw [← hp.stays c r.1 r.2 hc]
      exact (hf r.1 ⟨c, r.2, hc⟩).asked r.2 offset needed hsecond

/-- A signed number that was read has 32 bits. -/
theorem bounds_of_i32 {n : Int} (h : ∃ c d, i32 c = .ok (n, d)) :
    -0x80000000 ≤ n ∧ n < 0x80000000 := by
  obtain ⟨⟨offset, rest⟩, d, h⟩ := h
  rw [takes_i32] at h
  split at h
  · cases h
    exact int32At_bounds rest 0
  · cases h

end

/-- What is looked up takes no bytes. -/
theorem ofExcept_map_eq_ok_iff {r : Except FormatError α} {f : α → β} {c : Cursor} {b : β}
    {c' : Cursor} : (do return f (← r) : Read β) c = .ok (b, c') ↔ r.map f = .ok b ∧ c' = c := by
  cases r with
  | error e => exact ⟨fun h => (nomatch h), fun h => (nomatch h.1)⟩
  | ok a =>
    show Except.ok (f a, c) = _ ↔ Except.ok (f a) = _ ∧ _
    simp [eq_comm]

end Read

end CompileWatch
