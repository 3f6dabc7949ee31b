import CompileWatch.Proofs.ClassFile.UnitReading

/-!
# The bytes that a unit needs

A reader finds out that the bytes have ended before it finds anything else wrong. So where it
succeeds, the bytes that it took are just those that it needs: it reads the same whatever
follows them, and any fewer are too few.

- `Read.Needs`: a reader takes what it needs, with one law for each combinator.
- `Walk.Needs`: the same for a walk, which reports a part of its events when the bytes end.
- `visit_prefix`: a whole unit.
-/

namespace CompileWatch

variable {α β : Type}

namespace Read

/-- A reader finds each shorter piece of these bytes too short. -/
def Starves (p : Read α) (bytes : Bytes) : Prop :=
  ∀ offset k, k < bytes.length →
    ∃ place needed, p ⟨offset, bytes.take k⟩ = .error (.truncated place needed)

/-- Where a reader succeeds, it takes bytes off the front that it reads by themselves, and any
fewer are too few. -/
def Needs (p : Read α) : Prop :=
  ∀ c a c', p c = .ok (a, c') →
    ∃ taken, c.rest = taken ++ c'.rest ∧ Reads p taken a ∧ Starves p taken

theorem starves_nil (p : Read α) : Starves p [] := fun _ k hk => absurd hk (Nat.not_lt_zero k)

/-- Bytes that are too few for the first reader, or for the second one after it. -/
theorem starves_bind {p : Read α} {f : α → Read β} {xs ys : Bytes} {a : α} (hp : Reads p xs a)
    (hxs : Starves p xs) (hys : Starves (f a) ys) : Starves (p >>= f) (xs ++ ys) := by
  intro offset k hk
  by_cases hfirst : k < xs.length
  · obtain ⟨place, needed, h⟩ := hxs offset k hfirst
    refine ⟨place, needed, ?_⟩
    rw [List.take_append_of_le_length (Nat.le_of_lt hfirst), bind_run_of_error h]
  · rw [List.length_append] at hk
    obtain ⟨place, needed, h⟩ := hys (offset + xs.length) (k - xs.length) (by omega)
    refine ⟨place, needed, ?_⟩
    rw [List.take_append, List.take_of_length_le (Nat.le_of_not_lt hfirst),
      bind_run_of_ok (hp offset _), h]

/-- A reader that takes nothing and does not look at the bytes. -/
theorem needs_of_reads_nil {p : Read α} (h : ∀ c a c', p c = .ok (a, c') → c' = c ∧ Reads p [] a) :
    Needs p := by
  intro c a c' hp
  obtain ⟨rfl, hreads⟩ := h c a c' hp
  exact ⟨[], rfl, hreads, starves_nil p⟩

/-- Handing back a value needs no bytes. -/
theorem needs_pure (a : α) : Needs (pure a : Read α) := by
  refine needs_of_reads_nil fun c b c' h => ?_
  cases h
  exact ⟨rfl, reads_pure a⟩

theorem needs_fail (e : FormatError) : Needs (fail e : Read α) := by
  intro c a c' h
  cases h

/-- What is read in two parts needs the bytes of both, and is starved in the part where they end. -/
theorem needs_bind {p : Read α} {f : α → Read β} (hp : Needs p) (hf : ∀ a, Needs (f a)) :
    Needs (p >>= f) := by
  intro c b c' h
  obtain ⟨a, c₁, hfirst, hsecond⟩ := exists_of_bind_eq_ok h
  obtain ⟨xs, hxs, hreads, hstarves⟩ := hp c a c₁ hfirst
  obtain ⟨ys, hys, hreads', hstarves'⟩ := hf a c₁ b c' hsecond
  refine ⟨xs ++ ys, ?_, reads_bind hreads hreads', starves_bind hreads hstarves hstarves'⟩
  rw [hxs, hys, List.append_assoc]

theorem needs_map {p : Read α} (hp : Needs p) (f : α → β) : Needs (do return f (← p)) :=
  needs_bind hp fun _ => needs_pure _

/-- Something that was looked up. -/
theorem needs_ofExcept (r : Except FormatError α) : Needs (liftM r : Read α) := by
  refine needs_of_reads_nil fun c a c' h => ?_
  cases r with
  | error e => cases h
  | ok x =>
    cases h
    exact ⟨rfl, reads_ofExcept rfl⟩

/-- What is read inside of other bytes needs none of its own. -/
theorem needs_within (bytes : Bytes) (p : Read α) : Needs (within bytes p) := by
  refine needs_of_reads_nil fun c a c' h => ?_
  cases hp : p ⟨0, bytes⟩ with
  | error e =>
    simp only [within, hp] at h
    cases h
  | ok r =>
    simp only [within, hp] at h
    cases h
    refine ⟨rfl, fun offset rest => ?_⟩
    simp only [within, hp]
    rfl

/-! ### Fields -/

/-- Bytes that were cut do not cover what was longer. -/
theorem not_covers {n k : Nat} {bytes : Bytes} (h : k < n) : ¬ covers n (bytes.take k) := by
  rw [covers_iff, List.length_take]
  omega

/-- Bytes are taken as a whole or not at all. -/
theorem needs_take (n : Nat) : Needs (take n) := by
  intro c a c' h
  unfold take at h
  split at h
  · next hcovers =>
    cases h
    have hlength : (c.rest.take n).length = n :=
      List.length_take_of_le ((covers_iff n c.rest).mp hcovers)
    refine ⟨c.rest.take n, (List.take_append_drop n c.rest).symm, reads_take hlength, ?_⟩
    intro offset k hk
    exact ⟨offset, n, if_neg (not_covers (hlength ▸ hk))⟩
  · cases h

theorem needs_skip (n : Nat) : Needs (skip n) := by
  intro c a c' h
  unfold skip at h
  split at h
  · next hcovers =>
    cases h
    have hlength : (c.rest.take n).length = n :=
      List.length_take_of_le ((covers_iff n c.rest).mp hcovers)
    refine ⟨c.rest.take n, (List.take_append_drop n c.rest).symm, reads_skip hlength, ?_⟩
    intro offset k hk
    exact ⟨offset, n, if_neg (not_covers (hlength ▸ hk))⟩
  · cases h

theorem needs_u8 : Needs u8 := by
  rintro ⟨offset, rest⟩ a c' h
  match rest, h with
  | x :: rest, h =>
    cases h
    refine ⟨[x], rfl, reads_u8 x, fun offset k hk => ⟨offset, 1, ?_⟩⟩
    obtain rfl : k = 0 := Nat.lt_one_iff.mp hk
    rfl

/-- A word needs its two bytes. -/
theorem needs_u16 : Needs u16 := by
  rintro ⟨offset, rest⟩ a c' h
  match rest, h with
  | x :: y :: rest, h =>
    cases h
    refine ⟨[x, y], rfl, fun _ _ => rfl, fun offset k hk => ⟨offset, 2, ?_⟩⟩
    match k, hk with
    | 0, _ => rfl
    | 1, _ => rfl

theorem needs_u32 : Needs u32 := by
  rintro ⟨offset, rest⟩ a c' h
  match rest, h with
  | x :: y :: z :: w :: rest, h =>
    cases h
    refine ⟨[x, y, z, w], rfl, fun _ _ => rfl, fun offset k hk => ⟨offset, 4, ?_⟩⟩
    match k, hk with
    | 0, _ => rfl
    | 1, _ => rfl
    | 2, _ => rfl
    | 3, _ => rfl

end Read

/-! ### The front of a unit -/

namespace ConstantPool

open Read

theorem needs_skipped (n : Nat) : Needs (skipped n) :=
  needs_bind (needs_skip n) fun _ => needs_pure _

/-- A constant is read from the bytes that its tag asks for. -/
theorem needs_readSlots (index tag : Nat) : Needs (readSlots index tag) := by
  unfold readSlots
  split
  · exact needs_bind needs_u16 fun length => needs_map (needs_take length) _
  · exact needs_skipped 4
  · exact needs_skipped 4
  · exact needs_bind (needs_skip 8) fun _ => needs_pure _
  · exact needs_bind (needs_skip 8) fun _ => needs_pure _
  · exact needs_map needs_u16 _
  · exact needs_skipped 2
  · exact needs_skipped 2
  · exact needs_skipped 2
  · exact needs_skipped 2
  · exact needs_bind needs_u16 fun _ => needs_bind (needs_skip 2) fun _ => needs_pure _
  · exact needs_bind needs_u16 fun _ => needs_bind (needs_skip 2) fun _ => needs_pure _
  · exact needs_bind needs_u16 fun _ => needs_bind (needs_skip 2) fun _ => needs_pure _
  · exact needs_skipped 4
  · exact needs_skipped 4
  · exact needs_skipped 4
  · exact needs_skipped 3
  · exact needs_fail _

/-- How many constants are read depends on their count and on nothing that follows. -/
theorem needs_readEntries (count : Nat) (entries : Array Constant) :
    Needs (readEntries count entries) := by
  rw [readEntries]
  split
  · refine needs_bind needs_u8 fun tag => needs_bind (needs_readSlots _ tag) fun slots => ?_
    exact needs_readEntries count (slots.addTo entries)
  · exact needs_pure entries
termination_by count - entries.size
decreasing_by
  have := Slots.size_lt_addTo entries slots
  omega

/-- The table needs its bytes, up to the last slot. -/
theorem needs_read : Needs ConstantPool.read :=
  needs_bind needs_u16 fun count => needs_map (needs_readEntries count _) _

end ConstantPool

namespace ClassFile

open Read

/-- The front of a unit needs its bytes, up to the interfaces. -/
theorem needs_readPrelude : Needs readPrelude := by
  refine needs_bind needs_u32 fun found => ?_
  split
  · exact needs_fail _
  · exact needs_bind needs_u16 fun _ => needs_bind needs_u16 fun _ =>
      needs_map ConstantPool.needs_read _

/-- What is read several times needs the bytes of every time. -/
theorem needs_readMany {p : Read α} (hp : Needs p) (n : Nat) : Needs (readMany p n) := by
  induction n with
  | zero => exact needs_pure []
  | succ n ih => exact needs_bind hp fun a => needs_map ih _

variable (pool : ConstantPool)

theorem needs_readClassName : Needs (readClassName pool) :=
  needs_bind needs_u16 fun _ => needs_ofExcept _

theorem needs_readSuperName : Needs (readSuperName pool) := by
  refine needs_bind needs_u16 fun index => ?_
  split
  · exact needs_pure none
  · exact needs_map (needs_ofExcept _) some

/-- The names of a header are looked up in the table, at the price of the numbers alone. -/
theorem needs_readHeader (front : Prelude) : Needs (readHeader front) :=
  needs_bind needs_u16 fun _ => needs_bind (needs_readClassName _) fun _ =>
    needs_bind (needs_readSuperName _) fun _ => needs_bind needs_u16 fun count =>
      needs_map (needs_readMany (needs_readClassName _) count) _

/-- A member needs its flags and the numbers of its name and type. -/
theorem needs_readMember : Needs (readMember pool) :=
  needs_bind needs_u16 fun _ => needs_bind needs_u16 fun _ =>
    needs_bind (needs_ofExcept _) fun _ => needs_bind needs_u16 fun _ =>
      needs_map (needs_ofExcept _) _

/-! ### Walks -/

namespace Walk

/-- A walk finds each shorter piece of these bytes too short, when it has reported a first part
of these events. -/
def Starves (p : Walk α) (bytes : Bytes) (events : List Event) : Prop :=
  ∀ offset before k, k < bytes.length → ∃ place needed cursor, ∃ shown : List Event,
    p ⟨⟨offset, bytes.take k⟩, before⟩ =
      (.error (.truncated place needed), ⟨cursor, before ++ shown⟩) ∧ shown <+: events

/-- Where a walk succeeds, it takes bytes off the front that it walks by themselves, and any
fewer are too few. -/
def Needs (p : Walk α) : Prop :=
  ∀ s a s', p s = (.ok a, s') → ∃ taken events, s.cursor.rest = taken ++ s'.cursor.rest ∧
    Reports p taken a events ∧ Starves p taken events

/-- Bytes that are too few for the first walk, or for the second one after it. -/
theorem starves_bind {p : Walk α} {f : α → Walk β} {xs ys : Bytes} {a : α}
    {first others : List Event} (hp : Reports p xs a first) (hxs : Starves p xs first)
    (hys : Starves (f a) ys others) : Starves (p >>= f) (xs ++ ys) (first ++ others) := by
  intro offset before k hk
  by_cases hfirst : k < xs.length
  · obtain ⟨place, needed, cursor, shown, h, hshown⟩ := hxs offset before k hfirst
    refine ⟨place, needed, cursor, shown, ?_, hshown.trans (List.prefix_append first others)⟩
    rw [List.take_append_of_le_length (Nat.le_of_lt hfirst), bind_run_of_error h]
  · rw [List.length_append] at hk
    obtain ⟨place, needed, cursor, shown, h, hshown⟩ :=
      hys (offset + xs.length) (before ++ first) (k - xs.length) (by omega)
    refine ⟨place, needed, cursor, first ++ shown, ?_, (List.prefix_append_right_inj first).mpr hshown⟩
    have happend : before ++ (first ++ shown) = before ++ first ++ shown := Array.ext' (by simp)
    rw [List.take_append, List.take_of_length_le (Nat.le_of_not_lt hfirst),
      bind_run_of_ok (hp offset _ before), h, happend]

theorem needs_pure (a : α) : Needs (pure a : Walk α) := by
  intro s b s' h
  cases h
  exact ⟨[], [], rfl, reports_pure a, fun _ _ k hk => absurd hk (Nat.not_lt_zero k)⟩

/-- A walk in two parts needs the bytes of both, and the events of the first part are reported in
any case. -/
theorem needs_bind {p : Walk α} {f : α → Walk β} (hp : Needs p) (hf : ∀ a, Needs (f a)) :
    Needs (p >>= f) := by
  intro s b s' h
  obtain ⟨a, s₁, hfirst, hsecond⟩ := exists_of_bind_eq_ok h
  obtain ⟨xs, first, hxs, hreports, hstarves⟩ := hp s a s₁ hfirst
  obtain ⟨ys, others, hys, hreports', hstarves'⟩ := hf a s₁ b s' hsecond
  refine ⟨xs ++ ys, first ++ others, ?_, reports_bind hreports hreports',
    starves_bind hreports hstarves hstarves'⟩
  rw [hxs, hys, List.append_assoc]

/-- What is read in a walk. -/
theorem needs_read {p : Read α} (hp : Read.Needs p) : Needs (read p) := by
  intro s a s' h
  cases hr : p s.cursor with
  | error e =>
    rw [read_of_error hr] at h
    cases h
  | ok r =>
    rw [read_of_ok hr] at h
    cases h
    obtain ⟨taken, htaken, hreads, hstarves⟩ := hp s.cursor r.1 r.2 hr
    refine ⟨taken, [], htaken, reports_read hreads, fun offset before k hk => ?_⟩
    obtain ⟨place, needed, herror⟩ := hstarves offset k hk
    refine ⟨place, needed, ⟨offset, taken.take k⟩, [], ?_, List.prefix_rfl⟩
    rw [read_of_error herror]
    simp

/-- An event is reported at no price. -/
theorem needs_report (e : Event) : Needs (report e) := by
  intro s a s' h
  cases h
  exact ⟨[], [e], rfl, reports_report e, fun _ _ k hk => absurd hk (Nat.not_lt_zero k)⟩

/-- What is walked several times needs the bytes of every time. -/
theorem needs_times {p : Walk Unit} (hp : Needs p) (n : Nat) : Needs (times p n) := by
  induction n with
  | zero => exact needs_pure ()
  | succ n ih => exact needs_bind hp fun _ => ih

/-- Code stands on bytes of its own, which are all there when it is decoded. -/
theorem needs_code (bytes : Bytes) : Needs (code pool bytes) := by
  intro s a s' h
  have hstatus : (Instruction.decode pool bytes).2 = .ok () := congrArg Prod.fst h
  have hcursor : s'.cursor = s.cursor := congrArg (fun r => r.2.cursor) h.symm
  have hdecode : Instruction.decode pool bytes =
      ((Instruction.decode pool bytes).1.toList.toArray, .ok ()) := by
    rw [Array.toArray_toList, ← hstatus]
  exact ⟨[], _, by rw [hcursor]; rfl, reports_code hdecode,
    fun _ _ k hk => absurd hk (Nat.not_lt_zero k)⟩

/-- Attributes are skipped by the length that they give. -/
theorem needs_skipAttributes : Needs skipAttributes := by
  have hone : Needs skipAttribute :=
    needs_read (Read.needs_bind (Read.needs_skip 2) fun _ =>
      Read.needs_bind Read.needs_u32 Read.needs_skip)
  exact needs_bind (needs_read Read.needs_u16) (needs_times hone)

/-- A field needs its member and its attributes. -/
theorem needs_field : Needs (field pool) :=
  needs_bind (needs_read (needs_readMember pool)) fun _ =>
    needs_bind (needs_report _) fun _ => needs_skipAttributes

/-- The code of a method is walked inside of its own bytes, and other attributes are skipped. -/
theorem needs_methodAttribute : Needs (methodAttribute pool) := by
  have hname : Read.Needs (do pool.utf8 (← Read.u16) : Read String) :=
    Read.needs_bind Read.needs_u16 fun _ => Read.needs_ofExcept _
  have hbody : Read.Needs (do Read.take (← Read.u32)) :=
    Read.needs_bind Read.needs_u32 Read.needs_take
  refine needs_bind (needs_read hname) fun name => needs_bind (needs_read hbody) fun body => ?_
  split
  · exact needs_bind (needs_read (Read.needs_within body _)) (needs_code pool)
  · exact needs_pure ()

/-- A method needs its member and its attributes. -/
theorem needs_method : Needs (method pool) :=
  needs_bind (needs_read (needs_readMember pool)) fun _ =>
    needs_bind (needs_report _) fun _ =>
      needs_bind (needs_read Read.needs_u16) (needs_times (needs_methodAttribute pool))

/-- A walk over a whole unit decides by a number of bytes from the front. -/
theorem needs_unit : Needs unit := by
  refine needs_bind (needs_read needs_readPrelude) fun front => ?_
  refine needs_bind (needs_read (needs_readHeader front)) fun header => ?_
  refine needs_bind (needs_report _) fun _ => ?_
  refine needs_bind (needs_read Read.needs_u16) fun fieldCount => ?_
  refine needs_bind (needs_times (needs_field front.pool) fieldCount) fun _ => ?_
  refine needs_bind (needs_read Read.needs_u16) fun methodCount => ?_
  refine needs_bind (needs_times (needs_method front.pool) methodCount) fun _ => ?_
  exact needs_bind needs_skipAttributes fun _ => needs_report _

end Walk

/-- A unit that is visited to its end has a first part that decides everything: with any bytes
after it the same events are reported, and any shorter piece is found too short after a first
part of them. -/
theorem visit_prefix {bytes : Bytes} (h : (visit bytes).status = .ok ()) :
    ∃ n ≤ bytes.length,
      (∀ rest, visit (bytes.take n ++ rest) = ⟨(visit bytes).events, .ok ()⟩) ∧
      ∀ k < n, (∃ place needed, (visit (bytes.take k)).status = .error (.truncated place needed)) ∧
        (visit (bytes.take k)).events <+: (visit bytes).events := by
  match hwalk : Walk.unit ⟨⟨0, bytes⟩, #[]⟩ with
  | (.error e, s) =>
    have hstatus : (visit bytes).status = .error e := congrArg Prod.fst hwalk
    rw [hstatus] at h
    cases h
  | (.ok (), s) =>
    obtain ⟨taken, events, htaken, hreports, hstarves⟩ := Walk.needs_unit _ _ _ hwalk
    have hwhole (rest : Bytes) : visit (taken ++ rest) = ⟨events, .ok ()⟩ := by
      show (⟨(Walk.unit ⟨⟨0, taken ++ rest⟩, #[]⟩).2.events.toList,
        (Walk.unit ⟨⟨0, taken ++ rest⟩, #[]⟩).1⟩ : Visit) = _
      rw [hreports]
      simp
    have hbytes : bytes = taken ++ s.cursor.rest := htaken
    refine ⟨taken.length, by rw [hbytes]; simp, fun rest => ?_, fun k hk => ?_⟩
    · rw [hbytes, List.take_left, hwhole, hwhole]
    · obtain ⟨place, needed, cursor, shown, hcut, hshown⟩ := hstarves 0 #[] k hk
      have hvisit : visit (taken.take k) = ⟨shown, .error (.truncated place needed)⟩ := by
        show (⟨(Walk.unit ⟨⟨0, taken.take k⟩, #[]⟩).2.events.toList,
          (Walk.unit ⟨⟨0, taken.take k⟩, #[]⟩).1⟩ : Visit) = _
        rw [hcut]
        simp
      rw [hbytes, List.take_append_of_le_length (Nat.le_of_lt hk), hvisit, hwhole]
      exact ⟨⟨place, needed, rfl⟩, hshown⟩

/-- A unit with one method that returns at once, and a byte that does not belong to it. -/
def smallUnit : Bytes :=
  [0xCA, 0xFE, 0xBA, 0xBE, 0, 0, 0, 0x34,
    -- five constants: text and class `app/Demo`, and the texts `Code`, `m` and `()V`
    0, 6, 1, 0, 8, 0x61, 0x70, 0x70, 0x2F, 0x44, 0x65, 0x6D, 0x6F, 7, 0, 1,
    1, 0, 4, 0x43, 0x6F, 0x64, 0x65, 1, 0, 1, 0x6D, 1, 0, 3, 0x28, 0x29, 0x56,
    -- the class, without super class, interfaces and fields
    0, 1, 0, 2, 0, 0, 0, 0, 0, 0,
    -- the method and its code
    0, 1, 0, 1, 0, 4, 0, 5, 0, 1, 0, 3, 0, 0, 0, 13, 0, 1, 0, 1, 0, 0, 0, 1, 0xB1, 0, 0, 0, 0,
    -- no attributes, and the byte that is ignored
    0, 0, 0xFF]

/-- The unit is read to its end. -/
theorem status_visit_smallUnit : (visit smallUnit).status = .ok () := by
  have hok : (visit smallUnit).status.isOk = true := by decide +kernel
  cases hvisit : (visit smallUnit).status with
  | ok => rfl
  | error e =>
    rw [hvisit] at hok
    cases hok

/-- Every byte of the unit decides but the one that does not belong to it: the unit is read with
anything else behind its first 82 bytes, and not with fewer. -/
theorem visit_prefix_smallUnit : (visit smallUnit).status = .ok () ∧ smallUnit.length = 83 ∧
    (∀ rest, visit (smallUnit.take 82 ++ rest) = ⟨(visit smallUnit).events, .ok ()⟩) ∧
      ∀ k < 82, (∃ place needed, (visit (smallUnit.take k)).status = .error (.truncated place needed)) ∧
        (visit (smallUnit.take k)).events <+: (visit smallUnit).events := by
  obtain ⟨n, -, hread, hcut⟩ := visit_prefix status_visit_smallUnit
  have henough : (visit (smallUnit.take 82)).status.isOk = true := by decide +kernel
  have hshort : (visit (smallUnit.take 81)).status.isOk = false := by decide +kernel
  -- with fewer bytes than `n` the unit is cut, and with `n` or more it is read
  have hle : n ≤ 82 := by
    by_contra hn
    obtain ⟨⟨place, needed, hstatus⟩, -⟩ := hcut 82 (by omega)
    rw [hstatus] at henough
    cases henough
  have hge : 82 ≤ n := by
    by_contra hn
    have htake : (smallUnit.take 81).take n = smallUnit.take n := by
      rw [List.take_take, Nat.min_eq_left (by omega)]
    rw [← List.take_append_drop n (smallUnit.take 81), htake, hread] at hshort
    cases hshort
  obtain rfl : n = 82 := Nat.le_antisymm hle hge
  exact ⟨status_visit_smallUnit, rfl, hread, hcut⟩

end ClassFile

end CompileWatch
