import CompileWatch.ClassFile.PoolBuilder
import CompileWatch.ClassFile.Visit
import CompileWatch.Proofs.Outcome
import Mathlib.Data.List.Forall2

/-!
# Reading back what was written

What a reader takes off the front does not depend on what follows, and only switches look
at where they stand. A reader for one thing after another therefore reads what was written
one thing after another.

- `Read.ReadsAt`, `Read.Reads`: a reader takes exactly these bytes and gives this value.
- `reads_u16`, `reads_u32`, `reads_i32`: the fields, each beside the function that writes it.
- `Walk.Reports`: the same for a walk, with the events that it reports.
-/

namespace CompileWatch

variable {α β : Type}

namespace Read

/-! ### Readers -/

/-- A reader that stands at an offset takes exactly these bytes, whatever follows them. -/
def ReadsAt (p : Read α) (offset : Nat) (bytes : Bytes) (a : α) : Prop :=
  ∀ rest, p ⟨offset, bytes ++ rest⟩ = .ok (a, ⟨offset + bytes.length, rest⟩)

/-- A reader takes exactly these bytes, wherever it stands. -/
def Reads (p : Read α) (bytes : Bytes) (a : α) : Prop := ∀ offset, ReadsAt p offset bytes a

theorem readsAt_pure (a : α) (offset : Nat) : ReadsAt (pure a) offset [] a :=
  fun _ => rfl

theorem bind_run_of_ok {p : Read α} {f : α → Read β} {c c' : Cursor} {a : α}
    (h : p c = .ok (a, c')) : (p >>= f) c = f a c' := by
  show Except.bind (p c) (fun r => f r.1 r.2) = _
  rw [h]
  rfl

/-- What was read first is gone when the rest is read. -/
theorem bind_run_of_readsAt {p : Read α} {f : α → Read β} {offset : Nat} {xs : Bytes} {a : α}
    (hp : ReadsAt p offset xs a) (rest : Bytes) :
    (p >>= f) ⟨offset, xs ++ rest⟩ = f a ⟨offset + xs.length, rest⟩ := bind_run_of_ok (hp rest)

/-- What follows a failure is not read. -/
theorem bind_run_of_error {p : Read α} {f : α → Read β} {c : Cursor} {e : FormatError}
    (h : p c = .error e) : (p >>= f) c = .error e := by
  show Except.bind (p c) (fun r => f r.1 r.2) = _
  rw [h]
  rfl

/-- What two readers read in a row, each of them read. -/
theorem exists_of_bind_eq_ok {p : Read α} {f : α → Read β} {c : Cursor} {r : β × Cursor}
    (h : (p >>= f) c = .ok r) : ∃ a c', p c = .ok (a, c') ∧ f a c' = .ok r := by
  have hbind : p c >>= (fun r => f r.1 r.2) = .ok r := h
  obtain ⟨⟨a, c'⟩, hp, hf⟩ := CompileWatch.exists_of_bind_eq_ok hbind
  exact ⟨a, c', hp, hf⟩

/-- One value is read behind another. -/
theorem readsAt_bind {p : Read α} {f : α → Read β} {offset : Nat} {xs ys : Bytes} {a : α} {b : β}
    (hp : ReadsAt p offset xs a) (hf : ReadsAt (f a) (offset + xs.length) ys b) :
    ReadsAt (p >>= f) offset (xs ++ ys) b := by
  intro rest
  rw [List.append_assoc, bind_run_of_readsAt hp, hf, List.length_append, Nat.add_assoc]

/-- Handing back a value reads nothing. -/
theorem reads_pure (a : α) : Reads (pure a) [] a := readsAt_pure a

/-- Two values are read from the bytes of both, wherever these are. -/
theorem reads_bind {p : Read α} {f : α → Read β} {xs ys : Bytes} {a : α} {b : β}
    (hp : Reads p xs a) (hf : Reads (f a) ys b) : Reads (p >>= f) (xs ++ ys) b :=
  fun offset => readsAt_bind (hp offset) (hf _)

/-- The last thing that is read. -/
theorem reads_last {p : Read α} {f : α → Read β} {xs : Bytes} {a : α} {b : β}
    (hp : Reads p xs a) (hf : Reads (f a) [] b) : Reads (p >>= f) xs b := by
  have h := reads_bind hp hf
  rwa [List.append_nil] at h

/-- The last thing that is read, given back in some form. -/
theorem reads_map {p : Read α} {xs : Bytes} {a : α} (hp : Reads p xs a) (f : α → β) :
    Reads (do return f (← p)) xs (f a) := reads_last hp (reads_pure (f a))

/-- Something that was looked up, and no bytes. -/
theorem reads_ofExcept {r : Except FormatError α} {a : α} (h : r = .ok a) :
    Reads (liftM r : Read α) [] a := by
  subst h
  intro offset rest
  rfl

theorem reads_offset (offset : Nat) : ReadsAt Read.offset offset [] offset :=
  fun _ => rfl

/-- A number of bytes is read as these bytes. -/
theorem reads_take {n : Nat} {bytes : Bytes} (h : bytes.length = n) : Reads (take n) bytes bytes := by
  intro offset rest
  subst h
  unfold take
  rw [if_pos ((covers_iff _ _).mpr (by simp)), List.take_left, List.drop_left]

/-- A number of bytes is skipped as a whole. -/
theorem reads_skip {n : Nat} {bytes : Bytes} (h : bytes.length = n) : Reads (skip n) bytes () := by
  intro offset rest
  subst h
  unfold skip
  rw [if_pos ((covers_iff _ _).mpr (by simp)), List.drop_left]

theorem reads_u8 (b : UInt8) : Reads u8 [b] b.toNat :=
  fun _ _ => rfl

/-- Two bytes are read as the number that was written. -/
theorem reads_u16 {n : Nat} (h : n < 0x10000) : Reads u16 (bytesOf16 n) n := by
  intro offset rest
  have hn : (UInt8.ofNat (n / 0x100)).toNat * 0x100 + (UInt8.ofNat n).toNat = n := by
    rw [UInt8.toNat_ofNat', UInt8.toNat_ofNat']
    omega
  show Except.ok (_, _) = Except.ok (_, _)
  rw [hn]
  rfl

theorem reads_u32 {n : Nat} (h : n < 0x100000000) : Reads u32 (bytesOf32 n) n := by
  intro offset rest
  have hn : (UInt8.ofNat (n / 0x1000000)).toNat * 0x1000000 +
      (UInt8.ofNat (n / 0x10000)).toNat * 0x10000 + (UInt8.ofNat (n / 0x100)).toNat * 0x100 +
      (UInt8.ofNat n).toNat = n := by
    simp only [UInt8.toNat_ofNat']
    omega
  show Except.ok (_, _) = Except.ok (_, _)
  rw [hn]
  rfl

theorem reads_i32 {n : Int} (hl : -0x80000000 ≤ n) (hh : n < 0x80000000) :
    Reads i32 (bytesOfInt32 n) n := by
  have h : Reads u32 (bytesOfInt32 n) (n % 0x100000000).toNat := reads_u32 (by omega)
  have hs : signed32 (n % 0x100000000).toNat = n := by
    unfold signed32
    split <;> omega
  have hm := reads_map h signed32
  rwa [hs] at hm

/-- The same bytes are read as one value. -/
theorem Reads.unique {p : Read α} {bytes : Bytes} {a b : α} (ha : Reads p bytes a)
    (hb : Reads p bytes b) : a = b := by
  have h := (ha 0 []).symm.trans (hb 0 [])
  cases h
  rfl

/-- What is read on bytes of its own takes none of those being read. -/
theorem reads_within {p : Read α} {bytes xs rest : Bytes} {a : α} (h : bytes = xs ++ rest)
    (hp : Reads p xs a) : Reads (within bytes p) [] a := by
  intro offset others
  unfold within
  rw [h, hp 0 rest]
  rfl

end Read

/-! ### Fields apart -/

section Fields

open Read

/-- Two numbers of 16 bits with the same bytes are the same. -/
theorem bytesOf16_inj {m n : Nat} (hm : m < 0x10000) (hn : n < 0x10000)
    (h : bytesOf16 m = bytesOf16 n) : m = n := by
  have hread := reads_u16 hm
  rw [h] at hread
  exact hread.unique (reads_u16 hn)

theorem bytesOf32_inj {m n : Nat} (hm : m < 0x100000000) (hn : n < 0x100000000)
    (h : bytesOf32 m = bytesOf32 n) : m = n := by
  have hread := reads_u32 hm
  rw [h] at hread
  exact hread.unique (reads_u32 hn)

theorem bytesOfInt32_inj {m n : Int} (hm : -0x80000000 ≤ m ∧ m < 0x80000000)
    (hn : -0x80000000 ≤ n ∧ n < 0x80000000) (h : bytesOfInt32 m = bytesOfInt32 n) : m = n := by
  have hread := reads_i32 hm.1 hm.2
  rw [h] at hread
  exact hread.unique (reads_i32 hn.1 hn.2)

theorem bytesOfInt64_inj {m n : Int} (hm : -0x8000000000000000 ≤ m ∧ m < 0x8000000000000000)
    (hn : -0x8000000000000000 ≤ n ∧ n < 0x8000000000000000)
    (h : bytesOfInt64 m = bytesOfInt64 n) : m = n := by
  obtain ⟨hupper, hlower⟩ := List.append_inj h rfl
  have hupper := bytesOf32_inj (by omega) (by omega) hupper
  have hlower := bytesOf32_inj (by omega) (by omega) hlower
  omega

end Fields

/-! ### Things in a row -/

namespace ClassFile

/-- Things that were written one after another are read one after another. -/
theorem reads_readMany {p : Read α} {ι : Type} {bytes : ι → Bytes} {l : List ι} {as : List α}
    (h : List.Forall₂ (fun i a => Read.Reads p (bytes i) a) l as) :
    Read.Reads (readMany p l.length) (l.flatMap bytes) as := by
  induction h with
  | nil => exact Read.reads_pure []
  | cons hi hrest ih => exact Read.reads_bind hi (Read.reads_map ih _)

/-! ### Walks -/

namespace Walk

open Read

/-- A walk takes exactly these bytes, whatever follows them, and reports these events. -/
def Reports (p : Walk α) (bytes : Bytes) (a : α) (events : List Event) : Prop :=
  ∀ offset rest before, p ⟨⟨offset, bytes ++ rest⟩, before⟩ =
    (.ok a, ⟨⟨offset + bytes.length, rest⟩, before ++ events⟩)

theorem reports_pure (a : α) : Reports (pure a) [] a [] := by
  intro offset rest before
  show (Except.ok a, Progress.mk ⟨offset, rest⟩ before) = _
  simp

/-- What follows a failure is not walked. -/
theorem bind_run_of_error {p : Walk α} {f : α → Walk β} {s s' : Progress} {e : FormatError}
    (h : p s = (.error e, s')) : (p >>= f) s = (.error e, s') := by
  show ExceptT.bindCont f (p s).1 (p s).2 = _
  rw [h]
  rfl

/-- What was walked first is not walked again. -/
theorem bind_run_of_ok {p : Walk α} {f : α → Walk β} {s s' : Progress} {a : α}
    (h : p s = (.ok a, s')) : (p >>= f) s = f a s' := by
  show ExceptT.bindCont f (p s).1 (p s).2 = _
  rw [h]
  rfl

/-- What two walks walked in a row, each of them walked. -/
theorem exists_of_bind_eq_ok {p : Walk α} {f : α → Walk β} {s s' : Progress} {b : β}
    (h : (p >>= f) s = (.ok b, s')) : ∃ a s₁, p s = (.ok a, s₁) ∧ f a s₁ = (.ok b, s') := by
  match hp : p s with
  | (.error e, s₁) =>
    rw [bind_run_of_error hp] at h
    cases h
  | (.ok a, s₁) =>
    rw [bind_run_of_ok hp] at h
    exact ⟨a, s₁, rfl, h⟩

theorem read_of_ok {p : Read α} {c c' : Cursor} {a : α} (h : p c = .ok (a, c'))
    {events : Array Event} : read p ⟨c, events⟩ = (.ok a, ⟨c', events⟩) := by
  unfold read
  rw [h]

theorem read_of_error {p : Read α} {c : Cursor} {e : FormatError} (h : p c = .error e)
    {events : Array Event} : read p ⟨c, events⟩ = (.error e, ⟨c, events⟩) := by
  unfold read
  rw [h]

/-- Walks in a row report the events of both, in order. -/
theorem reports_bind {p : Walk α} {f : α → Walk β} {xs ys : Bytes} {a : α} {b : β}
    {first others : List Event} (hp : Reports p xs a first) (hf : Reports (f a) ys b others) :
    Reports (p >>= f) (xs ++ ys) b (first ++ others) := by
  intro offset rest before
  rw [List.append_assoc, bind_run_of_ok (hp offset (ys ++ rest) before)]
  have he : before ++ first ++ others = before ++ (first ++ others) := Array.ext' (by simp)
  rw [hf, he, List.length_append, Nat.add_assoc]

/-- Reading reports no event. -/
theorem reports_read {p : Read α} {xs : Bytes} {a : α} (hp : Reads p xs a) :
    Reports (read p) xs a [] := by
  intro offset rest before
  rw [read_of_ok (hp offset rest)]
  simp

theorem reports_report (e : Event) : Reports (report e) [] () [e] := by
  intro offset rest before
  show (Except.ok (), Progress.mk ⟨offset, rest⟩ (before.push e)) = _
  simp

/-- A reading is followed by the rest of a walk. -/
theorem reports_read_bind {p : Read α} {f : α → Walk β} {xs ys : Bytes} {a : α} {b : β}
    {events : List Event} (hp : Reads p xs a) (hf : Reports (f a) ys b events) :
    Reports (read p >>= f) (xs ++ ys) b events :=
  reports_bind (reports_read hp) hf

/-- The last thing that is read in a walk. -/
theorem reports_read_last {p : Read α} {f : α → Walk β} {xs : Bytes} {a : α} {b : β}
    {events : List Event} (hp : Reads p xs a) (hf : Reports (f a) [] b events) :
    Reports (read p >>= f) xs b events := by
  have h := reports_read_bind hp hf
  rwa [List.append_nil] at h

/-- A report is followed by the rest of a walk. -/
theorem reports_report_bind {f : Unit → Walk β} {ys : Bytes} {b : β} {events : List Event}
    (e : Event) (hf : Reports (f ()) ys b events) :
    Reports (report e >>= f) ys b (e :: events) :=
  reports_bind (reports_report e) hf

/-- Something that is done once. -/
theorem reports_times_one {p : Walk Unit} {xs : Bytes} {events : List Event}
    (h : Reports p xs () events) : Reports (times p 1) xs () events := by
  have hr : Reports (times p 1) (xs ++ []) () (events ++ []) := reports_bind h (reports_pure ())
  rwa [List.append_nil, List.append_nil] at hr

/-- What was written one after another is walked one after another. -/
theorem reports_times {p : Walk Unit} {ι : Type} {bytes : ι → Bytes} {l : List ι}
    {events : List (List Event)}
    (h : List.Forall₂ (fun i es => Reports p (bytes i) () es) l events) :
    Reports (times p l.length) (l.flatMap bytes) () events.flatten := by
  induction h with
  | nil => exact reports_pure ()
  | cons hi hrest ih => exact reports_bind hi ih

end Walk

end ClassFile

end CompileWatch
