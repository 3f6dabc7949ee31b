import CompileWatch.ClassFile.Error
import CompileWatch.Text.Utf8

/-!
# Reading big-endian fields

A reader takes bytes off the front and fails where they end. The cursor knows how
many bytes were taken, since messages and switch padding depend on it.

- `Read`: readers, composed in `do` notation.
- `Read.Shrinks`: a reader never gives bytes back.
-/

namespace CompileWatch

/-- The bytes still to read, and how many were read before them. -/
structure Cursor where
  offset : Nat := 0
  rest : Bytes
deriving Repr

/-- A reader of fields. -/
abbrev Read := StateT Cursor (Except FormatError)

namespace Read

/-- Whether a list has at least `n` elements; only the first `n` are looked at. -/
def covers (n : Nat) (l : List α) : Bool :=
  match n with
  | 0 => true
  | n + 1 => !(l.drop n).isEmpty

/-- Bytes cover a number if they are no fewer. -/
theorem covers_iff (n : Nat) (l : List α) : covers n l = true ↔ n ≤ l.length := by
  cases n with
  | zero => simp [covers]
  | succ n =>
    simp only [covers, Bool.not_eq_true', List.isEmpty_eq_false_iff, ne_eq, List.drop_eq_nil_iff]
    omega

/-- Stop with an error. -/
def fail (e : FormatError) : Read α := fun _ => .error e

/-- The number of bytes read so far. -/
def offset : Read Nat := fun c => .ok (c.offset, c)

/-- The next `n` bytes. -/
def take (n : Nat) : Read Bytes := fun c =>
  if covers n c.rest then .ok (c.rest.take n, ⟨c.offset + n, c.rest.drop n⟩)
  else .error (.truncated c.offset n)

/-- Pass over `n` bytes. -/
def skip (n : Nat) : Read Unit := fun c =>
  if covers n c.rest then .ok ((), ⟨c.offset + n, c.rest.drop n⟩)
  else .error (.truncated c.offset n)

/-- A number of one byte. -/
def u8 : Read Nat := fun c =>
  match c.rest with
  | a :: rest => .ok (a.toNat, ⟨c.offset + 1, rest⟩)
  | _ => .error (.truncated c.offset 1)

/-- A number of two bytes. -/
def u16 : Read Nat := fun c =>
  match c.rest with
  | a :: b :: rest => .ok (a.toNat * 0x100 + b.toNat, ⟨c.offset + 2, rest⟩)
  | _ => .error (.truncated c.offset 2)

/-- A number of four bytes. -/
def u32 : Read Nat := fun c =>
  match c.rest with
  | a :: b :: d :: e :: rest =>
    .ok (a.toNat * 0x1000000 + b.toNat * 0x10000 + d.toNat * 0x100 + e.toNat, ⟨c.offset + 4, rest⟩)
  | _ => .error (.truncated c.offset 4)

/-- A number of 32 bits as a signed one. -/
def signed32 (n : Nat) : Int := if n < 0x80000000 then n else (n : Int) - 0x100000000

/-- A signed number of four bytes. -/
def i32 : Read Int := do return signed32 (← u32)

/-- Read on a byte string of its own, apart from the bytes being read. -/
def within (bytes : Bytes) (p : Read α) : Read α := fun c =>
  match p ⟨0, bytes⟩ with
  | .ok (a, _) => .ok (a, c)
  | .error e => .error e

/-! ### Readers take bytes off the front -/

/-- A reader that leaves no more bytes than it found. -/
def Shrinks (p : Read α) : Prop :=
  ∀ c a c', p c = .ok (a, c') → c'.rest.length ≤ c.rest.length

theorem shrinks_pure (a : α) : Shrinks (pure a : Read α) := by
  intro c b c' h
  injection h with h
  injection h with _ h
  exact Nat.le_of_eq (by rw [h])

/-- What is read in two parts leaves no more than there was before. -/
theorem shrinks_bind {p : Read α} {f : α → Read β} (hp : Shrinks p) (hf : ∀ a, Shrinks (f a)) :
    Shrinks (p >>= f) := by
  intro c b c' h
  simp only [bind, StateT.bind, Except.bind] at h
  split at h
  · simp at h
  next x hx => exact Nat.le_trans (hf x.1 x.2 b c' h) (hp c x.1 x.2 hx)

theorem shrinks_fail (e : FormatError) : Shrinks (fail e : Read α) := by
  intro c a c' h
  simp [fail] at h

/-- A lookup leaves the bytes as they are. -/
theorem shrinks_ofExcept (r : Except FormatError α) : Shrinks (liftM r : Read α) := by
  intro c a c' h
  cases r with
  | error e => simp [liftM, monadLift, MonadLift.monadLift, StateT.lift, bind, Except.bind] at h
  | ok x =>
    injection h with h
    injection h with _ h
    exact Nat.le_of_eq (by rw [h])

theorem shrinks_offset : Shrinks offset := by
  intro c a c' h
  injection h with h
  injection h with _ h
  exact Nat.le_of_eq (by rw [h])

/-- Bytes that are skipped are gone. -/
theorem shrinks_skip (n : Nat) : Shrinks (skip n) := by
  intro c a c' h
  simp only [skip] at h
  split at h
  · injection h with h
    injection h with _ h
    subst h
    simp
  · simp at h

/-- A byte that is read is gone. -/
theorem shrinks_u8 : Shrinks u8 := by
  intro c a c' h
  simp only [u8] at h
  split at h
  next heq =>
    injection h with h
    injection h with _ h
    subst h
    simp [heq]
  · simp at h

/-- The two bytes of a word are gone once it is read. -/
theorem shrinks_u16 : Shrinks u16 := by
  intro c a c' h
  simp only [u16] at h
  split at h
  next heq =>
    injection h with h
    injection h with _ h
    subst h
    simp only [heq, List.length_cons]
    omega
  · simp at h

/-- The four bytes of a number are gone once it is read. -/
theorem shrinks_u32 : Shrinks u32 := by
  intro c a c' h
  simp only [u32] at h
  split at h
  next heq =>
    injection h with h
    injection h with _ h
    subst h
    simp only [heq, List.length_cons]
    omega
  · simp at h

theorem shrinks_i32 : Shrinks i32 := shrinks_bind shrinks_u32 fun _ => shrinks_pure _

end Read

end CompileWatch
