/-!
# Reading bytes as UTF-8

Names inside compiled units need not be valid UTF-8. Each maximal piece of an
invalid sequence reads as one replacement character, so that every byte string
has a text.

- `Utf8.sequence?`: what the first byte promises, by the table of well-formed
  byte sequences.
- `Utf8.decode`: the text of a byte string.
-/

namespace CompileWatch

/-- A byte string. -/
abbrev Bytes := List UInt8

namespace Utf8

/-- What stands for an invalid piece. -/
def replacement : Char := '\uFFFD'

/-- For a leading byte: how many bytes follow, the range of the first of them, and
the bits that the leading byte gives. -/
def sequence? (b : UInt8) : Option (Nat × UInt8 × UInt8 × Nat) :=
  if b < 0x80 then some (0, 0x80, 0xBF, b.toNat)
  else if b < 0xC2 then none
  else if b < 0xE0 then some (1, 0x80, 0xBF, b.toNat - 0xC0)
  else if b < 0xE1 then some (2, 0xA0, 0xBF, b.toNat - 0xE0)
  else if b < 0xED then some (2, 0x80, 0xBF, b.toNat - 0xE0)
  else if b < 0xEE then some (2, 0x80, 0x9F, b.toNat - 0xE0)
  else if b < 0xF0 then some (2, 0x80, 0xBF, b.toNat - 0xE0)
  else if b < 0xF1 then some (3, 0x90, 0xBF, b.toNat - 0xF0)
  else if b < 0xF4 then some (3, 0x80, 0xBF, b.toNat - 0xF0)
  else if b < 0xF5 then some (3, 0x80, 0x8F, b.toNat - 0xF0)
  else none

/-- Decoding inside a sequence: how many bytes are still due, the range of the next
one, and the bits read so far. -/
structure Pending where
  due : Nat
  low : UInt8
  high : UInt8
  bits : Nat

/-- The state between two sequences. -/
def idle : Pending := ⟨0, 0x80, 0xBF, 0⟩

/-- One byte at the start of a sequence. -/
def start (b : UInt8) (out : List Char) : Pending × List Char :=
  match sequence? b with
  | none => (idle, replacement :: out)
  | some (0, _, _, bits) => (idle, Char.ofNat bits :: out)
  | some (due, low, high, bits) => (⟨due, low, high, bits⟩, out)

/-- One byte in any state. A byte that does not continue the sequence ends it as
invalid and starts anew. -/
def step (p : Pending) (out : List Char) (b : UInt8) : Pending × List Char :=
  match p.due with
  | 0 => start b out
  | due + 1 =>
    if p.low ≤ b && b ≤ p.high then
      let bits := p.bits * 64 + (b.toNat - 0x80)
      match due with
      | 0 => (idle, Char.ofNat bits :: out)
      | due + 1 => (⟨due + 1, 0x80, 0xBF, bits⟩, out)
    else start b (replacement :: out)

/-- The characters of a byte string, last first. -/
def run : Bytes → Pending → List Char → List Char
  | [], p, out => if p.due = 0 then out else replacement :: out
  | b :: rest, p, out => let (p', out') := step p out b; run rest p' out'

/-- The text of a byte string, one replacement character for each maximal invalid
piece. -/
def decode (bytes : Bytes) : String := String.ofList (run bytes idle []).reverse

/-- The UTF-8 bytes of a text. -/
def encode (s : String) : Bytes := s.toUTF8.data.toList

end Utf8

end CompileWatch
