import CompileWatch.ClassFile.Error
import CompileWatch.Text.Utf8
import Std.Data.HashMap

/-!
# Building constant pools

Constants are numbered in the order in which they are first asked for, and equal
constants share a number. A constant that refers to others has them stored first.

- `PoolEntry`: the constants that can be stored.
- `PoolBuilder.intern`: the number of a constant, stored if it is new.
-/

namespace CompileWatch

/-! ### Big-endian fields -/

/-- A number of two bytes. -/
def bytesOf16 (n : Nat) : Bytes := [UInt8.ofNat (n / 0x100), UInt8.ofNat n]

/-- A number of four bytes. -/
def bytesOf32 (n : Nat) : Bytes :=
  [UInt8.ofNat (n / 0x1000000), UInt8.ofNat (n / 0x10000), UInt8.ofNat (n / 0x100),
    UInt8.ofNat n]

/-- A signed number of four bytes. -/
def bytesOfInt32 (n : Int) : Bytes := bytesOf32 (n % 0x100000000).toNat

/-- A signed number of eight bytes. -/
def bytesOfInt64 (n : Int) : Bytes :=
  let m := (n % 0x10000000000000000).toNat
  bytesOf32 (m / 0x100000000) ++ bytesOf32 (m % 0x100000000)

/-- A number as it fits a field of two bytes; the greatest stands for all beyond. -/
def clamp16 (n : Nat) : Nat := min n 0xFFFF

/-- A number as it fits a field of four bytes; the greatest stands for all beyond. -/
def clamp32 (n : Nat) : Nat := min n 0xFFFFFFFF

/-- The greatest signed number of four bytes. -/
def maxInt32 : Nat := 0x7FFFFFFF

/-! ### Constants -/

/-- The kinds of member constant. -/
inductive MemberKind where
  | field
  | method
  | interfaceMethod
deriving DecidableEq, Hashable, Repr

/-- The tag of a member constant. -/
def MemberKind.tag : MemberKind → UInt8
  | .field => 9
  | .method => 10
  | .interfaceMethod => 11

/-- A constant that can be stored. -/
inductive PoolEntry where
  | utf8 (text : String)
  | classEntry (name : String)
  | string (text : String)
  | integer (value : Int)
  | long (value : Int)
  | nameAndType (name descriptor : String)
  | member (kind : MemberKind) (owner name descriptor : String)
deriving DecidableEq, Hashable, Repr

/-- How many numbers a constant takes. -/
def PoolEntry.slots : PoolEntry → Nat
  | .long _ => 2
  | _ => 1

/-- The constants stored so far: their bytes in order, the next number, and the number
of each. -/
structure PoolBuilder where
  chunks : Array Bytes := #[]
  nextIndex : Nat := 1
  interned : Std.HashMap PoolEntry Nat := {}

namespace PoolBuilder

/-- The bytes of the constants. -/
def bytes (p : PoolBuilder) : Bytes := p.chunks.toList.flatten

/-- Store a constant whose bytes are given. Numbers end at the greatest of 16 bits. -/
def store (p : PoolBuilder) (entry : PoolEntry) (encoded : Bytes) : Nat × PoolBuilder :=
  (p.nextIndex,
    { chunks := p.chunks.push encoded
      nextIndex := clamp16 (p.nextIndex + entry.slots)
      interned := p.interned.insert entry p.nextIndex })

/-- The number of a constant: the one it has, or the one it gets after the constants
that `encode` stores first. -/
def internWith (entry : PoolEntry) (encode : StateM PoolBuilder Bytes) : StateM PoolBuilder Nat :=
  fun p =>
    match p.interned[entry]? with
    | some index => (index, p)
    | none =>
      let (encoded, p) := encode p
      p.store entry encoded

/-- The number of a text. -/
def utf8 (text : String) : StateM PoolBuilder Nat :=
  internWith (.utf8 text) (pure (1 :: bytesOf16 (clamp16 text.utf8ByteSize) ++ Utf8.encode text))

/-- The number of a class. -/
def classEntry (name : String) : StateM PoolBuilder Nat :=
  internWith (.classEntry name) do return 7 :: bytesOf16 (← utf8 name)

/-- The number of a string constant. -/
def string (text : String) : StateM PoolBuilder Nat :=
  internWith (.string text) do return 8 :: bytesOf16 (← utf8 text)

/-- The number of an integer constant. -/
def integer (value : Int) : StateM PoolBuilder Nat :=
  internWith (.integer value) (pure (3 :: bytesOfInt32 value))

/-- The number of a long constant. -/
def long (value : Int) : StateM PoolBuilder Nat :=
  internWith (.long value) (pure (5 :: bytesOfInt64 value))

/-- The number of a name with a type. -/
def nameAndType (name descriptor : String) : StateM PoolBuilder Nat :=
  internWith (.nameAndType name descriptor) do
    let name ← utf8 name
    let descriptor ← utf8 descriptor
    return 12 :: bytesOf16 name ++ bytesOf16 descriptor

/-- The number of a field or method of a class. -/
def member (kind : MemberKind) (owner name descriptor : String) : StateM PoolBuilder Nat :=
  internWith (.member kind owner name descriptor) do
    let owner ← classEntry owner
    let nameAndType ← nameAndType name descriptor
    return kind.tag :: bytesOf16 owner ++ bytesOf16 nameAndType

/-- The number of a constant. -/
def intern : PoolEntry → StateM PoolBuilder Nat
  | .utf8 text => utf8 text
  | .classEntry name => classEntry name
  | .string text => string text
  | .integer value => integer value
  | .long value => long value
  | .nameAndType name descriptor => nameAndType name descriptor
  | .member kind owner name descriptor => member kind owner name descriptor

end PoolBuilder

end CompileWatch
