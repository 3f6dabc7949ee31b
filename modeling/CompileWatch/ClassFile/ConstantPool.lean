import CompileWatch.ClassFile.Cursor

/-!
# Constant pools

A unit names everything through numbered constants. Three kinds matter here: text,
classes, and members with their owners. The others are passed over by their size.
Long and double constants take two numbers.

- `ConstantPool.read`: the pool of a unit.
- `ConstantPool.utf8`, `className`, `memberOwner`: the lookups.
-/

namespace CompileWatch

/-- A numbered constant. -/
inductive Constant where
  /-- Number zero, and the upper half of a long or double. -/
  | unusable
  | utf8 (text : String)
  | classEntry (nameIndex : Nat)
  | member (classIndex : Nat)
  /-- A constant that no lookup asks for. -/
  | other
deriving DecidableEq, Repr, Inhabited

/-- The constants by number. -/
structure ConstantPool where
  entries : Array Constant
deriving Repr

namespace ConstantPool

/-! ### Reading -/

/-- What one stored constant adds to the pool: one number, or two. -/
inductive Slots where
  | one (c : Constant)
  | two

/-- The pool with the next constant. -/
def Slots.addTo (entries : Array Constant) : Slots → Array Constant
  | .one c => entries.push c
  | .two => (entries.push .other).push .unusable

/-- Every constant that is read makes the table longer. -/
theorem Slots.size_lt_addTo (entries : Array Constant) (s : Slots) :
    entries.size < (s.addTo entries).size := by
  cases s <;> simp only [addTo, Array.size_push] <;> omega

/-- A constant that is passed over. -/
def skipped (n : Nat) : Read Slots := do
  Read.skip n
  return .one .other

/-- The constant that follows its tag. -/
def readSlots (index tag : Nat) : Read Slots :=
  match tag with
  | 1 => do
    let length ← Read.u16
    let bytes ← Read.take length
    return .one (.utf8 (Utf8.decode bytes))
  | 3 | 4 => skipped 4
  | 5 | 6 => do
    Read.skip 8
    return .two
  | 7 => do return .one (.classEntry (← Read.u16))
  | 8 | 16 | 19 | 20 => skipped 2
  | 9 | 10 | 11 => do
    let classIndex ← Read.u16
    Read.skip 2
    return .one (.member classIndex)
  | 12 | 17 | 18 => skipped 4
  | 15 => skipped 3
  | tag => Read.fail (.unknownTag index tag)

/-- The constants up to a number; the next one's number is how many there are. -/
def readEntries (count : Nat) (entries : Array Constant) : Read (Array Constant) :=
  if entries.size < count then do
    let tag ← Read.u8
    let slots ← readSlots entries.size tag
    readEntries count (slots.addTo entries)
  else return entries
termination_by count - entries.size
decreasing_by
  have := Slots.size_lt_addTo entries slots
  omega

/-- The pool of a unit: a count, which is one more than the highest number, and the
constants. -/
def read : Read ConstantPool := do
  let count ← Read.u16
  return ⟨← readEntries count #[.unusable]⟩

/-! ### Lookups -/

/-- The constant of a number. -/
def get (pool : ConstantPool) (index : Nat) : Except FormatError Constant :=
  match pool.entries[index]? with
  | some c => .ok c
  | none => .error (.badIndex index)

/-- The text of a number. -/
def utf8 (pool : ConstantPool) (index : Nat) : Except FormatError String := do
  match ← pool.get index with
  | .utf8 text => return text
  | _ => throw (.unexpectedConstant index .utf8)

/-- The name of the class of a number. -/
def className (pool : ConstantPool) (index : Nat) : Except FormatError String := do
  match ← pool.get index with
  | .classEntry nameIndex => pool.utf8 nameIndex
  | _ => throw (.unexpectedConstant index .classEntry)

/-- The name of the class that owns the member of a number. -/
def memberOwner (pool : ConstantPool) (index : Nat) : Except FormatError String := do
  match ← pool.get index with
  | .member classIndex => pool.className classIndex
  | _ => throw (.unexpectedConstant index .member)

end ConstantPool

end CompileWatch
