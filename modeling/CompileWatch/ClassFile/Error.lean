import CompileWatch.Text.Quoted

/-!
# What can be wrong with a compiled unit
-/

namespace CompileWatch

/-- The kinds of constant that a lookup can ask for. -/
inductive ConstantKind where
  | utf8
  | classEntry
  | member
deriving DecidableEq, Repr, Inhabited

/-- The name of a kind in messages. -/
def ConstantKind.text : ConstantKind → String
  | .utf8 => "utf8 entry"
  | .classEntry => "class entry"
  | .member => "member reference"

/-- The causes for which the bytes of a unit cannot be read. -/
inductive FormatError where
  /-- The bytes ended before a field. -/
  | truncated (offset needed : Nat)
  /-- The bytes do not start like a unit. -/
  | badMagic (found : Nat)
  /-- A constant of an unknown kind. -/
  | unknownTag (index tag : Nat)
  /-- An index beyond the constants. -/
  | badIndex (index : Nat)
  /-- An index to a constant of another kind. -/
  | unexpectedConstant (index : Nat) (expected : ConstantKind)
  /-- A byte that is no instruction. -/
  | invalidOpcode (opcode offset : Nat)
  /-- A switch whose size makes no sense. -/
  | malformedSwitch (offset : Nat)
deriving DecidableEq, Repr, Inhabited

/-- The text of a format error. -/
def FormatError.message : FormatError → String
  | .truncated offset needed =>
    "Truncated unit: needed " ++ toString needed ++ " bytes at offset " ++ toString offset
  | .badMagic found => "Bad magic number 0x" ++ hexPadded 8 found
  | .unknownTag index tag =>
    "Unknown constant pool tag " ++ toString tag ++ " at index " ++ toString index
  | .badIndex index => "Constant pool index " ++ toString index ++ " out of range"
  | .unexpectedConstant index expected =>
    "Constant pool entry " ++ toString index ++ " is not a " ++ expected.text
  | .invalidOpcode opcode offset =>
    "Invalid opcode 0x" ++ hexPadded 2 opcode ++ " at code offset " ++ toString offset
  | .malformedSwitch offset => "Malformed switch at code offset " ++ toString offset

end CompileWatch
