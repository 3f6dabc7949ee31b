import CompileWatch.Decimal.Binary64

/-!
# Forms

Source code of the observed language is data: atoms, and collections of forms.
Symbols, lists and vectors carry metadata, which is where they stood in the source
and which flags were set on them.

- `Form`: the tree, one constructor for each kind of atom and collection.
- `Form.head?`: the operator of a list, when it is an unqualified symbol.
- `Form.same`: equality of two trees, metadata included.
-/

namespace CompileWatch

/-- Where a form stood in the source, and the flags set on it. -/
structure Metadata where
  /-- The line of its first character. -/
  line : Option Nat := none
  /-- The line of its last character. -/
  endLine : Option Nat := none
  /-- The flags in the order they were set. -/
  flags : List String := []
deriving DecidableEq, Repr, Inhabited

namespace Metadata

/-- The metadata of a form that starts at a line. -/
def atLine (line : Nat) : Metadata := { line := some line }

/-- The metadata of a form between two lines. -/
def span (line endLine : Nat) : Metadata := { line := some line, endLine := some endLine }

/-- Whether a flag is set. -/
def hasFlag (m : Metadata) (flag : String) : Bool := m.flags.contains flag

/-- Whether neither a position nor a flag is known. -/
def isEmpty (m : Metadata) : Bool := m.line.isNone && m.endLine.isNone && m.flags.isEmpty

/-- The same position with more flags. -/
def addFlags (m : Metadata) (flags : List String) : Metadata :=
  { m with flags := m.flags ++ flags }

end Metadata

/-- A symbol, with the namespace it is qualified by, if any. -/
structure Symbol where
  ns : Option String := none
  name : String
  metadata : Metadata := {}
deriving DecidableEq, Repr, Inhabited

namespace Symbol

/-- Whether the symbol names its namespace. -/
def isQualified (s : Symbol) : Bool := s.ns.isSome

/-- A symbol as it is written. -/
def text (s : Symbol) : String :=
  match s.ns with
  | some ns => ns ++ "/" ++ s.name
  | none => s.name

end Symbol

/-- A form of the source language. The items of a map are its keys and values in turn. -/
inductive Form where
  | nil
  | bool (b : Bool)
  | int (n : Int)
  | float (x : Binary64)
  | char (c : Char)
  | str (s : String)
  | keyword (name : String)
  | symbol (s : Symbol)
  | list (items : List Form) (metadata : Metadata)
  | vector (items : List Form) (metadata : Metadata)
  | map (items : List Form)
  | set (items : List Form)

namespace Form

instance : Inhabited Form := ⟨.nil⟩

/-! ### Building -/

/-- An unqualified symbol without metadata. -/
def sym (name : String) : Form := .symbol { name }

/-- A list without metadata. -/
def call (items : List Form) : Form := .list items {}

/-! ### Looking inside -/

/-- The items of a list. -/
def items? : Form → Option (List Form)
  | .list items _ => some items
  | _ => none

/-- Whether the form is a list. -/
def isList (f : Form) : Bool := f.items?.isSome

/-- The symbol that the form is. -/
def symbol? : Form → Option Symbol
  | .symbol s => some s
  | _ => none

/-- The metadata of a symbol, list or vector. -/
def metadata? : Form → Option Metadata
  | .symbol s => some s.metadata
  | .list _ m => some m
  | .vector _ m => some m
  | _ => none

/-- The first line of a symbol, list or vector, if known. -/
def line? (f : Form) : Option Nat := f.metadata?.bind (·.line)

/-- The last line of a symbol, list or vector, if known. -/
def endLine? (f : Form) : Option Nat := f.metadata?.bind (·.endLine)

/-- An element of a list. -/
def nth? (f : Form) (n : Nat) : Option Form := f.items?.bind (·[n]?)

/-- The operator among the items of a list: its first, when an unqualified symbol. -/
def headOf : List Form → Option String
  | .symbol s :: _ => if s.isQualified then none else some s.name
  | _ => none

/-- The operator of a list. -/
def head? (f : Form) : Option String := f.items?.bind headOf

/-- The direct parts of a collection, a map giving keys and values in turn. -/
def children : Form → List Form
  | .list items _ => items
  | .vector items _ => items
  | .map items => items
  | .set items => items
  | _ => []

/-- Whether the form has parts, or could have. -/
def isCollection : Form → Bool
  | .list .. | .vector .. | .map _ | .set _ => true
  | _ => false

/-! ### Equality -/

mutual

/-- Whether two forms are the same tree with the same metadata. Doubles compare by
value, so what is not a number differs from itself. -/
def same : Form → Form → Bool
  | .nil, .nil => true
  | .bool a, .bool b => a == b
  | .int a, .int b => a == b
  | .float a, .float b => a.sameValue b
  | .char a, .char b => a == b
  | .str a, .str b => a == b
  | .keyword a, .keyword b => a == b
  | .symbol a, .symbol b => a == b
  | .list as m, .list bs n => m == n && allSame as bs
  | .vector as m, .vector bs n => m == n && allSame as bs
  | .map as, .map bs => allSame as bs
  | .set as, .set bs => allSame as bs
  | _, _ => false

/-- Whether two lists of forms agree item by item. -/
def allSame : List Form → List Form → Bool
  | [], [] => true
  | a :: as, b :: bs => same a b && allSame as bs
  | _, _ => false

end

end Form

end CompileWatch
