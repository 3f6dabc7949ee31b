import CompileWatch.Form.Basic

/-!
# Definition forms

A definition is a list whose operator is one of the defining operators and whose
second element is the symbol that it defines.
-/

namespace CompileWatch

/-- The kinds of definition, one for each defining operator. -/
inductive DefKind where
  | value
  | function
  | privateFunction
  | macroFunction
  | multimethod
  | protocol
  | record
  | datatype
  | interface
deriving DecidableEq, Repr, Inhabited

namespace DefKind

/-- The defining operator of a kind. -/
def operator : DefKind → String
  | .value => "def"
  | .function => "defn"
  | .privateFunction => "defn-"
  | .macroFunction => "defmacro"
  | .multimethod => "defmulti"
  | .protocol => "defprotocol"
  | .record => "defrecord"
  | .datatype => "deftype"
  | .interface => "definterface"

/-- Every kind of definition. -/
def all : List DefKind :=
  [.value, .function, .privateFunction, .macroFunction, .multimethod, .protocol, .record,
    .datatype, .interface]

/-- The kind of a defining operator. -/
def ofOperator? (op : String) : Option DefKind := all.find? (·.operator == op)

/-- Every kind is listed. -/
theorem mem_all (k : DefKind) : k ∈ all := by cases k <;> decide

/-- An operator belongs to at most one kind. -/
theorem ofOperator?_operator (k : DefKind) : ofOperator? k.operator = some k := by
  cases k <;> decide

end DefKind

namespace Form

/-- The kind of the definition that a form is. -/
def defKind? (f : Form) : Option DefKind := f.head?.bind DefKind.ofOperator?

/-- The text of the symbol in the second place of a list. -/
def definedName? (f : Form) : Option String :=
  (f.nth? 1).bind fun second => second.symbol?.map Symbol.text

end Form

end CompileWatch
