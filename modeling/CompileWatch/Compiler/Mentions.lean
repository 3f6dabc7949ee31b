import CompileWatch.Form.SyntaxError

/-!
# What a form refers to

Which symbols of a form refer to definitions depends on the form alone: quoted parts,
special operators, parameters and local names do not. A walk over the form, in the
order of evaluation, lists the symbols that do, and ends early at a malformed part.

- `Mentions`: the symbols met on a walk, and the fault that ended it, if any.
- `Form.mentions`: the walk over a form within the scope of some local names.
-/

namespace CompileWatch

/-- What a walk met: symbols in order, and the fault that ended it early. -/
structure Mentions where
  symbols : List Symbol := []
  fault : Option SyntaxError := none

namespace Mentions

/-- A walk that ends in a fault. -/
def failed (e : SyntaxError) : Mentions := { fault := some e }

/-- One walk after another; a fault in the first ends both. -/
def andThen (a b : Mentions) : Mentions :=
  match a.fault with
  | some _ => a
  | none => { symbols := a.symbols ++ b.symbols, fault := b.fault }

end Mentions

/-- An operator that has a meaning of its own wherever it stands. -/
inductive SpecialForm where
  | define
  | function
  | conditional
  | sequence
  | binding
  | quotation
  | declaration
  /-- The mark before the parameter that takes all further arguments. -/
  | restMark
deriving DecidableEq, Repr

namespace SpecialForm

/-- The name of an operator. -/
def name : SpecialForm → String
  | .define => "def"
  | .function => "fn"
  | .conditional => "if"
  | .sequence => "do"
  | .binding => "let"
  | .quotation => "quote"
  | .declaration => "ns"
  | .restMark => "&"

/-- Every operator. -/
def all : List SpecialForm :=
  [.define, .function, .conditional, .sequence, .binding, .quotation, .declaration, .restMark]

/-- The operator of a name. -/
def ofName? (s : String) : Option SpecialForm := all.find? (·.name == s)

/-- A special form is known by its name. -/
theorem ofName?_name (op : SpecialForm) : ofName? op.name = some op := by cases op <;> decide

end SpecialForm

namespace Form

/-- The scope inside a binding of a form: a symbol binds its own name, and any other
form binds nothing. -/
def bindName (scope : List String) : Form → List String
  | .symbol s => s.name :: scope
  | _ => scope

/-- The scope inside a parameter vector. -/
def bindParameters (scope : List String) (params : List Form) : List String :=
  params.foldl bindName scope

/-- The scope after names and values in turn. -/
def bindPairs (scope : List String) : List Form → List String
  | name :: _ :: rest => bindPairs (bindName scope name) rest
  | _ => scope

/-- Whether a symbol refers to no definition: a local name or a special operator. -/
def isLocal (scope : List String) (s : Symbol) : Bool :=
  !s.isQualified && (scope.contains s.name || (SpecialForm.ofName? s.name).isSome)

/-- The special operator that a form is, in the first place of a list. -/
def special? (f : Form) : Option SpecialForm := (headOf [f]).bind SpecialForm.ofName?

mutual

/-- The walk over a form. -/
def mentions (scope : List String) : Form → Mentions
  | .symbol s => if isLocal scope s then {} else { symbols := [s] }
  | .list items _ => mentionsCall scope items
  | .vector items _ => mentionsAll scope items
  | .set items => mentionsAll scope items
  | .map items => mentionsAll scope items
  | _ => {}

/-- The walk over forms in a row. -/
def mentionsAll (scope : List String) : List Form → Mentions
  | [] => {}
  | f :: rest => (mentions scope f).andThen (mentionsAll scope rest)

/-- The walk over the items of a list. -/
def mentionsCall (scope : List String) : List Form → Mentions
  | [] => {}
  | f :: rest =>
    match special? f with
    | some .quotation => {}
    | some .function => mentionsFunction scope rest
    | some .binding => mentionsLet scope rest
    | some .define => .failed .nestedDefinition
    | _ => (mentions scope f).andThen (mentionsAll scope rest)

/-- The walk over `name? [params] body*`: name and parameters are local to the body. -/
def mentionsFunction (scope : List String) : List Form → Mentions
  | .symbol name :: .vector params _ :: body =>
    mentionsAll (bindParameters (name.name :: scope) params) body
  | .vector params _ :: body => mentionsAll (bindParameters scope params) body
  | _ => .failed .functionWithoutParameters

/-- The walk over `[name value ...] body*`: each name is local to the later values and
to the body. -/
def mentionsLet (scope : List String) : List Form → Mentions
  | .vector bindings _ :: body =>
    if bindings.length % 2 = 0 then
      (mentionsBindings scope bindings).andThen (mentionsAll (bindPairs scope bindings) body)
    else .failed .oddBindings
  | _ => .failed .letWithoutBindings

/-- The walk over the values among names and values in turn. -/
def mentionsBindings (scope : List String) : List Form → Mentions
  | name :: value :: rest =>
    (mentions scope value).andThen (mentionsBindings (bindName scope name) rest)
  | _ => {}

end

end Form

end CompileWatch
