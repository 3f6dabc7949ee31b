/-!
# Names of units and definitions

Inside a unit the parts of a class name are separated by slashes; everywhere else by
dots. A definition is named by its namespace and its own name, and the unit of a
function is named after it.
-/

namespace CompileWatch

/-- Every `a` of a text replaced by `b`. -/
def replaceChar (a b : Char) (s : String) : String := s.map fun c => if c = a then b else c

/-- A unit name with dots: `a/b/C` is `a.b.C`. -/
def dottedName (name : String) : String := replaceChar '/' '.' name

/-- The class that a constant names: itself, or the element class of an array type.
Arrays of primitives name no class. -/
def namedClass? (name : String) : Option String :=
  let element := name.toList.dropWhile (· = '[')
  if element.length = name.toList.length then
    if name.isEmpty then none else some name
  else
    match element with
    | 'L' :: rest =>
      match rest.reverse with
      | ';' :: last :: inner => some (String.ofList (last :: inner).reverse)
      | _ => none
    | _ => none

/-- The namespace of definitions where no other is known. -/
def defaultNamespace : String := "user"

/-- A definition by its namespace and its name in it. -/
structure QualifiedName where
  ns : String
  name : String
deriving DecidableEq, Repr, Inhabited

namespace QualifiedName

/-- The name as it is written: `ns/name`. -/
def text (q : QualifiedName) : String := q.ns ++ "/" ++ q.name

/-- What a character of a definition's name becomes in a unit name. -/
def mungeChar (c : Char) : List Char :=
  match c with
  | '-' => ['_']
  | '?' => "_QMARK_".toList
  | '!' => "_BANG_".toList
  | '*' => "_STAR_".toList
  | '+' => "_PLUS_".toList
  | '>' => "_GT_".toList
  | '<' => "_LT_".toList
  | '=' => "_EQ_".toList
  | '/' => "_SLASH_".toList
  | '.' => "_DOT_".toList
  | c => [c]

/-- A definition's name as a part of a unit name. -/
def munge (name : String) : String := String.ofList (name.toList.flatMap mungeChar)

/-- The name, inside units, of the unit of a function: `app/core$handler`. -/
def unitName (q : QualifiedName) : String :=
  replaceChar '.' '/' (replaceChar '-' '_' q.ns) ++ "$" ++ munge q.name

/-- The source file that a namespace is read from. -/
def sourceFile (q : QualifiedName) : String := replaceChar '.' '/' q.ns ++ ".clj"

end QualifiedName

end CompileWatch
