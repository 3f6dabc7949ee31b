import CompileWatch.ClassFile.Name
import CompileWatch.Form.Basic
import CompileWatch.Sorted.Map

/-!
# Namespaces

What a compiler knows of the definitions made so far, and what a symbol means on a
thread that compiles.

- `Namespaces`: the definitions of each namespace, and what it uses.
- `Context`: where a compiling thread stands.
- `Namespaces.lookup?`: the definition that a symbol names.
-/

namespace CompileWatch

/-- What is known of a definition. -/
structure VarInfo where
  /-- Whether its value is inlined where it is referred to. -/
  constant : Bool
  /-- Whether it has a unit that can be called directly. -/
  function : Bool
deriving DecidableEq, Repr, Inhabited

/-- The definitions of a namespace, and the namespaces that it uses, in order. -/
structure Namespace where
  vars : SortedMap String VarInfo := SortedMap.empty
  uses : List String := []

instance : Inhabited Namespace := ⟨{}⟩

/-- The namespaces of a host by name. -/
abbrev Namespaces := SortedMap String Namespace

/-- Where a compiling thread stands. -/
structure Context where
  /-- The namespace that was entered. -/
  ns : Option String := none
  /-- The first line of the form at hand. -/
  line : Option Nat := none
  /-- The definition that is being compiled. -/
  enclosing : Option QualifiedName := none
deriving DecidableEq, Repr, Inhabited

/-- The namespace of a thread. -/
def Context.namespaceName (c : Context) : String := c.ns.getD defaultNamespace

namespace Namespaces

/-- The namespace whose definitions are visible everywhere. -/
def coreName : String := "clojure.core"

/-- The functions that are always there. -/
def coreFunctions : List String :=
  ["+", "-", "*", "=", "<", ">", "inc", "dec", "str", "println", "list", "vector", "map",
    "filter", "reduce", "first", "rest", "cons", "count", "get", "assoc", "not", "nil?"]

/-- The namespaces of a new host. -/
def initial : Namespaces :=
  SortedMap.ofList
    [(coreName, { vars := SortedMap.ofList (coreFunctions.map fun f => (f, ⟨false, true⟩)) }),
     (defaultNamespace, {})]

/-- Make a definition, in place of any earlier one of its name. -/
def intern (m : Namespaces) (q : QualifiedName) (info : VarInfo) : Namespaces :=
  m.alter q.ns fun old =>
    let n := old.getD {}
    { n with vars := n.vars.insert q.name info }

/-- A namespace uses further ones. -/
def use (m : Namespaces) (ns : String) (used : List String) : Namespaces :=
  m.alter ns fun old =>
    let n := old.getD {}
    { n with uses := n.uses ++ used }

/-- The definition of a name in one namespace. -/
def find? (m : Namespaces) (name ns : String) : Option (QualifiedName × VarInfo) :=
  ((m.get? ns).bind (·.vars.get? name)).map fun info => (⟨ns, name⟩, info)

/-- The namespaces in which an unqualified symbol is looked for, in order: the thread's
own, those that it uses, and the one that is visible everywhere. -/
def searchPath (m : Namespaces) (c : Context) : List String :=
  let current := c.namespaceName
  current :: (((m.get? current).map (·.uses)).getD [] ++ [coreName])

/-- The definition that a symbol names. A qualified symbol is looked for in its own
namespace only. -/
def lookup? (m : Namespaces) (c : Context) (s : Symbol) : Option (QualifiedName × VarInfo) :=
  match s.ns with
  | some ns => m.find? s.name ns
  | none => (m.searchPath c).findSome? (m.find? s.name)

end Namespaces

end CompileWatch
