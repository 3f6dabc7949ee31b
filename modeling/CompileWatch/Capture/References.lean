import CompileWatch.Sorted.Set

/-!
# The buffer of references
-/

namespace CompileWatch

/-- Who refers to whom: for each definition the definitions that refer to it. A
definition without callers was referred to only from outside every definition. -/
abbrev CallerMap := SortedMap String (SortedSet String)

/-- A reference, from a definition or from outside every definition. -/
structure Edge where
  callee : String
  caller : Option String
deriving DecidableEq, Repr, Inhabited

namespace CallerMap

/-- Note a reference. -/
def add (m : CallerMap) (e : Edge) : CallerMap :=
  m.alter e.callee fun callers =>
    let callers := callers.getD SortedMap.empty
    match e.caller with
    | some caller => SortedSet.add callers caller
    | none => callers

/-- The references one by one; a definition without callers gives one without caller. -/
def edges (m : CallerMap) : List Edge :=
  m.entries.flatMap fun (callee, callers) =>
    match callers.members with
    | [] => [⟨callee, none⟩]
    | members => members.map fun caller => ⟨callee, some caller⟩

/-- How many definitions are known to refer to one. -/
def fanIn (m : CallerMap) (callee : String) : Nat := ((m.get? callee).map (·.size)).getD 0

end CallerMap

/-- The captured references. A buffer that is switched off keeps what it has and takes
nothing new. -/
structure ReferenceBuffer where
  enabled : Bool := true
  callers : CallerMap := SortedMap.empty

namespace ReferenceBuffer

/-- Whether a reference would be taken. -/
def accepts (b : ReferenceBuffer) (e : Edge) : Bool := b.enabled && !e.callee.isEmpty

/-- Take a reference. A caller without a name counts as none. -/
def capture (b : ReferenceBuffer) (e : Edge) : ReferenceBuffer :=
  if b.accepts e then
    { b with callers := CallerMap.add b.callers ⟨e.callee, e.caller.filter (!·.isEmpty)⟩ }
  else b

/-- The buffer without its references. -/
def clear (b : ReferenceBuffer) : ReferenceBuffer := { b with callers := SortedMap.empty }

/-- Every definition that was referred to. -/
def callees (b : ReferenceBuffer) : List String := b.callers.keys

end ReferenceBuffer

end CompileWatch
