import CompileWatch.Capture.Session

/-!
# Unused definitions

A definition of a host that was never captured as the target of a reference is probably
unused.

- `unreferenced`: the names without a reference.
- `Session.findUnused`: the unused definitions of some namespaces.
-/

namespace CompileWatch

/-- The names that are not referred to. -/
def unreferenced (defined : List String) (referenced : String → Bool) : List String :=
  defined.filter fun name => !referenced name

/-- A namespace whose definitions a host does not list. -/
structure DetectError where
  ns : String
  source : HostError
deriving DecidableEq, Repr, Inhabited

/-- The text of a detection error. -/
def DetectError.message (e : DetectError) : String :=
  "Failed to enumerate symbols of namespace " ++ e.ns ++ ": " ++ e.source.message

/-- The outcome of a search: the unused definitions, a namespace that is not listed, or
a crash of the host. -/
abbrev Detected := Reply (Except DetectError (SortedSet String))

/-- Search namespaces one after the other. -/
def detectUnused (view : HostView) (referenced : String → Bool) :
    List String → SortedSet String → Logged Detected
  | [], unused => return .answer (.ok unused)
  | ns :: rest, unused =>
    match view.definedSymbols ns with
    | .crash text => return .crash text
    | .refusal e => return .answer (.error ⟨ns, e⟩)
    | .answer defined => do
      let next := SortedSet.addAll unused
        (unreferenced (defined.map QualifiedName.text) referenced)
      Logged.note .debug (ns ++ ": " ++ toString defined.length ++ " defined, " ++
        toString (next.size - unused.size) ++ " unreferenced")
      detectUnused view referenced rest next

/-- The definitions of some namespaces that no captured reference targets. The self-test
runs first, unless it ran before. -/
def Session.findUnused (s : Session) (view : HostView) (namespaces : List String) :
    Logged (Detected × Session) := do
  let (_, s) ← s.ensureTested view
  let found ← detectUnused view s.references.callers.contains namespaces SortedMap.empty
  return (found, s)

end CompileWatch
