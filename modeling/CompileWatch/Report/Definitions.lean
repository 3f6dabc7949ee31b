import CompileWatch.Capture.Event
import CompileWatch.Decimal.Binary64
import CompileWatch.Form.Size
import CompileWatch.Sorted.Map

/-!
# Definitions before and after expansion

Captured forms grouped by definition, with the size that each phase had.

- `DefinitionSummary`: one definition.
- `summarizeDefinitions`: a summary for each definition, in the order of their names.
-/

namespace CompileWatch

namespace QualifiedName

/-- By namespace, then by name. -/
instance : Ord QualifiedName := ⟨compareLex (compareOn (·.ns)) (compareOn (·.name))⟩

instance : Std.TransOrd QualifiedName :=
  inferInstanceAs (Std.TransCmp
    (compareLex (compareOn QualifiedName.ns) (compareOn QualifiedName.name)))

instance : Std.LawfulEqOrd QualifiedName where
  eq_of_compare {a b} h := by
    have h : compareLex (compareOn QualifiedName.ns) (compareOn QualifiedName.name) a b = .eq := h
    simp only [compareLex_eq_eq, compareOn, Std.LawfulEqCmp.compare_eq_iff_eq] at h
    obtain ⟨_, _⟩ := a
    obtain ⟨_, _⟩ := b
    simp_all

end QualifiedName

/-- What was captured of one definition. -/
structure DefinitionSummary where
  name : QualifiedName
  kind : DefKind
  line : Option Nat
  /-- The size as it was written. -/
  raw : Option FormSize := none
  /-- The size after expansion, if expansion changed the form. -/
  expanded : Option FormSize := none
deriving DecidableEq, Repr, Inhabited

namespace DefinitionSummary

/-- Whether expansion changed the definition. -/
def wasExpanded (d : DefinitionSummary) : Bool := d.expanded.isSome

/-- How much larger expansion made the definition, if both sizes are known. -/
def growth (d : DefinitionSummary) : Option Binary64 := do
  let raw ← d.raw
  let expanded ← d.expanded
  if raw.expressions = 0 then none
  else return Binary64.ofRatio false expanded.expressions raw.expressions

/-- The summary of a definition of which nothing is known but one event. -/
def start (e : FormEvent) : DefinitionSummary := ⟨⟨e.ns, e.name⟩, e.kind, e.line, none, none⟩

/-- Take one more event into a summary. What was written decides on kind and line. -/
def take (d : DefinitionSummary) (e : FormEvent) : DefinitionSummary :=
  match e.phase with
  | .raw => { d with raw := some e.form.size, kind := e.kind, line := e.line.or d.line }
  | .expanded => { d with expanded := some e.form.size }

end DefinitionSummary

/-- The definitions that events are about, each with what its events tell. -/
def summarizeDefinitions (events : List FormEvent) : List DefinitionSummary :=
  let grouped : SortedMap QualifiedName DefinitionSummary :=
    events.foldl (fun m e => m.alter ⟨e.ns, e.name⟩ fun d =>
      (d.getD (DefinitionSummary.start e)).take e) SortedMap.empty
  grouped.values

end CompileWatch
