import CompileWatch.ClassFile.Name
import CompileWatch.Form.Definition

/-!
# Captured definition forms

A definition is captured as it was written, and once more after expansion when
expansion changed it. At most one event is kept for each definition and phase.

- `FormEvent`: one captured form.
- `FormKey`: what tells events apart, ordered by namespace, name and phase.
-/

namespace CompileWatch

/-- Before or after expansion. -/
inductive Phase where
  | raw
  | expanded
deriving DecidableEq, Repr, Inhabited

/-- The name of a phase. -/
def Phase.text : Phase → String
  | .raw => "raw"
  | .expanded => "expanded"

/-- The place of a phase in the order of phases. -/
def Phase.rank : Phase → Nat
  | .raw => 0
  | .expanded => 1

/-- What tells captured forms apart. -/
structure FormKey where
  ns : String
  name : String
  phase : Phase
deriving DecidableEq, Repr, Inhabited

namespace FormKey

instance : Ord FormKey :=
  ⟨compareLex (compareOn (·.ns)) (compareLex (compareOn (·.name)) (compareOn (·.phase.rank)))⟩

instance : Std.TransOrd FormKey :=
  inferInstanceAs (Std.TransCmp
    (compareLex (compareOn FormKey.ns) (compareLex (compareOn FormKey.name)
      (compareOn fun k => k.phase.rank))))

instance : Std.LawfulEqOrd FormKey where
  eq_of_compare {a b} h := by
    have h : compareLex (compareOn FormKey.ns) (compareLex (compareOn FormKey.name)
      (compareOn fun k => k.phase.rank)) a b = .eq := h
    simp only [compareLex_eq_eq, compareOn, Std.LawfulEqCmp.compare_eq_iff_eq] at h
    obtain ⟨hns, hname, hphase⟩ := h
    obtain ⟨_, _, p⟩ := a
    obtain ⟨_, _, q⟩ := b
    cases p <;> cases q <;> simp_all [Phase.rank]

end FormKey

/-- A captured definition form. -/
structure FormEvent where
  phase : Phase
  kind : DefKind
  ns : String
  name : String
  line : Option Nat
  endLine : Option Nat
  form : Form
deriving Inhabited

namespace FormEvent

/-- The key of an event. -/
def key (e : FormEvent) : FormKey := ⟨e.ns, e.name, e.phase⟩

/-- The definition that the event is about. -/
def qualified (e : FormEvent) : String := e.ns ++ "/" ++ e.name

end FormEvent

end CompileWatch
