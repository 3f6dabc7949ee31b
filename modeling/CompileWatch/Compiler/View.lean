import CompileWatch.Compiler.Namespace
import CompileWatch.Host.Contract

/-!
# What a compiling host shows

A host answers from its namespaces and from where the asking thread stands. Some of its
bindings may be missing, and some may crash.

- `Faults`: which bindings do so.
- `hostView`: everything the host answers at one moment.
-/

namespace CompileWatch

/-- The bindings of a host that do not work. -/
structure Faults where
  /-- Bindings that are missing. -/
  broken : List Capability := []
  /-- Bindings that crash when they are used. -/
  crashing : List Capability := []
deriving DecidableEq, Repr, Inhabited

namespace Faults

/-- Use a binding. One that is both missing and crashing crashes. -/
def check (f : Faults) (c : Capability) : Reply Unit :=
  if f.crashing.contains c then .crash (some (c.description ++ " threw inside the host"))
  else if f.broken.contains c then
    .refusal (.bindingUnavailable c.description "not present in this host build")
  else .answer ()

end Faults

/-- The names that are defined in a namespace, in order. -/
def Namespaces.definedSymbols (m : Namespaces) (ns : String) : Reply (List QualifiedName) :=
  match m.get? ns with
  | some n => .answer (n.vars.keys.map fun name => ⟨ns, name⟩)
  | none => .refusal (.namespaceNotFound ns)

/-- What a host answers to a thread. -/
def hostView (faults : Faults) (m : Namespaces) (c : Context) : HostView where
  probe := faults.check
  currentNamespace := do
    faults.check .currentNamespace
    return c.namespaceName
  compilerLine := do
    faults.check .compilerLine
    return c.line
  enclosingDefinition := do
    faults.check .enclosingDefinition
    return c.enclosing
  resolve s := do
    faults.check .symbolResolution
    faults.check .constantMarker
    return (m.lookup? c s).map fun (name, info) => ⟨name, info.constant⟩
  definedSymbols ns := do
    faults.check .namespaceName
    m.definedSymbols ns

end CompileWatch
