import CompileWatch.ClassFile.Emit
import CompileWatch.Compiler.Mentions
import CompileWatch.Compiler.Observer
import CompileWatch.Reading.Source

/-!
# Compilation

A source is read as a whole and then compiled form by form: each form is expanded and
evaluated, and what was evaluated before a failure stays.

- `CompileError`: why a source does not compile.
- `Compile`: computations that may fail and leave their effects behind.
- `analyze`: the references of a form.
- `define`: one definition, and the unit of a function.
- `compile`: a whole source.
-/

namespace CompileWatch

/-- Why a source does not compile. -/
inductive CompileError where
  | unreadable (e : ReadError)
  | malformed (e : SyntaxError)
  | unresolved (s : Symbol)

/-- The text of a compile error. -/
def CompileError.message : CompileError → String
  | .unreadable e => e.message
  | .malformed e => "Syntax error: " ++ e.message
  | .unresolved s => (HostError.unresolved s.text).message

/-- What a compilation defined, in order. -/
structure CompileSummary where
  definitions : List QualifiedName := []
  /-- The dotted names of the units. -/
  units : List String := []
deriving DecidableEq, Repr, Inhabited

namespace CompileSummary

/-- First one part of a source, then another. -/
def append (a b : CompileSummary) : CompileSummary :=
  ⟨a.definitions ++ b.definitions, a.units ++ b.units⟩

end CompileSummary

/-- Computations on a machine. A failure leaves what was done before it. -/
abbrev Compile (σ : Type) := ExceptT CompileError (StateM (Machine σ))

namespace Compile

variable {σ τ : Type}

/-- Change the machine. -/
def change (f : Machine σ → Machine σ) : Compile σ Unit := modify f

/-- Change where the thread stands. -/
def move (f : Context → Context) : Compile σ Unit := change fun m => { m with context := f m.context }

/-- Change where the thread stands for one computation; the thread goes back after it,
however it ends. -/
def within (f : Context → Context) (x : Compile σ α) : Compile σ α := fun m =>
  let (r, m') := x { m with context := f m.context }
  (r, { m' with context := m.context })

/-! ### References -/

/-- Resolve one symbol. A constant is inlined, so that no reference to it is made. -/
def refer (t : Setting σ τ) (s : Symbol) : Compile σ Reference := do
  change (t.tell .constantResolution fun o view => o.symbol view s)
  let m ← get
  match m.namespaces.lookup? m.context s with
  | none => throw (.unresolved s)
  | some (name, info) =>
    unless info.constant do
      change (t.tell .referenceConstruction fun o view => o.reference view ⟨name, false⟩)
    return ⟨name, info.constant, info.function⟩

/-- The references of a form, in order. -/
def analyze (t : Setting σ τ) (f : Form) : Compile σ (List Reference) := do
  let mentions := f.mentions []
  let refs ← mentions.symbols.mapM (refer t)
  match mentions.fault with
  | some e => throw (.malformed e)
  | none => return refs

/-! ### Definitions -/

/-- The number of parameters before the mark of further ones. -/
def parameterCount (params : List Form) : Nat :=
  (params.takeWhile fun p => (p.symbol?.map (·.name)) != some SpecialForm.restMark.name).length

/-- The number of parameters of a function form; one without a parameter vector has
none. -/
def arity (f : Form) : Nat :=
  match f.nth? 1, f.nth? 2 with
  | some (.vector params _), _ => parameterCount params
  | some (.symbol _), some (.vector params _) => parameterCount params
  | _, _ => 0

/-- The arity of a definition's value, if that is a function. -/
def functionArity? (init : Option Form) : Option Nat :=
  (init.filter fun f => f.head? = some SpecialForm.function.name).map arity

/-- Define the unit of a function. Bytes that an observer offers are not looked at
further. -/
def defineFunction (t : Setting σ τ) (q : QualifiedName) (arity : Nat) (refs : List Reference)
    (line : Option Nat) : Compile σ String := do
  let (name, bytes) := emitFunction q arity refs line
  change fun m => (t.defineUnit name bytes m).2
  return dottedName name

/-- `(def name init?)`. The name is known before its value is analyzed, so that a
definition can refer to itself. -/
def define (t : Setting σ τ) (f : Form) : Compile σ CompileSummary := do
  let some name := (f.nth? 1).bind Form.symbol? | throw (.malformed (.definitionName f))
  let q : QualifiedName := ⟨(← get).context.namespaceName, name.name⟩
  let init := f.nth? 2
  let arity := functionArity? init
  let info : VarInfo := ⟨name.metadata.hasFlag "const", arity.isSome⟩
  change fun m => { m with namespaces := m.namespaces.intern q info }
  let refs ← within (fun c => { c with enclosing := some q })
    (match init with
      | some init => analyze t init
      | none => pure [])
  let units ← arity.toList.mapM fun arity =>
    defineFunction t q arity refs (name.metadata.line.or f.line?)
  let record : LogRecord :=
    ⟨.debug, "Defined " ++ q.text ++ " (" ++ toString refs.length ++ " references)"⟩
  change fun m => { m with outside := t.note record m.outside }
  return ⟨[q], units⟩

/-! ### Namespaces -/

/-- The namespaces that one clause of a declaration says are used. -/
def usedBy : Form → List String
  | .list (.keyword "use" :: names) _ => names.filterMap fun f => f.symbol?.map Symbol.text
  | _ => []

/-- `(ns name clause*)`. -/
def enterNamespace (f : Form) : Compile σ CompileSummary := do
  let some name := (f.nth? 1).bind Form.symbol? | throw (.malformed .namespaceWithoutName)
  let ns := name.text
  change fun m => { m with namespaces := m.namespaces.use ns ((f.children.drop 2).flatMap usedBy) }
  move fun c => { c with ns := some ns }
  return {}

end Compile

/-! ### Evaluation -/

namespace Form

mutual

/-- The forms that are evaluated for a form at top level: a sequence stands for its
parts. -/
def steps : Form → List Form
  | .list items m =>
    if headOf items = some SpecialForm.sequence.name then stepsTail items else [.list items m]
  | f => [f]

/-- The steps of all forms but the first. -/
def stepsTail : List Form → List Form
  | [] => []
  | _ :: rest => stepsAll rest

/-- The steps of forms in a row. -/
def stepsAll : List Form → List Form
  | [] => []
  | f :: rest => steps f ++ stepsAll rest

end

end Form

namespace Compile

variable {σ τ : Type}

/-- Evaluate a form that is no sequence. -/
def evaluateStep (t : Setting σ τ) (f : Form) : Compile σ CompileSummary :=
  match f.head?.bind SpecialForm.ofName? with
  | some .declaration => enterNamespace f
  | some .define => define t f
  | _ => do
    let _ ← analyze t f
    return {}

/-- Several computations in a row, with what they defined together. -/
def inTurn (run : Form → Compile σ CompileSummary) : List Form → Compile σ CompileSummary
  | [] => return {}
  | f :: rest => do
    let first ← run f
    let others ← inTurn run rest
    return first.append others

/-- Expand a form at top level and evaluate it. -/
def compileForm (t : Setting σ τ) (f : Form) : Compile σ CompileSummary := do
  move fun c => { c with line := f.line? }
  let (r, m) := t.expand f (← get)
  set m
  match r with
  | .error e => throw (.malformed e)
  | .ok e => inTurn (evaluateStep t) (e.form f).steps

/-- Compile a source, from the namespace where every thread starts. A source that cannot
be read is left alone. -/
def compile (t : Setting σ τ) (source : String) : Compile σ CompileSummary :=
  match readAll source with
  | .error e => throw (.unreadable e)
  | .ok forms =>
    within (fun _ => { ns := some defaultNamespace }) (inTurn (compileForm t) forms)

end Compile

end CompileWatch
