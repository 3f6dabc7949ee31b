import CompileWatch.Compiler.Observer

/-!
# Journals

An observer that captures nothing, and writes down each of its calls together with what
the host showed at the time.

- `Entry`: one call.
- `Journal.observer`: the observer that keeps a journal.
-/

namespace CompileWatch

/-- Where a host says that a thread stands; what it refuses to tell is left out. -/
structure Standing where
  ns : Option String
  line : Option Nat
  enclosing : Option QualifiedName
deriving DecidableEq, Repr, Inhabited

/-- The answer of a host, none after a refusal; a crash stays a crash. -/
def Reply.orNone (r : Reply α) : Reply (Option α) :=
  match r with
  | .answer a => .answer (some a)
  | .refusal _ => .answer none
  | .crash text => .crash text

/-- What a host tells of a thread, unless it crashes. -/
def HostView.standing? (v : HostView) : Option Standing :=
  let told : Reply Standing := do
    let ns ← v.currentNamespace.orNone
    let line ← v.compilerLine.orNone
    let enclosing ← v.enclosingDefinition.orNone
    return ⟨ns, line.join, enclosing.join⟩
  match told with
  | .answer s => some s
  | _ => none

/-- A call of an observer. -/
inductive Call where
  | enter (f : Form)
  | exit (f : Form)
  | reference (var : VarRef)
  | symbol (s : Symbol)
  | unit (name : String) (size : Nat)

/-- A call, and where the thread stood as far as the host told. -/
structure Entry where
  call : Call
  standing : Option Standing

/-- The calls of an observer, in order. -/
abbrev Journal := List Entry

namespace Journal

/-- Write down a call. -/
def write (j : Journal) (v : HostView) (call : Call) : Journal := j ++ [⟨call, v.standing?⟩]

/-- The observer that keeps a journal. It hands out one and the same token, and offers
the given bytes for every unit. -/
def observer (token : τ) (offer : Option Bytes) : Observer Journal τ where
  enter v f j := (token, write j v (.enter f))
  exit v _ f e j := write j v (.exit (e.form f))
  reference v var j := write j v (.reference var)
  symbol v s j := write j v (.symbol s)
  unit v name bytes j := (offer, write j v (.unit name bytes.length))

end Journal

end CompileWatch
