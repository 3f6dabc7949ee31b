import CompileWatch.Compiler.View
import CompileWatch.Expansion.Full
import CompileWatch.Log
import CompileWatch.Text.Utf8

/-!
# Observers of a compiling host

An observer is called at the points at which a host let it in, with a view of the host
at that moment. It changes nothing but a state of its own, `σ`; only for a unit it may
offer other bytes.

- `Observer`: what is done at each point.
- `Setting`: what surrounds a compilation.
- `Setting.expand`: the transform routine of a host.
- `Setting.defineUnit`: the unit definition routine of a host.
-/

namespace CompileWatch

/-- What an observer does at each point. -/
structure Observer (σ τ : Type) where
  /-- The transform routine is entered with a form. -/
  enter : HostView → Form → σ → τ × σ
  /-- It is left, handing back the form that was entered or another. -/
  exit : HostView → τ → Form → Expansion → σ → σ
  /-- A reference to a definition is made. -/
  reference : HostView → VarRef → σ → σ
  /-- A symbol is about to be analyzed. -/
  symbol : HostView → Symbol → σ → σ
  /-- A unit is defined; other bytes may be offered for it. -/
  unit : HostView → String → Bytes → σ → Option Bytes × σ

/-- An observer whose state is a part of a larger one. -/
def Observer.inside {ρ σ τ : Type} (get : ρ → σ) (put : σ → ρ → ρ) (o : Observer σ τ) :
    Observer ρ τ where
  enter v f r := let (token, s) := o.enter v f (get r); (token, put s r)
  exit v token f e r := put (o.exit v token f e (get r)) r
  reference v x r := put (o.reference v x (get r)) r
  symbol v x r := put (o.symbol v x (get r)) r
  unit v name bytes r := let (offer, s) := o.unit v name bytes (get r); (offer, put s r)

/-- What surrounds a compilation: the faults of the host, the observers that it let in,
and the log. -/
structure Setting (σ τ : Type) where
  faults : Faults := {}
  observer? : Point → Option (Observer σ τ) := fun _ => none
  note : LogRecord → σ → σ := fun _ s => s

/-- A unit that was defined: its name, the bytes that the compiler gave for it, and the
bytes that it got in the end. -/
structure DefinedUnit where
  name : String
  given : Bytes
  defined : Bytes
deriving DecidableEq, Repr

/-- Everything that a compilation changes: the definitions, where the thread stands, the
units that were defined, and the state of the observers. -/
structure Machine (σ : Type) where
  namespaces : Namespaces
  context : Context
  /-- The units defined so far, the last one at the end. -/
  units : List DefinedUnit := []
  outside : σ

namespace Setting

variable {σ τ : Type}

/-- What the host shows at this moment. -/
def view (t : Setting σ τ) (m : Machine σ) : HostView := hostView t.faults m.namespaces m.context

/-- Tell the observer at a point, if there is one. -/
def tell (t : Setting σ τ) (p : Point) (f : Observer σ τ → HostView → σ → σ) (m : Machine σ) :
    Machine σ :=
  match t.observer? p with
  | some o => { m with outside := f o (t.view m) m.outside }
  | none => m

/-- The watch that the observer of the transform routine keeps. Without an observer
nobody watches. -/
def watch (t : Setting σ τ) (view : HostView) : Watch σ (Option τ) where
  enter f s :=
    match t.observer? .transform with
    | some o => let (token, s) := o.enter view f s; (some token, s)
    | none => (none, s)
  exit token f e s :=
    match t.observer? .transform, token with
    | some o, some token => o.exit view token f e s
    | _, _ => s

/-- The transform routine. -/
def expand (t : Setting σ τ) (f : Form) (m : Machine σ) : Except SyntaxError Expansion × Machine σ :=
  let (r, s) := transform (t.watch (t.view m)) f m.outside
  (r, { m with outside := s })

/-- What the observer of the unit definition routine offers for a unit, if there is an
observer and it offers anything. -/
def offer (t : Setting σ τ) (name : String) (bytes : Bytes) (m : Machine σ) : Option Bytes × σ :=
  match t.observer? .unitDefinition with
  | some o => o.unit (t.view m) name bytes m.outside
  | none => (none, m.outside)

/-- The unit definition routine, which gives the bytes that were defined in the end. -/
def defineUnit (t : Setting σ τ) (name : String) (bytes : Bytes) (m : Machine σ) :
    Bytes × Machine σ :=
  let (offered, s) := t.offer name bytes m
  let defined := offered.getD bytes
  (defined, { m with units := m.units ++ [⟨name, bytes, defined⟩], outside := s })

end Setting

end CompileWatch
