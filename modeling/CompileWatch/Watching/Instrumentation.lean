import CompileWatch.Capture.Session
import CompileWatch.Expansion.Full

/-!
# The capturing observer

The observer that is let in at every point of a host and writes into a session. What
goes wrong inside it stays inside: a refusal or a crash of the host costs at most the
capture at hand.

- `EnterToken`: what is carried from the entry of the transform routine to its exit.
- `Instrumentation.enter`, `exit`: only the outermost list is captured, raw on entry
  and expanded on exit when another form comes back.
- `Instrumentation.reference`, `symbol`: a reference is seen where it is made; one to an
  inlined constant is never made, so it is seen where its symbol is analyzed.
- `Instrumentation.unit`: a compiled unit.
-/

namespace CompileWatch

/-! ### Containment -/

/-- The answer of a host, if it gave one. Anything else is logged when asked for. -/
def Reply.guard (site : Point) (debug : Bool) (r : Reply α) : Logged (Option α) :=
  let failed (text : String) : Logged (Option α) := do
    if debug then Logged.note .warn (site.text ++ " interception failed: " ++ text)
    return none
  match r with
  | .answer a => return some a
  | .refusal e => failed e.message
  | .crash text => failed ("Interception body panicked: " ++ Reply.crashText text)

/-! ### Tokens -/

/-- A definition whose raw form was captured and whose expansion is under way. -/
structure PendingCapture where
  kind : DefKind
  ns : String
  name : String
  line : Option Nat
  endLine : Option Nat
deriving Inhabited

/-- What the entry of the transform routine hands to its exit. -/
inductive EnterToken where
  /-- No list was entered; nothing was counted. -/
  | untracked
  /-- A list was counted and not captured. -/
  | nested
  /-- A definition was counted and its raw form captured. -/
  | capturing (p : PendingCapture)
deriving Inhabited

/-- Whether an entry was counted. -/
def EnterToken.isTracked : EnterToken → Bool
  | .untracked => false
  | _ => true

/-- What an observer writes to on one thread: the session, how many transformations of
lists are under way, and the log. -/
structure CaptureState where
  session : Session := {}
  depth : Nat := 0
  log : List LogRecord := []

namespace CaptureState

/-- Continue with a logged session. -/
def keep (s : CaptureState) (r : Logged Session) : CaptureState :=
  { s with session := r.value, log := s.log ++ r.records }

/-- A token is given back, to the exit or because the routine was left otherwise. The
depth never falls below zero. -/
def release (s : CaptureState) (t : EnterToken) : CaptureState :=
  if t.isTracked then { s with depth := s.depth - 1 } else s

end CaptureState

/-- The lines of a definition form: its own, else those of its name, else for the first
one a line known otherwise. -/
def Form.position (f : Form) (fallback : Option Nat) : Option Nat × Option Nat :=
  let name := f.nth? 1
  ((f.line?.or (name.bind Form.line?)).or fallback, f.endLine?.or (name.bind Form.endLine?))

/-- The capturing observer of a host. It answers nothing once the host is gone. -/
structure Instrumentation where
  /-- Whether failures are logged. -/
  debug : Bool := false
deriving Repr, Inhabited

namespace Instrumentation

/-- The refusal that stands for a host that is gone. -/
def released : HostError := .other "host released"

/-- The namespace that a host tells, with a stand-in when it tells none. -/
def namespaceOf (o : Instrumentation) (view : HostView) : Logged String := do
  let ns? ← view.currentNamespace.guard .transform o.debug
  return (ns?.filter (!·.isEmpty)).getD defaultNamespace

/-- The line that a host tells, if any. -/
def lineOf (o : Instrumentation) (view : HostView) : Logged (Option Nat) := do
  return (← view.compilerLine.guard .transform o.debug).join

/-- The definition that a host says is being compiled, if any. -/
def callerOf (o : Instrumentation) (site : Point) (view : HostView) : Logged (Option String) := do
  return ((← view.enclosingDefinition.guard site o.debug).join).map QualifiedName.text

/-! ### Transformation -/

/-- Capture the raw form of a definition. Nothing comes of any other form, nor when the
host is gone. -/
def beginCapture (o : Instrumentation) (view : Option HostView) (f : Form) (s : Session) :
    Logged (Option PendingCapture × Session) := do
  let some kind := f.defKind? | return (none, s)
  let some name := f.definedName? | return (none, s)
  let some view := view
    | let _ ← (Reply.refusal released : Reply Unit).guard .transform o.debug
      return (none, s)
  let ns ← o.namespaceOf view
  let hostLine ← o.lineOf view
  let (line, endLine) := f.position hostLine
  let s ← s.captureForm ⟨.raw, kind, ns, name, line, endLine, f⟩
  return (some ⟨kind, ns, name, line, endLine⟩, s)

/-- The transform routine is entered. -/
def enter (o : Instrumentation) (view : Option HostView) (f : Form) (s : CaptureState) :
    EnterToken × CaptureState :=
  if !f.isList then (.untracked, s)
  else
    let counted := { s with depth := s.depth + 1 }
    if 0 < s.depth || !s.session.forms.enabled then (.nested, counted)
    else
      let r := o.beginCapture view f s.session
      let counted := counted.keep ⟨r.value.2, r.records⟩
      match r.value.1 with
      | some pending => (.capturing pending, counted)
      | none => (.nested, counted)

/-- Capture the expanded form of a definition. -/
def captureExpanded (p : PendingCapture) (f : Form) (s : Session) : Logged Session :=
  let (line, endLine) := f.position p.line
  s.captureForm ⟨.expanded, p.kind, p.ns, p.name, line, endLine.or p.endLine, f⟩

/-- The transform routine is left. -/
def exit (_o : Instrumentation) (t : EnterToken) (result : Expansion) (s : CaptureState) :
    CaptureState :=
  let s := s.release t
  match t, result with
  | .capturing pending, .changed f => s.keep (captureExpanded pending f s.session)
  | _, _ => s

/-! ### References and units -/

/-- A reference to a definition is made. -/
def reference (o : Instrumentation) (view : Option HostView) (callee : QualifiedName)
    (s : CaptureState) : CaptureState :=
  if !s.session.references.enabled then s
  else s.keep do
    let some view := view
      | let _ ← (Reply.refusal released : Reply Unit).guard .referenceConstruction o.debug
        return s.session
    let caller ← o.callerOf .referenceConstruction view
    s.session.captureReference ⟨callee.text, caller⟩

/-- The constant that a symbol stands for. A symbol that cannot be resolved stands for
none. -/
def constantOf (o : Instrumentation) (view : HostView) (symbol : Symbol) :
    Logged (Option QualifiedName) :=
  match view.resolve symbol with
  | .answer (some var) => return if var.constant then some var.name else none
  | .answer none | .refusal (.unresolved _) => return none
  | r => do
    let _ ← r.guard .constantResolution o.debug
    return none

/-- A symbol is about to be analyzed. -/
def symbol (o : Instrumentation) (view : Option HostView) (symbol : Symbol) (s : CaptureState) :
    CaptureState :=
  if !s.session.references.enabled then s
  else s.keep do
    let some view := view
      | let _ ← (Reply.refusal released : Reply Unit).guard .constantResolution o.debug
        return s.session
    let some callee ← o.constantOf view symbol | return s.session
    let caller ← o.callerOf .constantResolution view
    s.session.captureReference ⟨callee.text, caller⟩

/-- A compiled unit is defined. -/
def unit (_o : Instrumentation) (name : String) (bytes : Bytes) (s : CaptureState) : CaptureState :=
  if !s.session.units.enabled then s else s.keep (s.session.captureUnit name bytes)

end Instrumentation

end CompileWatch
