import CompileWatch.Compiler.Compile
import CompileWatch.Watching.Installer

/-!
# A host

A small compiler in which every routine can be observed. Its bindings can be broken and
its points closed, as in a host whose insides have changed. What stands for an observer
is left open: `ω`.

- `Host.run`, `Host.compile`, `Host.expand`, `Host.defineUnit`: its routines.
- `Host.attach`: an observer is let in, or refused.
- `Host.install`: an installer is asked to install.
-/

namespace CompileWatch

/-- The state of a host. -/
structure Host (ω : Type) where
  namespaces : Namespaces := Namespaces.initial
  faults : Faults := {}
  /-- The points at which no observer is let in any more. -/
  refused : List Point := []
  observer? : Point → Option ω := fun _ => none

namespace Host

variable {ω σ τ : Type}

/-- Make a binding report that it is missing. -/
def breakCapability (h : Host ω) (c : Capability) : Host ω :=
  { h with faults := { h.faults with broken := c :: h.faults.broken } }

/-- Make calls that need a binding crash. -/
def crashCapability (h : Host ω) (c : Capability) : Host ω :=
  { h with faults := { h.faults with crashing := c :: h.faults.crashing } }

/-- Let nobody in at a point any more. -/
def refuse (h : Host ω) (p : Point) : Host ω := { h with refused := p :: h.refused }

/-- Make a definition that is no function, as an earlier compilation would have. -/
def defineVar (h : Host ω) (q : QualifiedName) (constant : Bool) : Host ω :=
  { h with namespaces := h.namespaces.intern q ⟨constant, false⟩ }

/-- What the host answers to a thread. -/
def view (h : Host ω) (c : Context) : HostView := hostView h.faults h.namespaces c

/-! ### Observers -/

/-- Whether an observer is let in at a point. -/
def admits (h : Host ω) (p : Point) : Reply Unit :=
  if h.refused.contains p then
    .refusal (.attachRefused p.text "routine signature not recognized")
  else .answer ()

/-- Put an observer at a point, in place of any other. -/
def observe (h : Host ω) (o : ω) (p : Point) : Host ω :=
  { h with observer? := fun q => if q = p then some o else h.observer? q }

/-- Let an observer in at a point, unless it is refused. -/
def attach (h : Host ω) (o : ω) (p : Point) : Reply (Host ω) := do
  h.admits p
  return h.observe o p

/-- The same host without its observers. -/
def detached (h : Host ω) : Host ω := { h with observer? := fun _ => none }

/-- The number of points with an observer. -/
def observerCount (h : Host ω) : Nat := Point.all.countP fun p => (h.observer? p).isSome

/-- Ask an installer to install an observer into this host. -/
def install (h : Host ω) (o : ω) (i : Installer) (c : Context) (s : Session) :
    Logged (Installer.Installed × Host ω) := do
  let r ← i.install (h.view c) h.admits s
  match r.reply with
  | .answer report =>
    return (r, if r.fresh then report.attached.foldl (fun h p => h.observe o p) h else h)
  | _ => return (r, h)

/-! ### Routines -/

/-- What surrounds a compilation in this host, given what its observers do. -/
def setting (h : Host ω) (meaning : ω → Observer σ τ) (note : LogRecord → σ → σ) : Setting σ τ :=
  { faults := h.faults, observer? := fun p => (h.observer? p).map meaning, note }

/-- The state of the host and of its observers while a routine runs on a thread. -/
def machine (h : Host ω) (c : Context) (s : σ) : Machine σ :=
  { namespaces := h.namespaces, context := c, outside := s }

/-- Compile a source, with the whole machine that it leaves. -/
def run (h : Host ω) (meaning : ω → Observer σ τ) (note : LogRecord → σ → σ) (source : String)
    (c : Context) (s : σ) : Except CompileError CompileSummary × Machine σ :=
  Compile.compile (h.setting meaning note) source (h.machine c s)

/-- Compile a source. -/
def compile (h : Host ω) (meaning : ω → Observer σ τ) (note : LogRecord → σ → σ) (source : String)
    (c : Context) (s : σ) : Except CompileError CompileSummary × Host ω × σ :=
  let (r, m) := h.run meaning note source c s
  (r, { h with namespaces := m.namespaces }, m.outside)

/-- Expand a form. -/
def expand (h : Host ω) (meaning : ω → Observer σ τ) (f : Form) (c : Context) (s : σ) :
    Except SyntaxError Expansion × σ :=
  let (r, m) := (h.setting meaning fun _ s => s).expand f (h.machine c s)
  (r, m.outside)

/-- Define a unit. -/
def defineUnit (h : Host ω) (meaning : ω → Observer σ τ) (name : String) (bytes : Bytes)
    (c : Context) (s : σ) : Bytes × σ :=
  let (bytes, m) := (h.setting meaning fun _ s => s).defineUnit name bytes (h.machine c s)
  (bytes, m.outside)

end Host

end CompileWatch
