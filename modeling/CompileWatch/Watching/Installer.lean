import CompileWatch.Watching.Config

/-!
# Installation

Installing runs the self-test, switches the buffers of the session, and asks the host
to let the observer in at every point. A point that the host refuses is logged and
passed over. An installer installs once.

- `InstallReport`: what came of it.
- `Installer.install`: the first call installs; later calls repeat the first report.
-/

namespace CompileWatch

/-- What came of an installation. -/
structure InstallReport where
  attached : List Point
  refused : List (Point × HostError)
  /-- Whether the self-test had passed. -/
  healthy : Bool
deriving DecidableEq, Repr, Inhabited

/-- Whether no point was refused. -/
def InstallReport.isFull (r : InstallReport) : Bool := r.refused.isEmpty

/-- An installer with its settings, and its report once it has installed. -/
structure Installer where
  config : Config
  report : Option InstallReport := none
deriving Repr, Inhabited

namespace Installer

/-- Whether the installer has installed. -/
def isInstalled (i : Installer) : Bool := i.report.isSome

/-- A record of an installation that is to be logged in detail. -/
def detail (c : Config) (text : String) : Logged Unit :=
  if c.verbose then Logged.note .info text else return ()

/-- Ask for each point in turn. A host that crashes while it is asked ends it. -/
def attachPoints (c : Config) (attach : Point → Reply Unit) (healthy : Bool) :
    List Point → InstallReport → Logged (Reply InstallReport)
  | [], r => return .answer { r with healthy }
  | p :: rest, r =>
    match attach p with
    | .answer () => do
      detail c ("✓ Attached " ++ p.text ++ " interception")
      attachPoints c attach healthy rest { r with attached := r.attached ++ [p] }
    | .refusal e => do
      Logged.note .warn ("⚠️  Could not attach " ++ p.text ++ " interception: " ++ e.message)
      attachPoints c attach healthy rest { r with refused := r.refused ++ [(p, e)] }
    | .crash text => return .crash text

/-- Install into a host, given by what it answers and how it takes observers. -/
def attachAll (c : Config) (view : HostView) (attach : Point → Reply Unit) (s : Session) :
    Logged (Reply InstallReport × Session) := do
  detail c "Installing compiler instrumentation..."
  let (t, s) ← s.ensureTested view
  let s := c.apply s
  let r ← attachPoints c attach t.passed Point.all ⟨[], [], true⟩
  if let .answer report := r then
    detail c ("Instrumentation installed: " ++ toString report.attached.length ++ "/" ++
      toString Point.all.length ++ " points attached")
  return (r, s)

/-- The outcome of asking an installer to install: the reply, the installer and the
session after it, and whether observers were attached by this very call. -/
structure Installed where
  reply : Reply InstallReport
  installer : Installer
  session : Session
  fresh : Bool

/-- Install on the first call; later calls, with any host, repeat its report. -/
def install (i : Installer) (view : HostView) (attach : Point → Reply Unit) (s : Session) :
    Logged Installed :=
  match i.report with
  | some report => do
    Logged.note .debug "Instrumentation already installed, skipping"
    return ⟨.answer report, i, s, false⟩
  | none => do
    let (r, s) ← attachAll i.config view attach s
    match r with
    | .answer report => return ⟨r, { i with report := some report }, s, true⟩
    | _ => return ⟨r, i, s, true⟩

end Installer

end CompileWatch
