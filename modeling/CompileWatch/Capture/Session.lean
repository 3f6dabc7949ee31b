import CompileWatch.Capture.Feed
import CompileWatch.Capture.Forms
import CompileWatch.Capture.Units
import CompileWatch.Watching.SelfTest

/-!
# Capture sessions

A session is where captures go: the three buffers, the outcome of the self-test, and
the live feed. A capture that a buffer takes is told to the subscriber.
-/

namespace CompileWatch

/-- Everything captured so far, and who is told of captures. -/
structure Session where
  forms : FormBuffer := {}
  references : ReferenceBuffer := {}
  units : UnitBuffer := {}
  selfTest : Option SelfTest := none
  desk : FeedDesk := {}

namespace Session

/-- Tell the subscriber of a capture. -/
def notify (s : Session) (n : Notice) : Logged Session := do
  return { s with desk := ← s.desk.notify n }

/-- Capture a definition form. -/
def captureForm (s : Session) (e : FormEvent) : Logged Session :=
  let next := { s with forms := s.forms.capture e }
  if s.forms.accepts e then next.notify (.form e.key) else return next

/-- Capture a reference. -/
def captureReference (s : Session) (e : Edge) : Logged Session :=
  let next := { s with references := s.references.capture e }
  if s.references.accepts e then next.notify (.reference e) else return next

/-- Capture a compiled unit. -/
def captureUnit (s : Session) (name : String) (bytes : Bytes) : Logged Session := do
  let (units, record?) ← s.units.capture name bytes
  let next := { s with units }
  match record? with
  | some record => next.notify (.unit record.name)
  | none => return next

/-- Forget every capture. -/
def clearAll (s : Session) : Session :=
  { s with forms := s.forms.clear, references := s.references.clear, units := s.units.clear }

/-- Whether no self-test has found anything missing. -/
def isHealthy (s : Session) : Bool := (s.selfTest.map (·.passed)).getD true

/-- Run the self-test, unless it ran before. -/
def ensureTested (s : Session) (view : HostView) : Logged (SelfTest × Session) := do
  let t ← SelfTest.ensure s.selfTest view
  return (t, { s with selfTest := some t })

end Session

end CompileWatch
