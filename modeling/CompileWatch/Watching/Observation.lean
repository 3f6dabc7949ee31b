import CompileWatch.Compiler.Observer
import CompileWatch.Watching.Instrumentation

/-!
# The capturing observer inside a host

A host that let the capturing observer in is there whenever it calls it, so the observer
never finds it gone. No bytes are ever offered for a unit.
-/

namespace CompileWatch

namespace CaptureState

/-- Log a record. -/
def note (r : LogRecord) (s : CaptureState) : CaptureState := { s with log := s.log ++ [r] }

end CaptureState

/-- What the capturing observer does at each point. -/
def Instrumentation.observer (o : Instrumentation) : Observer CaptureState EnterToken where
  enter view f s := o.enter (some view) f s
  exit _ token _ e s := o.exit token e s
  reference view var s := o.reference (some view) var.name s
  symbol view x s := o.symbol (some view) x s
  unit _ name bytes s := (none, o.unit name bytes s)

end CompileWatch
