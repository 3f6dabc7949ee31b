import CompileWatch.Host.Contract
import CompileWatch.Log

/-!
# The self-test

Before first use every capability of a host is probed once. What is missing is logged
in one warning, and nothing is ever held up by it.

- `SelfTest.probeAll`: the outcome of all probes.
- `SelfTest.ensure`: the probes run once; later calls show the first outcome.
-/

namespace CompileWatch

/-- A capability that a host did not provide. -/
structure ProbeFailure where
  capability : Capability
  error : HostError
deriving DecidableEq, Repr, Inhabited

/-- The outcome of a self-test: what failed, in the order of the probes. -/
structure SelfTest where
  failures : List ProbeFailure
deriving DecidableEq, Repr, Inhabited

namespace SelfTest

/-- Whether every capability is there. -/
def passed (t : SelfTest) : Bool := t.failures.isEmpty

/-- The points that will work worse, each once, in order. -/
def degraded (t : SelfTest) : List Point :=
  Point.all.filter fun p => t.failures.any fun f => f.capability.usedBy.contains p

/-- What one probe finds wrong. A crash counts as a failure. -/
def probeError? (view : HostView) (c : Capability) : Option HostError :=
  match view.probe c with
  | .answer () => none
  | .refusal e => some e
  | .crash _ => some (.other ("probe for " ++ c.description ++ " panicked"))

/-- Probe every capability. -/
def probeAll (view : HostView) : SelfTest :=
  ⟨Capability.all.filterMap fun c => (probeError? view c).map fun e => ⟨c, e⟩⟩

/-- The warning about a failed self-test. -/
def warning (t : SelfTest) : String :=
  "⚠️  Host self-test failed; capture may be incomplete.\n" ++
    String.join (t.failures.map fun f =>
      "   - " ++ f.capability.description ++ ": " ++ f.error.message ++ "\n") ++
    "   Degraded interception points: " ++ ", ".intercalate (t.degraded.map Point.text)

/-- Log the outcome. -/
def log (t : SelfTest) : Logged Unit :=
  if t.passed then
    Logged.note .debug
      ("Self-test passed: " ++ toString Capability.all.length ++ " host bindings available")
  else Logged.note .warn t.warning

/-- The outcome of the first self-test: an earlier one, or else one that runs now. -/
def ensure (earlier : Option SelfTest) (view : HostView) : Logged SelfTest :=
  match earlier with
  | some t => return t
  | none => do
    let t := probeAll view
    t.log
    return t

end SelfTest

end CompileWatch
