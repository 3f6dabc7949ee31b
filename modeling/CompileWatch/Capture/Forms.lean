import CompileWatch.Capture.Event
import CompileWatch.Sorted.Map

/-!
# The buffer of definition forms
-/

namespace CompileWatch

/-- The captured forms, one for each key. A buffer that is switched off keeps what it
has and takes nothing new. -/
structure FormBuffer where
  enabled : Bool := true
  events : SortedMap FormKey FormEvent := SortedMap.empty

namespace FormBuffer

/-- Whether an event would be taken. -/
def accepts (b : FormBuffer) (e : FormEvent) : Bool := b.enabled && !e.name.isEmpty

/-- Take an event in place of any earlier one of its key. -/
def capture (b : FormBuffer) (e : FormEvent) : FormBuffer :=
  if b.accepts e then { b with events := b.events.insert e.key e } else b

/-- The events in the order of their keys. -/
def toList (b : FormBuffer) : List FormEvent := b.events.values

/-- The buffer without its events. -/
def clear (b : FormBuffer) : FormBuffer := { b with events := SortedMap.empty }

/-- The event of a key. -/
def get? (b : FormBuffer) (k : FormKey) : Option FormEvent := b.events.get? k

/-- How many events there are. -/
def size (b : FormBuffer) : Nat := b.events.size

end FormBuffer

end CompileWatch
