import CompileWatch.ClassFile.Name
import CompileWatch.ClassFile.Visit
import CompileWatch.Sorted.Set

/-!
# What a unit is made of

The numbers of fields and instructions of a unit, and the other units that it names.
They are counted up during one visit. A unit that cannot be read has no numbers.

- `Metrics.ofEvents`: the count over a visit.
- `Metrics.ofBytes`: the metrics of a byte string, unknown when the visit fails.
-/

namespace CompileWatch

/-- The greatest number that a count shows. -/
def countLimit : Nat := 0x7FFFFFFF

/-- What stands for a count that could not be determined. -/
def unknownCount : Int := -1

/-- A count, unless it stands for one that is not known. -/
def knownCount? (n : Int) : Option Nat := if 0 ≤ n then some n.toNat else none

/-- A visit in numbers, each of which may be unknown. -/
structure Metrics where
  fieldCount : Int
  instructionCount : Int
  references : SortedSet String

namespace Metrics

/-- What is known of a unit that cannot be read. -/
def unknown : Metrics := ⟨unknownCount, unknownCount, SortedMap.empty⟩

/-- Whether both counts are known. -/
def isKnown (m : Metrics) : Bool :=
  m.fieldCount != unknownCount && m.instructionCount != unknownCount

end Metrics

/-- The count during a visit. -/
structure Tally where
  /-- The unit's own name, once the header was seen. -/
  self : Option String := none
  fields : Nat := 0
  instructions : Nat := 0
  references : SortedSet String := SortedMap.empty

namespace Tally

/-- Note the class that a constant names, unless it is the unit itself. -/
def refer (t : Tally) (name : String) : Tally :=
  match namedClass? name with
  | none => t
  | some c =>
    let dotted := dottedName c
    if t.self = some dotted then t else { t with references := t.references.add dotted }

/-- Count one event. -/
def step (t : Tally) : Event → Tally
  | .header h =>
    let t := { t with self := some (dottedName h.thisClass) }
    (h.superClass.toList ++ h.interfaces).foldl refer t
  | .field _ => { t with fields := t.fields + 1 }
  | .instruction i =>
    let t := { t with instructions := t.instructions + 1 }
    match i.operand with
    | .field owner | .method owner => t.refer owner
    | .type name => t.refer name
    | .none | .dynamic => t
  | .method _ | .finished => t

/-- The metrics at the end of a visit. -/
def metrics (t : Tally) : Metrics :=
  ⟨(min t.fields countLimit : Nat), (min t.instructions countLimit : Nat), t.references⟩

end Tally

namespace Metrics

/-- The metrics of a list of events. -/
def ofEvents (events : List Event) : Metrics := (events.foldl Tally.step {}).metrics

/-- The metrics of a byte string, with the fault that leaves them unknown. -/
def ofBytes (bytes : Bytes) : Metrics × Option FormatError :=
  let v := ClassFile.visit bytes
  match v.status with
  | .ok () => (ofEvents v.events, none)
  | .error e => (unknown, some e)

end Metrics

/-- The dotted name that a unit gives itself. -/
def ClassFile.ownName (bytes : Bytes) : Except FormatError String :=
  (ClassFile.readName bytes).map dottedName

end CompileWatch
