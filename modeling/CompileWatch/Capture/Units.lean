import CompileWatch.ClassFile.Metrics
import CompileWatch.Log

/-!
# The buffer of compiled units
-/

namespace CompileWatch

/-- A compiled unit as it was observed when it was defined. -/
structure UnitRecord where
  /-- The dotted name. -/
  name : String
  byteSize : Nat
  fieldCount : Int
  instructionCount : Int
  /-- The other units that it names. -/
  references : SortedSet String

namespace UnitRecord

/-- The number of fields, if it is known. -/
def knownFields? (r : UnitRecord) : Option Nat := knownCount? r.fieldCount

/-- The number of instructions, if it is known. -/
def knownInstructions? (r : UnitRecord) : Option Nat := knownCount? r.instructionCount

/-- The record of a unit under a dotted name. A unit does not refer to itself, whatever
its own bytes call it. -/
def ofMetrics (name : String) (byteSize : Nat) (m : Metrics) : UnitRecord :=
  ⟨name, byteSize, m.fieldCount, m.instructionCount, m.references.remove name⟩

end UnitRecord

/-- The metrics of a byte string; a fault is logged. -/
def analyzeUnit (bytes : Bytes) : Logged Metrics :=
  let (metrics, fault) := Metrics.ofBytes bytes
  match fault with
  | none => pure metrics
  | some e => do
    Logged.note .debug ("Unit visitor failed after " ++ toString bytes.length ++ " bytes: " ++
      e.message)
    return metrics

/-- The captured units, one for each dotted name. A buffer that is switched off keeps
what it has and takes nothing new. -/
structure UnitBuffer where
  enabled : Bool := true
  units : SortedMap String UnitRecord := SortedMap.empty

namespace UnitBuffer

/-- Whether a unit of a name would be taken. -/
def accepts (b : UnitBuffer) (name : String) : Bool := b.enabled && !name.isEmpty

/-- Take a unit in place of any earlier one of its name, and show the record of it. -/
def capture (b : UnitBuffer) (name : String) (bytes : Bytes) :
    Logged (UnitBuffer × Option UnitRecord) :=
  if b.accepts name then do
    let dotted := dottedName name
    let metrics ← analyzeUnit bytes
    let record := UnitRecord.ofMetrics dotted bytes.length metrics
    return ({ b with units := b.units.insert dotted record }, some record)
  else return (b, none)

/-- The record of a unit by either spelling of its name. -/
def get? (b : UnitBuffer) (name : String) : Option UnitRecord := b.units.get? (dottedName name)

/-- The records in the order of their names. -/
def toList (b : UnitBuffer) : List UnitRecord := b.units.values

/-- The buffer without its records. -/
def clear (b : UnitBuffer) : UnitBuffer := { b with units := SortedMap.empty }

/-- Every unit that some recorded unit names. -/
def allReferences (b : UnitBuffer) : SortedSet String :=
  b.toList.foldl (fun s r => s.addAll r.references.members) SortedMap.empty

/-- The bytes of all recorded units together. -/
def totalByteSize (b : UnitBuffer) : Nat := (b.toList.map (·.byteSize)).foldl (· + ·) 0

end UnitBuffer

end CompileWatch
