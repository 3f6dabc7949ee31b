import CompileWatch.Capture.Units

/-!
# Compiled units together
-/

namespace CompileWatch

/-- A unit, and how many units name it. -/
structure Dependency where
  name : String
  count : Nat
deriving DecidableEq, Repr, Inhabited

/-- What a number of units amounts to. -/
structure UnitSummary where
  unitCount : Nat
  totalBytes : Nat
  /-- The units that could not be read. -/
  unknownCount : Nat
  /-- The instructions of the units that could. -/
  totalInstructions : Nat
  /-- The units that at least two of them name. -/
  sharedDependencies : List Dependency
deriving DecidableEq, Repr, Inhabited

namespace UnitSummary

/-- How many units name each unit that some unit names. -/
def incoming (units : List UnitRecord) : SortedMap String Nat :=
  (units.flatMap (·.references.members)).foldl (fun m name => m.alter name fun n => n.getD 0 + 1)
    SortedMap.empty

/-- The units that at least two units name, those that most name first, and those that
equally many name in the order of their names. -/
def shared (units : List UnitRecord) : List Dependency :=
  (((incoming units).entries.map fun (name, count) => ⟨name, count⟩).filter
    fun d : Dependency => 2 ≤ d.count).mergeSort fun a b => b.count ≤ a.count

/-- The summary of a number of units. -/
def ofUnits (units : List UnitRecord) : UnitSummary where
  unitCount := units.length
  totalBytes := (units.map (·.byteSize)).foldl (· + ·) 0
  unknownCount := units.countP (·.knownInstructions?.isNone)
  totalInstructions := (units.filterMap (·.knownInstructions?)).foldl (· + ·) 0
  sharedDependencies := shared units

end UnitSummary

end CompileWatch
