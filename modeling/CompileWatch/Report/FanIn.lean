import CompileWatch.Capture.References

/-!
# How much definitions are used

- `FanIn.rank`: definitions by the number of their callers.
- `CallerMap.callees`: what one definition refers to.
-/

namespace CompileWatch

/-- A definition and the number of different definitions that refer to it. -/
structure FanIn where
  callee : String
  callers : Nat
deriving DecidableEq, Repr, Inhabited

namespace FanIn

/-- Whether the definition is referred to only from outside every definition. -/
def topLevelOnly (f : FanIn) : Bool := f.callers = 0

/-- The definitions with the most callers first, those with equally many by name. -/
def rank (m : CallerMap) : List FanIn :=
  (m.entries.map fun (callee, callers) => ⟨callee, callers.size⟩).mergeSort
    fun a b => b.callers ≤ a.callers

end FanIn

/-- The definitions that one refers to. -/
def CallerMap.callees (m : CallerMap) (caller : String) : List String :=
  (m.entries.filter fun e => SortedSet.has e.2 caller).map (·.1)

end CompileWatch
