import CompileWatch.Form.Basic

/-!
# The size of a form

- `Form.expressions`: the nodes of the tree, atoms and collections alike.
- `Form.depth`: how deep collections nest; an atom has depth zero.
-/

namespace CompileWatch

namespace Form

mutual

/-- The number of nodes of a form. -/
def expressions : Form → Nat
  | .list items _ => 1 + expressionsAll items
  | .vector items _ => 1 + expressionsAll items
  | .map items => 1 + expressionsAll items
  | .set items => 1 + expressionsAll items
  | _ => 1

/-- The number of nodes of a list of forms. -/
def expressionsAll : List Form → Nat
  | [] => 0
  | f :: rest => expressions f + expressionsAll rest

end

mutual

/-- How deep the collections of a form nest. -/
def depth : Form → Nat
  | .list items _ => 1 + depthAll items
  | .vector items _ => 1 + depthAll items
  | .map items => 1 + depthAll items
  | .set items => 1 + depthAll items
  | _ => 0

/-- The greatest depth in a list of forms. -/
def depthAll : List Form → Nat
  | [] => 0
  | f :: rest => max (depth f) (depthAll rest)

end

end Form

/-- The measured size of a form. -/
structure FormSize where
  expressions : Nat
  depth : Nat
deriving DecidableEq, Repr, Inhabited

/-- Both measures of a form. -/
def Form.size (f : Form) : FormSize := ⟨f.expressions, f.depth⟩

end CompileWatch
