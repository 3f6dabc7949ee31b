import CompileWatch.Form.Basic

/-!
# Labels

Forms are values, so one list is nothing else than another list that is equal to it. Who
has to tell them apart labels them first. A label is a flag on a list; a rewritten form
holds the lists that it takes over with their flags, and so shows which of its lists were
there before.

- `Form.lists`: the lists that a transformation can reach.
- `Form.label?`: the label of a list.
- `Form.relabel`: a new label for every list that is not known.
-/

namespace CompileWatch

namespace Metadata

/-- What a label starts with. No flag that is read from a source holds a blank. -/
def labelSign : String := "list "

/-- The label among the flags. -/
def label? (m : Metadata) : Option String := m.flags.find? (·.startsWith labelSign)

/-- The metadata with a label in place of the one that it has. -/
def withLabel (m : Metadata) (n : Nat) : Metadata :=
  { m with flags :=
      m.flags.filter (!·.startsWith labelSign) ++ [labelSign ++ toString n] }

end Metadata

namespace Form

mutual

/-- The lists of a form, from the outside in, before some others: the form itself, and what
is inside a list or vector. What a map or set holds is never transformed, and is left out. -/
def listsBefore (after : List Form) : Form → List Form
  | .list items m => .list items m :: listsAllBefore after items
  | .vector items _ => listsAllBefore after items
  | _ => after

/-- The lists among some forms and inside them, before some others. -/
def listsAllBefore (after : List Form) : List Form → List Form
  | [] => after
  | f :: rest => listsBefore (listsAllBefore after rest) f

end

/-- The lists of a form, from the outside in. -/
def lists (f : Form) : List Form := listsBefore [] f

/-- The label of a list. -/
def label? : Form → Option String
  | .list _ m => m.label?
  | _ => none

/-- The labels of a form's lists, from the outside in. -/
def labels (f : Form) : List String := f.lists.filterMap label?

/-- Whether a form is one of some labelled lists. A list that was rebuilt around a rewritten
call has kept its own label, but has lost that of the call. -/
def isAmong (known : List Form) (f : Form) : Bool :=
  f.label?.isSome && known.any fun g => g.label? == f.label? && g.labels == f.labels

mutual

/-- Label the lists of a form, counting up. The known lists stay as they are. -/
def relabel (known : List Form) : Form → StateM Nat Form
  | .list items m =>
    if isAmong known (.list items m) then return .list items m
    else do
      let n ← modifyGet fun n => (n, n + 1)
      return .list (← relabelAll known items) (m.withLabel n)
  | .vector items m => return .vector (← relabelAll known items) m
  | f => return f

/-- Label the lists of some forms, one form after the other. -/
def relabelAll (known : List Form) : List Form → StateM Nat (List Form)
  | [] => return []
  | f :: rest => return (← relabel known f) :: (← relabelAll known rest)

end

end Form

end CompileWatch
