import CompileWatch.Proofs.Expansion.Settled

/-!
# Forms as objects

In memory a form is an object, and a list or vector holds objects. Expansion takes the objects that
it keeps as they are, and tells by their identity alone whether an item was changed. So here the
identity of an object is the number under which it was made: the routine makes new objects under new
numbers, and compares nothing but numbers.

- `Object`, `Object.form`: an object, and the form that it is.
- `Object.rewrite`: what a call stands for, with the objects that are made for it.
- `Object.expand`: the transform routine on objects.
- `Object.form_rewrite?`: a rewrite of objects is one of the forms that they are.
-/

namespace CompileWatch

/-- What the transform routine does not look into. -/
def Form.IsLeaf : Form → Prop
  | .list _ _ => False
  | .vector _ _ => False
  | _ => True

/-- The collections that it looks into. -/
inductive Kind where
  | list
  | vector

/-- A collection of some items. -/
def Kind.form : Kind → List Form → Metadata → Form
  | .list => .list
  | .vector => .vector

/-- A form in memory. -/
inductive Object where
  | leaf (number : Nat) (f : Form) (h : f.IsLeaf)
  | collection (kind : Kind) (number : Nat) (items : List Object) (metadata : Metadata)

namespace Object

/-- The identity of an object. -/
def number : Object → Nat
  | .leaf n _ _ => n
  | .collection _ n _ _ => n

mutual

/-- The form that an object is. -/
def form : Object → Form
  | .leaf _ f _ => f
  | .collection kind _ items m => kind.form (forms items) m

/-- The forms that some objects are. -/
def forms : List Object → List Form
  | [] => []
  | o :: rest => form o :: forms rest

end

theorem forms_tail (items : List Object) : forms items.tail = (forms items).tail := by
  cases items <;> rfl

/-! ### Rewrites -/

/-- A new object for a symbol. -/
def newSym (n : Nat) (name : String) : Object := .leaf n (Form.sym name) trivial

/-- A new object for a call. -/
def newCall (n : Nat) (items : List Object) : Object := .collection .list n items {}

/-- The objects after a leading documentation string. -/
def dropDoc : List Object → List Object
  | .leaf _ (.str _) _ :: rest => rest
  | rest => rest

/-- A function definition takes over its parameters and its body. -/
def rewriteFunction (flag : Option String) (n : Nat) :
    List Object → Except SyntaxError (Object × Nat)
  | [] => .error .functionWithoutName
  | .leaf _ (.symbol name) _ :: rest =>
    match dropDoc rest with
    | .collection .vector k params m :: body =>
      let function := newCall (n + 4)
        (newSym n "fn" :: newSym (n + 1) name.name :: .collection .vector k params m :: body)
      let symbol := .leaf (n + 3) (.symbol (Shorthand.flagged name flag)) trivial
      .ok (newCall (n + 5) [newSym (n + 2) "def", symbol, function], n + 6)
    | _ => .error (.functionParameters name)
  | found :: _ => .error (.functionName found.form)

/-- A one-sided conditional takes over its test and its body. -/
def rewriteWhen (negated : Bool) (n : Nat) : List Object → Except SyntaxError (Object × Nat)
  | [] => .error .whenWithoutTest
  | test :: body =>
    let run := newCall (n + 1) (newSym n "do" :: body)
    let none := .leaf (n + 2) .nil trivial
    .ok (newCall (n + 4) (newSym (n + 3) "if" :: test ::
      if negated then [none, run] else [run, none]), n + 5)

/-- A step of a thread is a new call of what the old one has called. -/
def threadStep (value : Object × Nat) : Object → Object × Nat
  | .collection .list _ (head :: args) _ => (newCall value.2 (head :: value.1 :: args), value.2 + 1)
  | step => (newCall value.2 [step, value.1], value.2 + 1)

/-- A thread without steps is the object that it starts with. -/
def rewriteThread (n : Nat) : List Object → Except SyntaxError (Object × Nat)
  | [] => .error .threadWithoutStart
  | start :: steps => .ok (steps.foldl threadStep (start, n))

/-- A chain of tests takes over its clauses. -/
def rewriteCond (n : Nat) : List Object → Except SyntaxError (Object × Nat)
  | [] => .ok (.leaf n .nil trivial, n + 1)
  | [_] => .error .oddClauses
  | [test, value] =>
    .ok (newCall (n + 2) [newSym (n + 1) "if", test, value, .leaf n .nil trivial], n + 3)
  | test :: value :: rest =>
    let others := newCall (n + 1) (newSym n "cond" :: rest)
    .ok (newCall (n + 3) [newSym (n + 2) "if", test, value, others], n + 4)

/-- What a call with the given arguments stands for. The objects made for it have the numbers from
the given one up to the one that is handed back. -/
def rewrite (s : Shorthand) (n : Nat) (args : List Object) : Except SyntaxError (Object × Nat) :=
  match s with
  | .function flag => rewriteFunction flag n args
  | .when negated => rewriteWhen negated n args
  | .thread => rewriteThread n args
  | .cond => rewriteCond n args

/-- One rewrite of a list with the given items: nothing when it is no call of a shorthand. -/
def rewrite? (n : Nat) (items : List Object) : Except SyntaxError (Option (Object × Nat)) :=
  match Form.shorthand? (forms items) with
  | some s => (rewrite s n items.tail).map some
  | none => .ok none

/-! ### The forms of rewritten objects -/

variable {n : Nat} {args : List Object}

/-- A documentation string is dropped from the objects when it is dropped from their forms. -/
theorem forms_dropDoc (l : List Object) : forms (dropDoc l) = Shorthand.dropDoc (forms l) := by
  cases l with
  | nil => rfl
  | cons o rest =>
    cases o with
    | leaf k f => cases f <;> rfl
    | collection kind => cases kind <;> rfl

/-- The object that stands for the definition of a function has the form that stands for it. -/
theorem form_rewriteFunction (flag : Option String) :
    (rewriteFunction flag n args).map (fun made => made.1.form) =
      Shorthand.rewriteFunction flag (forms args) := by
  cases args with
  | nil => rfl
  | cons name rest =>
    cases name with
    | collection kind => cases kind <;> rfl
    | leaf k f h =>
      cases f with
      | symbol s =>
        simp only [rewriteFunction, forms, form, Shorthand.rewriteFunction, ← forms_dropDoc]
        cases dropDoc rest with
        | nil => rfl
        | cons params body =>
          cases params with
          | collection kind => cases kind <;> rfl
          | leaf k f h => cases f <;> first | rfl | exact h.elim
      | _ => rfl

theorem form_rewriteWhen (negated : Bool) :
    (rewriteWhen negated n args).map (fun made => made.1.form) =
      Shorthand.rewriteWhen negated (forms args) := by
  cases args with
  | nil => rfl
  | cons test body => cases negated <;> rfl

theorem form_threadStep (value : Object × Nat) (step : Object) :
    (threadStep value step).1.form = Shorthand.threadStep value.1.form step.form := by
  cases step with
  | collection kind k items m => cases kind <;> cases items <;> rfl
  | leaf k f h => cases f <;> first | rfl | exact h.elim

/-- Threading objects one after the other gives the form that threading their forms gives. -/
theorem form_foldl_threadStep (steps : List Object) (value : Object × Nat) :
    (steps.foldl threadStep value).1.form =
      (forms steps).foldl Shorthand.threadStep value.1.form := by
  induction steps generalizing value with
  | nil => rfl
  | cons step rest ih => rw [List.foldl_cons, ih, form_threadStep, forms, List.foldl_cons]

theorem form_rewriteThread :
    (rewriteThread n args).map (fun made => made.1.form) =
      Shorthand.rewriteThread (forms args) := by
  cases args with
  | nil => rfl
  | cons start steps => exact congrArg Except.ok (form_foldl_threadStep steps (start, n))

theorem form_rewriteCond :
    (rewriteCond n args).map (fun made => made.1.form) = Shorthand.rewriteCond (forms args) := by
  match args with
  | [] | [_] | [_, _] | _ :: _ :: _ :: _ => rfl

/-- Whatever the shorthand is, objects are rewritten as their forms are. -/
theorem form_rewrite (s : Shorthand) :
    (rewrite s n args).map (fun made => made.1.form) = s.rewrite (forms args) := by
  cases s with
  | function flag => exact form_rewriteFunction flag
  | when negated => exact form_rewriteWhen negated
  | thread => exact form_rewriteThread
  | cond => exact form_rewriteCond

/-- A rewrite of objects is one of the forms that they are. -/
theorem form_rewrite? (n : Nat) (items : List Object) (m : Metadata) :
    (rewrite? n items).map (Option.map fun made => made.1.form) =
      Form.rewrite? (.list (forms items) m) := by
  rw [rewrite?, Form.rewrite?]
  cases Form.shorthand? (forms items) with
  | none => rfl
  | some s =>
    simp only [← forms_tail, ← form_rewrite s (n := n)]
    cases rewrite s n items.tail <;> rfl

/-- An object that takes the place of a list has the form that takes the place of its form. -/
theorem form_of_rewrite? {items : List Object} {o : Object} {n' : Nat}
    (h : rewrite? n items = .ok (some (o, n'))) (m : Metadata) :
    Form.rewrite? (.list (forms items) m) = .ok (some o.form) := by
  rw [← form_rewrite? n, h]
  rfl

/-! ### Full expansion -/

/-- A collection after its items were expanded: the object itself when every item is the same
object as before, and otherwise a new one around what the items have become. -/
def rebuilt (kind : Kind) (k : Nat) (items : List Object) (m : Metadata)
    (expanded : List Object × Nat) : Object × Nat :=
  if expanded.1.map number = items.map number then (.collection kind k items m, expanded.2)
  else (.collection kind expanded.2 expanded.1 m, expanded.2 + 1)

mutual

/-- The transform routine on objects, when `n` of them have been made. -/
def expand (n : Nat) (o : Object) : Except SyntaxError (Object × Nat) :=
  match o with
  | .leaf k f h => .ok (.leaf k f h, n)
  | .collection .list k items m =>
    if Form.headOf (forms items) = some "quote" then .ok (.collection .list k items m, n)
    else
      match _h : rewrite? n items with
      | .error e => .error e
      | .ok (some (o, n)) => expand n o
      | .ok none => (expandAll n items).map (rebuilt .list k items m)
  | .collection .vector k items m => (expandAll n items).map (rebuilt .vector k items m)
termination_by (o.form.weight false, sizeOf o, 0)
decreasing_by
  -- what a call stands for weighs less; items weigh no more, and are smaller objects
  · exact Prod.Lex.left _ _ (Form.weight_rewrite?_lt (form_of_rewrite? _h m))
  · have := Form.weightAll_le_weight_list (forms items) m
    simp only [Prod.lex_def, form, Kind.form, Object.collection.sizeOf_spec]
    omega
  · have := Form.weightAll_le_weight_vector (forms items) m
    simp only [Prod.lex_def, form, Kind.form, Object.collection.sizeOf_spec]
    omega

/-- The items of a collection in order, up to the first that fails. -/
def expandAll (n : Nat) (items : List Object) : Except SyntaxError (List Object × Nat) :=
  match items with
  | [] => .ok ([], n)
  | o :: rest =>
    match expand n o with
    | .error e => .error e
    | .ok (o', n) => (expandAll n rest).map fun others => (o' :: others.1, others.2)
termination_by (Form.weightAll false 0 (forms items), sizeOf items, 0)
decreasing_by
  · simp only [forms, Form.weightAll, Prod.lex_def, List.cons.sizeOf_spec]
    omega
  · simp only [forms, Form.weightAll, Prod.lex_def, List.cons.sizeOf_spec]
    omega

end

/-! ### Induction along the routine -/

/-- The ways in which the routine goes on, with what it hands back, as the cases of an induction:
`P` of an object that is expanded, and `Q` of objects in a row. -/
structure Outcomes (P : Nat → Object → Except SyntaxError (Object × Nat) → Prop)
    (Q : Nat → List Object → Except SyntaxError (List Object × Nat) → Prop) : Prop where
  leaf : ∀ n k f h, P n (.leaf k f h) (.ok (.leaf k f h, n))
  quoted : ∀ n k items m, Form.headOf (forms items) = some "quote" →
    P n (.collection .list k items m) (.ok (.collection .list k items m, n))
  malformed : ∀ n k items m e, Form.headOf (forms items) ≠ some "quote" →
    rewrite? n items = .error e → P n (.collection .list k items m) (.error e)
  rewritten : ∀ n k items m o n', Form.headOf (forms items) ≠ some "quote" →
    rewrite? n items = .ok (some (o, n')) → P n' o (expand n' o) →
      P n (.collection .list k items m) (expand n' o)
  kept : ∀ n k items m r, Form.headOf (forms items) ≠ some "quote" →
    rewrite? n items = .ok none → Q n items r →
      P n (.collection .list k items m) (r.map (rebuilt .list k items m))
  vector : ∀ n k items m r, Q n items r →
    P n (.collection .vector k items m) (r.map (rebuilt .vector k items m))
  nil : ∀ n, Q n [] (.ok ([], n))
  failed : ∀ n o rest e, P n o (.error e) → Q n (o :: rest) (.error e)
  cons : ∀ n o rest o' n' r, P n o (.ok (o', n')) → Q n' rest r →
    Q n (o :: rest) (r.map fun others => (o' :: others.1, others.2))

variable {n k : Nat} {items : List Object} {m : Metadata}

/-- A call that cannot be rewritten fails with the error of the rewrite. -/
theorem expand_malformed {e : SyntaxError} (hq : Form.headOf (forms items) ≠ some "quote")
    (hr : rewrite? n items = .error e) : expand n (.collection .list k items m) = .error e := by
  rw [expand, if_neg hq]
  split
  next h =>
    rw [hr] at h
    rw [Except.error.inj h]
  next h => simp [hr] at h
  next h => simp [hr] at h

/-- A call that is rewritten is expanded as the object that takes its place. -/
theorem expand_rewritten {o : Object} {n' : Nat}
    (hq : Form.headOf (forms items) ≠ some "quote")
    (hr : rewrite? n items = .ok (some (o, n'))) :
    expand n (.collection .list k items m) = expand n' o := by
  rw [expand, if_neg hq]
  split
  next h => simp [hr] at h
  next h =>
    rw [hr] at h
    cases h
    rfl
  next h => simp [hr] at h

/-- A list that is kept is expanded by its items. -/
theorem expand_kept (hq : Form.headOf (forms items) ≠ some "quote")
    (hr : rewrite? n items = .ok none) :
    expand n (.collection .list k items m) =
      (expandAll n items).map (rebuilt .list k items m) := by
  rw [expand, if_neg hq]
  split
  next h => simp [hr] at h
  next h => simp [hr] at h
  next => rfl

/-- What holds in every case holds of the routine. -/
theorem Outcomes.expand {P : Nat → Object → Except SyntaxError (Object × Nat) → Prop}
    {Q : Nat → List Object → Except SyntaxError (List Object × Nat) → Prop} (h : Outcomes P Q)
    (n : Nat) (o : Object) : P n o (Object.expand n o) := by
  have hall := Object.expand.induct (fun n o => P n o (Object.expand n o))
    fun n l => Q n l (expandAll n l)
  apply hall
  case case1 =>
    intro n k f hf
    rw [Object.expand]
    exact h.leaf n k f hf
  case case2 =>
    intro n k items m hq
    rw [Object.expand, if_pos hq]
    exact h.quoted n k items m hq
  case case3 =>
    intro n k items m hq e hr
    rw [expand_malformed hq hr]
    exact h.malformed n k items m e hq hr
  case case4 =>
    intro n k items m hq o n' hr ih
    rw [expand_rewritten hq hr]
    exact h.rewritten n k items m o n' hq hr ih
  case case5 =>
    intro n k items m hq hr ih
    rw [expand_kept hq hr]
    exact h.kept n k items m _ hq hr ih
  case case6 =>
    intro n k items m ih
    rw [Object.expand]
    exact h.vector n k items m _ ih
  case case7 =>
    intro n
    rw [expandAll]
    exact h.nil n
  case case8 =>
    intro n o rest e he ih
    rw [expandAll, he]
    exact h.failed n o rest e (he ▸ ih)
  case case9 =>
    intro n o rest o' n' he ih ihr
    rw [expandAll, he]
    exact h.cons n o rest o' n' _ (he ▸ ih) ihr

end Object

end CompileWatch
