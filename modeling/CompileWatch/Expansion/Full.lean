import CompileWatch.Expansion.Weight

/-!
# Full expansion

The transform routine expands a form until nothing is left to expand, and calls
itself for every rewritten call and for every list inside. Each of these calls is
reported to a watcher, on entry and on exit, in the order in which they happen.

- `Watch`: what a watcher does on entry and on exit.
- `transform`: full expansion under a watcher, with the watcher's state.
- `Form.expand`: full expansion that nobody watches.

A form that nothing expands is handed back as the very same object, and the watcher
is told so: `Expansion.unchanged` is not `Expansion.changed` with an equal form.
-/

namespace CompileWatch

/-- The outcome of an expansion that succeeds. -/
inductive Expansion where
  /-- The form itself is handed back. -/
  | unchanged
  /-- Another form takes its place. -/
  | changed (f : Form)
deriving Inhabited

namespace Expansion

/-- The form that an expansion of `f` hands back. -/
def form (e : Expansion) (f : Form) : Form :=
  match e with
  | .unchanged => f
  | .changed g => g

/-- The new form, if there is one. -/
def new? : Expansion → Option Form
  | .unchanged => none
  | .changed g => some g

end Expansion

/-- A watcher of the transform routine: `enter` hands out a token, and `exit` gets it
back together with the form that was entered and what the routine hands back. A routine
that fails hands back the form it was given. -/
structure Watch (σ τ : Type) where
  enter : Form → σ → τ × σ
  exit : τ → Form → Expansion → σ → σ

namespace Watch

/-- A watcher that does nothing. -/
def silent {σ : Type} : Watch σ Unit := ⟨fun _ s => ((), s), fun _ _ _ s => s⟩

end Watch

namespace Expansion

/-- What a failed or finished routine hands back. -/
def handedBack : Except SyntaxError Expansion → Expansion
  | .ok e => e
  | .error _ => .unchanged

/-- The items after an expansion of the first one and of the others. -/
def consItems (f : Form) (rest : List Form) : Expansion → Option (List Form) → Option (List Form)
  | .unchanged, none => none
  | .changed g, none => some (g :: rest)
  | e, some rest' => some (e.form f :: rest')

/-- A collection whose items were expanded. -/
def rebuild (build : List Form → Form) : Option (List Form) → Expansion
  | none => .unchanged
  | some items => .changed (build items)

end Expansion

variable {σ τ : Type}

mutual

/-- The transform routine: full expansion of a form under a watcher. -/
def transform (w : Watch σ τ) (f : Form) (s : σ) : Except SyntaxError Expansion × σ :=
  let (token, s) := w.enter f s
  let (result, s) := expandInner w f s
  (result, w.exit token f (Expansion.handedBack result) s)
termination_by (f.weight false, sizeOf f, 1)

/-- The body of the transform routine. Quoted forms stay; a shorthand is rewritten and
the result transformed; otherwise the items of a list or vector are expanded. -/
def expandInner (w : Watch σ τ) (f : Form) (s : σ) : Except SyntaxError Expansion × σ :=
  match f with
  | .list items m =>
    if Form.headOf items = some "quote" then (.ok .unchanged, s)
    else
      match _h : Form.rewrite? (.list items m) with
      | .error e => (.error e, s)
      | .ok (some g) =>
        let (result, s) := transform w g s
        (result.map fun e => .changed (e.form g), s)
      | .ok none =>
        let (result, s) := expandItems w items s
        (result.map (Expansion.rebuild fun items => .list items m), s)
  | .vector items m =>
    let (result, s) := expandItems w items s
    (result.map (Expansion.rebuild fun items => .vector items m), s)
  | _ => (.ok .unchanged, s)
termination_by (f.weight false, sizeOf f, 0)
decreasing_by
  · exact Prod.Lex.left _ _ (Form.weight_rewrite?_lt _h)
  · have := Form.weightAll_le_weight_list items m
    simp only [Prod.lex_def, Form.list.sizeOf_spec]
    omega
  · have := Form.weightAll_le_weight_vector items m
    simp only [Prod.lex_def, Form.vector.sizeOf_spec]
    omega

/-- One item of a collection: a list is transformed, a vector expanded, and everything
else stays. -/
def expandItem (w : Watch σ τ) (f : Form) (s : σ) : Except SyntaxError Expansion × σ :=
  match f with
  | .list items m => transform w (.list items m) s
  | .vector items m => expandInner w (.vector items m) s
  | _ => (.ok .unchanged, s)
termination_by (f.weight false, sizeOf f, 2)

/-- The items of a collection in order, up to the first that fails. Nothing when every
item stays. -/
def expandItems (w : Watch σ τ) (items : List Form) (s : σ) :
    Except SyntaxError (Option (List Form)) × σ :=
  match items with
  | [] => (.ok none, s)
  | f :: rest =>
    let (first, s) := expandItem w f s
    match first with
    | .error e => (.error e, s)
    | .ok e =>
      let (others, s) := expandItems w rest s
      (others.map (Expansion.consItems f rest e), s)
termination_by (Form.weightAll false 0 items, sizeOf items, 0)
decreasing_by
  · simp only [Form.weightAll, Prod.lex_def, List.cons.sizeOf_spec]
    omega
  · have := Form.weightAll_false_le false 0 rest
    simp only [Form.weightAll, Prod.lex_def, List.cons.sizeOf_spec]
    omega

end

/-- Full expansion that nobody watches. -/
def Form.expand (f : Form) : Except SyntaxError Expansion := (transform Watch.silent f ()).1

end CompileWatch
