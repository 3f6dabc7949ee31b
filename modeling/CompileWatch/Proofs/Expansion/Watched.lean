import CompileWatch.Expansion.Full

/-!
# Watching changes no expansion

The transform routine reports every call of itself, but what it hands back depends on
the form alone.

- `ExpansionCases`: the ways in which the routine goes on, as the cases of an induction.
- `transform_eq`, `expandInner_kept` and so on: one equation for each way.
- `fst_transform`: any two watchers see the same result, in whatever state they are.
- `Form.expand_quoted`, `Form.expand_kept` and so on: the equations when nobody watches.
- `Form.Outcomes`: the same ways with their results, as the cases of an induction.
- `Watch.Brackets.snd_transform`, `Watch.Keeps.snd_transform`: how the state of a watcher after an
  expansion compares to the state before it.
-/

namespace CompileWatch

/-! ### Induction along an expansion -/

/-- The cases of an induction along an expansion: `P` of a form that is transformed, `Q`
of a form whose body is expanded, `R` of an item of a collection and `S` of all items. -/
structure ExpansionCases (P Q R : Form → Prop) (S : List Form → Prop) : Prop where
  call : ∀ f, Q f → P f
  quoted : ∀ items m, Form.headOf items = some "quote" → Q (.list items m)
  malformed : ∀ items m e, Form.headOf items ≠ some "quote" →
    Form.rewrite? (.list items m) = .error e → Q (.list items m)
  rewritten : ∀ items m g, Form.headOf items ≠ some "quote" →
    Form.rewrite? (.list items m) = .ok (some g) → P g → Q (.list items m)
  kept : ∀ items m, Form.headOf items ≠ some "quote" →
    Form.rewrite? (.list items m) = .ok none → S items → Q (.list items m)
  vector : ∀ items m, S items → Q (.vector items m)
  other : ∀ f, (∀ items m, f ≠ .list items m) → (∀ items m, f ≠ .vector items m) → Q f
  itemList : ∀ items m, P (.list items m) → R (.list items m)
  itemVector : ∀ items m, Q (.vector items m) → R (.vector items m)
  itemOther : ∀ f, (∀ items m, f ≠ .list items m) → (∀ items m, f ≠ .vector items m) → R f
  nil : S []
  cons : ∀ f rest, R f → S rest → S (f :: rest)

namespace ExpansionCases

variable {P Q R : Form → Prop} {S : List Form → Prop}

mutual

/-- Every form that is transformed. What a rewrite gives is no part of the form that was
rewritten, so the induction is on the weight and not on the tree. -/
theorem transform (h : ExpansionCases P Q R S) (f : Form) : P f :=
  h.call f (h.inner f)
termination_by (f.weight false, sizeOf f, 1)

/-- Every form whose body is expanded. -/
theorem inner (h : ExpansionCases P Q R S) (f : Form) : Q f := by
  match f with
  | .list items m =>
    by_cases hq : Form.headOf items = some "quote"
    · exact h.quoted items m hq
    · match hr : Form.rewrite? (.list items m) with
      | .error e => exact h.malformed items m e hq hr
      | .ok (some g) => exact h.rewritten items m g hq hr (h.transform g)
      | .ok none => exact h.kept items m hq hr (h.items items)
  | .vector items m => exact h.vector items m (h.items items)
  | .nil | .bool _ | .int _ | .float _ | .char _ | .str _ | .keyword _ | .symbol _ | .map _
  | .set _ => exact h.other _ (by simp) (by simp)
termination_by (f.weight false, sizeOf f, 0)
decreasing_by
  -- a rewrite lowers the weight, and the items of a form weigh no more than the form
  · exact Prod.Lex.left _ _ (Form.weight_rewrite?_lt hr)
  · have := Form.weightAll_le_weight_list items m
    simp only [Prod.lex_def, Form.list.sizeOf_spec]
    omega
  · have := Form.weightAll_le_weight_vector items m
    simp only [Prod.lex_def, Form.vector.sizeOf_spec]
    omega

/-- Every item of a collection. -/
theorem item (h : ExpansionCases P Q R S) (f : Form) : R f := by
  match f with
  | .list items m => exact h.itemList items m (h.transform (.list items m))
  | .vector items m => exact h.itemVector items m (h.inner (.vector items m))
  | .nil | .bool _ | .int _ | .float _ | .char _ | .str _ | .keyword _ | .symbol _ | .map _
  | .set _ => exact h.itemOther _ (by simp) (by simp)
termination_by (f.weight false, sizeOf f, 2)

/-- All items of a collection. -/
theorem items (h : ExpansionCases P Q R S) (l : List Form) : S l := by
  match l with
  | [] => exact h.nil
  | f :: rest => exact h.cons f rest (h.item f) (h.items rest)
termination_by (Form.weightAll false 0 l, sizeOf l, 0)
decreasing_by
  · simp only [Form.weightAll, Prod.lex_def, List.cons.sizeOf_spec]
    omega
  · simp only [Form.weightAll, Prod.lex_def, List.cons.sizeOf_spec]
    omega

end

end ExpansionCases

/-! ### The ways in which the routine goes on -/

section

variable {σ τ : Type} (w : Watch σ τ)

/-- A form is expanded between the entry and the exit of its watcher. -/
theorem transform_eq (f : Form) (s : σ) :
    transform w f s =
      ((expandInner w f (w.enter f s).2).1,
        w.exit (w.enter f s).1 f
          (Expansion.handedBack (expandInner w f (w.enter f s).2).1)
          (expandInner w f (w.enter f s).2).2) :=
  transform.eq_1 w f s

/-- A quoted form is handed back as it is. -/
theorem expandInner_quoted {items : List Form} (m : Metadata)
    (hq : Form.headOf items = some "quote") (s : σ) :
    expandInner w (.list items m) s = (.ok .unchanged, s) := by
  rw [expandInner.eq_1, if_pos hq]

/-- A call of a shorthand that cannot be rewritten fails. -/
theorem expandInner_malformed {items : List Form} {m : Metadata} {e : SyntaxError}
    (hq : Form.headOf items ≠ some "quote") (hr : Form.rewrite? (.list items m) = .error e)
    (s : σ) : expandInner w (.list items m) s = (.error e, s) := by
  rw [expandInner.eq_1, if_neg hq]
  split
  next h =>
    rw [hr] at h
    rw [Except.error.inj h]
  next h => simp [hr] at h
  next h => simp [hr] at h

/-- A call that is rewritten is expanded as what takes its place. -/
theorem expandInner_rewritten {items : List Form} {m : Metadata} {g : Form}
    (hq : Form.headOf items ≠ some "quote")
    (hr : Form.rewrite? (.list items m) = .ok (some g)) (s : σ) :
    expandInner w (.list items m) s =
      ((transform w g s).1.map fun e => .changed (e.form g), (transform w g s).2) := by
  rw [expandInner.eq_1, if_neg hq]
  split
  next h => simp [hr] at h
  next h =>
    rw [hr] at h
    rw [Option.some.inj (Except.ok.inj h)]
  next h => simp [hr] at h

/-- A list that is kept is expanded by its items. -/
theorem expandInner_kept {items : List Form} {m : Metadata}
    (hq : Form.headOf items ≠ some "quote") (hr : Form.rewrite? (.list items m) = .ok none)
    (s : σ) :
    expandInner w (.list items m) s =
      ((expandItems w items s).1.map (Expansion.rebuild fun items => .list items m),
        (expandItems w items s).2) := by
  rw [expandInner.eq_1, if_neg hq]
  split
  next h => simp [hr] at h
  next h => simp [hr] at h
  next => rfl

theorem expandInner_vector (items : List Form) (m : Metadata) (s : σ) :
    expandInner w (.vector items m) s =
      ((expandItems w items s).1.map (Expansion.rebuild fun items => .vector items m),
        (expandItems w items s).2) :=
  expandInner.eq_2 w s items m

/-- Any other form is handed back as it is. -/
theorem expandInner_other {f : Form} (hl : ∀ items m, f ≠ .list items m)
    (hv : ∀ items m, f ≠ .vector items m) (s : σ) :
    expandInner w f s = (.ok .unchanged, s) :=
  expandInner.eq_3 w f s hl hv

/-- An item that is a list is entered and left like a form at top level. -/
theorem expandItem_list (items : List Form) (m : Metadata) (s : σ) :
    expandItem w (.list items m) s = transform w (.list items m) s :=
  expandItem.eq_1 w s items m

/-- A vector is not shown to the watcher, though its items are. -/
theorem expandItem_vector (items : List Form) (m : Metadata) (s : σ) :
    expandItem w (.vector items m) s = expandInner w (.vector items m) s :=
  expandItem.eq_2 w s items m

theorem expandItem_other {f : Form} (hl : ∀ items m, f ≠ .list items m)
    (hv : ∀ items m, f ≠ .vector items m) (s : σ) :
    expandItem w f s = (.ok .unchanged, s) :=
  expandItem.eq_3 w f s hl hv

theorem expandItems_nil (s : σ) : expandItems w [] s = (.ok none, s) :=
  expandItems.eq_1 w s

/-- Items after one that fails are not looked at. -/
theorem expandItems_cons_error {f : Form} {s : σ} {e : SyntaxError}
    (h : (expandItem w f s).1 = .error e) (rest : List Form) :
    expandItems w (f :: rest) s = (.error e, (expandItem w f s).2) := by
  rw [expandItems.eq_2]
  simp only [h]

/-- After an item that is expanded, the others are. -/
theorem expandItems_cons_ok {f : Form} {s : σ} {e : Expansion}
    (h : (expandItem w f s).1 = .ok e) (rest : List Form) :
    expandItems w (f :: rest) s =
      ((expandItems w rest (expandItem w f s).2).1.map (Expansion.consItems f rest e),
        (expandItems w rest (expandItem w f s).2).2) := by
  rw [expandItems.eq_2]
  simp only [h]

end

/-! ### The result is that of the form -/

section

variable {σ τ σ' τ' : Type} (w : Watch σ τ) (w' : Watch σ' τ')

/-- Two watchers see the same results. -/
theorem expansionCases_sameResult :
    ExpansionCases
      (fun f => ∀ s s', (transform w f s).1 = (transform w' f s').1)
      (fun f => ∀ s s', (expandInner w f s).1 = (expandInner w' f s').1)
      (fun f => ∀ s s', (expandItem w f s).1 = (expandItem w' f s').1)
      (fun l => ∀ s s', (expandItems w l s).1 = (expandItems w' l s').1) where
  call f ih s s' := by
    rw [transform_eq, transform_eq]
    exact ih _ _
  quoted items m hq s s' := by
    rw [expandInner_quoted w m hq, expandInner_quoted w' m hq]
  malformed items m e hq hr s s' := by
    rw [expandInner_malformed w hq hr, expandInner_malformed w' hq hr]
  rewritten items m g hq hr ih s s' := by
    rw [expandInner_rewritten w hq hr, expandInner_rewritten w' hq hr, ih s s']
  kept items m hq hr ih s s' := by
    rw [expandInner_kept w hq hr, expandInner_kept w' hq hr, ih s s']
  vector items m ih s s' := by
    rw [expandInner_vector, expandInner_vector, ih s s']
  other f hl hv s s' := by
    rw [expandInner_other w hl hv, expandInner_other w' hl hv]
  itemList items m ih s s' := by
    rw [expandItem_list, expandItem_list, ih s s']
  itemVector items m ih s s' := by
    rw [expandItem_vector, expandItem_vector, ih s s']
  itemOther f hl hv s s' := by
    rw [expandItem_other w hl hv, expandItem_other w' hl hv]
  nil s s' := by
    rw [expandItems_nil, expandItems_nil]
  cons f rest ihf ihr s s' := by
    -- both watchers see the item fail, or neither does
    have hf := ihf s s'
    cases h : (expandItem w f s).1 with
    | error e =>
      rw [expandItems_cons_error w h, expandItems_cons_error w' (hf.symm.trans h)]
    | ok e =>
      rw [expandItems_cons_ok w h, expandItems_cons_ok w' (hf.symm.trans h), ihr _ _]

/-- What the transform routine gives is the expansion of the form, whoever watches. -/
theorem fst_transform (f : Form) (s : σ) : (transform w f s).1 = f.expand :=
  (expansionCases_sameResult w Watch.silent).transform f s ()

end

/-! ### Nobody watches -/

namespace Form

/-- Full expansion of forms in a row that nobody watches. -/
def expandEach (l : List Form) : Except SyntaxError (Option (List Form)) :=
  (expandItems Watch.silent l ()).1

/-- A form is expanded as it is when nobody watches. -/
theorem expand_eq (f : Form) : f.expand = (expandInner Watch.silent f ()).1 := by
  rw [expand, transform_eq]

section

variable {items : List Form} {m : Metadata}

/-- A quoted form is not expanded. -/
theorem expand_quoted (m : Metadata) (hq : headOf items = some "quote") :
    (Form.list items m).expand = .ok .unchanged := by
  rw [expand_eq, expandInner_quoted _ m hq]

/-- A malformed call of a shorthand is an error. -/
theorem expand_malformed {e : SyntaxError} (hq : headOf items ≠ some "quote")
    (hr : rewrite? (.list items m) = .error e) : (Form.list items m).expand = .error e := by
  rw [expand_eq, expandInner_malformed _ hq hr]

/-- A call of a shorthand is expanded to the expansion of what takes its place. -/
theorem expand_rewritten {g : Form} (hq : headOf items ≠ some "quote")
    (hr : rewrite? (.list items m) = .ok (some g)) :
    (Form.list items m).expand = g.expand.map fun e => .changed (e.form g) := by
  rw [expand_eq, expandInner_rewritten _ hq hr]
  rfl

/-- Any other list is expanded item by item. -/
theorem expand_kept (hq : headOf items ≠ some "quote")
    (hr : rewrite? (.list items m) = .ok none) :
    (Form.list items m).expand =
      (expandEach items).map (Expansion.rebuild fun items => .list items m) := by
  rw [expand_eq, expandInner_kept _ hq hr]
  rfl

theorem expand_vector (items : List Form) (m : Metadata) :
    (Form.vector items m).expand =
      (expandEach items).map (Expansion.rebuild fun items => .vector items m) := by
  rw [expand_eq, expandInner_vector]
  rfl

/-- Any other form is expanded to itself. -/
theorem expand_other {f : Form} (hl : ∀ items m, f ≠ .list items m)
    (hv : ∀ items m, f ≠ .vector items m) : f.expand = .ok .unchanged := by
  rw [expand_eq, expandInner_other _ hl hv]

theorem fst_expandItem (f : Form) : (expandItem Watch.silent f ()).1 = f.expand := by
  match f with
  | .list items m => rw [expandItem_list, expand]
  | .vector items m => rw [expandItem_vector, expand_eq]
  | .nil | .bool _ | .int _ | .float _ | .char _ | .str _ | .keyword _ | .symbol _ | .map _
  | .set _ => rw [expandItem_other _ (by simp) (by simp), expand_other (by simp) (by simp)]

theorem expandEach_nil : expandEach [] = .ok none := by
  rw [expandEach, expandItems_nil]

/-- Items after one that fails are not expanded. -/
theorem expandEach_cons_error {f : Form} {e : SyntaxError} (h : f.expand = .error e)
    (rest : List Form) : expandEach (f :: rest) = .error e := by
  rw [expandEach, expandItems_cons_error _ ((fst_expandItem f).trans h)]

/-- Items are expanded one after the other. -/
theorem expandEach_cons_ok {f : Form} {e : Expansion} (h : f.expand = .ok e) (rest : List Form) :
    expandEach (f :: rest) = (expandEach rest).map (Expansion.consItems f rest e) := by
  rw [expandEach, expandItems_cons_ok _ ((fst_expandItem f).trans h)]
  rfl

end

/-- The ways in which an expansion goes on that nobody watches, with what it hands back: `P` of a
form that is expanded, and `Q` of forms in a row. -/
structure Outcomes (P : Form → Except SyntaxError Expansion → Prop)
    (Q : List Form → Except SyntaxError (Option (List Form)) → Prop) : Prop where
  quoted : ∀ items m, headOf items = some "quote" → P (.list items m) (.ok .unchanged)
  malformed : ∀ items m e, headOf items ≠ some "quote" →
    rewrite? (.list items m) = .error e → P (.list items m) (.error e)
  rewritten : ∀ items m g, headOf items ≠ some "quote" →
    rewrite? (.list items m) = .ok (some g) → P g g.expand →
      P (.list items m) (g.expand.map fun e => .changed (e.form g))
  kept : ∀ items m, headOf items ≠ some "quote" → rewrite? (.list items m) = .ok none →
    Q items (expandEach items) →
      P (.list items m) ((expandEach items).map (Expansion.rebuild fun items => .list items m))
  vector : ∀ items m, Q items (expandEach items) →
    P (.vector items m) ((expandEach items).map (Expansion.rebuild fun items => .vector items m))
  other : ∀ f, (∀ items m, f ≠ .list items m) → (∀ items m, f ≠ .vector items m) →
    P f (.ok .unchanged)
  nil : Q [] (.ok none)
  failed : ∀ f rest e, P f (.error e) → Q (f :: rest) (.error e)
  cons : ∀ f rest e, P f (.ok e) → Q rest (expandEach rest) →
    Q (f :: rest) ((expandEach rest).map (Expansion.consItems f rest e))

namespace Outcomes

variable {P : Form → Except SyntaxError Expansion → Prop}
  {Q : List Form → Except SyntaxError (Option (List Form)) → Prop}

/-- Induction on expansion is a case of the induction on everything that is watched. -/
theorem expansionCases (h : Outcomes P Q) :
    ExpansionCases (fun f => P f f.expand) (fun f => P f f.expand) (fun f => P f f.expand)
      (fun l => Q l (expandEach l)) where
  call f ih := ih
  quoted items m hq := by
    rw [expand_quoted m hq]
    exact h.quoted items m hq
  malformed items m e hq hr := by
    rw [expand_malformed hq hr]
    exact h.malformed items m e hq hr
  rewritten items m g hq hr ih := by
    rw [expand_rewritten hq hr]
    exact h.rewritten items m g hq hr ih
  kept items m hq hr ih := by
    rw [expand_kept hq hr]
    exact h.kept items m hq hr ih
  vector items m ih := by
    rw [expand_vector]
    exact h.vector items m ih
  other f hl hv := by
    rw [expand_other hl hv]
    exact h.other f hl hv
  itemList items m ih := ih
  itemVector items m ih := ih
  itemOther f hl hv := by
    rw [expand_other hl hv]
    exact h.other f hl hv
  nil := by
    rw [expandEach_nil]
    exact h.nil
  cons f rest ihf ihr := by
    cases he : f.expand with
    | error e =>
      rw [expandEach_cons_error he]
      exact h.failed f rest e (he ▸ ihf)
    | ok e =>
      rw [expandEach_cons_ok he]
      exact h.cons f rest e (he ▸ ihf) ihr

/-- What holds in every case holds of the expansion of a form. -/
theorem expand (h : Outcomes P Q) (f : Form) : P f f.expand := h.expansionCases.transform f

end Outcomes

end Form

/-! ### What a watcher keeps -/

namespace Watch

variable {σ τ : Type}

/-- How the state of a watcher after a part of an expansion compares to the state before it: as
between the entry of a call and its exit, so around the call. -/
structure Brackets (w : Watch σ τ) (R : σ → σ → Prop) : Prop where
  refl : ∀ s, R s s
  trans : ∀ s s' s'', R s s' → R s' s'' → R s s''
  around : ∀ f e s s', R (w.enter f s).2 s' → R s (w.exit (w.enter f s).1 f e s')

section

variable {w : Watch σ τ} {R : σ → σ → Prop}

/-- What brackets every call brackets each of the routines. -/
theorem expansionCases_brackets (h : w.Brackets R) :
    ExpansionCases (fun f => ∀ s, R s (transform w f s).2)
      (fun f => ∀ s, R s (expandInner w f s).2) (fun f => ∀ s, R s (expandItem w f s).2)
      (fun l => ∀ s, R s (expandItems w l s).2) where
  call f ih s := by
    rw [transform_eq]
    exact h.around f _ s _ (ih _)
  quoted items m hq s := by
    rw [expandInner_quoted w m hq]
    exact h.refl s
  malformed items m e hq hr s := by
    rw [expandInner_malformed w hq hr]
    exact h.refl s
  rewritten items m g hq hr ih s := by
    rw [expandInner_rewritten w hq hr]
    exact ih s
  kept items m hq hr ih s := by
    rw [expandInner_kept w hq hr]
    exact ih s
  vector items m ih s := by
    rw [expandInner_vector]
    exact ih s
  other f hl hv s := by
    rw [expandInner_other w hl hv]
    exact h.refl s
  itemList items m ih s := by
    rw [expandItem_list]
    exact ih s
  itemVector items m ih s := by
    rw [expandItem_vector]
    exact ih s
  itemOther f hl hv s := by
    rw [expandItem_other w hl hv]
    exact h.refl s
  nil s := by
    rw [expandItems_nil]
    exact h.refl s
  cons f rest ihf ihr s := by
    cases hf : (expandItem w f s).1 with
    | error e =>
      rw [expandItems_cons_error w hf]
      exact ihf s
    | ok e =>
      rw [expandItems_cons_ok w hf]
      exact h.trans _ _ _ (ihf s) (ihr _)

/-- What brackets every call brackets an expansion. -/
theorem Brackets.snd_transform (h : w.Brackets R) (f : Form) (s : σ) : R s (transform w f s).2 :=
  (expansionCases_brackets h).transform f s

theorem Brackets.snd_expandInner (h : w.Brackets R) (f : Form) (s : σ) :
    R s (expandInner w f s).2 := (expansionCases_brackets h).inner f s

end

/-- A watcher keeps a property of its state. -/
structure Keeps (w : Watch σ τ) (P : σ → Prop) : Prop where
  enter : ∀ f s, P s → P (w.enter f s).2
  exit : ∀ token f e s, P s → P (w.exit token f e s)

variable {w : Watch σ τ} {P : σ → Prop}

/-- What is kept at every entry and exit is kept between them. -/
theorem Keeps.brackets (h : w.Keeps P) : w.Brackets fun s s' => P s → P s' where
  refl _ hs := hs
  trans _ _ _ h₁ h₂ hs := h₂ (h₁ hs)
  around f e s s' hinner hs := h.exit _ f e s' (hinner (h.enter f s hs))

/-- What a watcher keeps is kept by an expansion. -/
theorem Keeps.snd_transform (h : w.Keeps P) (f : Form) {s : σ} (hs : P s) : P (transform w f s).2 :=
  h.brackets.snd_transform f s hs

end Watch

end CompileWatch
