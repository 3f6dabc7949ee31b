import CompileWatch.Proofs.Expansion.Settled

/-!
# The calls that expansion rewrites

A watcher that notes every call that is rewritten sees what an expansion does to a form, and in
what order.

- `Form.rewritten`: the calls that expansion rewrites.
- `Form.Rewritings`: the ways in which the routine goes on, with its result and the calls that it
  rewrites, as the cases of an induction.
-/

namespace CompileWatch

namespace Form

/-! ### The rewritten calls -/

/-- Whether a rewrite replaces the form. -/
def isRewritten (f : Form) : Bool :=
  match f.rewrite? with
  | .ok (some _) => true
  | _ => false

/-- A watcher that notes what is rewritten. -/
def rewriting : Watch (List Form) Unit where
  enter f noted := ((), if f.isRewritten then f :: noted else noted)
  exit _ _ _ noted := noted

/-- The calls that expansion of a form rewrites, in it and in what it has rewritten before. -/
def rewritten (f : Form) : List Form := (transform rewriting f []).2

/-- The operator of a call of a shorthand is a symbol. -/
theorem exists_of_shorthand? {items : List Form} {s : Shorthand} (h : shorthand? items = some s) :
    ∃ operator args, items = .symbol operator :: args := by
  cases items with
  | nil => cases h
  | cons f rest =>
    cases f with
    | symbol operator => exact ⟨operator, rest, rfl⟩
    | _ => cases h

/-- What is no list is not rewritten. -/
theorem rewrite?_other {f : Form} (hl : ∀ items m, f ≠ .list items m) : f.rewrite? = .ok none := by
  cases f with
  | list items m => exact absurd rfl (hl items m)
  | _ => rfl

/-- A form that is kept is not noted. -/
theorem enter_kept {f : Form} (h : f.rewrite? = .ok none) (noted : List Form) :
    (rewriting.enter f noted).2 = noted := by
  simp [rewriting, isRewritten, h]

theorem enter_malformed {f : Form} {e : SyntaxError} (h : f.rewrite? = .error e)
    (noted : List Form) : (rewriting.enter f noted).2 = noted := by
  simp [rewriting, isRewritten, h]

/-- A form that is rewritten is noted first. -/
theorem enter_rewritten {f g : Form} (h : f.rewrite? = .ok (some g)) (noted : List Form) :
    (rewriting.enter f noted).2 = f :: noted := by
  simp [rewriting, isRewritten, h]

/-- A call that is rewritten is noted before what is rewritten in the form that takes its place. -/
theorem snd_transform_rewritten {items : List Form} {m : Metadata} {g : Form}
    (hq : headOf items ≠ some "quote") (hr : rewrite? (.list items m) = .ok (some g))
    (noted : List Form) :
    (transform rewriting (.list items m) noted).2 =
      (transform rewriting g (.list items m :: noted)).2 := by
  rw [transform_eq, expandInner_rewritten _ hq hr, enter_rewritten hr]
  rfl

/-! ### Induction -/

/-- The ways in which an expansion goes on, with what it hands back and with the calls that it
rewrites, the last one first: `P` of a form that is expanded, and `Q` of forms in a row. -/
structure Rewritings (P : Form → Except SyntaxError Expansion → List Form → Prop)
    (Q : List Form → Except SyntaxError (Option (List Form)) → List Form → Prop) : Prop where
  quoted : ∀ items m, headOf items = some "quote" → P (.list items m) (.ok .unchanged) []
  malformed : ∀ items m e, headOf items ≠ some "quote" →
    rewrite? (.list items m) = .error e → P (.list items m) (.error e) []
  rewritten : ∀ items m g r calls, headOf items ≠ some "quote" →
    rewrite? (.list items m) = .ok (some g) → P g r calls →
      P (.list items m) (r.map fun e => .changed (e.form g)) (calls ++ [.list items m])
  kept : ∀ items m r calls, headOf items ≠ some "quote" → rewrite? (.list items m) = .ok none →
    Q items r calls →
      P (.list items m) (r.map (Expansion.rebuild fun items => .list items m)) calls
  vector : ∀ items m r calls, Q items r calls →
    P (.vector items m) (r.map (Expansion.rebuild fun items => .vector items m)) calls
  other : ∀ f, (∀ items m, f ≠ .list items m) → (∀ items m, f ≠ .vector items m) →
    P f (.ok .unchanged) []
  nil : Q [] (.ok none) []
  failed : ∀ f rest e calls, P f (.error e) calls → Q (f :: rest) (.error e) calls
  cons : ∀ f rest e calls r calls', P f (.ok e) calls → Q rest r calls' →
    Q (f :: rest) (r.map (Expansion.consItems f rest e)) (calls' ++ calls)

namespace Rewritings

variable {P : Form → Except SyntaxError Expansion → List Form → Prop}
  {Q : List Form → Except SyntaxError (Option (List Form)) → List Form → Prop}

/-- The watcher has noted some calls more, and they are what happened. -/
def Noting {α : Type} (P : α → List Form → Prop) (noted : List Form) (p : α × List Form) : Prop :=
  ∃ calls, p.2 = calls ++ noted ∧ P p.1 calls

/-- The notes of the watcher are those of an induction over expansion. -/
theorem expansionCases (h : Rewritings P Q) :
    ExpansionCases
      (fun f => ∀ noted, Noting (P f) noted (transform rewriting f noted))
      (fun f => ∀ noted, Noting (P f) noted
        (expandInner rewriting f (rewriting.enter f noted).2))
      (fun f => ∀ noted, Noting (P f) noted (expandItem rewriting f noted))
      (fun l => ∀ noted, Noting (Q l) noted (expandItems rewriting l noted)) where
  call f ih noted := by
    rw [transform_eq]
    exact ih noted
  quoted items m hq noted := by
    rw [expandInner_quoted _ m hq,
      enter_kept (rewrite?_eq_none_iff.mpr (shorthand?_of_quoted hq))]
    exact ⟨[], rfl, h.quoted items m hq⟩
  malformed items m e hq hr noted := by
    rw [expandInner_malformed _ hq hr, enter_malformed hr]
    exact ⟨[], rfl, h.malformed items m e hq hr⟩
  rewritten items m g hq hr ih noted := by
    rw [expandInner_rewritten _ hq hr, enter_rewritten hr]
    obtain ⟨calls, hnoted, hg⟩ := ih (.list items m :: noted)
    refine ⟨calls ++ [.list items m], ?_, h.rewritten items m g _ calls hq hr hg⟩
    rw [hnoted, List.append_assoc]
    rfl
  kept items m hq hr ih noted := by
    rw [expandInner_kept _ hq hr, enter_kept hr]
    obtain ⟨calls, hnoted, hitems⟩ := ih noted
    exact ⟨calls, hnoted, h.kept items m _ calls hq hr hitems⟩
  vector items m ih noted := by
    rw [expandInner_vector, enter_kept rfl]
    obtain ⟨calls, hnoted, hitems⟩ := ih noted
    exact ⟨calls, hnoted, h.vector items m _ calls hitems⟩
  other f hl hv noted := by
    rw [expandInner_other _ hl hv, enter_kept (rewrite?_other hl)]
    exact ⟨[], rfl, h.other f hl hv⟩
  itemList items m ih noted := by
    rw [expandItem_list]
    exact ih noted
  itemVector items m ih noted := by
    rw [expandItem_vector]
    exact ih noted
  itemOther f hl hv noted := by
    rw [expandItem_other _ hl hv]
    exact ⟨[], rfl, h.other f hl hv⟩
  nil noted := by
    rw [expandItems_nil]
    exact ⟨[], rfl, h.nil⟩
  cons f rest ihf ihr noted := by
    obtain ⟨calls, hnoted, hf⟩ := ihf noted
    cases he : (expandItem rewriting f noted).1 with
    | error e =>
      rw [he] at hf
      rw [expandItems_cons_error _ he]
      exact ⟨calls, hnoted, h.failed f rest e calls hf⟩
    | ok e =>
      rw [he] at hf
      rw [expandItems_cons_ok _ he]
      obtain ⟨calls', hnoted', hrest⟩ := ihr (expandItem rewriting f noted).2
      refine ⟨calls' ++ calls, ?_, h.cons f rest e calls _ calls' hf hrest⟩
      rw [hnoted', hnoted, List.append_assoc]

/-- What holds in every case holds of the expansion of a form and the calls that it rewrites. -/
theorem expand (h : Rewritings P Q) (f : Form) : P f f.expand f.rewritten := by
  obtain ⟨calls, hnoted, hf⟩ := h.expansionCases.transform f []
  rw [List.append_nil] at hnoted
  rw [fst_transform] at hf
  rw [Form.rewritten, hnoted]
  exact hf

end Rewritings

end Form

end CompileWatch
