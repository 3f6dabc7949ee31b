import CompileWatch.Proofs.Expansion.Watched
import CompileWatch.Proofs.Form.Parts
import CompileWatch.Proofs.Outcome

/-!
# What expansion hands on

Shorthands are rewritten with symbols of their own, and with the parts of the call. So a property
of symbols and of vectors that the symbols of the shorthands have holds everywhere in the expansion
of a form, if it holds everywhere in the form.

- `Form.Inherited`: such a property.
- `Form.Inherited.rewrite?`: one rewrite.
- `Form.Inherited.expand`: full expansion.
- `Form.Named`, `Form.named_expand`: every symbol of a form has a name.
-/

namespace CompileWatch

/-- The operators that shorthands are rewritten with. -/
def Shorthand.operators : List String := ["def", "fn", "if", "do", "cond"]

/-- A property of symbols, which the operators of rewritten calls have, and which depends on no
flag and on no namespace that a symbol is qualified by; and of vectors, in which only the number of
items matters. -/
structure Form.Inherited (P : Form → Prop) : Prop where
  nil : P .nil
  operator : ∀ name ∈ Shorthand.operators, P (.sym name)
  flagged {s : Symbol} (flag : Option String) (h : P (.symbol s)) :
    P (.symbol (Shorthand.flagged s flag))
  bare {s : Symbol} (h : P (.symbol s)) : P (.sym s.name)
  list (items : List Form) (m : Metadata) : P (.list items m)
  vector {items items' : List Form} (m : Metadata) (hlength : items'.length = items.length)
    (h : P (.vector items m)) : P (.vector items' m)

namespace Form.Inherited

open Shorthand

variable {P : Form → Prop} (hP : Inherited P) {args : List Form}

include hP

/-- A list has the property everywhere if its items do. -/
theorem everywhere_list {items : List Form} {m : Metadata} (h : ∀ c ∈ items, c.Everywhere P) :
    (Form.list items m).Everywhere P := Form.everywhere_list.mpr ⟨hP.list items m, h⟩

/-- A call with an operator of its own. -/
theorem call {name : String} (hname : name ∈ operators) (h : ∀ c ∈ args, c.Everywhere P) :
    (Form.call (.sym name :: args)).Everywhere P :=
  hP.everywhere_list (List.forall_mem_cons.mpr
    ⟨everywhere_of_leaf rfl (hP.operator name hname), h⟩)

theorem everywhere_nil : Form.nil.Everywhere P := everywhere_of_leaf rfl hP.nil

/-! ### One rewrite -/

/-- The definition of a function hands the property on to what stands for it. -/
theorem rewriteFunction (h : ∀ f ∈ args, f.Everywhere P) (flag : Option String) :
    Gives (Everywhere P) (Shorthand.rewriteFunction flag args) := by
  unfold Shorthand.rewriteFunction
  split
  · exact gives_error _
  · next name rest =>
    obtain ⟨hname, hrest⟩ := List.forall_mem_cons.mp h
    split
    · next params m body hbody =>
      have hargs : ∀ f ∈ .vector params m :: body, f.Everywhere P :=
        fun f hf => hrest f (mem_of_mem_dropDoc (hbody ▸ hf))
      have hdefined : (Form.symbol (Shorthand.flagged name flag)).Everywhere P :=
        everywhere_of_leaf rfl (hP.flagged flag hname.self)
      have hself : (sym name.name).Everywhere P := everywhere_of_leaf rfl (hP.bare hname.self)
      refine gives_ok (hP.call (by decide) ?_)
      refine List.forall_mem_cons.mpr ⟨hdefined, List.forall_mem_singleton.mpr ?_⟩
      exact hP.call (by decide) (List.forall_mem_cons.mpr ⟨hself, hargs⟩)
    · exact gives_error _
  · exact gives_error _

/-- What stands for a condition keeps the property. -/
theorem rewriteWhen (h : ∀ f ∈ args, f.Everywhere P) (negated : Bool) :
    Gives (Everywhere P) (Shorthand.rewriteWhen negated args) := by
  cases args with
  | nil => exact gives_error _
  | cons test body =>
    obtain ⟨htest, hbody⟩ := List.forall_mem_cons.mp h
    have hrun : (Form.call (sym "do" :: body)).Everywhere P := hP.call (by decide) hbody
    cases negated with
    | true =>
      refine gives_ok (hP.call (by decide) ?_)
      simp [htest, hrun, hP.everywhere_nil]
    | false =>
      refine gives_ok (hP.call (by decide) ?_)
      simp [htest, hrun, hP.everywhere_nil]

/-- A step keeps the property once a value is threaded through it. -/
theorem threadStep {value step : Form} (hv : value.Everywhere P) (hs : step.Everywhere P) :
    (Shorthand.threadStep value step).Everywhere P := by
  unfold Shorthand.threadStep
  split
  · obtain ⟨hhead, hargs⟩ := List.forall_mem_cons.mp (Form.everywhere_list.mp hs).2
    exact hP.everywhere_list
      (List.forall_mem_cons.mpr ⟨hhead, List.forall_mem_cons.mpr ⟨hv, hargs⟩⟩)
  · exact hP.everywhere_list (List.forall_mem_cons.mpr ⟨hs, List.forall_mem_singleton.mpr hv⟩)

theorem rewriteThread (h : ∀ f ∈ args, f.Everywhere P) :
    Gives (Everywhere P) (Shorthand.rewriteThread args) := by
  cases args with
  | nil => exact gives_error _
  | cons start steps =>
    obtain ⟨hstart, hsteps⟩ := List.forall_mem_cons.mp h
    refine gives_ok (List.foldlRecOn steps Shorthand.threadStep hstart fun value hv step hstep => ?_)
    exact hP.threadStep hv (hsteps step hstep)

theorem rewriteCond (h : ∀ f ∈ args, f.Everywhere P) :
    Gives (Everywhere P) (Shorthand.rewriteCond args) := by
  unfold Shorthand.rewriteCond
  split
  · exact gives_ok hP.everywhere_nil
  · exact gives_error _
  · refine gives_ok (hP.call (by decide) ?_)
    simpa [hP.everywhere_nil] using h
  · next test value rest _ =>
    obtain ⟨htest, h⟩ := List.forall_mem_cons.mp h
    obtain ⟨hvalue, hrest⟩ := List.forall_mem_cons.mp h
    have hcond : (Form.call (sym "cond" :: rest)).Everywhere P := hP.call (by decide) hrest
    refine gives_ok (hP.call (by decide) ?_)
    simp [htest, hvalue, hcond]

theorem rewrite (h : ∀ f ∈ args, f.Everywhere P) (s : Shorthand) :
    Gives (Everywhere P) (s.rewrite args) := by
  cases s with
  | function flag => exact hP.rewriteFunction h flag
  | when negated => exact hP.rewriteWhen h negated
  | thread => exact hP.rewriteThread h
  | cond => exact hP.rewriteCond h

/-- What takes the place of a form inherits what the form has everywhere. -/
theorem rewrite? {f g : Form} (h : f.Everywhere P) (hg : f.rewrite? = .ok (some g)) :
    g.Everywhere P := by
  obtain ⟨items, m, s, rfl, -, hr⟩ := Form.exists_of_rewrite? hg
  have htail : ∀ c ∈ items.tail, c.Everywhere P :=
    fun c hc => (Form.everywhere_list.mp h).2 c (List.mem_of_mem_tail hc)
  exact hP.rewrite htail s g hr

/-! ### Full expansion -/

/-- What an expansion of a form hands back has the property everywhere. -/
def Result (P : Form → Prop) (f : Form) (r : Except SyntaxError Expansion) : Prop :=
  Gives (fun e => (e.form f).Everywhere P) r

/-- So have the items after an expansion, and there are as many of them as before. -/
def Items (P : Form → Prop) (l : List Form) (r : Except SyntaxError (Option (List Form))) : Prop :=
  Gives (fun items? => (∀ f ∈ items?.getD l, f.Everywhere P) ∧ (items?.getD l).length = l.length) r

/-- Expansion hands back what inherits the property, for a form and for forms in a row. -/
theorem outcomes :
    Outcomes (fun f r => f.Everywhere P → Result P f r)
      (fun l r => (∀ f ∈ l, f.Everywhere P) → Items P l r) where
  quoted items m hq h := gives_ok h
  malformed items m e hq hr h := gives_error e
  rewritten items m g hq hr ih h := gives_map (ih (hP.rewrite? h hr)) fun e he => he
  kept items m hq hr ih h := by
    refine gives_map (ih (Form.everywhere_list.mp h).2) fun items? hitems => ?_
    cases items? with
    | none => exact h
    | some items' => exact hP.everywhere_list hitems.1
  vector items m ih h := by
    obtain ⟨hself, hparts⟩ := Form.everywhere_vector.mp h
    refine gives_map (ih hparts) fun items? hitems => ?_
    cases items? with
    | none => exact h
    | some items' => exact Form.everywhere_vector.mpr ⟨hP.vector m hitems.2 hself, hitems.1⟩
  other f hl hv h := gives_ok h
  nil h := gives_ok ⟨h, rfl⟩
  failed f rest e ih h := gives_error e
  cons f rest e ihf ihr h := by
    obtain ⟨hf, hrest⟩ := List.forall_mem_cons.mp h
    have hfirst : (e.form f).Everywhere P := ihf hf e rfl
    refine gives_map (ihr hrest) fun items? hitems => ?_
    have hall : (∀ c ∈ e.form f :: items?.getD rest, c.Everywhere P) ∧
        (e.form f :: items?.getD rest).length = (f :: rest).length :=
      ⟨List.forall_mem_cons.mpr ⟨hfirst, hitems.1⟩, congrArg (· + 1) hitems.2⟩
    cases e <;> cases items? <;> exact hall

/-- The expansion of a form. -/
theorem expand {f : Form} (h : f.Everywhere P) : Result P f f.expand :=
  hP.outcomes.expand f h

end Form.Inherited

/-! ### Names -/

namespace Form

/-- Every symbol in a form has a name. -/
def Named (f : Form) : Prop := f.Everywhere IsNamed

/-- A symbol that is an element of a list. -/
theorem Named.nth?_symbol {f : Form} (h : f.Named) {n : Nat} {s : Symbol}
    (hs : (f.nth? n).bind Form.symbol? = some s) : s.Proper := h _ (part_of_nth?_symbol hs)

theorem inherited_isNamed : Inherited IsNamed where
  nil := trivial
  operator := show ∀ name ∈ Shorthand.operators, Symbol.Proper { name } by decide
  flagged flag h := by cases flag <;> exact h
  bare h := Symbol.Proper.bare h
  list _ _ := trivial
  vector _ _ _ := trivial

/-- Full expansion of a form in which every symbol has a name gives such a form. -/
theorem named_expand {f : Form} (h : f.Named) : Gives (fun e => (e.form f).Named) f.expand :=
  inherited_isNamed.expand h

end Form

end CompileWatch
