import CompileWatch.Form.Basic

/-!
# Parts of forms

What holds of every form inside a form, at any depth.

- `Form.Part`: a form inside another; `Form.part_of_nth?`: an element of a list.
- `Form.Everywhere`: a property of all of them, with its laws.
- `Form.induction_on_children`: induction from the direct parts of a form to the form.
- `Symbol.Proper`: what can be written as a symbol.
- `Form.symAt`, `Form.listAt`: a symbol and a list on a line; `Form.IsNamed`, `Form.IsPlaced`: what
  can be said of a symbol, and of a list.
-/

namespace CompileWatch

namespace Symbol

/-- A symbol has a name, and no opening bracket in it, which would end the word. -/
def Proper (s : Symbol) : Prop := s.name ≠ "" ∧ '[' ∉ s.text.toList

instance (s : Symbol) : Decidable s.Proper := inferInstanceAs (Decidable (_ ∧ _))

/-- A symbol with a name is written with at least one character. -/
theorem text_ne_empty {s : Symbol} (h : s.name ≠ "") : s.text ≠ "" := by
  unfold text
  cases s.ns with
  | none => exact h
  | some ns => simp

/-- The name of a symbol is a symbol, too. -/
theorem Proper.bare {s : Symbol} (h : s.Proper) : Proper { name := s.name } := by
  refine ⟨h.1, fun hmem => h.2 ?_⟩
  have hname : '[' ∈ s.name.toList := hmem
  unfold text
  cases s.ns with
  | none => exact hname
  | some ns => simp [hname]

end Symbol

namespace Form

/-- A form is another one, or stands somewhere inside it. -/
inductive Part (g : Form) : Form → Prop where
  | here : Part g g
  | inside {c f : Form} (hc : c ∈ f.children) (h : Part g c) : Part g f

/-- Every form inside a form, and the form itself, has a property. -/
def Everywhere (p : Form → Prop) (f : Form) : Prop := ∀ g, Part g f → p g

variable {p q : Form → Prop} {f : Form}

/-- A property holds everywhere if it holds of the form and everywhere in its parts. -/
theorem everywhere_iff : Everywhere p f ↔ p f ∧ ∀ c ∈ f.children, Everywhere p c := by
  constructor
  · intro h
    exact ⟨h f .here, fun c hc g hg => h g (.inside hc hg)⟩
  · rintro ⟨hf, hc⟩ g hg
    cases hg with
    | here => exact hf
    | inside hmem hpart => exact hc _ hmem g hpart

theorem everywhere_of_leaf (hf : f.children = []) (h : p f) : Everywhere p f :=
  everywhere_iff.mpr ⟨h, by simp [hf]⟩

/-- It holds everywhere in a list if it holds of the list, and everywhere in the items. -/
theorem everywhere_list {items : List Form} {m : Metadata} :
    Everywhere p (.list items m) ↔ p (.list items m) ∧ ∀ c ∈ items, Everywhere p c :=
  everywhere_iff

theorem everywhere_vector {items : List Form} {m : Metadata} :
    Everywhere p (.vector items m) ↔ p (.vector items m) ∧ ∀ c ∈ items, Everywhere p c :=
  everywhere_iff

theorem Everywhere.self (h : Everywhere p f) : p f := h f .here

/-- A part of a part is a part. -/
theorem Part.trans {c g : Form} (h : Part c g) (hg : Part g f) : Part c f := by
  induction hg with
  | here => exact h
  | inside hc _ ih => exact .inside hc ih

/-- What holds everywhere in a form holds everywhere in a part of it. -/
theorem Everywhere.part (h : Everywhere p f) {g : Form} (hg : Part g f) : Everywhere p g :=
  fun _ hc => h _ (hc.trans hg)

/-- An element of a list is a part of it. -/
theorem part_of_nth? {g : Form} {n : Nat} (h : f.nth? n = some g) : Part g f := by
  obtain ⟨items, hitems, hmem⟩ := Option.bind_eq_some_iff.mp h
  cases f with
  | list items m =>
    cases hitems
    exact .inside (List.mem_of_getElem? hmem) .here
  | _ => cases hitems

/-- A symbol that is an element of a list. -/
theorem part_of_nth?_symbol {n : Nat} {s : Symbol} (h : (f.nth? n).bind Form.symbol? = some s) :
    Part (.symbol s) f := by
  obtain ⟨g, hg, hs⟩ := Option.bind_eq_some_iff.mp h
  cases g with
  | symbol s =>
    cases hs
    exact part_of_nth? hg
  | _ => cases hs

/-- A weaker property holds wherever a stronger one does. -/
theorem Everywhere.imp (h : Everywhere p f) (hpq : ∀ g, p g → q g) : Everywhere q f :=
  fun g hg => hpq g (h g hg)

/-- A part is smaller than the form. -/
theorem sizeOf_lt_of_mem_children {c : Form} (h : c ∈ f.children) : sizeOf c < sizeOf f := by
  cases f with
  | list items m =>
    have hlt := List.sizeOf_lt_of_mem h
    simp only [children, list.sizeOf_spec] at hlt ⊢
    omega
  | vector items m =>
    have hlt := List.sizeOf_lt_of_mem h
    simp only [children, vector.sizeOf_spec] at hlt ⊢
    omega
  | map items =>
    have hlt := List.sizeOf_lt_of_mem h
    simp only [children, map.sizeOf_spec] at hlt ⊢
    omega
  | set items =>
    have hlt := List.sizeOf_lt_of_mem h
    simp only [children, set.sizeOf_spec] at hlt ⊢
    omega
  | _ => cases h

/-- A property that a form has when its direct parts have it. -/
theorem induction_on_children {P : Form → Prop} (step : ∀ f, (∀ c ∈ f.children, P c) → P f)
    (f : Form) : P f :=
  step f fun c _ => induction_on_children step c
termination_by sizeOf f
decreasing_by exact sizeOf_lt_of_mem_children ‹_›

/-! ### Symbols and lists -/

/-- A symbol that was read on a line. -/
def symAt (line : Nat) (name : String) : Form := .symbol { name, metadata := .atLine line }

/-- A list that was read on one line. -/
def listAt (line : Nat) (items : List Form) : Form := .list items (.span line line)

/-- A symbol is one that can be written. -/
def IsNamed : Form → Prop
  | .symbol s => s.Proper
  | _ => True

/-- A list stands between two lines, unless it was written as a quote mark. -/
def IsPlaced : Form → Prop
  | .list items m => headOf items = some "quote" ∨ m.line.isSome ∧ m.endLine.isSome
  | _ => True

end Form

end CompileWatch
