/-!
# Results that may fail

What holds of a result, if there is one, and how it is carried along a computation.
-/

namespace CompileWatch

/-- The result, if there is one, has a property. -/
def Gives {ε α : Type} (P : α → Prop) (x : Except ε α) : Prop := ∀ a, x = .ok a → P a

variable {ε α β : Type} {P : α → Prop} {R : β → Prop}

/-- Two computations in a row give a result only if the first one does. -/
theorem exists_of_bind_eq_ok {x : Except ε α} {f : α → Except ε β} {b : β}
    (h : x >>= f = .ok b) : ∃ a, x = .ok a ∧ f a = .ok b := by
  cases x with
  | error e => cases h
  | ok a => exact ⟨a, rfl, h⟩

/-- An error that neither step of a computation ends in. -/
theorem bind_ne_error {x : Except ε α} {f : α → Except ε β} {e : ε} (hx : x ≠ .error e)
    (hf : ∀ a, f a ≠ .error e) : x >>= f ≠ .error e := by
  cases x with
  | error e' => exact fun h => hx (congrArg Except.error (Except.error.inj h))
  | ok a => exact hf a

theorem gives_ok {a : α} (h : P a) : Gives P (.ok a : Except ε α) := by
  rintro _ ⟨⟩
  exact h

/-- A failure gives nothing, and so nothing without the property. -/
theorem gives_error (e : ε) : Gives P (.error e : Except ε α) := by
  rintro _ ⟨⟩

/-- What the first computation gives is handed to the second. -/
theorem gives_bind {x : Except ε α} {f : α → Except ε β} (hx : Gives P x)
    (hf : ∀ a, P a → Gives R (f a)) : Gives R (x >>= f) := by
  cases x with
  | error e => exact gives_error e
  | ok a => exact hf a (hx a rfl)

/-- A function changes what is given. -/
theorem gives_map {x : Except ε α} {f : α → β} (hx : Gives P x) (hf : ∀ a, P a → R (f a)) :
    Gives R (x.map f) := by
  cases x with
  | error e => exact gives_error e
  | ok a => exact gives_ok (hf a (hx a rfl))

/-- What one step keeps, all steps keep. -/
theorem gives_foldlM {f : β → α → Except ε β} {l : List α}
    (hf : ∀ b, R b → ∀ a ∈ l, Gives R (f b a)) {b : β} (hb : R b) : Gives R (l.foldlM f b) := by
  induction l generalizing b with
  | nil => exact gives_ok hb
  | cons a rest ih =>
    rw [List.foldlM_cons]
    refine gives_bind (hf b hb a List.mem_cons_self) fun b' hb' => ?_
    exact ih (fun b hb a ha => hf b hb a (List.mem_cons_of_mem _ ha)) hb'

end CompileWatch
