import CompileWatch.Proofs.Expansion.Watched

/-!
# Outermost lists

The transform routine calls itself for every list inside a form. A watcher that looks away
while a list is under way sees only the outermost ones: the form itself, or the lists that
are reached from a vector through vectors.

- `Form.outermost`: the outermost lists of a form.
- `Form.entered`: those that are entered, up to the first that cannot be expanded.
- `Watch.LooksAway`: a watcher that an expansion leaves as it was.
- `Watch.LooksAtLists`: a watcher that looks away while a list is under way.
- `Watch.LooksAtLists.snd_transform`: it is told of the entered outermost lists, and of nothing else.
-/

namespace CompileWatch

namespace Form

mutual

/-- The outermost lists of a form, in order. -/
def outermost : Form → List Form
  | .list items m => [.list items m]
  | .vector items _ => outermostAll items
  | _ => []

/-- The outermost lists of forms in a row. -/
def outermostAll : List Form → List Form
  | [] => []
  | f :: rest => outermost f ++ outermostAll rest

end

/-- Whether a form can be expanded. -/
def expands (f : Form) : Bool := f.expand.isOk

/-- The forms of a row that are entered: the first that cannot be expanded is the last. -/
def entered : List Form → List Form
  | [] => []
  | f :: rest => f :: if f.expands then entered rest else []

/-- No list is outermost in a form that is neither a list nor a vector. -/
theorem outermost_other {f : Form} (hl : ∀ items m, f ≠ .list items m)
    (hv : ∀ items m, f ≠ .vector items m) : f.outermost = [] := by
  cases f with
  | list items m => exact absurd rfl (hl items m)
  | vector items m => exact absurd rfl (hv items m)
  | _ => rfl

mutual

/-- The outermost parts of a form are lists. -/
theorem isList_of_mem_outermost {f g : Form} (h : g ∈ f.outermost) : g.isList := by
  cases f with
  | list items m =>
    rw [List.mem_singleton.mp h]
    rfl
  | vector items m => exact isList_of_mem_outermostAll h
  | _ => cases h

theorem isList_of_mem_outermostAll {l : List Form} {g : Form} (h : g ∈ outermostAll l) :
    g.isList := by
  cases l with
  | nil => cases h
  | cons f rest =>
    rcases List.mem_append.mp h with h | h
    · exact isList_of_mem_outermost h
    · exact isList_of_mem_outermostAll h

end

/-- Nothing is entered that is not there. -/
theorem entered_subset (l : List Form) : entered l ⊆ l := by
  induction l with
  | nil => exact List.Subset.refl []
  | cons f rest ih =>
    rw [entered]
    split
    · exact List.cons_subset_cons f ih
    · exact List.cons_subset_cons f (List.nil_subset rest)

/-- A row is entered to its end when all of it can be expanded. -/
theorem entered_append_of_all {l : List Form} (h : l.all expands) (l' : List Form) :
    entered (l ++ l') = l ++ entered l' := by
  induction l with
  | nil => rfl
  | cons f rest ih =>
    rw [List.all_cons, Bool.and_eq_true] at h
    rw [List.cons_append, entered, if_pos h.1, ih h.2]
    rfl

/-- Nothing is entered after a row that cannot be expanded to its end. -/
theorem entered_append_of_not_all {l : List Form} (h : ¬ l.all expands) (l' : List Form) :
    entered (l ++ l') = entered l := by
  induction l with
  | nil => exact absurd rfl h
  | cons f rest ih =>
    rw [List.cons_append, entered, entered]
    by_cases hf : f.expands
    · rw [if_pos hf, if_pos hf, ih]
      intro hr
      exact h (by rw [List.all_cons, hf, hr]; rfl)
    · rw [if_neg hf, if_neg hf]

end Form

/-! ### What can be expanded -/

section

variable {σ τ : Type} (w : Watch σ τ)

theorem isOk_map {ε α β : Type} (f : α → β) (x : Except ε α) :
    (x.map f).isOk = x.isOk := by
  cases x <;> rfl

/-- Items can be expanded when all their outermost lists can. -/
theorem expansionCases_isOk :
    ExpansionCases
      (fun f => ∀ s, (transform w f s).1.isOk = f.outermost.all Form.expands)
      (fun f => ¬ f.isList → ∀ s, (expandInner w f s).1.isOk = f.outermost.all Form.expands)
      (fun f => ∀ s, (expandItem w f s).1.isOk = f.outermost.all Form.expands)
      (fun l => ∀ s, (expandItems w l s).1.isOk = (Form.outermostAll l).all Form.expands) where
  call f ih s := by
    by_cases hf : f.isList
    · -- a list is its own outermost list
      obtain ⟨items, m, rfl⟩ : ∃ items m, f = .list items m := by
        cases f <;> first | exact ⟨_, _, rfl⟩ | cases hf
      rw [fst_transform]
      exact (Bool.and_true _).symm
    · rw [transform_eq]
      exact ih hf _
  quoted items m hq h := absurd rfl h
  malformed items m e hq hr h := absurd rfl h
  rewritten items m g hq hr ih h := absurd rfl h
  kept items m hq hr ih h := absurd rfl h
  vector items m ih h s := by
    rw [expandInner_vector, isOk_map]
    exact ih s
  other f hl hv h s := by
    rw [expandInner_other w hl hv, Form.outermost_other hl hv]
    rfl
  itemList items m ih s := by
    rw [expandItem_list]
    exact ih s
  itemVector items m ih s := by
    rw [expandItem_vector]
    exact ih (by simp [Form.isList, Form.items?]) s
  itemOther f hl hv s := by
    rw [expandItem_other w hl hv, Form.outermost_other hl hv]
    rfl
  nil s := by
    rw [expandItems_nil]
    rfl
  cons f rest ihf ihr s := by
    show _ = (f.outermost ++ Form.outermostAll rest).all Form.expands
    rw [List.all_append, ← ihf s]
    cases he : (expandItem w f s).1 with
    | error e =>
      rw [expandItems_cons_error w he]
      rfl
    | ok e =>
      rw [expandItems_cons_ok w he, isOk_map, ihr]
      rfl

end

/-! ### Looking away -/

namespace Watch

variable {σ τ : Type} {w : Watch σ τ} {I J : σ → Prop}

/-- In the states `J`, a watcher is told of calls, and is afterwards as it was before. -/
structure LooksAway (w : Watch σ τ) (J : σ → Prop) : Prop where
  enter : ∀ f s, J s → J (w.enter f s).2
  exit : ∀ f e s, J s → w.exit (w.enter f s).1 f e (w.enter f s).2 = s

/-- A watcher that looks away is as it was after each call. -/
theorem LooksAway.brackets (h : w.LooksAway J) : w.Brackets fun s s' => J s → s' = s where
  refl _ _ := rfl
  trans s s' s'' h₁ h₂ hs := by
    obtain rfl := h₁ hs
    exact h₂ hs
  around f e s s' hinner hs := by
    rw [hinner (h.enter f s hs)]
    exact h.exit f e s hs

/-! ### Looking at lists -/

/-- In the states `I`, a watcher looks at lists, and it looks away while one is under way. -/
structure LooksAtLists (w : Watch σ τ) (I J : σ → Prop) : Prop where
  away : w.LooksAway J
  list : ∀ f s, I s → f.isList → J (w.enter f s).2
  back : ∀ f e s, I s → f.isList → I (w.exit (w.enter f s).1 f e (w.enter f s).2)
  enterOther : ∀ f s, ¬ f.isList → (w.enter f s).2 = s
  exitOther : ∀ f e s s', ¬ f.isList → w.exit (w.enter f s).1 f e s' = s'

/-- What a watcher makes of a list that is entered and left, with nothing in between. -/
def around (w : Watch σ τ) (s : σ) (f : Form) : σ :=
  w.exit (w.enter f s).1 f (Expansion.handedBack f.expand) (w.enter f s).2

/-- After lists in a row, a watcher that looks at lists looks again. -/
theorem LooksAtLists.foldl_around (h : w.LooksAtLists I J) {l : List Form}
    (hl : ∀ f ∈ l, f.isList) {s : σ} (hs : I s) : I (l.foldl w.around s) := by
  induction l generalizing s with
  | nil => exact hs
  | cons f rest ih =>
    obtain ⟨hf, hrest⟩ := List.forall_mem_cons.mp hl
    exact ih hrest (h.back f _ s hs hf)

/-- To a watcher that looks at outermost lists only, expansion is nothing but those lists in a
row. -/
theorem expansionCases_looksAtLists (h : w.LooksAtLists I J) :
    ExpansionCases
      (fun f => ∀ s, I s → (transform w f s).2 = (Form.entered f.outermost).foldl w.around s)
      (fun f => ¬ f.isList → ∀ s, I s →
        (expandInner w f s).2 = (Form.entered f.outermost).foldl w.around s)
      (fun f => ∀ s, I s → (expandItem w f s).2 = (Form.entered f.outermost).foldl w.around s)
      (fun l => ∀ s, I s →
        (expandItems w l s).2 = (Form.entered (Form.outermostAll l)).foldl w.around s) where
  call f ih s hs := by
    by_cases hf : f.isList
    · -- nothing happens between the entry of the list and its exit
      have hinner := h.away.brackets.snd_expandInner f _ (h.list f s hs hf)
      have hexpand := fst_transform w f s
      obtain ⟨items, m, rfl⟩ : ∃ items m, f = .list items m := by
        cases f <;> first | exact ⟨_, _, rfl⟩ | cases hf
      rw [transform_eq] at hexpand ⊢
      rw [hinner]
      show w.exit _ _ (Expansion.handedBack _) _ = _
      have hone : Form.entered (Form.list items m).outermost = [.list items m] := by
        show Form.entered [.list items m] = _
        simp [Form.entered]
      rw [hone, List.foldl_cons, List.foldl_nil, around, ← hexpand]
    · rw [transform_eq, h.enterOther f s hf, ih hf s hs]
      exact h.exitOther f _ s _ hf
  quoted items m hq h := absurd rfl h
  malformed items m e hq hr h := absurd rfl h
  rewritten items m g hq hr ih h := absurd rfl h
  kept items m hq hr ih h := absurd rfl h
  vector items m ih h s hs := by
    rw [expandInner_vector]
    exact ih s hs
  other f hl hv h s hs := by
    rw [expandInner_other w hl hv, Form.outermost_other hl hv]
    rfl
  itemList items m ih s hs := by
    rw [expandItem_list]
    exact ih s hs
  itemVector items m ih s hs := by
    rw [expandItem_vector]
    exact ih (by simp [Form.isList, Form.items?]) s hs
  itemOther f hl hv s hs := by
    rw [expandItem_other w hl hv, Form.outermost_other hl hv]
    rfl
  nil s hs := by
    rw [expandItems_nil]
    rfl
  cons f rest ihf ihr s hs := by
    have hok := (expansionCases_isOk w).item f s
    show _ = (Form.entered (f.outermost ++ Form.outermostAll rest)).foldl w.around s
    -- an item fails exactly when one of its outermost lists does, and so the row ends there
    cases he : (expandItem w f s).1 with
    | error e =>
      rw [he] at hok
      have hnot : ¬ f.outermost.all Form.expands := by
        rw [← hok]
        exact Bool.false_ne_true
      rw [expandItems_cons_error w he, Form.entered_append_of_not_all hnot]
      exact ihf s hs
    | ok e =>
      rw [he] at hok
      have hall : f.outermost.all Form.expands := hok.symm
      have hnil := Form.entered_append_of_all hall []
      rw [List.append_nil] at hnil
      rw [expandItems_cons_ok w he, Form.entered_append_of_all hall, List.foldl_append]
      show (expandItems w rest (expandItem w f s).2).2 = _
      have hf := ihf s hs
      rw [hnil, Form.entered, List.append_nil] at hf
      rw [hf]
      exact ihr _ (h.foldl_around (fun g hg => Form.isList_of_mem_outermost hg) hs)

/-- A watcher that looks at lists is told of the outermost lists that are entered, one after
the other, and an expansion does nothing else to it. -/
theorem LooksAtLists.snd_transform (h : w.LooksAtLists I J) (f : Form) {s : σ} (hs : I s) :
    (transform w f s).2 = (Form.entered f.outermost).foldl w.around s :=
  (expansionCases_looksAtLists h).transform f s hs

end Watch

end CompileWatch
