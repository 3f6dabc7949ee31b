import CompileWatch.Compiler.Mentions
import CompileWatch.Proofs.Expansion.Rewritten
import CompileWatch.Proofs.Outcome
import CompileWatch.Proofs.Form.Parts

/-!
# Symbols that can name definitions

An analysis comes to no more symbols than a form has, special operators apart, and expansion makes
no more of them: what is rewritten is a call of a shorthand, whose name goes.

- `Form.names`: the symbols of a form that are no special operators.
- `Form.sublist_mentions`: an analysis comes to some of them.
- `Form.length_names_expand`: expansion makes no more of them.
-/

namespace CompileWatch

namespace Form

mutual

/-- The symbols of a form that are no special operators, in order. -/
def names : Form → List Symbol
  | .symbol s => if isLocal [] s then [] else [s]
  | .list items _ => namesAll items
  | .vector items _ => namesAll items
  | .map items => namesAll items
  | .set items => namesAll items
  | _ => []

/-- Those of forms in a row. -/
def namesAll : List Form → List Symbol
  | [] => []
  | f :: rest => names f ++ namesAll rest

end

theorem length_namesAll_cons (f : Form) (rest : List Form) :
    (namesAll (f :: rest)).length = f.names.length + (namesAll rest).length := by
  rw [namesAll, List.length_append]

/-- A symbol has one name at most. -/
theorem length_names_symbol_le (s : Symbol) : (Form.symbol s).names.length ≤ 1 := by
  rw [names]
  split
  · exact Nat.zero_le 1
  · exact Nat.le_refl 1

/-! ### Analysis -/

/-- A special operator names no definition, whatever names are local. -/
theorem isLocal_of_nil {s : Symbol} (h : isLocal [] s = true) (scope : List String) :
    isLocal scope s = true := by
  simp only [isLocal, List.contains_nil, Bool.false_or, Bool.and_eq_true] at h
  simp [isLocal, h.1, h.2]

/-- What two walks meet, one after the other. -/
theorem sublist_andThen {a b : Mentions} {l l' : List Symbol} (ha : a.symbols.Sublist l)
    (hb : b.symbols.Sublist l') : (a.andThen b).symbols.Sublist (l ++ l') := by
  unfold Mentions.andThen
  split
  · exact ha.trans (List.sublist_append_left l l')
  · exact ha.append hb

mutual

/-- An analysis comes to symbols of the form, each of them once. -/
theorem sublist_mentions (scope : List String) (f : Form) :
    (f.mentions scope).symbols.Sublist f.names := by
  cases f with
  | symbol s =>
    rw [mentions, names]
    by_cases hlocal : isLocal [] s
    · rw [if_pos (isLocal_of_nil hlocal scope)]
      exact List.nil_sublist _
    · rw [if_neg hlocal]
      split
      · exact List.nil_sublist _
      · exact List.Sublist.refl _
  | list items m => exact sublist_mentionsCall scope items
  | vector items m => exact sublist_mentionsAll scope items
  | set items => exact sublist_mentionsAll scope items
  | map items => exact sublist_mentionsAll scope items
  | _ => exact List.nil_sublist _

/-- The symbols that forms in a row mention are among their names, in order. -/
theorem sublist_mentionsAll (scope : List String) (l : List Form) :
    (mentionsAll scope l).symbols.Sublist (namesAll l) := by
  cases l with
  | nil => exact List.nil_sublist _
  | cons f rest => exact sublist_andThen (sublist_mentions scope f) (sublist_mentionsAll scope rest)

theorem sublist_mentionsCall (scope : List String) (items : List Form) :
    (mentionsCall scope items).symbols.Sublist (namesAll items) := by
  cases items with
  | nil => exact List.nil_sublist _
  | cons f rest =>
    have hrest := List.sublist_append_right f.names (namesAll rest)
    rw [mentionsCall, namesAll]
    split
    · exact List.nil_sublist _
    · exact (sublist_mentionsFunction scope rest).trans hrest
    · exact (sublist_mentionsLet scope rest).trans hrest
    · exact List.nil_sublist _
    · exact sublist_andThen (sublist_mentions scope f) (sublist_mentionsAll scope rest)

theorem sublist_mentionsFunction (scope : List String) (items : List Form) :
    (mentionsFunction scope items).symbols.Sublist (namesAll items) := by
  unfold mentionsFunction
  split
  next name params m body =>
    refine (sublist_mentionsAll _ body).trans ?_
    exact (List.sublist_append_right _ _).trans (List.sublist_append_right _ _)
  next params m body =>
    exact (sublist_mentionsAll _ body).trans (List.sublist_append_right _ _)
  next => exact List.nil_sublist _

theorem sublist_mentionsLet (scope : List String) (items : List Form) :
    (mentionsLet scope items).symbols.Sublist (namesAll items) := by
  unfold mentionsLet
  split
  next bindings m body =>
    split
    · exact sublist_andThen (sublist_mentionsBindings scope bindings) (sublist_mentionsAll _ body)
    · exact List.nil_sublist _
  next => exact List.nil_sublist _

theorem sublist_mentionsBindings (scope : List String) (bindings : List Form) :
    (mentionsBindings scope bindings).symbols.Sublist (namesAll bindings) := by
  unfold mentionsBindings
  split
  next name value rest =>
    refine (sublist_andThen (sublist_mentions scope value) ?_).trans
      (List.sublist_append_right _ _)
    exact sublist_mentionsBindings _ rest
  next => exact List.nil_sublist _

end

/-- A name of forms in a row is one of one of them. -/
theorem exists_of_mem_namesAll {s : Symbol} {l : List Form} (h : s ∈ namesAll l) :
    ∃ f ∈ l, s ∈ f.names := by
  induction l with
  | nil => cases h
  | cons f rest ih =>
    rcases List.mem_append.mp h with h | h
    · exact ⟨f, List.mem_cons_self, h⟩
    · obtain ⟨f', hf', hs⟩ := ih h
      exact ⟨f', .tail f hf', hs⟩

/-- A symbol of a form stands in it. -/
theorem part_of_mem_names {s : Symbol} {f : Form} (h : s ∈ f.names) : Part (.symbol s) f := by
  induction f using induction_on_children with
  | step f ih =>
    cases f with
    | symbol s' =>
      rw [names] at h
      split at h
      · cases h
      · rw [List.mem_singleton.mp h]
        exact .here
    | list items m | vector items m | map items | set items =>
      obtain ⟨c, hc, hs⟩ := exists_of_mem_namesAll h
      exact .inside hc (ih c hc hs)
    | _ => cases h

theorem sublist_namesAll {f : Form} {l : List Form} (h : f ∈ l) : f.names.Sublist (namesAll l) := by
  induction l with
  | nil => cases h
  | cons f' rest ih =>
    rcases List.mem_cons.mp h with rfl | h
    · exact List.sublist_append_left _ _
    · exact (ih h).trans (List.sublist_append_right _ _)

/-- The symbols of a part are some of those of the form. -/
theorem Part.sublist_names {f g : Form} (h : Part g f) : g.names.Sublist f.names := by
  induction h with
  | here => exact List.Sublist.refl _
  | @inside c f hc _ ih =>
    have hall := ih.trans (sublist_namesAll hc)
    cases f with
    | list items m | vector items m | map items | set items => exact hall
    | _ => cases hc

end Form

/-! ### One rewrite -/

namespace Shorthand

open Form

variable {args : List Form}

/-- No shorthand has the name of a special operator. -/
theorem special_eq_none_of_ofName? {name : String} (h : (ofName? name).isSome) :
    SpecialForm.ofName? name = none := by
  unfold ofName? at h
  repeat' split at h
  all_goals first | subst name | cases h
  all_goals decide

/-- A call with a special operator. -/
theorem length_names_call {name : String} (h : (SpecialForm.ofName? name).isSome) (args : List Form) :
    (Form.call (.sym name :: args)).names.length = (namesAll args).length := by
  have hoperator : (sym name).names = [] := by
    rw [sym, names, if_pos]
    simp [isLocal, Symbol.isQualified, h]
  show (namesAll (.sym name :: args)).length = _
  rw [length_namesAll_cons, hoperator, List.length_nil, Nat.zero_add]

/-- A documentation string has no names. -/
theorem length_namesAll_dropDoc (l : List Form) :
    (namesAll (dropDoc l)).length = (namesAll l).length := by
  rcases dropDoc_cases l with h | ⟨doc, h⟩
  · rw [h]
  · have hsize := congrArg (fun l => (namesAll l).length) h
    rw [hsize, length_namesAll_cons]
    exact (Nat.zero_add _).symm

/-- What stands for the definition of a function has one name more than the arguments at most. -/
theorem length_names_rewriteFunction (flag : Option String) :
    Gives (fun g => g.names.length ≤ 1 + (namesAll args).length) (rewriteFunction flag args) := by
  unfold rewriteFunction
  split
  · exact gives_error _
  next name rest =>
    split
    next params m body hbody =>
      refine gives_ok ?_
      have hflagged : (Form.symbol (flagged name flag)).names.length =
          (Form.symbol name).names.length := by
        cases flag with
        | none => rfl
        | some flag =>
          rw [names, names]
          show (if isLocal [] name then ([] : List Symbol) else [_]).length = _
          split <;> rfl
      have hself : (sym name.name).names.length ≤ 1 := length_names_symbol_le _
      rw [length_names_call (by decide), length_namesAll_cons, length_namesAll_cons,
        length_names_call (by decide), length_namesAll_cons, ← hbody, length_namesAll_dropDoc,
        hflagged, length_namesAll_cons, namesAll, List.length_nil]
      omega
    · exact gives_error _
  · exact gives_error _

theorem length_names_rewriteWhen (negated : Bool) :
    Gives (fun g => g.names.length ≤ 1 + (namesAll args).length) (rewriteWhen negated args) := by
  cases args with
  | nil => exact gives_error _
  | cons test body =>
    have hrun : (call (sym "do" :: body)).names.length = (namesAll body).length :=
      length_names_call (by decide) body
    have hnil : Form.nil.names.length = 0 := rfl
    have hend : (namesAll []).length = 0 := rfl
    cases negated with
    | true =>
      refine gives_ok ?_
      rw [if_pos rfl, length_names_call (by decide)]
      simp only [length_namesAll_cons, hrun, hnil, hend]
      omega
    | false =>
      refine gives_ok ?_
      rw [if_neg Bool.false_ne_true, length_names_call (by decide)]
      simp only [length_namesAll_cons, hrun, hnil, hend]
      omega

/-- Threading keeps all names of a value and of a step, and adds none. -/
theorem length_names_threadStep (value step : Form) :
    (threadStep value step).names.length = value.names.length + step.names.length := by
  unfold threadStep
  split
  next head args m =>
    show (namesAll (head :: value :: args)).length = _ + (namesAll (head :: args)).length
    simp only [length_namesAll_cons]
    omega
  next =>
    show (namesAll [step, value]).length = _
    rw [length_namesAll_cons, length_namesAll_cons, namesAll, List.length_nil]
    omega

/-- What stands for a threaded call has one name more than the arguments at most. -/
theorem length_names_rewriteThread :
    Gives (fun g => g.names.length ≤ 1 + (namesAll args).length) (rewriteThread args) := by
  cases args with
  | nil => exact gives_error _
  | cons start steps =>
    have hsteps : ∀ value, (steps.foldl threadStep value).names.length =
        value.names.length + (namesAll steps).length := by
      induction steps with
      | nil => exact fun _ => rfl
      | cons step rest ih =>
        intro value
        rw [List.foldl_cons, ih, length_names_threadStep, length_namesAll_cons, Nat.add_assoc]
    refine gives_ok ?_
    rw [hsteps, length_namesAll_cons]
    omega

theorem length_names_rewriteCond :
    Gives (fun g => g.names.length ≤ 1 + (namesAll args).length) (rewriteCond args) := by
  have hnil : Form.nil.names.length = 0 := rfl
  have hend : (namesAll []).length = 0 := rfl
  unfold rewriteCond
  split
  · exact gives_ok (Nat.zero_le _)
  · exact gives_error _
  next test value =>
    refine gives_ok ?_
    rw [length_names_call (by decide)]
    simp only [length_namesAll_cons, hnil, hend]
    omega
  next test value rest _ =>
    -- the operator of the chain goes on to the rest of it
    have hcond : (call (sym "cond" :: rest)).names.length = 1 + (namesAll rest).length :=
      length_namesAll_cons (sym "cond") rest
    refine gives_ok ?_
    rw [length_names_call (by decide)]
    simp only [length_namesAll_cons, hcond, hend]
    omega

theorem length_names_rewrite (s : Shorthand) :
    Gives (fun g => g.names.length ≤ 1 + (namesAll args).length) (s.rewrite args) := by
  cases s with
  | function flag => exact length_names_rewriteFunction flag
  | when negated => exact length_names_rewriteWhen negated
  | thread => exact length_names_rewriteThread
  | cond => exact length_names_rewriteCond

end Shorthand

/-! ### Full expansion -/

namespace Form

/-- A form that takes the place of another has no more names than that one. -/
theorem length_names_rewrite? {f g : Form} (h : f.rewrite? = .ok (some g)) :
    g.names.length ≤ f.names.length := by
  obtain ⟨items, m, s, rfl, hs, hr⟩ := exists_of_rewrite? h
  obtain ⟨operator, args, rfl⟩ := exists_of_shorthand? hs
  have hoperator : (Form.symbol operator).names.length = 1 := by
    obtain ⟨name, hname, hs⟩ := Option.bind_eq_some_iff.mp hs
    rw [names, if_neg]
    · rfl
    · have hkept := Shorthand.special_eq_none_of_ofName? (Option.isSome_of_eq_some hs)
      simp only [headOf, Option.ite_none_left_eq_some, Option.some.injEq] at hname
      simp [isLocal, hname.2, hkept]
  have hle : g.names.length ≤ 1 + (namesAll args).length := s.length_names_rewrite g hr
  show _ ≤ (namesAll (.symbol operator :: args)).length
  rw [length_namesAll_cons, hoperator]
  exact hle

theorem length_namesAll_consItems (f : Form) (rest : List Form) (e : Expansion)
    (others : Option (List Form)) :
    (namesAll ((Expansion.consItems f rest e others).getD (f :: rest))).length =
      (e.form f).names.length + (namesAll (others.getD rest)).length := by
  rw [← length_namesAll_cons]
  cases e <;> cases others <;> rfl

/-- Expansion adds no names. -/
theorem outcomes_names :
    Outcomes (fun f => Gives fun e => (e.form f).names.length ≤ f.names.length)
      (fun l => Gives fun l' => (namesAll (l'.getD l)).length ≤ (namesAll l).length) where
  quoted items m hq := gives_ok (Nat.le_refl _)
  malformed items m e hq hr := gives_error e
  rewritten items m g hq hr ih :=
    gives_map ih fun e he => Nat.le_trans he (length_names_rewrite? hr)
  kept items m hq hr ih := by
    refine gives_map ih fun items' h => ?_
    cases items' <;> exact h
  vector items m ih := by
    refine gives_map ih fun items' h => ?_
    cases items' <;> exact h
  other f hl hv := gives_ok (Nat.le_refl _)
  nil := gives_ok (Nat.le_refl _)
  failed f rest e ih := gives_error e
  cons f rest e ihf ihr := by
    refine gives_map ihr fun others hothers => ?_
    rw [length_namesAll_consItems, length_namesAll_cons]
    exact Nat.add_le_add (ihf e rfl) hothers

/-- Expansion makes no more symbols that can name definitions. -/
theorem length_names_expand (f : Form) :
    Gives (fun e => (e.form f).names.length ≤ f.names.length) f.expand :=
  outcomes_names.expand f

end Form

end CompileWatch
