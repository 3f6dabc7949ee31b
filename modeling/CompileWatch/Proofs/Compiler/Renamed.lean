import CompileWatch.Proofs.Compiler.Renaming

/-!
# The analysis of a form with another name for a binding

When one binding of a form gets a name that the form does not use, and the occurrences that it binds
get it too, the analysis of the form refers to the same definitions in the same order, tells its
observers the same, and ends in the same error, if it ends in one.

- `Form.Alike`: forms that can take each other's place in a walk, with the parts of a walk that keep
  it.
- `Form.alike_of_renames`, `Form.mentions_of_renames`: a form with another name for a binding.
- `Compile.analyzeWithin`: the analysis of a form within the scope of some local names.
- `Compile.analyze_of_renames`: it does not depend on the name of a binding.
-/

namespace CompileWatch

namespace Form

section

variable {old new : String} {S T : List String}

/-! ### Forms in each other's place -/

/-- Whether the form is a symbol or a vector, which can bind names. -/
def isBinder : Form → Bool
  | .symbol _ | .vector .. => true
  | _ => false

/-- Two forms that can take each other's place: neither binds a name, and a walk meets the same in
both. A vector of such forms counts by them, since it may hold the names of a function or binding
form. -/
inductive Alike : Form → Form → Prop where
  | same {f g : Form} (hf : f.isBinder = false) (hg : g.isBinder = false)
      (h : ∀ S, mentions S g = mentions S f) : Alike f g
  | vector {before after : List Form} {f g : Form} {m : Metadata} (h : Alike f g) :
      Alike (.vector (before ++ f :: after) m) (.vector (before ++ g :: after) m)

/-- What can bind nothing is no special form. -/
theorem special?_of_not_isBinder {f : Form} (hf : f.isBinder = false) : special? f = none := by
  cases f <;> first | rfl | cases hf

theorem bindName_of_not_isBinder {f : Form} (hf : f.isBinder = false) (S : List String) :
    bindName S f = S := by
  cases f <;> first | rfl | cases hf

/-- A function with neither a name nor parameters is malformed, whatever stands in their place. -/
theorem mentionsFunction_of_not_isBinder {f : Form} (hf : f.isBinder = false) (S : List String)
    (rest : List Form) :
    mentionsFunction S (f :: rest) = .failed .functionWithoutParameters := by
  cases f <;> first | rfl | cases hf

theorem mentionsFunction_of_not_isBinder_second {f : Form} (hf : f.isBinder = false)
    (S : List String) (name : Symbol) (rest : List Form) :
    mentionsFunction S (.symbol name :: f :: rest) = .failed .functionWithoutParameters := by
  cases f <;> first | rfl | cases hf

theorem mentionsLet_of_not_isBinder {f : Form} (hf : f.isBinder = false) (S : List String)
    (rest : List Form) : mentionsLet S (f :: rest) = .failed .letWithoutBindings := by
  cases f <;> first | rfl | cases hf

/-- In forms in a row, one form can take the place of another that mentions the same. -/
theorem mentionsAll_congr {f g : Form} (h : mentions S g = mentions S f)
    (before after : List Form) :
    mentionsAll S (before ++ g :: after) = mentionsAll S (before ++ f :: after) := by
  induction before with
  | nil => rw [List.nil_append, List.nil_append, mentionsAll, mentionsAll, h]
  | cons a rest ih => rw [List.cons_append, List.cons_append, mentionsAll, mentionsAll, ih]

namespace Alike

variable {f g : Form}

/-- Forms that are alike mention the same. -/
theorem mentions_eq (h : Alike f g) : ∀ S, mentions S g = mentions S f := by
  induction h with
  | same _ _ h => exact h
  | vector _ ih => exact fun S => mentionsAll_congr (ih S) _ _

theorem special?_left (h : Alike f g) : special? f = none := by
  cases h with
  | same hf _ _ => exact special?_of_not_isBinder hf
  | vector _ => rfl

theorem special?_right (h : Alike f g) : special? g = none := by
  cases h with
  | same _ hg _ => exact special?_of_not_isBinder hg
  | vector _ => rfl

/-- Forms that are alike bind the same names. -/
theorem bindName_eq (h : Alike f g) (S : List String) : bindName S g = bindName S f := by
  cases h with
  | same hf hg _ => rw [bindName_of_not_isBinder hf, bindName_of_not_isBinder hg]
  | vector _ => rfl

/-- Among parameters, one can take the place of the other. -/
theorem bindParameters_eq (h : Alike f g) (S : List String) (before after : List Form) :
    bindParameters S (before ++ g :: after) = bindParameters S (before ++ f :: after) := by
  simp only [bindParameters, List.foldl_append, List.foldl_cons, h.bindName_eq]

theorem bindPairs_eq (h : Alike f g) (S : List String) (before after : List Form) :
    bindPairs S (before ++ g :: after) = bindPairs S (before ++ f :: after) := by
  match before with
  | [] =>
    cases after with
    | nil => rfl
    | cons value rest =>
      rw [List.nil_append, List.nil_append, bindPairs, bindPairs, h.bindName_eq]
  | [name] => rfl
  | name :: value :: rest =>
    simp only [List.cons_append, bindPairs]
    exact h.bindPairs_eq _ rest after

/-- Bindings mention the same with either of two forms that are alike. -/
theorem mentionsBindings_eq (h : Alike f g) (S : List String) (before after : List Form) :
    mentionsBindings S (before ++ g :: after) = mentionsBindings S (before ++ f :: after) := by
  match before with
  | [] =>
    cases after with
    | nil => rfl
    | cons value rest =>
      rw [List.nil_append, List.nil_append, mentionsBindings, mentionsBindings, h.bindName_eq]
  | [name] =>
    rw [List.singleton_append, List.singleton_append, mentionsBindings, mentionsBindings,
      h.mentions_eq]
  | name :: value :: rest =>
    simp only [List.cons_append, mentionsBindings]
    rw [h.mentionsBindings_eq _ rest after]

theorem mentionsFunction_eq (h : Alike f g) (S : List String) (before after : List Form) :
    mentionsFunction S (before ++ g :: after) = mentionsFunction S (before ++ f :: after) := by
  match before with
  | [] =>
    cases h with
    | same hf hg _ =>
      exact (mentionsFunction_of_not_isBinder hg S after).trans
        (mentionsFunction_of_not_isBinder hf S after).symm
    | vector h =>
      rw [List.nil_append, List.nil_append, mentionsFunction, mentionsFunction,
        h.bindParameters_eq]
  | [first] =>
    cases first with
    | symbol name =>
      cases h with
      | same hf hg _ =>
        exact (mentionsFunction_of_not_isBinder_second hg S name after).trans
          (mentionsFunction_of_not_isBinder_second hf S name after).symm
      | vector h =>
        rw [List.singleton_append, List.singleton_append, mentionsFunction, mentionsFunction,
          h.bindParameters_eq]
    | vector params m => exact mentionsAll_congr (h.mentions_eq _) [] after
    | _ => rfl
  | first :: second :: rest =>
    cases first with
    | symbol name =>
      cases second with
      | vector params m => exact mentionsAll_congr (h.mentions_eq _) rest after
      | _ => rfl
    | vector params m => exact mentionsAll_congr (h.mentions_eq _) (second :: rest) after
    | _ => rfl

theorem mentionsLet_eq (h : Alike f g) (S : List String) (before after : List Form) :
    mentionsLet S (before ++ g :: after) = mentionsLet S (before ++ f :: after) := by
  cases before with
  | nil =>
    cases h with
    | same hf hg _ =>
      exact (mentionsLet_of_not_isBinder hg S after).trans
        (mentionsLet_of_not_isBinder hf S after).symm
    | vector h =>
      rw [List.nil_append, List.nil_append, mentionsLet, mentionsLet, h.mentionsBindings_eq,
        h.bindPairs_eq]
      simp only [List.length_append, List.length_cons]
  | cons first rest =>
    cases first with
    | vector bindings m =>
      rw [List.cons_append, List.cons_append, mentionsLet, mentionsLet,
        mentionsAll_congr (h.mentions_eq _)]
    | _ => rfl

theorem mentionsCall_eq (h : Alike f g) (S : List String) (before after : List Form) :
    mentionsCall S (before ++ g :: after) = mentionsCall S (before ++ f :: after) := by
  cases before with
  | nil =>
    rw [List.nil_append, List.nil_append, mentionsCall, mentionsCall, h.special?_left,
      h.special?_right, h.mentions_eq]
  | cons head rest =>
    rw [List.cons_append, List.cons_append, mentionsCall, mentionsCall, h.mentionsFunction_eq,
      h.mentionsLet_eq, mentionsAll_congr (h.mentions_eq S)]

end Alike

/-! ### Renamed bindings -/

/-- A name is bound by a symbol, or was bound before. -/
theorem mem_bindName {n : String} {f : Form} :
    n ∈ bindName S f ↔ (∃ s, f = .symbol s ∧ s.name = n) ∨ n ∈ S := by
  cases f with
  | symbol s => simp [bindName, eq_comm]
  | _ => simp [bindName]

/-- A name is bound by one of the parameters, or was bound before. -/
theorem mem_bindParameters {n : String} {params : List Form} :
    n ∈ bindParameters S params ↔ (∃ s, .symbol s ∈ params ∧ s.name = n) ∨ n ∈ S := by
  induction params generalizing S with
  | nil => simp [bindParameters]
  | cons f rest ih =>
    have hstep : bindParameters S (f :: rest) = bindParameters (bindName S f) rest := rfl
    rw [hstep, ih, mem_bindName]
    constructor
    · rintro (⟨s, hs, hn⟩ | ⟨s, rfl, hn⟩ | hn)
      · exact .inl ⟨s, List.mem_cons_of_mem f hs, hn⟩
      · exact .inl ⟨s, List.mem_cons_self, hn⟩
      · exact .inr hn
    · rintro (⟨s, hs, hn⟩ | hn)
      · rcases List.mem_cons.mp hs with rfl | hs
        · exact .inr (.inl ⟨s, rfl, hn⟩)
        · exact .inl ⟨s, hs, hn⟩
      · exact .inr (.inr hn)

variable (hold : SpecialForm.ofName? old = none) (hnew : SpecialForm.ofName? new = none)

include hold hnew

/-- The scope inside a binding of the one name, and inside a binding of the other. -/
theorem renamesScope_cons (S : List String) : RenamesScope old new (old :: S) (new :: S) where
  old_ordinary := hold
  new_ordinary := hnew
  old_mem := List.mem_cons_self
  new_mem := List.mem_cons_self
  others n ho hn := by rw [List.mem_cons, List.mem_cons, or_iff_right ho, or_iff_right hn]

/-- The scope inside a parameter vector, and inside the vector with the other name in it. -/
theorem renamesScope_bindParameters (S : List String) {params : List Form}
    (hparam : ∃ s, .symbol s ∈ params ∧ s.isQualified = false ∧ s.name = old) :
    RenamesScope old new (bindParameters S params)
      (bindParameters S (params.map (renameBinding old new))) where
  old_ordinary := hold
  new_ordinary := hnew
  old_mem := by
    obtain ⟨s, hs, _, hname⟩ := hparam
    exact mem_bindParameters.mpr (.inl ⟨s, hs, hname⟩)
  new_mem := by
    obtain ⟨s, hs, hs'⟩ := hparam
    exact mem_bindParameters.mpr
      (.inl ⟨s.rename old new, List.mem_map_of_mem hs, Symbol.name_rename hs'⟩)
  others n ho hn := by
    rw [mem_bindParameters, mem_bindParameters]
    constructor
    · rintro (⟨s, hs, hname⟩ | hmem)
      · refine .inl ⟨s, ?_, hname⟩
        have hsame : s.rename old new = s := if_neg fun h => ho (hname.symm.trans h.2)
        rw [← hsame]
        exact List.mem_map_of_mem hs
      · exact .inr hmem
    · rintro (⟨s, hs, hname⟩ | hmem)
      · obtain ⟨f, hf, hfs⟩ := List.mem_map.mp hs
        cases f with
        | symbol t =>
          have hts : t.rename old new = s := Form.symbol.inj hfs
          by_cases ht : t.isQualified = false ∧ t.name = old
          · rw [← hts, Symbol.name_rename ht] at hname
            exact (hn hname.symm).elim
          · have hsame : t.rename old new = t := if_neg ht
            exact .inl ⟨t, hf, by rw [← hname, ← hts, hsame]⟩
        | _ => cases hfs
      · exact .inr hmem

/-- A function of another name. -/
theorem mentionsFunction_functionName (S : List String) {name : Symbol} {params body : List Form}
    {pm : Metadata} (hname : name.isQualified = false ∧ name.name = old)
    (hbody : ∀ f ∈ body, f.Lacks new) :
    mentionsFunction S (.symbol (name.rename old new) :: .vector params pm ::
        (if old ∈ bindParameters [] params then body else renameAll old new body)) =
      mentionsFunction S (.symbol name :: .vector params pm :: body) := by
  rw [mentionsFunction, mentionsFunction, Symbol.name_rename hname, hname.2,
    bindParameters_eq (new :: S), bindParameters_eq (old :: S)]
  exact mentionsAll_body (renamesScope_cons hold hnew S) _ hbody
    fun h => mentionsAll_renameAll h body hbody

/-- A function with another name for a parameter. -/
theorem mentionsFunction_parameter (S : List String) {name : Option Symbol}
    {params body : List Form} {pm : Metadata}
    (hparam : ∃ s, .symbol s ∈ params ∧ s.isQualified = false ∧ s.name = old)
    (hbody : ∀ f ∈ body, f.Lacks new) :
    mentionsFunction S (name.toList.map .symbol ++
        .vector (params.map (renameBinding old new)) pm :: renameAll old new body) =
      mentionsFunction S (name.toList.map .symbol ++ .vector params pm :: body) := by
  cases name with
  | none =>
    exact mentionsAll_renameAll (renamesScope_bindParameters hold hnew S hparam) body hbody
  | some name =>
    exact mentionsAll_renameAll (renamesScope_bindParameters hold hnew (name.name :: S) hparam)
      body hbody

omit hold hnew in
/-- Names and values in turn after others. -/
theorem bindPairs_even (S : List String) {before : List Form} (hbefore : before.length % 2 = 0)
    (after : List Form) : bindPairs S (before ++ after) = bindPairs (bindPairs S before) after := by
  match before with
  | [] => rfl
  | [name] => cases hbefore
  | name :: value :: rest =>
    have hrest : rest.length % 2 = 0 := by
      simpa only [List.length_cons, Nat.add_assoc, Nat.add_mod_right] using hbefore
    exact bindPairs_even _ hrest after

omit hold hnew in
/-- Behind bindings that are complete, others can be exchanged. -/
theorem mentionsBindings_even (S : List String) {before after after' : List Form}
    (hbefore : before.length % 2 = 0)
    (h : ∀ S, mentionsBindings S after' = mentionsBindings S after) :
    mentionsBindings S (before ++ after') = mentionsBindings S (before ++ after) := by
  match before with
  | [] => exact h S
  | [name] => cases hbefore
  | name :: value :: rest =>
    have hrest : rest.length % 2 = 0 := by
      simpa only [List.length_cons, Nat.add_assoc, Nat.add_mod_right] using hbefore
    rw [List.cons_append, List.cons_append, List.cons_append, List.cons_append, mentionsBindings,
      mentionsBindings, mentionsBindings_even _ hrest h]

/-- A binding form with another name among its names. -/
theorem mentionsLet_letName (S : List String) {before after body : List Form} {name : Symbol}
    {value : Form} {bm : Metadata} (hbefore : before.length % 2 = 0)
    (hname : name.isQualified = false ∧ name.name = old) (hafter : ∀ f ∈ after, f.Lacks new)
    (hbody : ∀ f ∈ body, f.Lacks new) :
    mentionsLet S (.vector (before ++ .symbol (name.rename old new) :: value ::
          renameValues old new after) bm ::
        (if old ∈ bindPairs [] after then body else renameAll old new body)) =
      mentionsLet S (.vector (before ++ .symbol name :: value :: after) bm :: body) := by
  have hlength : (before ++ .symbol (name.rename old new) :: value ::
      renameValues old new after).length = (before ++ .symbol name :: value :: after).length := by
    simp only [List.length_append, List.length_cons, length_renameValues]
  have hbindings (S : List String) :
      mentionsBindings S (.symbol (name.rename old new) :: value :: renameValues old new after) =
        mentionsBindings S (.symbol name :: value :: after) := by
    rw [mentionsBindings, mentionsBindings, bindName, bindName, Symbol.name_rename hname, hname.2,
      mentionsBindings_renameValues (renamesScope_cons hold hnew S) after hafter]
  rw [mentionsLet, mentionsLet, hlength, mentionsBindings_even S hbefore hbindings,
    bindPairs_even S hbefore, bindPairs_even S hbefore, bindPairs, bindPairs, bindName, bindName,
    Symbol.name_rename hname, hname.2, bindPairs_renameValues, bindPairs_eq (new :: _),
    bindPairs_eq (old :: _), mentionsAll_body (renamesScope_cons hold hnew _) _ hbody
      fun h => mentionsAll_renameAll h body hbody]

/-- A form with another name for a binding can take the place of the form. -/
theorem alike_of_renames {f g : Form} (hlacks : f.Lacks new) (h : Renames old new f g) :
    Alike f g := by
  induction h with
  | @functionName head name params body pm m hhead hname =>
    have hbody : ∀ f ∈ body, f.Lacks new := fun f hf => hlacks.children f (by simp [children, hf])
    refine .same rfl rfl fun S => ?_
    rw [mentions, mentions, mentionsCall, mentionsCall, hhead]
    exact mentionsFunction_functionName hold hnew S hname hbody
  | @parameter head name params body pm m hhead hparam =>
    have hbody : ∀ f ∈ body, f.Lacks new := fun f hf => hlacks.children f (by simp [children, hf])
    refine .same rfl rfl fun S => ?_
    rw [mentions, mentions, mentionsCall, mentionsCall, hhead]
    exact mentionsFunction_parameter hold hnew S hparam hbody
  | @letName head before after body name value bm m hhead hbefore hname =>
    have hbody : ∀ f ∈ body, f.Lacks new := fun f hf => hlacks.children f (by simp [children, hf])
    have hbindings := (hlacks.children
      (.vector (before ++ .symbol name :: value :: after) bm) (by simp [children])).children
    have hafter : ∀ f ∈ after, f.Lacks new := fun f hf => hbindings f (by simp [children, hf])
    refine .same rfl rfl fun S => ?_
    rw [mentions, mentions, mentionsCall, mentionsCall, hhead]
    exact mentionsLet_letName hold hnew S hbefore hname hafter hbody
  | list h ih =>
    have hinner := ih (hlacks.children _ List.mem_append_cons_self)
    exact .same rfl rfl fun S => hinner.mentionsCall_eq S _ _
  | vector h ih => exact .vector (ih (hlacks.children _ List.mem_append_cons_self))
  | map h ih =>
    have hinner := ih (hlacks.children _ List.mem_append_cons_self)
    exact .same rfl rfl fun S => mentionsAll_congr (hinner.mentions_eq S) _ _
  | set h ih =>
    have hinner := ih (hlacks.children _ List.mem_append_cons_self)
    exact .same rfl rfl fun S => mentionsAll_congr (hinner.mentions_eq S) _ _

/-- A walk meets the same under another name for a binding, within every scope. -/
theorem mentions_of_renames {f g : Form} (hlacks : f.Lacks new) (h : Renames old new f g)
    (S : List String) : mentions S g = mentions S f :=
  (alike_of_renames hold hnew hlacks h).mentions_eq S

end

end Form

namespace Compile

variable {σ τ : Type}

/-- The references of a form within the scope of some local names, in order. -/
def analyzeWithin (t : Setting σ τ) (scope : List String) (f : Form) :
    Compile σ (List Reference) := do
  let mentions := f.mentions scope
  let refs ← mentions.symbols.mapM (refer t)
  match mentions.fault with
  | some e => throw (.malformed e)
  | none => return refs

/-- Outside of every binding no name is local. -/
theorem analyze_eq (t : Setting σ τ) (f : Form) : analyze t f = analyzeWithin t [] f := rfl

/-- **Renaming.** Another name for one binding, and for the occurrences that it binds, changes
nothing about the analysis of a form: from every machine, within every scope and whoever observes
it, it refers to the same definitions in the same order, tells the observers the same, and ends in
the same error, if it ends in one. The form does not use the new name, and neither name is that of a
special operator. -/
theorem analyze_of_renames (t : Setting σ τ) (scope : List String) {old new : String} {f g : Form}
    (hold : SpecialForm.ofName? old = none) (hnew : SpecialForm.ofName? new = none)
    (hlacks : f.Lacks new) (h : Form.Renames old new f g) :
    analyzeWithin t scope g = analyzeWithin t scope f := by
  unfold analyzeWithin
  rw [Form.mentions_of_renames hold hnew hlacks h scope]

/-! In `(let [x inc x (fn [a] (x a))] (x x))` the first `x` is the one in the function, and the
second is the one in the body. -/

/-- The form above, with a name for the first `x`. -/
def letTwice (first : String) : Form :=
  .call [.sym "let",
    .vector [.sym first, .sym "inc", .sym "x",
      .call [.sym "fn", .vector [.sym "a"] {}, .call [.sym first, .sym "a"]]] {},
    .call [.sym "x", .sym "x"]]

/-- An observer that keeps the symbols that it is told of. -/
def symbolRecorder : Observer (List Symbol) Unit where
  enter _ _ s := ((), s)
  exit _ _ _ _ s := s
  reference _ _ s := s
  symbol _ x s := s ++ [x]
  unit _ _ _ s := (none, s)

/-- The name of the let is renamed in the body, where a function uses it too. -/
theorem renames_letTwice : Form.Renames "x" "y" (letTwice "x") (letTwice "y") :=
  @Form.Renames.letName "x" "y" (.sym "let") []
    [.sym "x", .call [.sym "fn", .vector [.sym "a"] {}, .call [.sym "x", .sym "a"]]]
    [.call [.sym "x", .sym "x"]] { name := "x" } (.sym "inc") {} {} rfl rfl ⟨rfl, rfl⟩

theorem lacks_letTwice : (letTwice "x").Lacks "y" := by
  simp [letTwice, Form.call, Form.sym, Form.lacks_symbol, Form.lacks_list, Form.lacks_vector]

/-- With the name `x`, the form refers to `inc` once: the other names in it are local. -/
theorem analyzeWithin_letTwice :
    analyzeWithin { observer? := fun _ => some symbolRecorder } [] (letTwice "x")
        { namespaces := .initial, context := {}, outside := [] } =
      (.ok [⟨⟨"clojure.core", "inc"⟩, false, true⟩],
        { namespaces := .initial, context := {}, outside := [{ name := "inc" }] }) := rfl

/-- The renamed form refers to the same, and the observer is told of the same symbols. -/
theorem analyze_of_renames_letTwice :
    let t : Setting (List Symbol) Unit := { observer? := fun _ => some symbolRecorder }
    let m : Machine (List Symbol) := { namespaces := .initial, context := {}, outside := [] }
    Form.Renames "x" "y" (letTwice "x") (letTwice "y") ∧ (letTwice "x").Lacks "y" ∧
      analyzeWithin t [] (letTwice "y") m =
        (.ok [⟨⟨"clojure.core", "inc"⟩, false, true⟩],
          { m with outside := [{ name := "inc" }] }) := by
  intro t m
  refine ⟨renames_letTwice, lacks_letTwice, ?_⟩
  rw [analyze_of_renames t [] (by decide) (by decide) lacks_letTwice renames_letTwice]
  exact analyzeWithin_letTwice

end Compile

end CompileWatch
