import Mathlib.Algebra.Order.Group.Multiset
import CompileWatch.Proofs.Expansion.Balance

/-!
# What expansion keeps of the data

Expansion moves the atoms of a form around, writes a few of its own and drops a few others. It
writes nothing but the operators of what a call stands for, the name of a function a second time,
and nil; it drops nothing but the operator of the call and the documentation of a function.

- `Form.gather`: what is selected from the atoms of a form, in sets, maps and quoted forms, too.
- `Shorthand.gather_rewrite`: what one rewrite writes and drops, shorthand by shorthand.
- `Form.literals`, `Form.texts`, `Form.ordinaryNames`: three selections.
- `Form.atoms_expand`: what an expansion makes of them.
-/

namespace CompileWatch

namespace Form

/-! ### Atoms -/

section

variable {α : Type}

mutual

/-- What is selected from the atoms of a form. -/
def gather (select : Form → Multiset α) : Form → Multiset α
  | .list items _ => gatherAll select items
  | .vector items _ => gatherAll select items
  | .map items => gatherAll select items
  | .set items => gatherAll select items
  | atom => select atom

/-- What is selected from the atoms of forms in a row. -/
def gatherAll (select : Form → Multiset α) : List Form → Multiset α
  | [] => 0
  | f :: rest => gather select f + gatherAll select rest

end

/-- A selection that does not look at the metadata of symbols. -/
def SelectsNames (select : Form → Multiset α) : Prop :=
  ∀ s m, select (.symbol { s with metadata := m }) = select (.symbol s)

/-- A flag on a symbol changes nothing that is counted by names. -/
theorem SelectsNames.flagged {select : Form → Multiset α} (h : SelectsNames select) (s : Symbol)
    (flag : Option String) :
    gather select (.symbol (Shorthand.flagged s flag)) = gather select (.symbol s) := by
  cases flag with
  | none => rfl
  | some flag => exact h s _

end

/-! ### Selections -/

/-- A boolean, a number, a character or a keyword. -/
def selectLiteral : Form → Multiset Form
  | .bool b => {.bool b}
  | .int n => {.int n}
  | .float x => {.float x}
  | .char c => {.char c}
  | .keyword name => {.keyword name}
  | _ => 0

/-- A string. -/
def selectText : Form → Multiset String
  | .str text => {text}
  | _ => 0

/-- A symbol that is no name of a shorthand, by its namespace and its name. -/
def selectName : Form → Multiset (Option String × String)
  | .symbol s => if (shorthand? [.symbol s]).isSome then 0 else {(s.ns, s.name)}
  | _ => 0

/-- The booleans, numbers, characters and keywords of a form. -/
def literals : Form → Multiset Form := gather selectLiteral

/-- The strings of a form. -/
def texts : Form → Multiset String := gather selectText

/-- The symbols of a form that are no names of shorthands. -/
def ordinaryNames : Form → Multiset (Option String × String) := gather selectName

end Form

open Form

namespace Shorthand

/-! ### One rewrite -/

/-- The atoms that are written in the place of a call. -/
def added : Shorthand → List Form → List Form
  | .function _, .symbol name :: _ => [sym "def", sym "fn", sym name.name]
  | .function _, _ => []
  | .when _, _ => [sym "if", sym "do", .nil]
  | .thread, _ => []
  | .cond, [] => [.nil]
  | .cond, [_, _] => [sym "if", .nil]
  | .cond, _ => [sym "if", sym "cond"]

/-- The documentation of a function, which is dropped. -/
def documentation : Shorthand → List Form → List String
  | .function _, _ :: .str doc :: _ => [doc]
  | _, _ => []

variable {α : Type} {select : Form → Multiset α} {args : List Form} {g : Form}

theorem gather_call (items : List Form) :
    gather select (call items) = gatherAll select items := rfl

/-- What is gathered from items without their documentation falls short by the documentation. -/
theorem gatherAll_dropDoc (select : Form → Multiset α) (flag : Option String) (name : Form)
    (rest : List Form) :
    gatherAll select (dropDoc rest) +
        gatherAll select ((documentation (.function flag) (name :: rest)).map .str) =
      gatherAll select rest := by
  unfold dropDoc
  split
  next doc rest =>
    simp only [documentation, List.map_cons, List.map_nil, gatherAll]
    abel
  next hother =>
    have hnone : documentation (.function flag) (name :: rest) = [] := by
      unfold documentation
      split
      next heq =>
        cases heq
        exact absurd rfl (hother _ _)
      · rfl
    rw [hnone]
    exact add_zero _

/-- The definition of a function is rewritten to its arguments without the documentation, and to the
names that are added. -/
theorem gather_rewriteFunction (hselect : SelectsNames select) {flag : Option String}
    (h : rewriteFunction flag args = .ok g) :
    gather select g + gatherAll select ((documentation (.function flag) args).map .str) =
      gatherAll select args + gatherAll select (added (.function flag) args) := by
  unfold rewriteFunction at h
  split at h
  · cases h
  next name rest =>
    have hdoc := gatherAll_dropDoc select flag (.symbol name) rest
    split at h
    next params m body hbody =>
      cases h
      rw [← hbody, gather_call]
      simp only [gatherAll, gather_call, added]
      rw [hselect.flagged, ← hdoc]
      abel
    · cases h
  · cases h

/-- A condition keeps all of its arguments, next to what is added. -/
theorem gather_rewriteWhen {negated : Bool} (h : rewriteWhen negated args = .ok g) :
    gather select g =
      gatherAll select args + gatherAll select (added (.when negated) args) := by
  cases args with
  | nil => cases h
  | cons test body =>
    cases negated with
    | true =>
      cases h
      rw [if_pos rfl]
      simp only [gather_call, gatherAll, added]
      abel
    | false =>
      cases h
      rw [if_neg Bool.false_ne_true]
      simp only [gather_call, gatherAll, added]
      abel

theorem gather_threadStep (value step : Form) :
    gather select (threadStep value step) = gather select value + gather select step := by
  unfold threadStep
  split
  · simp only [gather_call, gather, gatherAll]
    abel
  · simp only [gather_call, gatherAll]
    abel

/-- Threading collects the value and every step, and nothing else. -/
theorem gather_foldl_threadStep (steps : List Form) (value : Form) :
    gather select (steps.foldl threadStep value) =
      gather select value + gatherAll select steps := by
  induction steps generalizing value with
  | nil => exact (add_zero _).symm
  | cons step rest ih => rw [List.foldl_cons, ih, gather_threadStep, gatherAll, add_assoc]

/-- A threaded call keeps all of its arguments. -/
theorem gather_rewriteThread (h : rewriteThread args = .ok g) :
    gather select g = gatherAll select args + gatherAll select (added .thread args) := by
  cases args with
  | nil => cases h
  | cons start steps =>
    cases h
    rw [gather_foldl_threadStep, gatherAll]
    exact (add_zero _).symm

theorem gather_rewriteCond (h : rewriteCond args = .ok g) :
    gather select g = gatherAll select args + gatherAll select (added .cond args) := by
  unfold rewriteCond at h
  split at h
  · cases h
    simp only [gatherAll, added]
    abel
  · cases h
  next test value =>
    cases h
    simp only [gather_call, gatherAll, added]
    abel
  next test value rest hrest =>
    cases h
    cases rest with
    | nil => exact absurd rfl hrest
    | cons f rest =>
      simp only [gather_call, gatherAll, added]
      abel

/-- A rewrite keeps the atoms of the arguments, but for what it writes and the documentation. -/
theorem gather_rewrite (hselect : SelectsNames select) {s : Shorthand}
    (h : s.rewrite args = .ok g) :
    gather select g + gatherAll select ((s.documentation args).map .str) =
      gatherAll select args + gatherAll select (s.added args) := by
  cases s with
  | function flag => exact gather_rewriteFunction hselect h
  | when negated => exact (add_zero _).trans (gather_rewriteWhen h)
  | thread => exact (add_zero _).trans (gather_rewriteThread h)
  | cond => exact (add_zero _).trans (gather_rewriteCond h)

/-- What a rewrite adds is `nil` or a bare name. -/
theorem mem_added {s : Shorthand} {a : Form} (h : a ∈ s.added args) :
    a = .nil ∨ ∃ name, a = sym name := by
  have hall : ∀ a ∈ s.added args, a = .nil ∨ ∃ name, a = sym name := by
    unfold added
    split <;> simp [sym]
  exact hall a h

end Shorthand

/-! ### Full expansion -/

namespace Form

/-- The operator of a call of a shorthand. -/
def operator : Form → List Form
  | .list items _ => if (shorthand? items).isSome then items.take 1 else []
  | _ => []

/-- The atoms that are written in the place of a call of a shorthand. -/
def added : Form → List Form
  | .list items _ => (shorthand? items).elim [] (·.added items.tail)
  | _ => []

/-- The documentation of a function whose definition is a call of a shorthand. -/
def documentation : Form → List String
  | .list items _ => (shorthand? items).elim [] (·.documentation items.tail)
  | _ => []

variable {α : Type} {select : Form → Multiset α}

theorem gatherAll_eq_zero {l : List Form} (h : ∀ f ∈ l, gather select f = 0) :
    gatherAll select l = 0 := by
  induction l with
  | nil => rfl
  | cons f rest ih =>
    obtain ⟨hf, hrest⟩ := List.forall_mem_cons.mp h
    rw [gatherAll, hf, ih hrest, add_zero]

/-- What is gathered from a call and from what takes its place differs by the operator, the
documentation and what is added. -/
theorem gather_rewrite? (hselect : SelectsNames select) {f g : Form}
    (h : f.rewrite? = .ok (some g)) :
    gather select g +
        (gatherAll select f.operator + gatherAll select (f.documentation.map .str)) =
      gather select f + gatherAll select f.added := by
  obtain ⟨items, m, s, rfl, hs, hr⟩ := exists_of_rewrite? h
  obtain ⟨operator, args, rfl⟩ := exists_of_shorthand? hs
  have hone := Shorthand.gather_rewrite hselect hr
  have hoperator : gatherAll select (Form.operator (.list (.symbol operator :: args) m)) =
      gather select (.symbol operator) := by
    rw [Form.operator, hs]
    exact add_zero _
  rw [hoperator, documentation, added, hs]
  calc gather select g + (gather select (.symbol operator) +
        gatherAll select ((s.documentation args).map .str))
      = gather select (.symbol operator) + (gather select g +
        gatherAll select ((s.documentation args).map .str)) := by abel
    _ = gather select (.symbol operator) + (gatherAll select args +
        gatherAll select (s.added args)) := congrArg _ hone
    _ = gather select (.list (.symbol operator :: args) m) + gatherAll select (s.added args) :=
        (add_assoc _ _ _).symm

/-- What is selected from the atoms of a form, as a tally. -/
def gathering (hselect : SelectsNames select) : Tally (Multiset α) where
  count := gather select
  countAll := gatherAll select
  node := 0
  added f := gatherAll select f.added
  dropped f := gatherAll select f.operator + gatherAll select (f.documentation.map .str)
  nil := rfl
  cons _ _ := rfl
  list _ _ := (zero_add _).symm
  vector _ _ := (zero_add _).symm
  rewrite := gather_rewrite? hselect

/-- The operator of a call that is rewritten names a shorthand. -/
theorem mem_operator {f a : Form} (h : a ∈ f.operator) :
    ∃ s, a = .symbol s ∧ (shorthand? [.symbol s]).isSome := by
  cases f with
  | list items m =>
    rw [operator] at h
    split at h
    next hs =>
      obtain ⟨s, hs⟩ := Option.isSome_iff_exists.mp hs
      obtain ⟨operator, args, rfl⟩ := exists_of_shorthand? hs
      cases List.mem_singleton.mp h
      rw [shorthand?_cons] at hs
      exact ⟨operator, rfl, Option.isSome_of_eq_some hs⟩
    · cases h
  | _ => cases h

theorem mem_added {f a : Form} (h : a ∈ f.added) : a = .nil ∨ ∃ name, a = sym name := by
  cases f with
  | list items m =>
    rw [added] at h
    cases hs : shorthand? items with
    | none =>
      rw [hs] at h
      cases h
    | some s =>
      rw [hs] at h
      exact Shorthand.mem_added h
  | _ => cases h

/-- Where neither `nil` nor symbols count, what a rewrite adds counts nothing. -/
theorem gatherAll_added (hnil : select .nil = 0) (hsymbol : ∀ s, select (.symbol s) = 0)
    (f : Form) : gatherAll select f.added = 0 := by
  refine gatherAll_eq_zero fun a ha => ?_
  rcases mem_added ha with rfl | ⟨name, rfl⟩
  · exact hnil
  · exact hsymbol _

/-- Where the names of shorthands do not count, neither do the operators of calls that are
rewritten. -/
theorem gatherAll_operator
    (hsymbol : ∀ s, (shorthand? [.symbol s]).isSome → select (.symbol s) = 0) (f : Form) :
    gatherAll select f.operator = 0 := by
  refine gatherAll_eq_zero fun a ha => ?_
  obtain ⟨s, rfl, hs⟩ := mem_operator ha
  exact hsymbol s hs

theorem gatherAll_strings (hstr : ∀ text, select (.str text) = 0) (l : List String) :
    gatherAll select (l.map .str) = 0 := by
  refine gatherAll_eq_zero fun a ha => ?_
  obtain ⟨text, -, rfl⟩ := List.mem_map.mp ha
  exact hstr text

/-! ### Literals, strings and names -/

theorem selectsNames_literal : SelectsNames selectLiteral := fun _ _ => rfl

theorem selectsNames_text : SelectsNames selectText := fun _ _ => rfl

theorem selectsNames_name : SelectsNames selectName := fun _ _ => rfl

/-- Expansion keeps every literal, as often as it is there. -/
theorem literals_expand {f : Form} {e : Expansion} (h : f.expand = .ok e) :
    (e.form f).literals = f.literals := by
  have htally := (gathering selectsNames_literal).expand h
  have hadded (call : Form) : gatherAll selectLiteral call.added = 0 :=
    gatherAll_added rfl (fun _ => rfl) call
  have hdropped (call : Form) : gatherAll selectLiteral call.operator +
      gatherAll selectLiteral (call.documentation.map .str) = 0 := by
    rw [gatherAll_operator (fun _ _ => rfl), gatherAll_strings (fun _ => rfl), add_zero]
  simp only [gathering, hadded, hdropped, List.sum_map_zero, add_zero] at htally
  exact htally

theorem gatherAll_texts (l : List String) : gatherAll selectText (l.map .str) = l := by
  induction l with
  | nil => rfl
  | cons text rest ih =>
    rw [List.map_cons, gatherAll, ih]
    rfl

/-- The documentation of some functions, added up. -/
theorem sum_documentation (calls : List Form) :
    (calls.map fun call => (call.documentation : Multiset String)).sum =
      (calls.flatMap documentation : List String) := by
  induction calls with
  | nil => rfl
  | cons call rest ih =>
    rw [List.map_cons, List.sum_cons, ih, List.flatMap_cons]
    exact Multiset.coe_add _ _

/-- Expansion keeps every string but the documentation of the functions whose definitions it
rewrites. -/
theorem texts_expand {f : Form} {e : Expansion} (h : f.expand = .ok e) :
    (e.form f).texts + (f.rewritten.flatMap documentation : List String) = f.texts := by
  have htally := (gathering selectsNames_text).expand h
  have hadded (call : Form) : gatherAll selectText call.added = 0 :=
    gatherAll_added rfl (fun _ => rfl) call
  have hdropped (call : Form) : gatherAll selectText call.operator +
      gatherAll selectText (call.documentation.map .str) = call.documentation := by
    rw [gatherAll_operator (fun _ _ => rfl), gatherAll_texts, zero_add]
  simp only [gathering, hadded, hdropped, List.sum_map_zero, add_zero, sum_documentation]
    at htally
  exact htally

/-- Names can become more: the name of a function is written twice, and so are the operators of
what a call stands for. -/
theorem names_le_expand {f : Form} {e : Expansion} (h : f.expand = .ok e) :
    f.ordinaryNames ≤ (e.form f).ordinaryNames := by
  have htally := (gathering selectsNames_name).expand h
  have hdropped (call : Form) : gatherAll selectName call.operator +
      gatherAll selectName (call.documentation.map .str) = 0 := by
    rw [gatherAll_operator (fun _ hs => if_pos hs), gatherAll_strings (fun _ => rfl), add_zero]
  simp only [gathering, hdropped, List.sum_map_zero, add_zero] at htally
  rw [ordinaryNames, htally]
  exact Multiset.le_add_right _ _

/-- Expansion loses no data and makes no copies of it: literals are there as often as before, and
so are strings but for the documentation of the functions whose definitions were expanded; and no
name is there less often, but for the names of shorthands. -/
theorem atoms_expand {f : Form} {e : Expansion} (h : f.expand = .ok e) :
    (e.form f).literals = f.literals ∧
      (e.form f).texts + (f.rewritten.flatMap documentation : List String) = f.texts ∧
      f.ordinaryNames ≤ (e.form f).ordinaryNames :=
  ⟨literals_expand h, texts_expand h, names_le_expand h⟩

/-- `{:a "b"}` -/
def pairMap : Form := .map [.keyword "a", .str "b"]

/-- `(when x {:a "b"})` -/
def guardedMap : Form := call [sym "when", sym "x", pairMap]

/-- `(defn f "all" [x] (when x {:a "b"}))` -/
def documentedForm : Form :=
  call [sym "defn", sym "f", .str "all", .vector [sym "x"] {}, guardedMap]

/-- `(def f (fn f [x] value))` -/
def undocumentedForm (value : Form) : Form :=
  call [sym "def", sym "f", call [sym "fn", sym "f", .vector [sym "x"] {}, value]]

/-- The documentation is lost, and nothing else is. -/
theorem atoms_expand_documentedForm : ∃ e, documentedForm.expand = .ok e ∧
    (e.form documentedForm).literals = {.keyword "a"} ∧
    documentedForm.rewritten.flatMap documentation = ["all"] ∧
    (e.form documentedForm).texts + {"all"} = {"all", "b"} ∧
    {(none, "f"), (none, "x"), (none, "x")} ≤ (e.form documentedForm).ordinaryNames := by
  let g := undocumentedForm (call [sym "if", sym "x", call [sym "do", pairMap], .nil])
  have hquote : headOf [sym "defn", sym "f", .str "all", .vector [sym "x"] {}, guardedMap] ≠
      some "quote" := by decide
  have hrewrite : documentedForm.rewrite? = .ok (some (undocumentedForm guardedMap)) := rfl
  have hexpand : documentedForm.expand = .ok (.changed g) := by
    have hinner : (undocumentedForm guardedMap).expand = .ok (.changed g) := by cbv
    rw [documentedForm, call, expand_rewritten hquote hrewrite, hinner]
    rfl
  have hrewritten : documentedForm.rewritten = [guardedMap, documentedForm] := by
    have hinner : (transform rewriting (undocumentedForm guardedMap) [documentedForm]).2 =
        [guardedMap, documentedForm] := by
      simp [undocumentedForm, guardedMap, pairMap, call, sym, transform_eq, expandInner.eq_1,
        expandInner.eq_2, expandItem, expandItems, rewriting, isRewritten, rewrite?, shorthand?,
        headOf, Symbol.isQualified, Shorthand.ofName?, Shorthand.rewrite, Shorthand.rewriteWhen,
        Except.map, Expansion.rebuild, Expansion.consItems]
    exact (snd_transform_rewritten hquote hrewrite []).trans hinner
  have hdocumentation : documentedForm.rewritten.flatMap documentation = ["all"] := by
    rw [hrewritten]
    rfl
  obtain ⟨hliterals, htexts, hnames⟩ := atoms_expand hexpand
  rw [hdocumentation] at htexts
  exact ⟨_, hexpand, hliterals, hdocumentation, htexts, hnames⟩

end Form

end CompileWatch
