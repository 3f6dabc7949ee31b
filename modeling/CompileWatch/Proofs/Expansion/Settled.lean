import CompileWatch.Proofs.Expansion.Watched
import CompileWatch.Proofs.Outcome

/-!
# What full expansion leaves

The transform routine looks into lists and vectors, and at the operator of a list before its
items are expanded. An analysis looks into sets and maps, too. So nothing is left to expand
unless a set or a map holds a call of a shorthand, or the operator of a list is a call that
expands to the name of one.

- `Form.At`: a property of every form at the places that are looked at.
- `Form.Settled`, `Form.Expanded`: no call of a shorthand where an analysis looks, or where the
  transform routine looks.
- `Form.Lasting`, `Form.at_rewrite?`: what a rewrite hands on from a call to its result.
- `Form.Leaves.expand`: what full expansion makes of it.
- `Form.expand_of_expanded`: where nothing is left, a form is handed back as it is.
- `Form.settled_expand`: the expansion of a form.
-/

namespace CompileWatch

namespace Form

/-! ### Places -/

/-- A form stands inside another one, and every form around it is one that is entered. -/
inductive Reach (enters : Form → Prop) (g : Form) : Form → Prop where
  | here : Reach enters g g
  | inside {c f : Form} (hf : enters f) (hc : c ∈ f.children) (h : Reach enters g c) :
    Reach enters g f

/-- Every form that is reached has a property. -/
def At (enters p : Form → Prop) (f : Form) : Prop := ∀ g, Reach enters g f → p g

/-- An analysis looks inside: the form is not quoted. -/
def OpenToAnalysis (f : Form) : Prop := f.head? ≠ some "quote"

/-- The transform routine looks inside: the form is a list that is not quoted, or a vector. -/
def OpenToExpansion : Form → Prop
  | .list items _ => headOf items ≠ some "quote"
  | .vector _ _ => True
  | _ => False

/-- The form is a list whose operator names a shorthand. -/
def CallsShorthand (f : Form) : Prop := (f.head?.bind Shorthand.ofName?).isSome

/-- No call of a shorthand is left where an analysis looks. -/
def Settled (f : Form) : Prop := f.At OpenToAnalysis fun g => ¬ g.CallsShorthand

/-- No call of a shorthand is left where the transform routine looks. -/
def Expanded (f : Form) : Prop := f.At OpenToExpansion fun g => ¬ g.CallsShorthand

section

variable {enters p q : Form → Prop} {f : Form}

/-- A property holds at the places of a form that are entered, from the form down. -/
theorem at_iff : f.At enters p ↔ p f ∧ (enters f → ∀ c ∈ f.children, c.At enters p) := by
  constructor
  · intro h
    exact ⟨h f .here, fun hf c hc g hg => h g (.inside hf hc hg)⟩
  · rintro ⟨hself, hparts⟩ g hg
    cases hg with
    | here => exact hself
    | inside hf hc h => exact hparts hf _ hc g h

theorem At.self (h : f.At enters p) : p f := h f .here

theorem At.child (h : f.At enters p) (hf : enters f) {c : Form} (hc : c ∈ f.children) :
    c.At enters p := fun g hg => h g (.inside hf hc hg)

/-- It holds in a list if it holds of the list, and in its items wherever the list is entered. -/
theorem at_list {items : List Form} {m : Metadata} : (Form.list items m).At enters p ↔
    p (.list items m) ∧ (enters (.list items m) → ∀ c ∈ items, c.At enters p) := at_iff

theorem at_symbol {s : Symbol} : (Form.symbol s).At enters p ↔ p (.symbol s) :=
  at_iff.trans (and_iff_left fun _ _ hc => absurd hc List.not_mem_nil)

theorem at_keyword {name : String} : (Form.keyword name).At enters p ↔ p (.keyword name) :=
  at_iff.trans (and_iff_left fun _ _ hc => absurd hc List.not_mem_nil)

/-- A form that is not entered. -/
theorem at_of_closed (hf : ¬ enters f) (h : p f) : f.At enters p :=
  at_iff.mpr ⟨h, fun hopen => absurd hopen hf⟩

end

/-- A vector is entered by expansion. -/
theorem at_vector {p : Form → Prop} {items : List Form} {m : Metadata} :
    At OpenToExpansion p (.vector items m) ↔
      p (.vector items m) ∧ ∀ c ∈ items, c.At OpenToExpansion p :=
  at_iff.trans (and_congr_right fun _ => ⟨fun h => h trivial, fun h _ => h⟩)

/-- Expansion enters lists and vectors only. -/
theorem not_openToExpansion {f : Form} (hl : ∀ items m, f ≠ .list items m)
    (hv : ∀ items m, f ≠ .vector items m) : ¬ f.OpenToExpansion := by
  cases f with
  | list items m => exact absurd rfl (hl items m)
  | vector items m => exact absurd rfl (hv items m)
  | _ => exact fun h => h

/-- Wherever expansion goes, analysis goes too. -/
theorem openToAnalysis_of_openToExpansion {f : Form} (h : f.OpenToExpansion) :
    f.OpenToAnalysis := by
  cases f with
  | list items m => exact h
  | vector items m => simp [OpenToAnalysis, head?, items?]
  | _ => exact h.elim

/-- The operator of a list is found at its front. -/
theorem headOf_cons (f : Form) (l : List Form) : headOf (f :: l) = headOf [f] := by
  cases f <;> rfl

/-- Whether a list calls a shorthand depends on its operator alone. -/
theorem shorthand?_cons (f : Form) (l : List Form) : shorthand? (f :: l) = shorthand? [f] := by
  rw [shorthand?, headOf_cons]
  rfl

/-- A list that nothing rewrites calls no shorthand. -/
theorem rewrite?_eq_none_iff {items : List Form} {m : Metadata} :
    rewrite? (.list items m) = .ok none ↔ shorthand? items = none := by
  cases hs : shorthand? items with
  | none => simp [rewrite?, hs]
  | some s => cases hr : s.rewrite items.tail <;> simp [rewrite?, hs, hr, Except.map]

/-- A list that calls no shorthand is kept. -/
theorem not_callsShorthand_list {items : List Form} {m : Metadata} :
    ¬ (Form.list items m).CallsShorthand ↔ shorthand? items = none :=
  (Option.not_isSome_iff_eq_none (o := shorthand? items))

/-- A quoted form is no call of a shorthand. -/
theorem shorthand?_of_quoted {items : List Form} (hq : headOf items = some "quote") :
    shorthand? items = none := by
  rw [shorthand?, hq]
  rfl

/-! ### Collections -/

/-- What a set or a map holds is settled, although the transform routine does not look at it. -/
def PlainItems (f : Form) : Prop :=
  ¬ f.OpenToExpansion → f.OpenToAnalysis → ∀ c ∈ f.children, c.Settled

/-- A list has no items that expansion does not come to. -/
theorem plainItems_list (items : List Form) (m : Metadata) : PlainItems (.list items m) :=
  fun hclosed hopen => absurd hopen hclosed

theorem plainItems_vector (items : List Form) (m : Metadata) : PlainItems (.vector items m) :=
  fun hclosed => absurd trivial hclosed

theorem plainItems_symbol (s : Symbol) : PlainItems (.symbol s) :=
  fun _ _ _ hc => absurd hc List.not_mem_nil

/-- What the transform routine does not look at makes the difference. -/
theorem settled_iff {f : Form} : f.Settled ↔ f.Expanded ∧ f.At OpenToExpansion PlainItems := by
  constructor
  · intro h
    have hreach {g : Form} (hg : Reach OpenToExpansion g f) : g.Settled := by
      induction hg with
      | here => exact h
      | inside hf hc _ ih => exact ih (h.child (openToAnalysis_of_openToExpansion hf) hc)
    exact ⟨fun g hg => (hreach hg).self, fun g hg _ hopen c hc => (hreach hg).child hopen hc⟩
  · rintro ⟨hexpanded, hplain⟩ g hg
    induction hg with
    | here => exact hexpanded.self
    | inside hf hc hrest ih =>
      next c f =>
      by_cases hopen : f.OpenToExpansion
      · exact ih (hexpanded.child hopen hc) (hplain.child hopen hc)
      · exact hplain.self hopen hf c hc _ hrest

/-! ### One rewrite -/

/-- A property that forms hand on to what a rewrite makes of them: of a list it depends on the
operator alone, and operators that are no lists with items have it. -/
structure Lasting (q : Form → Prop) : Prop where
  nil : q .nil
  symbol : ∀ s, q (.symbol s)
  sameHead : ∀ head args args' m m', q (.list (head :: args) m) → q (.list (head :: args') m')
  plainHead : ∀ head args m, (∀ item items m', head ≠ .list (item :: items) m') →
    q (.list (head :: args) m)

end Form

namespace Shorthand

open Form

variable {q : Form → Prop} {args : List Form}

/-- A call with an operator of its own. -/
theorem at_call (hq : Lasting q) (name : String) (h : ∀ c ∈ args, c.At OpenToExpansion q) :
    (call (sym name :: args)).At OpenToExpansion q := by
  have hsym : (sym name).At OpenToExpansion q := at_of_closed (fun h => h) (hq.symbol _)
  refine at_iff.mpr ⟨hq.plainHead _ _ _ (by simp [sym]), fun _ => ?_⟩
  exact List.forall_mem_cons.mpr ⟨hsym, h⟩

/-- A lasting property is handed on to what stands for the definition of a function. -/
theorem at_rewriteFunction (hq : Lasting q) (h : ∀ c ∈ args, c.At OpenToExpansion q)
    (flag : Option String) : Gives (At OpenToExpansion q) (rewriteFunction flag args) := by
  have hsymbol (s : Symbol) : (Form.symbol s).At OpenToExpansion q :=
    at_of_closed (fun h => h) (hq.symbol s)
  unfold rewriteFunction
  split
  · exact gives_error _
  · next name rest =>
    split
    · next params m body hbody =>
      have hargs : ∀ c ∈ .vector params m :: body, c.At OpenToExpansion q :=
        fun c hc => h c (List.mem_cons_of_mem _ (mem_of_mem_dropDoc (hbody ▸ hc)))
      have hfn := at_call hq "fn" (List.forall_mem_cons.mpr ⟨hsymbol { name := name.name }, hargs⟩)
      refine gives_ok (at_call hq "def" ?_)
      exact List.forall_mem_cons.mpr ⟨hsymbol _, List.forall_mem_singleton.mpr hfn⟩
    · exact gives_error _
  · exact gives_error _

/-- What lasts is handed on to what stands for a condition. -/
theorem at_rewriteWhen (hq : Lasting q) (h : ∀ c ∈ args, c.At OpenToExpansion q)
    (negated : Bool) : Gives (At OpenToExpansion q) (rewriteWhen negated args) := by
  have hnil : Form.nil.At OpenToExpansion q := at_of_closed (fun h => h) hq.nil
  cases args with
  | nil => exact gives_error _
  | cons test body =>
    obtain ⟨htest, hbody⟩ := List.forall_mem_cons.mp h
    have hrun := at_call hq "do" hbody
    cases negated with
    | true =>
      refine gives_ok (at_call hq "if" ?_)
      simpa using ⟨htest, hnil, hrun⟩
    | false =>
      refine gives_ok (at_call hq "if" ?_)
      simpa using ⟨htest, hrun, hnil⟩

/-- What lasts is handed on to a step through which a value is threaded. -/
theorem at_threadStep (hq : Lasting q) {value step : Form} (hv : value.At OpenToExpansion q)
    (hs : step.At OpenToExpansion q) : (threadStep value step).At OpenToExpansion q := by
  unfold threadStep
  split
  · next head args m =>
    -- the step keeps its operator, and with it whether it is entered
    refine at_iff.mpr ⟨hq.sameHead _ _ _ _ _ hs.self, fun hopen => ?_⟩
    have hstep : OpenToExpansion (.list (head :: args) m) := by
      show headOf (head :: args) ≠ _
      rw [headOf_cons, ← headOf_cons head (value :: args)]
      exact hopen
    obtain ⟨hhead, hargs⟩ := List.forall_mem_cons.mp fun c hc => hs.child hstep hc
    exact List.forall_mem_cons.mpr ⟨hhead, List.forall_mem_cons.mpr ⟨hv, hargs⟩⟩
  · next hother =>
    refine at_iff.mpr ⟨hq.plainHead _ _ _ fun item items m h => hother item items m h, fun _ => ?_⟩
    exact List.forall_mem_cons.mpr ⟨hs, List.forall_mem_singleton.mpr hv⟩

/-- What lasts is handed on to what stands for a threaded call. -/
theorem at_rewriteThread (hq : Lasting q) (h : ∀ c ∈ args, c.At OpenToExpansion q) :
    Gives (At OpenToExpansion q) (rewriteThread args) := by
  cases args with
  | nil => exact gives_error _
  | cons start steps =>
    obtain ⟨hstart, hsteps⟩ := List.forall_mem_cons.mp h
    refine gives_ok (List.foldlRecOn steps threadStep hstart fun value hv step hstep => ?_)
    exact at_threadStep hq hv (hsteps step hstep)

/-- What lasts is handed on to what stands for a conditional with clauses. -/
theorem at_rewriteCond (hq : Lasting q) (h : ∀ c ∈ args, c.At OpenToExpansion q) :
    Gives (At OpenToExpansion q) (rewriteCond args) := by
  have hnil : Form.nil.At OpenToExpansion q := at_of_closed (fun h => h) hq.nil
  unfold rewriteCond
  split
  · exact gives_ok hnil
  · exact gives_error _
  · next test value =>
    refine gives_ok (at_call hq "if" ?_)
    simpa [hnil] using h
  · next test value rest _ =>
    obtain ⟨htest, h⟩ := List.forall_mem_cons.mp h
    obtain ⟨hvalue, hrest⟩ := List.forall_mem_cons.mp h
    refine gives_ok (at_call hq "if" ?_)
    simpa using ⟨htest, hvalue, at_call hq "cond" hrest⟩

/-- Whatever the shorthand is, a lasting property is handed on. -/
theorem at_rewrite (hq : Lasting q) (h : ∀ c ∈ args, c.At OpenToExpansion q) (s : Shorthand) :
    Gives (At OpenToExpansion q) (s.rewrite args) := by
  cases s with
  | function flag => exact at_rewriteFunction hq h flag
  | when negated => exact at_rewriteWhen hq h negated
  | thread => exact at_rewriteThread hq h
  | cond => exact at_rewriteCond hq h

end Shorthand

namespace Form

/-- What is handed on reaches the result of a rewrite. -/
theorem at_rewrite? {q : Form → Prop} (hq : Lasting q) {items : List Form} {m : Metadata}
    (hopen : headOf items ≠ some "quote") (h : (Form.list items m).At OpenToExpansion q) {g : Form}
    (hg : rewrite? (.list items m) = .ok (some g)) : g.At OpenToExpansion q := by
  obtain ⟨_, _, s, ⟨⟩, -, hr⟩ := exists_of_rewrite? hg
  have htail : ∀ c ∈ items.tail, c.At OpenToExpansion q :=
    fun c hc => h.child hopen (List.mem_of_mem_tail hc)
  exact Shorthand.at_rewrite hq htail s g hr

/-! ### Full expansion -/

/-- Where forms have a lasting property, their expansions have another one: the routine gives
every form that it keeps, with its items expanded, that other property. -/
structure Leaves (q q' : Form → Prop) : Prop where
  lasting : Lasting q
  quoted : ∀ items m, headOf items = some "quote" → q' (.list items m)
  kept : ∀ items m items?, rewrite? (.list items m) = .ok none → q (.list items m) →
    (expandItems Watch.silent items ()).1 = .ok items? → q' (.list (items?.getD items) m)
  vector : ∀ items m, q' (.vector items m)
  other : ∀ f, ¬ f.OpenToExpansion → q f → q' f

variable {q q' : Form → Prop}

/-- What a result says of the form that is handed back. -/
def HandsBack (q' : Form → Prop) (f : Form) (r : Except SyntaxError Expansion) : Prop :=
  Gives (fun e => (e.form f).At OpenToExpansion q') r

/-- What every rewrite leaves, and every list that is built again, expansion leaves. -/
theorem Leaves.outcomes (h : Leaves q q') :
    Outcomes (fun f r => f.At OpenToExpansion q → HandsBack q' f r)
      (fun l r => (∀ f ∈ l, f.At OpenToExpansion q) →
        Gives (fun items? => ∀ f ∈ items?.getD l, f.At OpenToExpansion q') r) where
  quoted items m hq hf := gives_ok (at_of_closed (fun hopen => hopen hq) (h.quoted items m hq))
  malformed items m e hq hr hf := gives_error e
  rewritten items m g hq hr ih hf :=
    gives_map (ih (at_rewrite? h.lasting hq hf hr)) fun e he => he
  kept items m hq hr ih hf := by
    have hitems := ih fun c hc => hf.child hq hc
    cases hx : expandEach items with
    | error e => exact gives_error e
    | ok items? =>
      have hself := h.kept items m items? hr hf.self hx
      have hparts := hitems items? hx
      cases items? with
      | none => exact gives_ok (at_iff.mpr ⟨hself, fun _ => hparts⟩)
      | some items' => exact gives_ok (at_iff.mpr ⟨hself, fun _ => hparts⟩)
  vector items m ih hf := by
    refine gives_map (ih (at_vector.mp hf).2) fun items? hitems => ?_
    cases items? with
    | none => exact at_vector.mpr ⟨h.vector items m, hitems⟩
    | some items' => exact at_vector.mpr ⟨h.vector items' m, hitems⟩
  other f hl hv hf := by
    have hclosed := not_openToExpansion hl hv
    exact gives_ok (at_of_closed hclosed (h.other f hclosed hf.self))
  nil _ := gives_ok fun f hf => absurd hf List.not_mem_nil
  failed f rest e ih hl := gives_error e
  cons f rest e ihf ihr hl := by
    obtain ⟨hf, hrest⟩ := List.forall_mem_cons.mp hl
    have hfirst : (e.form f).At OpenToExpansion q' := ihf hf e rfl
    refine gives_map (ihr hrest) fun items? hitems => ?_
    have hall : ∀ c ∈ e.form f :: items?.getD rest, c.At OpenToExpansion q' :=
      List.forall_mem_cons.mpr ⟨hfirst, hitems⟩
    cases e <;> cases items? <;> exact hall

/-- The expansion of a form. -/
theorem Leaves.expand (h : Leaves q q') {f : Form} (hf : f.At OpenToExpansion q) :
    HandsBack q' f f.expand := h.outcomes.expand f hf

/-- Expansion leaves what no expansion comes to as it was. -/
theorem leaves_plainItems : Leaves PlainItems PlainItems where
  lasting :=
    { nil := fun _ _ _ hc => absurd hc List.not_mem_nil
      symbol := plainItems_symbol
      sameHead := fun _ _ _ _ _ _ => plainItems_list _ _
      plainHead := fun _ _ _ _ => plainItems_list _ _ }
  quoted items m _ := plainItems_list items m
  kept _ m _ _ _ _ := plainItems_list _ m
  vector := plainItems_vector
  other _ _ h := h

/-! ### Operators -/

/-- The operator of a list, where it is a list itself, does not expand to the name of a
shorthand. -/
def PlainHead : Form → Prop
  | .list (.list items m :: _) _ =>
    ∀ e, (Form.list items m).expand = .ok e → shorthand? [e.form (.list items m)] = none
  | _ => True

/-- An operator that is no list with items is no call of anything. -/
theorem plainHead_of_ne {head : Form} (h : ∀ item items m', head ≠ .list (item :: items) m')
    (args : List Form) (m : Metadata) : PlainHead (.list (head :: args) m) := by
  cases head with
  | list items m' =>
    cases items with
    | cons item items => exact absurd rfl (h item items m')
    | nil =>
      intro e he
      have hempty : (Form.list [] m').expand = .ok .unchanged := by
        rw [expand_kept (by simp [headOf]) rfl, expandEach_nil]
        rfl
      rw [hempty] at he
      cases he
      rfl
  | _ => trivial

/-- A plain operator stays plain. -/
theorem lasting_plainHead : Lasting PlainHead where
  nil := trivial
  symbol _ := trivial
  sameHead head args args' m m' h := by
    cases head with
    | list items m'' => exact h
    | _ => trivial
  plainHead head args m h := plainHead_of_ne h args m

/-- The operator after the items of a list were expanded. -/
theorem shorthand?_expandEach {items : List Form} {m : Metadata} {items? : Option (List Form)}
    (hr : rewrite? (.list items m) = .ok none) (hhead : PlainHead (.list items m))
    (h : expandEach items = .ok items?) : shorthand? (items?.getD items) = none := by
  rw [rewrite?_eq_none_iff] at hr
  cases items with
  | nil =>
    rw [expandEach_nil] at h
    cases h
    exact hr
  | cons f rest =>
    cases he : f.expand with
    | error e =>
      rw [expandEach_cons_error he] at h
      cases h
    | ok e =>
      -- only the first item counts, and that one was expanded by itself
      have hfront : shorthand? (items?.getD (f :: rest)) = shorthand? [e.form f] := by
        rw [expandEach_cons_ok he] at h
        cases hrest : expandEach rest with
        | error e' =>
          rw [hrest] at h
          cases h
        | ok rest? =>
          rw [hrest] at h
          cases h
          cases e <;> cases rest? <;> exact shorthand?_cons _ _
      rw [hfront]
      cases f with
      | list items' m' => exact hhead e he
      | vector items' m' =>
        rw [expand_vector] at he
        cases hx : expandEach items' with
        | error e' =>
          rw [hx] at he
          cases he
        | ok items'? =>
          rw [hx] at he
          cases he
          cases items'? <;> rfl
      | _ =>
        rw [expand_other (by simp) (by simp)] at he
        cases he
        rw [shorthand?_cons] at hr
        exact hr

/-- Where every operator is plain, expansion leaves no call of a shorthand. -/
theorem leaves_expanded : Leaves PlainHead fun g => ¬ g.CallsShorthand where
  lasting := lasting_plainHead
  quoted items m hq := not_callsShorthand_list.mpr (shorthand?_of_quoted hq)
  kept items m items? hr hhead h :=
    not_callsShorthand_list.mpr (shorthand?_expandEach hr hhead h)
  vector items m h := by simp [CallsShorthand, head?, items?] at h
  other f hclosed _ := by
    cases f with
    | list items m =>
      exact not_callsShorthand_list.mpr (shorthand?_of_quoted (Decidable.not_not.mp hclosed))
    | _ => simp [CallsShorthand, head?, items?]

/-! ### Nothing is left -/

/-- An expanded list is no call of a shorthand. -/
theorem rewrite?_of_expanded {items : List Form} {m : Metadata} (h : (Form.list items m).Expanded) :
    rewrite? (.list items m) = .ok none :=
  rewrite?_eq_none_iff.mpr (not_callsShorthand_list.mp h.self)

/-- An expanded form is expanded to itself. -/
theorem outcomes_unchanged :
    Outcomes (fun f r => f.Expanded → r = .ok .unchanged)
      (fun l r => (∀ f ∈ l, f.Expanded) → r = .ok none) where
  quoted items m hq hf := rfl
  malformed items m e hq hr hf := by
    -- a call that could not be rewritten would be one of a shorthand
    have hnone := rewrite?_of_expanded hf
    rw [hr] at hnone
    cases hnone
  rewritten items m g hq hr ih hf := by
    have hnone := rewrite?_of_expanded hf
    rw [hr] at hnone
    cases hnone
  kept items m hq hr ih hf := by
    rw [ih fun c hc => hf.child hq hc]
    rfl
  vector items m ih hf := by
    rw [ih (at_vector.mp hf).2]
    rfl
  other f hl hv hf := rfl
  nil _ := rfl
  failed f rest e ih hl := nomatch ih (List.forall_mem_cons.mp hl).1
  cons f rest e ihf ihr hl := by
    obtain ⟨hf, hrest⟩ := List.forall_mem_cons.mp hl
    cases ihf hf
    rw [ihr hrest]
    rfl

/-- Where nothing is left to expand, a form is handed back as it is. -/
theorem expand_of_expanded {f : Form} (h : f.Expanded) : f.expand = .ok .unchanged :=
  outcomes_unchanged.expand f h

/-- Where no operator expands to the name of a shorthand, full expansion leaves nothing that
could be expanded again; and where the sets and maps hold no calls of shorthands, it leaves no
such call for an analysis either. -/
theorem settled_expand {f : Form} {e : Expansion} (h : f.expand = .ok e)
    (hheads : f.At OpenToExpansion PlainHead) :
    (e.form f).expand = .ok .unchanged ∧
      (f.At OpenToExpansion PlainItems → (e.form f).Settled) := by
  have hexpanded : (e.form f).Expanded := leaves_expanded.expand hheads e h
  refine ⟨expand_of_expanded hexpanded, fun hitems => ?_⟩
  exact settled_iff.mpr ⟨hexpanded, leaves_plainItems.expand hitems e h⟩

/-- `{:a (g x)}` -/
def plainMap : Form := .map [.keyword "a", call [sym "g", sym "x"]]

/-- The map holds no call of a shorthand. -/
theorem plainItems_plainMap : plainMap.PlainItems := by
  intro _ _
  have hkey : (Form.keyword "a").Settled := at_keyword.mpr (by simp [CallsShorthand, head?, items?])
  have hcall : (call [sym "g", sym "x"]).Settled := by
    refine at_list.mpr ⟨not_callsShorthand_list.mpr rfl, fun _ => ?_⟩
    simp [sym, at_symbol, CallsShorthand, head?, items?]
  exact List.forall_mem_cons.mpr ⟨hkey, List.forall_mem_singleton.mpr hcall⟩

/-- `(defn f [x] (when x {:a (g x)}))` -/
def guardedForm : Form :=
  call [sym "defn", sym "f", .vector [sym "x"] {}, call [sym "when", sym "x", plainMap]]

/-- A function with a condition in it, and a map inside of the condition, settles in one
expansion. -/
theorem settled_expand_guardedForm : ∃ e, guardedForm.expand = .ok e ∧
    guardedForm.At OpenToExpansion PlainHead ∧ guardedForm.At OpenToExpansion PlainItems ∧
    (e.form guardedForm).expand = .ok .unchanged ∧ (e.form guardedForm).Settled := by
  have hexpand : guardedForm.expand = .ok (.changed (call [sym "def", sym "f",
      call [sym "fn", sym "f", .vector [sym "x"] {},
        call [sym "if", sym "x", call [sym "do", plainMap], .nil]]])) := by cbv
  have hheads : guardedForm.At OpenToExpansion PlainHead := by
    have hmap : plainMap.At OpenToExpansion PlainHead := at_of_closed (fun h => h) trivial
    simp [guardedForm, call, sym, at_list, at_vector, at_symbol, PlainHead, hmap]
  have hitems : guardedForm.At OpenToExpansion PlainItems := by
    have hmap : plainMap.At OpenToExpansion PlainItems :=
      at_of_closed (fun h => h) plainItems_plainMap
    simp [guardedForm, call, sym, at_list, at_vector, at_symbol, plainItems_list,
      plainItems_vector, plainItems_symbol, hmap]
  obtain ⟨hagain, hsettled⟩ := settled_expand hexpand hheads
  exact ⟨_, hexpand, hheads, hitems, hagain, hsettled hitems⟩

/-! Neither condition can be left out: what a map holds stays as it is, and an operator that
expands to the name of a shorthand makes a call that is not looked at again. -/

/-- `{:a (when b c)}` -/
def heldForm : Form := .map [.keyword "a", call [sym "when", sym "b", sym "c"]]

/-- `((-> when) a b)` -/
def headForm : Form := call [call [sym "->", sym "when"], sym "a", sym "b"]

/-- One form has a call inside of a map, and the other has an operator that is a call. -/
theorem not_settled_expand :
    (∃ e, heldForm.expand = .ok e ∧ ¬ (e.form heldForm).Settled) ∧
      ∃ e, headForm.expand = .ok e ∧ ¬ (e.form headForm).Settled ∧
        (e.form headForm).expand ≠ .ok .unchanged := by
  constructor
  · refine ⟨.unchanged, by cbv, fun h => ?_⟩
    have hcall := h.child (c := call [sym "when", sym "b", sym "c"])
      (by simp [Expansion.form, heldForm, OpenToAnalysis, head?, items?])
      (by simp [Expansion.form, heldForm, children])
    exact hcall.self rfl
  · refine ⟨.changed (call [sym "when", sym "a", sym "b"]), by cbv, fun h => h.self rfl, ?_⟩
    have hagain : (call [sym "when", sym "a", sym "b"]).expand =
        .ok (.changed (call [sym "if", sym "a", call [sym "do", sym "b"], .nil])) := by cbv
    show (call [sym "when", sym "a", sym "b"]).expand ≠ _
    rw [hagain]
    simp

end Form

end CompileWatch
