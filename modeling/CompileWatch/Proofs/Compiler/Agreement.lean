import CompileWatch.Compiler.Compile
import CompileWatch.Proofs.Expansion.Watched

/-!
# Observed and unobserved compilation

The state of the observers is a part of the machine that no routine of the compiler looks
at. A compilation that is observed therefore runs along one that nobody observes, and the
two agree in all the rest of the machine at every step.

- `Machine.bare`: a machine without the state of the observers.
- `Compile.Agrees`: two computations, one of them unobserved, do the same.
- `Setting.Keeps`: what the observers of a setting leave as it is.
- `Compile.agrees_evaluateStep`: a form is evaluated alike.
- `Compile.agrees_compile`: a source is compiled alike.
-/

namespace CompileWatch

variable {σ τ α β : Type}

/-- The machine without the state of the observers. -/
def Machine.bare (m : Machine σ) : Machine Unit :=
  { namespaces := m.namespaces, context := m.context, units := m.units, outside := () }

/-- Two machines agree but for what their observers keep if they have the same namespaces, context
and units. -/
theorem Machine.bare_eq_bare_iff {m : Machine σ} {m' : Machine τ} :
    m.bare = m'.bare ↔
      m.namespaces = m'.namespaces ∧ m.context = m'.context ∧ m.units = m'.units := by
  simp [Machine.bare]

namespace Compile

/-! ### Running a computation -/

theorem pure_run (a : α) (m : Machine σ) : (pure a : Compile σ α) m = (.ok a, m) := rfl

theorem change_run (f : Machine σ → Machine σ) (m : Machine σ) :
    change f m = (.ok (), f m) := rfl

/-- What is computed elsewhere leaves the thread where it stood. -/
theorem within_run (f : Context → Context) (x : Compile σ α) (m : Machine σ) :
    within f x m =
      ((x { m with context := f m.context }).1,
        { (x { m with context := f m.context }).2 with context := m.context }) := rfl

/-- After a computation that succeeds, the next one goes on where it stopped. -/
theorem bind_run_ok {x : Compile σ α} {m : Machine σ} {a : α} (h : (x m).1 = .ok a)
    (f : α → Compile σ β) : (x >>= f) m = f a (x m).2 := by
  show ExceptT.bindCont f (x m).1 (x m).2 = _
  rw [h]
  rfl

/-- After one that fails, the next one is not run. -/
theorem bind_run_error {x : Compile σ α} {m : Machine σ} {e : CompileError}
    (h : (x m).1 = .error e) (f : α → Compile σ β) : (x >>= f) m = (.error e, (x m).2) := by
  show ExceptT.bindCont f (x m).1 (x m).2 = _
  rw [h]
  rfl

/-- What is done with a result afterwards leaves the machine alone. -/
theorem snd_bind_pure (x : Compile σ α) (f : α → β) (m : Machine σ) :
    ((x >>= fun a => pure (f a)) m).2 = (x m).2 := by
  cases h : (x m).1 with
  | ok a => rw [bind_run_ok h, pure_run]
  | error e => rw [bind_run_error h]

/-! ### Agreement -/

/-- An observed computation and an unobserved one give the same result and leave the same
machine apart from the observers' state, from wherever that state has the property `Q`;
and it has it again afterwards. -/
structure Agrees (Q : σ → Prop) (x : Compile σ α) (y : Compile Unit α) : Prop where
  same : ∀ m, Q m.outside → y m.bare = ((x m).1, (x m).2.bare)
  keeps : ∀ m, Q m.outside → Q (x m).2.outside

variable {Q : σ → Prop}

/-- Handing back a value is the same for everyone. -/
theorem agrees_pure (a : α) : Agrees Q (pure a) (pure a) :=
  ⟨fun _ _ => rfl, fun _ h => h⟩

theorem agrees_throw (e : CompileError) : Agrees Q (throw e : Compile σ α) (throw e) :=
  ⟨fun _ _ => rfl, fun _ h => h⟩

/-- Computations that agree can be run one after the other. -/
theorem agrees_bind {x : Compile σ α} {y : Compile Unit α} {f : α → Compile σ β}
    {g : α → Compile Unit β} (hx : Agrees Q x y) (hf : ∀ a, Agrees Q (f a) (g a)) :
    Agrees Q (x >>= f) (y >>= g) := by
  constructor
  · intro m hm
    have hy := hx.same m hm
    cases h : (x m).1 with
    -- the unobserved computation goes on exactly when the observed one does
    | ok a =>
      rw [bind_run_ok h, bind_run_ok (a := a) (by rw [hy, h]), hy]
      exact (hf a).same _ (hx.keeps m hm)
    | error e =>
      rw [bind_run_error h, bind_run_error (e := e) (by rw [hy, h]), hy]
  · intro m hm
    cases h : (x m).1 with
    | ok a =>
      rw [bind_run_ok h]
      exact (hf a).keeps _ (hx.keeps m hm)
    | error e =>
      rw [bind_run_error h]
      exact hx.keeps m hm

/-- The machine may be looked at, as far as the unobserved side has it too. -/
theorem agrees_get_bind {f : Machine σ → Compile σ β} {g : Machine Unit → Compile Unit β}
    (h : ∀ m, Agrees Q (f m) (g m.bare)) : Agrees Q (get >>= f) (get >>= g) :=
  ⟨fun m hm => (h m).same m hm, fun m hm => (h m).keeps m hm⟩

/-- Changes of a machine agree when they do the same to what both machines have. -/
theorem agrees_change {f : Machine σ → Machine σ} {g : Machine Unit → Machine Unit}
    (same : ∀ m, Q m.outside → g m.bare = (f m).bare)
    (keeps : ∀ m, Q m.outside → Q (f m).outside) : Agrees Q (change f) (change g) := by
  constructor
  · intro m hm
    rw [change_run, change_run, same m hm]
  · intro m hm
    exact keeps m hm

theorem agrees_move (f : Context → Context) : Agrees Q (move f) (move f) :=
  agrees_change (fun _ _ => rfl) fun _ h => h

/-- Computations that agree do so wherever the thread stands. -/
theorem agrees_within (f : Context → Context) {x : Compile σ α} {y : Compile Unit α}
    (h : Agrees Q x y) : Agrees Q (within f x) (within f y) := by
  constructor
  · intro m hm
    have hy := h.same { m with context := f m.context } hm
    rw [within_run, within_run]
    show ((y { m with context := f m.context : Machine σ }.bare).1,
      { (y { m with context := f m.context : Machine σ }.bare).2 with context := m.context }) = _
    rw [hy]
    rfl
  · intro m hm
    exact h.keeps { m with context := f m.context } hm

/-- Computations that agree for each item agree for a list of them. -/
theorem agrees_mapM {ι : Type} {f : ι → Compile σ α} {g : ι → Compile Unit α}
    (h : ∀ i, Agrees Q (f i) (g i)) (l : List ι) : Agrees Q (l.mapM f) (l.mapM g) := by
  induction l with
  | nil => exact agrees_pure []
  | cons i rest ih =>
    rw [List.mapM_cons, List.mapM_cons]
    exact agrees_bind (h i) fun a => agrees_bind ih fun as => agrees_pure (a :: as)

/-- Forms in a row are compiled alike if each of them is. -/
theorem agrees_inTurn {f : Form → Compile σ CompileSummary} {g : Form → Compile Unit CompileSummary}
    (h : ∀ form, Agrees Q (f form) (g form)) (l : List Form) :
    Agrees Q (inTurn f l) (inTurn g l) := by
  induction l with
  | nil => exact agrees_pure ({} : CompileSummary)
  | cons form rest ih =>
    exact agrees_bind (h form) fun first => agrees_bind ih fun others =>
      agrees_pure (first.append others)

end Compile

/-! ### What observers may do -/

/-- The observers of a setting offer no other bytes for a unit. -/
def Setting.OffersNothing (t : Setting σ τ) : Prop :=
  ∀ name bytes m, (t.offer name bytes m).1 = none

/-- What is told to the observers between two expansions leaves the property `Q` of their
state as it is. -/
structure Setting.Keeps (t : Setting σ τ) (Q : σ → Prop) : Prop where
  symbol : ∀ s m, Q m.outside →
    Q (t.tell .constantResolution (fun o view => o.symbol view s) m).outside
  reference : ∀ x m, Q m.outside →
    Q (t.tell .referenceConstruction (fun o view => o.reference view x) m).outside
  unit : ∀ name bytes m, Q m.outside → Q (t.offer name bytes m).2
  note : ∀ r s, Q s → Q (t.note r s)

/-- Observers whose state is of no interest keep everything. -/
theorem Setting.keeps_true (t : Setting σ τ) : t.Keeps fun _ => True :=
  ⟨fun _ _ _ => trivial, fun _ _ _ => trivial, fun _ _ _ _ => trivial, fun _ _ _ => trivial⟩

/-- Telling the observers something changes only their state. -/
theorem Setting.bare_tell (t : Setting σ τ) (p : Point) (f : Observer σ τ → HostView → σ → σ)
    (m : Machine σ) : (t.tell p f m).bare = m.bare := by
  unfold Setting.tell
  split <;> rfl

/-- The setting in which nobody observes. -/
def Setting.unobserved : Setting Unit Unit := {}

/-- Where nobody observes, telling changes nothing. -/
theorem Setting.tell_unobserved (p : Point) (f : Observer Unit Unit → HostView → Unit → Unit)
    (m : Machine Unit) : Setting.unobserved.tell p f m = m := rfl

/-- The result of an expansion is that of the form, whoever watches. -/
theorem Setting.fst_expand (t : Setting σ τ) (f : Form) (m : Machine σ) :
    (t.expand f m).1 = f.expand :=
  fst_transform _ f m.outside

/-- A unit is defined alike if the observers offer no bytes of their own. -/
theorem Setting.bare_defineUnit {t : Setting σ τ} (h : t.OffersNothing) (name : String)
    (bytes : Bytes) (m : Machine σ) :
    (t.defineUnit name bytes m).2.bare = (Setting.unobserved.defineUnit name bytes m.bare).2 := by
  show { m.bare with
    units := m.units ++ [DefinedUnit.mk name bytes ((t.offer name bytes m).1.getD bytes)] } = _
  rw [h name bytes m]
  rfl

/-! ### The routines of the compiler -/

namespace Compile

variable {Q : σ → Prop} {t : Setting σ τ}

/-- What is told to observers does not show in the rest of the machine. -/
theorem agrees_tell {p : Point} {f : Observer σ τ → HostView → σ → σ}
    {g : Observer Unit Unit → HostView → Unit → Unit}
    (keeps : ∀ m, Q m.outside → Q (t.tell p f m).outside) :
    Agrees Q (change (t.tell p f)) (change (Setting.unobserved.tell p g)) := by
  refine agrees_change (fun m _ => ?_) keeps
  rw [Setting.tell_unobserved, Setting.bare_tell]

/-- A symbol is resolved alike, whoever observes it. -/
theorem agrees_refer (ht : t.Keeps Q) (s : Symbol) :
    Agrees Q (refer t s) (refer Setting.unobserved s) := by
  refine agrees_bind (agrees_tell (ht.symbol s)) fun _ => agrees_get_bind fun m => ?_
  have hl : m.bare.namespaces.lookup? m.bare.context s = m.namespaces.lookup? m.context s := rfl
  rw [hl]
  cases m.namespaces.lookup? m.context s with
  | none => exact agrees_throw _
  | some found =>
    obtain ⟨name, info⟩ := found
    by_cases hc : info.constant
    · simp only [hc, if_true]
      exact agrees_pure _
    · simp only [hc]
      exact agrees_bind (agrees_tell (ht.reference ⟨name, false⟩)) fun _ => agrees_pure _

theorem agrees_analyze (ht : t.Keeps Q) (f : Form) :
    Agrees Q (analyze t f) (analyze Setting.unobserved f) := by
  refine agrees_bind (agrees_mapM (agrees_refer ht) (f.mentions []).symbols) fun refs => ?_
  split
  · exact agrees_throw _
  · exact agrees_pure _

theorem agrees_defineFunction (ht : t.Keeps Q) (offers : t.OffersNothing) (q : QualifiedName)
    (arity : Nat) (refs : List Reference) (line : Option Nat) :
    Agrees Q (defineFunction t q arity refs line)
      (defineFunction Setting.unobserved q arity refs line) := by
  refine agrees_bind (agrees_change (fun m _ => ?_) fun m hm => ?_) fun _ => agrees_pure _
  · exact (Setting.bare_defineUnit offers _ _ m).symm
  · exact ht.unit _ _ m hm

/-- A definition is made alike, if the observers offer no bytes. -/
theorem agrees_define (ht : t.Keeps Q) (offers : t.OffersNothing) (f : Form) :
    Agrees Q (define t f) (define Setting.unobserved f) := by
  unfold define
  cases (f.nth? 1).bind Form.symbol? with
  | none => exact agrees_throw _
  | some name =>
    -- the definition is declared, its value analyzed, its units defined, and a note left
    refine agrees_get_bind fun m => ?_
    refine agrees_bind (agrees_change (fun _ _ => rfl) fun _ h => h) fun _ => ?_
    refine agrees_bind (agrees_within _ ?_) fun refs => ?_
    · cases f.nth? 2 with
      | none => exact agrees_pure _
      | some init => exact agrees_analyze ht init
    · refine agrees_bind (agrees_mapM (fun arity => ?_) _) fun units => ?_
      · exact agrees_defineFunction ht offers _ arity refs _
      · exact agrees_bind (agrees_change (fun _ _ => rfl) fun m h => ht.note _ _ h)
          fun _ => agrees_pure _

theorem agrees_enterNamespace (f : Form) :
    Agrees Q (enterNamespace f : Compile σ CompileSummary) (enterNamespace f) := by
  unfold enterNamespace
  cases (f.nth? 1).bind Form.symbol? with
  | none => exact agrees_throw _
  | some name =>
    refine agrees_bind (agrees_change (fun _ _ => rfl) fun _ h => h) fun _ => ?_
    exact agrees_bind (agrees_move _) fun _ => agrees_pure _

/-- A form that is evaluated has the same effect, whoever observes. -/
theorem agrees_evaluateStep (ht : t.Keeps Q) (offers : t.OffersNothing) (f : Form) :
    Agrees Q (evaluateStep t f) (evaluateStep Setting.unobserved f) := by
  unfold evaluateStep
  split
  · exact agrees_enterNamespace f
  · exact agrees_define ht offers f
  · exact agrees_bind (agrees_analyze ht f) fun _ => agrees_pure _

/-- What is left to do for a form at top level once it is expanded. -/
def finishForm (t : Setting σ τ) (f : Form) (r : Except SyntaxError Expansion) :
    Compile σ CompileSummary :=
  match r with
  | .error e => throw (.malformed e)
  | .ok e => inTurn (evaluateStep t) (e.form f).steps

theorem agrees_finishForm (ht : t.Keeps Q) (offers : t.OffersNothing) (f : Form)
    (r : Except SyntaxError Expansion) :
    Agrees Q (finishForm t f r) (finishForm Setting.unobserved f r) := by
  cases r with
  | error e => exact agrees_throw _
  | ok e => exact agrees_inTurn (agrees_evaluateStep ht offers) _

/-- The machine on which a form at top level is evaluated: the thread stands at the form,
and the expansion of the form was reported. -/
def expanded (t : Setting σ τ) (f : Form) (m : Machine σ) : Machine σ :=
  (t.expand f { m with context := { m.context with line := f.line? } }).2

/-- A form at top level is expanded first, and finished from what that gives. -/
theorem compileForm_run (t : Setting σ τ) (f : Form) (m : Machine σ) :
    compileForm t f m = finishForm t f f.expand (expanded t f m) := by
  rw [← t.fst_expand f { m with context := { m.context with line := f.line? } }]
  rfl

/-- What comes of a form at top level that is evaluated as it stands. -/
def evaluateForm (t : Setting σ τ) (f : Form) : Compile σ CompileSummary := fun m =>
  inTurn (evaluateStep t) f.steps (expanded t f m)

/-- A form that is expanded to itself is evaluated as it stands. -/
theorem compileForm_of_unchanged {f : Form} (h : f.expand = .ok .unchanged) (t : Setting σ τ) :
    compileForm t f = evaluateForm t f := by
  funext m
  rw [compileForm_run, h]
  rfl

/-- Forms in a row are compiled alike by computations that are alike on each of them. -/
theorem inTurn_congr {run run' : Form → Compile σ CompileSummary} {l : List Form}
    (h : ∀ f ∈ l, run f = run' f) : inTurn run l = inTurn run' l := by
  induction l with
  | nil => rfl
  | cons f rest ih =>
    obtain ⟨hf, hrest⟩ := List.forall_mem_cons.mp h
    rw [inTurn, inTurn, hf, ih hrest]

theorem bare_expanded (t : Setting σ τ) (f : Form) (m : Machine σ) :
    (expanded t f m).bare = expanded Setting.unobserved f m.bare := rfl

/-- A form at top level is compiled alike, whatever the observers make of its expansion. -/
theorem agrees_compileForm (offers : t.OffersNothing) (f : Form) :
    Agrees (fun _ => True) (compileForm t f) (compileForm Setting.unobserved f) := by
  constructor
  · intro m _
    rw [compileForm_run, compileForm_run, ← bare_expanded]
    exact (agrees_finishForm t.keeps_true offers f f.expand).same _ trivial
  · exact fun _ _ => trivial

/-- A source is compiled alike. -/
theorem agrees_compile (offers : t.OffersNothing) (source : String) :
    Agrees (fun _ => True) (compile t source) (compile Setting.unobserved source) := by
  unfold compile
  cases readAll source with
  | error e => exact agrees_throw _
  | ok forms => exact agrees_within _ (agrees_inTurn (agrees_compileForm offers) forms)

end Compile

end CompileWatch
