import CompileWatch.Proofs.Compiler.Agreement

/-!
# What observers are told

Observers change nothing but their own state, so what they are told in a compilation can be
listed without them: it follows from the run that nobody observes. Whatever observers make
of a compilation is what they make of that list.

- `Occasion`: something that is told, and the state of the host at that moment.
- `Occurrence`: a symbol that is analyzed; `Defining`, `Emission`: a definition, and the
  function that is emitted for it.
- `Reached`: a form that a compilation comes to.
- `Namespaces.occurrences`, `Namespaces.emissions`: all of them in a source.
- `Compile.outside_compile`: the state of the observers after a source was compiled.
-/

namespace CompileWatch

variable {σ τ α : Type}

/-! ### Occasions -/

/-- Something that the observers of a compilation are told. -/
inductive News where
  /-- A form is expanded. -/
  | expansion (f : Form)
  /-- A symbol is about to be analyzed. -/
  | symbol (s : Symbol)
  /-- A reference to a definition is made. -/
  | reference (q : QualifiedName)
  /-- A unit is defined. -/
  | unit (name : String) (bytes : Bytes)
  /-- A record is logged. -/
  | note (r : LogRecord)

/-- What the observers are told at one moment, and what the host knows and where the thread
stands at that moment. -/
structure Occasion where
  namespaces : Namespaces
  context : Context
  news : News

namespace Setting

variable (t : Setting σ τ)

/-- What becomes of the state of the observers on an occasion. -/
def hear (s : σ) (x : Occasion) : σ :=
  let view := hostView t.faults x.namespaces x.context
  match x.news with
  | .expansion f => (transform (t.watch view) f s).2
  | .symbol y => (t.observer? .constantResolution).elim s fun o => o.symbol view y s
  | .reference q =>
    (t.observer? .referenceConstruction).elim s fun o => o.reference view ⟨q, false⟩ s
  | .unit name bytes => (t.observer? .unitDefinition).elim s fun o => (o.unit view name bytes s).2
  | .note r => t.note r s

/-- What becomes of it on several occasions in a row. -/
def hearAll (s : σ) (l : List Occasion) : σ := l.foldl t.hear s

theorem hearAll_append (s : σ) (l l' : List Occasion) :
    t.hearAll s (l ++ l') = t.hearAll (t.hearAll s l) l' := List.foldl_append

theorem tell_symbol (y : Symbol) (m : Machine σ) :
    t.tell .constantResolution (fun o view => o.symbol view y) m =
      { m with outside := t.hear m.outside ⟨m.namespaces, m.context, .symbol y⟩ } := by
  unfold tell hear
  cases t.observer? .constantResolution <;> rfl

theorem tell_reference (q : QualifiedName) (m : Machine σ) :
    t.tell .referenceConstruction (fun o view => o.reference view ⟨q, false⟩) m =
      { m with outside := t.hear m.outside ⟨m.namespaces, m.context, .reference q⟩ } := by
  unfold tell hear
  cases t.observer? .referenceConstruction <;> rfl

theorem outside_defineUnit (name : String) (bytes : Bytes) (m : Machine σ) :
    (t.defineUnit name bytes m).2.outside =
      t.hear m.outside ⟨m.namespaces, m.context, .unit name bytes⟩ := by
  show (t.offer name bytes m).2 = _
  unfold offer hear
  cases t.observer? .unitDefinition <;> rfl

end Setting

/-! ### Symbols -/

/-- A symbol that is analyzed, with what the host knows and where the thread stands at that
moment. -/
structure Occurrence where
  symbol : Symbol
  namespaces : Namespaces
  context : Context

namespace Occurrence

variable (x : Occurrence)

/-- The definition that the symbol names, if it names one. -/
def found? : Option (QualifiedName × VarInfo) := x.namespaces.lookup? x.context x.symbol

/-- The reference that comes of it. -/
def reference? : Option Reference := x.found?.map fun d => ⟨d.1, d.2.constant, d.2.function⟩

/-- What comes of resolving the symbol. -/
def resolve : Except CompileError Reference :=
  match x.reference? with
  | some r => .ok r
  | none => .error (.unresolved x.symbol)

/-- Something that is told at that moment. -/
def occasion (news : News) : Occasion := ⟨x.namespaces, x.context, news⟩

/-- What is told of it: that the symbol is analyzed, and that a reference is made. No
reference is made to a constant, and none by a symbol that names nothing. -/
def occasions : List Occasion :=
  x.occasion (.symbol x.symbol) ::
    match x.found? with
    | some (q, info) => if info.constant then [] else [x.occasion (.reference q)]
    | none => []

end Occurrence

namespace Namespaces

variable (n : Namespaces) (c : Context)

/-- The symbols in a row that are analyzed: those up to the first that names nothing. -/
def analyzed : List Symbol → List Occurrence
  | [] => []
  | s :: rest =>
    let x : Occurrence := ⟨s, n, c⟩
    x ::
      match x.found? with
      | some _ => analyzed rest
      | none => []

/-- What comes of resolving symbols in a row. -/
def resolved : List Symbol → Except CompileError (List Reference)
  | [] => .ok []
  | s :: rest => do
    let r ← Occurrence.resolve ⟨s, n, c⟩
    return r :: (← resolved rest)

/-- The symbols of a form that are analyzed. -/
def occurrencesIn (f : Form) : List Occurrence := analyzed n c (f.mentions []).symbols

/-- What comes of analyzing a form: its references. -/
def referencesIn (f : Form) : Except CompileError (List Reference) := do
  let refs ← resolved n c (f.mentions []).symbols
  match (f.mentions []).fault with
  | some e => .error (.malformed e)
  | none => .ok refs

end Namespaces

namespace Compile

variable (t : Setting σ τ)

theorem get_bind_run (f : Machine σ → Compile σ α) (m : Machine σ) : (get >>= f) m = f m m := rfl

/-- Resolving a symbol changes nothing but the state of the observers. -/
theorem refer_run (s : Symbol) (m : Machine σ) :
    let x : Occurrence := ⟨s, m.namespaces, m.context⟩
    refer t s m = (x.resolve, { m with outside := t.hearAll m.outside x.occasions }) := by
  intro x
  unfold refer
  rw [bind_run_ok (a := ()) rfl, change_run, Setting.tell_symbol, get_bind_run]
  have hl : m.namespaces.lookup? m.context s = x.found? := rfl
  unfold Occurrence.resolve Occurrence.reference? Occurrence.occasions
  dsimp only
  rw [hl]
  cases x.found? with
  | none => rfl
  | some d =>
    obtain ⟨q, info⟩ := d
    by_cases hc : info.constant
    · dsimp only
      rw [if_pos hc, if_pos hc]
      rfl
    · dsimp only
      rw [if_neg hc, if_neg hc, bind_run_ok (a := ()) rfl, change_run, Setting.tell_reference]
      rfl

theorem mapM_refer_run (l : List Symbol) (m : Machine σ) :
    l.mapM (refer t) m =
      (m.namespaces.resolved m.context l,
        { m with
          outside := t.hearAll m.outside
            ((m.namespaces.analyzed m.context l).flatMap Occurrence.occasions) }) := by
  induction l generalizing m with
  | nil => rfl
  | cons s rest ih =>
    let x : Occurrence := ⟨s, m.namespaces, m.context⟩
    have hfirst : refer t s m = (x.resolve, _) := refer_run t s m
    rw [List.mapM_cons, Namespaces.analyzed, Namespaces.resolved]
    cases hf : x.found? with
    | none =>
      have hr : x.resolve = .error (.unresolved s) := by
        rw [Occurrence.resolve, Occurrence.reference?, hf]
        rfl
      rw [bind_run_error (e := .unresolved s) (by rw [hfirst, hr]), hfirst]
      show _ = ((x.resolve >>= _), _)
      rw [hr, List.flatMap_cons, List.flatMap_nil, List.append_nil]
      rfl
    | some d =>
      let r : Reference := ⟨d.1, d.2.constant, d.2.function⟩
      have hr : x.resolve = .ok r := by
        rw [Occurrence.resolve, Occurrence.reference?, hf]
        rfl
      have hrest := ih { m with outside := t.hearAll m.outside x.occasions }
      rw [bind_run_ok (a := r) (by rw [hfirst, hr]), hfirst, List.flatMap_cons,
        Setting.hearAll_append]
      show _ = ((x.resolve >>= _), _)
      rw [hr]
      cases hn : m.namespaces.resolved m.context rest with
      | error e =>
        rw [bind_run_error (e := e) (by rw [hrest]; exact hn), hrest]
        rfl
      | ok refs =>
        rw [bind_run_ok (a := refs) (by rw [hrest]; exact hn), hrest]
        rfl

/-- Analyzing a form changes nothing but the state of the observers. -/
theorem analyze_run (f : Form) (m : Machine σ) :
    analyze t f m =
      (m.namespaces.referencesIn m.context f,
        { m with
          outside := t.hearAll m.outside
            ((m.namespaces.occurrencesIn m.context f).flatMap Occurrence.occasions) }) := by
  have hrefs := mapM_refer_run t (f.mentions []).symbols m
  unfold analyze Namespaces.referencesIn
  cases hn : m.namespaces.resolved m.context (f.mentions []).symbols with
  | error e =>
    rw [bind_run_error (e := e) (by rw [hrefs]; exact hn), hrefs]
    rfl
  | ok refs =>
    rw [bind_run_ok (a := refs) (by rw [hrefs]; exact hn), hrefs]
    cases hfault : (f.mentions []).fault with
    | none =>
      show _ = ((match (f.mentions []).fault with | _ => _), _)
      rw [hfault]
      rfl
    | some e =>
      show _ = ((match (f.mentions []).fault with | _ => _), _)
      rw [hfault]
      rfl

end Compile

/-! ### Definitions -/

/-- What a definition form says: the definition, what is known of it, its value if it has
one, and how many parameters it has if that is a function. -/
structure Defining where
  name : QualifiedName
  info : VarInfo
  init? : Option Form
  arity? : Option Nat
  line : Option Nat

/-- What a form says when it is evaluated as a definition. -/
def Form.defining? (f : Form) (c : Context) : Option Defining :=
  ((f.nth? 1).bind Form.symbol?).map fun name =>
    let arity? := Compile.functionArity? (f.nth? 2)
    { name := ⟨c.namespaceName, name.name⟩
      info := ⟨name.metadata.hasFlag "const", arity?.isSome⟩
      init? := f.nth? 2
      arity? := arity?
      line := name.metadata.line.or f.line? }

/-- A function for which a unit is emitted. -/
structure Emission where
  name : QualifiedName
  arity : Nat
  references : List Reference
  line : Option Nat

/-- The unit of a function: its name, and its bytes. -/
def Emission.unit (e : Emission) : String × Bytes := emitFunction e.name e.arity e.references e.line

namespace Defining

variable (d : Defining) (n : Namespaces) (c : Context)

/-- What the host knows while the value is analyzed: the definition itself, too. -/
def known : Namespaces := n.intern d.name d.info

/-- Where the thread stands while the value is analyzed. -/
def within : Context := { c with enclosing := some d.name }

/-- The symbols of the value that are analyzed. -/
def occurrences : List Occurrence :=
  d.init?.elim [] ((d.known n).occurrencesIn (d.within c))

/-- What comes of analyzing the value. -/
def references : Except CompileError (List Reference) :=
  d.init?.elim (.ok []) ((d.known n).referencesIn (d.within c))

/-- The function that is emitted for the value, if it is one and these are its references. -/
def emission? (refs : List Reference) : Option Emission :=
  d.arity?.map fun arity => ⟨d.name, arity, refs, d.line⟩

/-- What is logged in the end. -/
def record (refs : List Reference) : LogRecord :=
  ⟨.debug, "Defined " ++ d.name.text ++ " (" ++ toString refs.length ++ " references)"⟩

/-- What is told once the references are known. -/
def conclusion (refs : List Reference) : List Occasion :=
  (d.emission? refs).toList.map (fun e => ⟨d.known n, c, .unit e.unit.1 e.unit.2⟩) ++
    [⟨d.known n, c, .note (d.record refs)⟩]

end Defining

namespace Compile

variable (t : Setting σ τ)

/-- Analyze the value of a definition. -/
def analyzeValue (d : Defining) : Compile σ (List Reference) :=
  within d.within
    (match d.init? with
      | some init => analyze t init
      | none => pure [])

/-- What is left to do for a definition once its references are known. -/
def conclude (d : Defining) (refs : List Reference) : Compile σ CompileSummary := do
  let units ← d.arity?.toList.mapM fun arity => defineFunction t d.name arity refs d.line
  change fun m => { m with outside := t.note (d.record refs) m.outside }
  return ⟨[d.name], units⟩

/-- A definition is known before its value is analyzed. -/
theorem define_run {f : Form} {m : Machine σ} {d : Defining} (h : f.defining? m.context = some d) :
    define t f m =
      (analyzeValue t d >>= conclude t d) { m with namespaces := d.known m.namespaces } := by
  obtain ⟨name, hname, rfl⟩ := Option.map_eq_some_iff.mp h
  unfold define
  rw [hname]
  dsimp only
  rw [get_bind_run, bind_run_ok (a := ()) rfl, change_run]
  rfl

/-- A definition without a name is none. -/
theorem define_run_of_none {f : Form} {m : Machine σ} (h : f.defining? m.context = none) :
    define t f m = (.error (.malformed (.definitionName f)), m) := by
  unfold define
  rw [Option.map_eq_none_iff.mp h]
  rfl

/-- Analyzing the value of a definition changes nothing but the state of the observers. -/
theorem analyzeValue_run (d : Defining) (m : Machine σ) :
    analyzeValue t d { m with namespaces := d.known m.namespaces } =
      (d.references m.namespaces m.context,
        { m with
          namespaces := d.known m.namespaces
          outside := t.hearAll m.outside
            ((d.occurrences m.namespaces m.context).flatMap Occurrence.occasions) }) := by
  unfold analyzeValue Defining.references Defining.occurrences
  rw [within_run]
  cases d.init? with
  | none => rfl
  | some init =>
    dsimp only [Option.elim]
    rw [analyze_run]

/-- The machine once the value of a definition was analyzed. -/
def valued (d : Defining) (m : Machine σ) : Machine σ :=
  { m with
    namespaces := d.known m.namespaces
    outside := t.hearAll m.outside
      ((d.occurrences m.namespaces m.context).flatMap Occurrence.occasions) }

/-- A definition fails for want of a name or at its value, or it is concluded. -/
theorem define_cases (f : Form) (m : Machine σ) :
    (f.defining? m.context = none ∧
        define t f m = (.error (.malformed (.definitionName f)), m)) ∨
      ∃ d, f.defining? m.context = some d ∧
        ((∃ e, d.references m.namespaces m.context = .error e ∧
            define t f m = (.error e, valued t d m)) ∨
          ∃ refs, d.references m.namespaces m.context = .ok refs ∧
            define t f m = conclude t d refs (valued t d m)) := by
  cases hd : f.defining? m.context with
  | none => exact .inl ⟨rfl, define_run_of_none t hd⟩
  | some d =>
    refine .inr ⟨d, rfl, ?_⟩
    have hvalue := analyzeValue_run t d m
    rw [define_run t hd]
    cases hrefs : d.references m.namespaces m.context with
    | error e =>
      rw [hrefs] at hvalue
      exact .inl ⟨e, rfl, by rw [bind_run_error (congrArg Prod.fst hvalue), hvalue]; rfl⟩
    | ok refs =>
      rw [hrefs] at hvalue
      exact .inr ⟨refs, rfl, by rw [bind_run_ok (congrArg Prod.fst hvalue), hvalue]; rfl⟩

theorem defineFunction_run (q : QualifiedName) (arity : Nat) (refs : List Reference)
    (line : Option Nat) (m : Machine σ) :
    let u := emitFunction q arity refs line
    defineFunction t q arity refs line m = (.ok (dottedName u.1), (t.defineUnit u.1 u.2 m).2) := by
  unfold defineFunction
  generalize emitFunction q arity refs line = u
  rfl

/-- What is told once the references of a definition are known. -/
theorem outside_conclude (d : Defining) (refs : List Reference) (n : Namespaces) (m : Machine σ)
    (hn : m.namespaces = d.known n) :
    (conclude t d refs m).2.outside = t.hearAll m.outside (d.conclusion n m.context refs) := by
  unfold conclude Defining.conclusion Defining.emission?
  rw [← hn]
  cases d.arity? with
  | none => rfl
  | some arity =>
    have hunit := defineFunction_run t d.name arity refs d.line m
    rw [Option.toList_some, Option.map_some, Option.toList_some, List.map_singleton,
      List.mapM_cons, List.mapM_nil, bind_assoc, bind_run_ok (congrArg Prod.fst hunit), hunit,
      pure_bind, pure_bind, bind_run_ok (a := ()) rfl, change_run, pure_run, Setting.hearAll_append]
    show t.note (d.record refs) (t.defineUnit _ _ m).2.outside = _
    rw [Setting.outside_defineUnit]
    rfl

end Compile

/-! ### Evaluation -/

/-- A form that a compilation comes to, and the machine that it finds there. -/
structure Reached where
  form : Form
  machine : Machine Unit

namespace Reached

variable (r : Reached)

/-- What the form says, if it is evaluated as a definition. -/
def defining? : Option Defining :=
  match r.form.head?.bind SpecialForm.ofName? with
  | some .define => r.form.defining? r.machine.context
  | _ => none

/-- The symbols that are analyzed when the form is evaluated: those of the value of a
definition, none of a declaration, and all of any other form. -/
def occurrences : List Occurrence :=
  let n := r.machine.namespaces
  let c := r.machine.context
  match r.form.head?.bind SpecialForm.ofName? with
  | some .declaration => []
  | some .define => r.defining?.elim [] fun d => d.occurrences n c
  | _ => n.occurrencesIn c r.form

/-- The references of the definition that the form makes, unless it fails. -/
def concluded? : Option (Defining × List Reference) :=
  r.defining?.bind fun d =>
    match d.references r.machine.namespaces r.machine.context with
    | .ok refs => some (d, refs)
    | .error _ => none

/-- The function that is emitted when the form is evaluated. -/
def emission? : Option Emission := r.concluded?.bind fun p => p.1.emission? p.2

/-- What is told when the form is evaluated. -/
def occasions : List Occasion :=
  r.occurrences.flatMap Occurrence.occasions ++
    r.concluded?.elim [] fun p => p.1.conclusion r.machine.namespaces r.machine.context p.2

end Reached

namespace Compile

variable (t : Setting σ τ)

/-- A form is evaluated as a declaration, as a definition, or for its references only. -/
theorem evaluateStep_cases (f : Form) :
    (f.head?.bind SpecialForm.ofName? = some .declaration ∧ evaluateStep t f = enterNamespace f) ∨
      (f.head?.bind SpecialForm.ofName? = some .define ∧ evaluateStep t f = define t f) ∨
      (f.head?.bind SpecialForm.ofName? ≠ some .declaration ∧
        f.head?.bind SpecialForm.ofName? ≠ some .define ∧
        evaluateStep t f = (analyze t f >>= fun _ => pure {})) := by
  unfold evaluateStep
  split
  next h => exact .inl ⟨h, rfl⟩
  next h => exact .inr (.inl ⟨h, rfl⟩)
  next hdeclaration hdefine => exact .inr (.inr ⟨hdeclaration, hdefine, rfl⟩)

end Compile

namespace Reached

variable {r : Reached}

/-- A form that is evaluated as a definition. -/
theorem head_of_defining? {d : Defining} (h : r.defining? = some d) :
    r.form.head?.bind SpecialForm.ofName? = some .define := by
  unfold defining? at h
  split at h
  · assumption
  · cases h

theorem defining?_of_define (h : r.form.head?.bind SpecialForm.ofName? = some .define) :
    r.defining? = r.form.defining? r.machine.context := by
  rw [defining?, h]

theorem defining?_of_ne (h : r.form.head?.bind SpecialForm.ofName? ≠ some .define) :
    r.defining? = none := by
  unfold defining?
  split
  · contradiction
  · rfl

theorem occurrences_of_defining? {d : Defining} (h : r.defining? = some d) :
    r.occurrences = d.occurrences r.machine.namespaces r.machine.context := by
  unfold occurrences
  rw [head_of_defining? h, h]
  rfl

theorem occurrences_of_ne (hdeclaration : r.form.head?.bind SpecialForm.ofName? ≠ some .declaration)
    (hdefine : r.form.head?.bind SpecialForm.ofName? ≠ some .define) :
    r.occurrences = r.machine.namespaces.occurrencesIn r.machine.context r.form := by
  unfold occurrences
  dsimp only
  split
  · contradiction
  · contradiction
  · rfl

/-- A definition is made once the references of its value are known. -/
theorem concluded?_eq_some_iff {d : Defining} {refs : List Reference} :
    r.concluded? = some (d, refs) ↔
      r.defining? = some d ∧ d.references r.machine.namespaces r.machine.context = .ok refs := by
  unfold concluded?
  rw [Option.bind_eq_some_iff]
  constructor
  · rintro ⟨d', hd, h⟩
    split at h
    next hrefs =>
      obtain ⟨rfl, rfl⟩ := Prod.mk.inj (Option.some.inj h)
      exact ⟨hd, hrefs⟩
    next => cases h
  · rintro ⟨hd, hrefs⟩
    exact ⟨d, hd, by rw [hrefs]⟩

/-- A form that makes no definition. -/
theorem concluded?_of_none (h : r.defining? = none) : r.concluded? = none := by
  rw [concluded?, h]
  rfl

/-- A definition whose value is not analyzed to its end. -/
theorem concluded?_of_error {d : Defining} {e : CompileError} (hd : r.defining? = some d)
    (hrefs : d.references r.machine.namespaces r.machine.context = .error e) :
    r.concluded? = none := by
  rw [concluded?, hd, Option.bind_some, hrefs]

end Reached

namespace Compile

variable (t : Setting σ τ)

/-- What is told when a definition is made. -/
theorem outside_define (f : Form) (m : Machine σ)
    (hdefine : f.head?.bind SpecialForm.ofName? = some .define) :
    (define t f m).2.outside = t.hearAll m.outside (Reached.mk f m.bare).occasions := by
  have hsome : (Reached.mk f m.bare).defining? = f.defining? m.context :=
    Reached.defining?_of_define hdefine
  obtain ⟨hd, hrun⟩ | ⟨d, hd, hrun⟩ := define_cases t f m
  · rw [hrun, Reached.occasions, Reached.concluded?_of_none (hsome.trans hd), Reached.occurrences,
      hdefine, hsome, hd]
    rfl
  · rw [Reached.occasions, Reached.occurrences_of_defining? (hsome.trans hd)]
    obtain ⟨e, hrefs, hrun⟩ | ⟨refs, hrefs, hrun⟩ := hrun
    · rw [hrun, Reached.concluded?_of_error (hsome.trans hd) hrefs, Option.elim_none,
        List.append_nil]
      rfl
    · rw [hrun, Reached.concluded?_eq_some_iff.mpr ⟨hsome.trans hd, hrefs⟩, Option.elim_some,
        Setting.hearAll_append, outside_conclude t d refs m.namespaces _ rfl]
      rfl

/-- What is told when a form is evaluated. -/
theorem outside_evaluateStep (f : Form) (m : Machine σ) :
    (evaluateStep t f m).2.outside = t.hearAll m.outside (Reached.mk f m.bare).occasions := by
  obtain ⟨hop, heval⟩ | ⟨hop, heval⟩ | ⟨hdeclaration, hdefine, heval⟩ := evaluateStep_cases t f
  · have hnone : (Reached.mk f m.bare).defining? = none :=
      Reached.defining?_of_ne (by rw [hop]; decide)
    rw [heval, Reached.occasions, Reached.concluded?_of_none hnone, Reached.occurrences, hop]
    unfold enterNamespace
    cases (f.nth? 1).bind Form.symbol? <;> rfl
  · rw [heval]
    exact outside_define t f m hop
  · have hnone : (Reached.mk f m.bare).defining? = none := Reached.defining?_of_ne hdefine
    rw [heval, snd_bind_pure, analyze_run, Reached.occasions, Reached.concluded?_of_none hnone,
      Reached.occurrences_of_ne hdeclaration hdefine, Option.elim_none, List.append_nil]
    rfl

/-! ### Forms in a row -/

/-- The forms that a computation comes to when it is run on forms in a row: none after one
that fails. -/
def reached (run : Form → Compile Unit CompileSummary) : List Form → Machine Unit → List Reached
  | [], _ => []
  | f :: rest, m =>
    ⟨f, m⟩ ::
      match run f m with
      | (.ok _, m') => reached run rest m'
      | (.error _, _) => []

/-- The forms that are reached do not depend on how the computation is given. -/
theorem reached_congr {run run' : Form → Compile Unit CompileSummary} {l : List Form}
    (h : ∀ f ∈ l, run f = run' f) (m : Machine Unit) : reached run l m = reached run' l m := by
  induction l generalizing m with
  | nil => rfl
  | cons f rest ih =>
    obtain ⟨hf, hrest⟩ := List.forall_mem_cons.mp h
    simp only [reached, hf, ih hrest]

/-- What a computation keeps of the machine holds wherever it comes to a form. -/
theorem forall_mem_reached {run : Form → Compile Unit CompileSummary} {P : Machine Unit → Prop}
    {l : List Form} {m : Machine Unit} (hrun : ∀ f ∈ l, ∀ m, P m → P (run f m).2) (hm : P m) :
    ∀ r ∈ reached run l m, r.form ∈ l ∧ P r.machine := by
  induction l generalizing m with
  | nil => exact fun r hr => (List.not_mem_nil hr).elim
  | cons f rest ih =>
    obtain ⟨hf, hrest⟩ := List.forall_mem_cons.mp hrun
    have hnext := hf m hm
    rw [reached]
    intro r hr
    rcases List.mem_cons.mp hr with rfl | hr
    · exact ⟨List.mem_cons_self, hm⟩
    · cases hrun' : run f m with
      | mk result m' =>
        rw [hrun'] at hr hnext
        cases result with
        | error e => cases hr
        | ok s =>
          obtain ⟨hform, hmachine⟩ := ih hrest hnext r hr
          exact ⟨List.mem_cons_of_mem _ hform, hmachine⟩

variable {t}

/-- What is told when a computation is run on forms in a row, given what is told for each. -/
theorem outside_inTurn {run : Form → Compile σ CompileSummary}
    {alone : Form → Compile Unit CompileSummary} {told : Reached → List Occasion}
    (hagrees : ∀ f, Agrees (fun _ => True) (run f) (alone f))
    (htold : ∀ f m, (run f m).2.outside = t.hearAll m.outside (told ⟨f, m.bare⟩)) (l : List Form)
    (m : Machine σ) :
    (inTurn run l m).2.outside = t.hearAll m.outside ((reached alone l m.bare).flatMap told) := by
  induction l generalizing m with
  | nil => rfl
  | cons f rest ih =>
    rw [reached, List.flatMap_cons, Setting.hearAll_append, ← htold, (hagrees f).same m trivial]
    cases hr : (run f m).1 with
    | error e =>
      rw [inTurn, bind_run_error hr]
      rfl
    | ok first =>
      rw [inTurn, bind_run_ok hr, snd_bind_pure, ih]

end Compile

namespace Reached

variable (r : Reached)

/-- The forms that are evaluated for a form at top level, once it is expanded. -/
def evaluated : List Reached :=
  match r.form.expand with
  | .error _ => []
  | .ok e =>
    Compile.reached (Compile.evaluateStep Setting.unobserved) (e.form r.form).steps
      (Compile.expanded Setting.unobserved r.form r.machine)

/-- What is told when a form at top level is compiled. -/
def occasionsOnTop : List Occasion :=
  ⟨r.machine.namespaces, { r.machine.context with line := r.form.line? }, .expansion r.form⟩ ::
    r.evaluated.flatMap occasions

end Reached

namespace Compile

variable {t : Setting σ τ}

/-- What is told when a form at top level is compiled. -/
theorem outside_compileForm (offers : t.OffersNothing) (f : Form) (m : Machine σ) :
    (compileForm t f m).2.outside = t.hearAll m.outside (Reached.mk f m.bare).occasionsOnTop := by
  rw [compileForm_run]
  show _ = t.hearAll (expanded t f m).outside ((Reached.mk f m.bare).evaluated.flatMap _)
  unfold Reached.evaluated
  dsimp only
  cases f.expand with
  | error e => rfl
  | ok e =>
    dsimp only
    rw [← bare_expanded]
    exact outside_inTurn (agrees_evaluateStep t.keeps_true offers) (outside_evaluateStep t) _ _

end Compile

/-! ### A whole source -/

namespace Namespaces

variable (n : Namespaces) (source : String)

/-- The forms at top level that a compilation of a source comes to. -/
def topLevel : List Reached :=
  match readAll source with
  | .error _ => []
  | .ok forms =>
    Compile.reached (Compile.compileForm Setting.unobserved) forms
      { namespaces := n, context := { ns := some defaultNamespace }, outside := () }

/-- The forms that are evaluated when a source is compiled. -/
def evaluated : List Reached := (n.topLevel source).flatMap Reached.evaluated

/-- The symbols that are analyzed when a source is compiled. -/
def occurrences : List Occurrence := (n.evaluated source).flatMap Reached.occurrences

/-- The functions that are emitted when a source is compiled. -/
def emissions : List Emission := (n.evaluated source).filterMap Reached.emission?

/-- What is told when a source is compiled. -/
def occasions : List Occasion := (n.topLevel source).flatMap Reached.occasionsOnTop

end Namespaces

/-- What a compilation makes of the state of the observers is what they make of what they
are told, and what they are told does not depend on them. -/
theorem Compile.outside_compile {t : Setting σ τ} (offers : t.OffersNothing) (source : String)
    (m : Machine σ) (hunits : m.units = []) :
    (compile t source m).2.outside = t.hearAll m.outside (m.namespaces.occasions source) := by
  unfold compile Namespaces.occasions Namespaces.topLevel
  cases readAll source with
  | error e => rfl
  | ok forms =>
    let start : Machine σ := { m with context := { ns := some defaultNamespace } }
    have hstart : start.bare =
        { namespaces := m.namespaces, context := { ns := some defaultNamespace }, outside := () } := by
      rw [Machine.bare, hunits]
    have h := outside_inTurn (agrees_compileForm offers) (outside_compileForm offers) forms start
    rw [hstart] at h
    exact h

end CompileWatch
