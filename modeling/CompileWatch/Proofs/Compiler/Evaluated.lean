import Mathlib.Data.List.Pairwise
import CompileWatch.Proofs.Compiler.Place
import CompileWatch.Proofs.Compiler.Steps
import CompileWatch.Proofs.Reading.Forms

/-!
# What is evaluated for a source

Every form that a compilation comes to was read, or stands for one that was, and is evaluated
at top level. Where every name is defined once, a definition has one form, and whatever a
symbol names stays what it is to the end.

- `Compile.Confines.of_mem_source`: what holds of the forms of a source, and of where the thread
  stands between them.
- `Namespaces.atTopLevel_of_mem_topLevel`, `atTopLevel_of_mem_evaluated`: they are at top level.
- `Namespaces.Leads.allNames`: what holds of the names of all namespaces.
- `Namespaces.Legible`: namespaces whose names can be written.
- `Namespaces.eq_of_defining?`: the form of a definition.
- `Namespaces.Leads.find?_found`: what a symbol names is known in the end.
- `Reached.references_of_concluded?`: the references of a definition.
- `Form.IsAll`: a source of one form; `Form.IsAll.fst_compile`: it compiles if that form is a
  definition whose references are known.
-/

namespace CompileWatch

/-! ### The forms of a source -/

namespace Reached

/-- A definition is made in the namespace where the thread stands. -/
theorem ns_of_defining? {r : Reached} {d : Defining} (h : r.defining? = some d) :
    d.name.ns = r.machine.context.namespaceName := by
  rw [defining?_of_define (head_of_defining? h)] at h
  obtain ⟨name, -, rfl⟩ := Option.map_eq_some_iff.mp h
  rfl

end Reached

namespace Compile.Confines

variable {F : Form → Prop} {P : Context → Prop} (confines : Confines F P) {r r' : Reached}

include confines

/-- What is evaluated for a form at top level. -/
theorem of_mem_evaluated (hform : F r.form) (hcontext : P r.machine.context)
    (hr' : r' ∈ r.evaluated) : F r'.form ∧ P r'.machine.context := by
  unfold Reached.evaluated at hr'
  cases hexpand : r.form.expand with
  | error e =>
    rw [hexpand] at hr'
    cases hr'
  | ok e =>
    rw [hexpand] at hr'
    have hsteps : ∀ f ∈ (e.form r.form).steps, F f :=
      fun f hf => confines.steps hform hexpand hf
    have hexpanded : P (Compile.expanded Setting.unobserved r.form r.machine).context :=
      confines.expanded hcontext
    obtain ⟨hform', hcontext'⟩ := forall_mem_reached (P := fun m => P m.context)
      (fun f hf m => confines.stays_evaluateStep (hsteps f hf) m) hexpanded r' hr'
    exact ⟨hsteps _ hform', hcontext'⟩

/-- The forms at top level are those that were read. -/
theorem of_mem_topLevel {n : Namespaces} {source : String} {Q : Form → Prop}
    (hread : ∀ {forms}, readAll source = .ok forms → ∀ f ∈ forms, Q f) (hQ : ∀ {f}, Q f → F f)
    (hstart : P { ns := some defaultNamespace }) (hr : r ∈ n.topLevel source) :
    Q r.form ∧ P r.machine.context := by
  unfold Namespaces.topLevel at hr
  cases hforms : readAll source with
  | error e =>
    rw [hforms] at hr
    cases hr
  | ok forms =>
    rw [hforms] at hr
    obtain ⟨hform, hcontext⟩ := forall_mem_reached (P := fun m => P m.context)
      (fun f hf m => confines.stays_compileForm (hQ (hread hforms f hf)) m) hstart r hr
    exact ⟨hread hforms _ hform, hcontext⟩

/-- The forms that are evaluated for a source. -/
theorem of_mem_source {n : Namespaces} {source : String}
    (hread : ∀ {forms}, readAll source = .ok forms → ∀ f ∈ forms, F f)
    (hstart : P { ns := some defaultNamespace }) (hr : r ∈ n.evaluated source) :
    F r.form ∧ P r.machine.context := by
  obtain ⟨r', hr', hr⟩ := List.mem_flatMap.mp hr
  obtain ⟨hform, hcontext⟩ := confines.of_mem_topLevel hread id hstart hr'
  exact confines.of_mem_evaluated hform hcontext hr

end Compile.Confines

namespace Namespaces

variable {n : Namespaces} {source : String} {r r' : Reached}

/-- A form at top level was read. -/
theorem atTopLevel_of_mem_topLevel (hr : r ∈ n.topLevel source) :
    r.form.AsRead ∧ r.machine.context.AtTopLevel :=
  Compile.confines_named.of_mem_topLevel asRead_of_readAll Form.AsRead.named
    Context.atTopLevel_start hr

/-- A form that is evaluated stands for one that was read. -/
theorem atTopLevel_of_mem_evaluated (hr : r ∈ n.evaluated source) :
    r.form.Named ∧ r.machine.context.AtTopLevel :=
  Compile.confines_named.of_mem_source
    (fun hread f hf => (asRead_of_readAll hread f hf).named) Context.atTopLevel_start hr

/-! ### Names of namespaces -/

/-- The names of all namespaces have a property. -/
def AllNames (p : String → Prop) (n : Namespaces) : Prop := ∀ ns, n.contains ns → p ns

section

variable {p : String → Prop}

theorem allNames_alter {ns : String} {f : Option Namespace → Namespace} (hn : n.AllNames p)
    (hns : p ns) : AllNames p (n.alter ns f) := by
  intro ns' hns'
  rw [SortedMap.contains_alter, Bool.or_eq_true, beq_iff_eq, Std.LawfulEqCmp.compare_eq_iff_eq]
    at hns'
  rcases hns' with rfl | hns'
  · exact hns
  · exact hn ns' hns'

/-- A form that is evaluated makes no namespaces but the one that it declares and the one where
the thread stands. -/
theorem allNames_leaves
    (hdeclared : ∀ name, (r.form.nth? 1).bind Form.symbol? = some name → p name.text)
    (hcontext : p r.machine.context.namespaceName) (hn : r.machine.namespaces.AllNames p) :
    r.leaves.AllNames p := by
  unfold Reached.leaves
  split
  · cases hname : (r.form.nth? 1).bind Form.symbol? with
    | none => exact hn
    | some name => exact allNames_alter hn (hdeclared name hname)
  · cases hd : r.defining? with
    | none => exact hn
    | some d => exact allNames_alter hn (Reached.ns_of_defining? hd ▸ hcontext)
  · exact hn

theorem Leads.allNames {n' : Namespaces} {l : List Reached} (h : n.Leads l n')
    (hl : ∀ r ∈ l, (∀ name, (r.form.nth? 1).bind Form.symbol? = some name → p name.text) ∧
      p r.machine.context.namespaceName) (hn : n.AllNames p) : n'.AllNames p := by
  induction h with
  | nil n => exact hn
  | cons r rest ih =>
    obtain ⟨hr, hrest⟩ := List.forall_mem_cons.mp hl
    exact ih hrest (allNames_leaves hr.1 hr.2 hn)

end

/-- The names of all namespaces are such as can be written. -/
def Legible (n : Namespaces) : Prop := ∀ ns, n.contains ns → '[' ∉ ns.toList

theorem legible_initial : initial.Legible := by
  intro ns hns
  have hkeys : ∀ ns ∈ initial.keys, '[' ∉ ns.toList := by decide
  exact hkeys ns (SortedMap.mem_keys.mpr hns)

/-- No source makes a namespace whose name cannot be written. -/
theorem Leads.legible {n' : Namespaces} {l : List Reached} (h : n.Leads l n')
    (hl : ∀ r ∈ l, r.form.Named ∧ r.machine.context.AtTopLevel) (hn : n.Legible) : n'.Legible :=
  h.allNames (p := fun ns => '[' ∉ ns.toList)
    (fun r hr => ⟨fun _ hname => ((hl r hr).1.nth?_symbol hname).2, (hl r hr).2.bare⟩) hn

/-! ### Definitions -/

/-- A name that is defined once has one form. -/
theorem eq_of_defining? {l : List Reached}
    (hl : (l.filterMap fun r => r.defining?.map Defining.name).Nodup) (hr : r ∈ l) (hr' : r' ∈ l)
    {d d' : Defining} (hd : r.defining? = some d) (hd' : r'.defining? = some d')
    (hname : d.name = d'.name) : r = r' := by
  by_contra hne
  have hpairs := List.pairwise_filterMap.mp hl
  have hsymmetric : Std.Symm fun r r' : Reached =>
      ∀ q, r.defining?.map Defining.name = some q →
        ∀ q', r'.defining?.map Defining.name = some q' → q ≠ q' :=
    ⟨fun r r' h q hq q' hq' => (h q' hq' q hq).symm⟩
  exact hpairs.forall hr hr' hne d.name (by rw [hd]; rfl) d'.name (by rw [hd']; rfl) hname

/-- Whatever a symbol names stays what it is, if every name is defined once, and nothing that was
known before is changed. -/
theorem Leads.find?_found {n' : Namespaces} {l : List Reached} (h : n.Leads l n')
    (hl : (l.filterMap fun r => r.defining?.map Defining.name).Nodup)
    (hkept : ∀ q info, n.find? q.name q.ns = some (q, info) →
      n'.find? q.name q.ns = some (q, info))
    (hr : r ∈ l) {x : Occurrence} (hx : x ∈ r.occurrences) {q : QualifiedName} {info : VarInfo}
    (hq : x.found? = some (q, info)) : n'.find? q.name q.ns = some (q, info) := by
  obtain ⟨before, after, rfl⟩ := List.append_of_mem hr
  obtain ⟨n₁, hbefore, hrest⟩ := h.of_append
  cases hrest with
  | cons _ hafter =>
    have hfound : r.leaves.find? q.name q.ns = some (q, info) := by
      rw [← (r.eq_of_mem_occurrences hx).1]
      exact find?_of_lookup? _ hq
    by_cases hlater : ∃ r' ∈ after, ∃ d ∈ r'.defining?, d.name = q
    · -- what is defined later was known before, and not defined until now
      obtain ⟨r', hr', d, hd, rfl⟩ := hlater
      rw [← List.singleton_append, ← List.append_assoc, List.filterMap_append] at hl
      have hearlier : ∀ r'' ∈ before ++ [r], ∀ d' ∈ r''.defining?, d'.name ≠ d.name := by
        intro r'' hr'' d' hd' hname
        refine (List.nodup_append.mp hl).2.2 d'.name ?_ d.name ?_ hname
        · exact List.mem_filterMap.mpr ⟨r'', hr'', by rw [hd']; rfl⟩
        · exact List.mem_filterMap.mpr ⟨r', hr', by rw [hd]; rfl⟩
      refine hkept _ _ ?_
      rw [← hbefore.find? fun r'' hr'' => hearlier r'' (List.mem_append_left _ hr''), ← hfound]
      exact (r.find?_leaves (hearlier r (by simp))).symm
    · rw [hafter.find? fun r' hr' d hd hname => hlater ⟨r', hr', d, hd, hname⟩]
      exact hfound

end Namespaces

/-! ### References -/

namespace Namespaces

variable (n : Namespaces) (c : Context)

/-- What comes of symbols that all name something are the references that they make. -/
theorem filterMap_reference?_analyzed {l : List Symbol} {refs : List Reference}
    (h : n.resolved c l = .ok refs) : (n.analyzed c l).filterMap Occurrence.reference? = refs := by
  induction l generalizing refs with
  | nil => exact Except.ok.inj h
  | cons s rest ih =>
    let x : Occurrence := ⟨s, n, c⟩
    have hresolved : (x.resolve >>= fun r => n.resolved c rest >>= fun refs => pure (r :: refs)) =
        .ok refs := h
    rw [Occurrence.resolve] at hresolved
    cases hr : x.reference? with
    | none =>
      rw [hr] at hresolved
      cases hresolved
    | some r =>
      obtain ⟨d, hd, -⟩ := Option.map_eq_some_iff.mp hr
      rw [hr] at hresolved
      cases hrest : n.resolved c rest with
      | error e =>
        rw [hrest] at hresolved
        cases hresolved
      | ok others =>
        rw [hrest] at hresolved
        obtain rfl := Except.ok.inj hresolved
        have hanalyzed : n.analyzed c (s :: rest) = x :: n.analyzed c rest := by
          rw [analyzed, hd]
        rw [hanalyzed, List.filterMap_cons_some hr, ih hrest]

theorem filterMap_reference?_occurrencesIn {f : Form} {refs : List Reference}
    (h : n.referencesIn c f = .ok refs) :
    (n.occurrencesIn c f).filterMap Occurrence.reference? = refs := by
  unfold referencesIn at h
  cases hresolved : n.resolved c (f.mentions []).symbols with
  | error e =>
    rw [hresolved] at h
    cases h
  | ok found =>
    rw [hresolved] at h
    have hfound : found = refs := by
      cases hfault : (f.mentions []).fault with
      | none =>
        simp only [bind, Except.bind, hfault] at h
        exact Except.ok.inj h
      | some e =>
        simp only [bind, Except.bind, hfault] at h
        cases h
    rw [← hfound]
    exact n.filterMap_reference?_analyzed c hresolved

end Namespaces

namespace Reached

variable {r : Reached} {d : Defining} {refs : List Reference}

/-- The references of a definition are those that the symbols of its value make. -/
theorem references_of_concluded? (h : r.concluded? = some (d, refs)) :
    r.occurrences.filterMap Occurrence.reference? = refs := by
  obtain ⟨hd, hrefs⟩ := concluded?_eq_some_iff.mp h
  rw [occurrences_of_defining? hd]
  unfold Defining.occurrences
  unfold Defining.references at hrefs
  cases hinit : d.init? with
  | none =>
    rw [hinit] at hrefs
    exact Except.ok.inj hrefs
  | some init =>
    rw [hinit] at hrefs
    exact Namespaces.filterMap_reference?_occurrencesIn _ _ hrefs

/-- A function is emitted for a definition that is made. -/
theorem emission?_eq_some_iff {e : Emission} :
    r.emission? = some e ↔
      ∃ d refs, r.concluded? = some (d, refs) ∧ d.emission? refs = some e := by
  unfold emission?
  rw [Option.bind_eq_some_iff]
  exact Prod.exists

end Reached

/-! ### Sources that are expanded to themselves -/

/-- What is evaluated for forms that are expanded to themselves: the steps of each. -/
theorem Namespaces.evaluated_of_unchanged {n : Namespaces} {source : String} {forms : List Form}
    (hread : readAll source = .ok forms) (hforms : ∀ f ∈ forms, f.expand = .ok .unchanged) :
    n.evaluated source =
      (Compile.reached (Compile.evaluateForm Setting.unobserved) forms
        { namespaces := n, context := { ns := some defaultNamespace }, outside := () }).flatMap fun r =>
          Compile.reached (Compile.evaluateStep Setting.unobserved) r.form.steps
            (Compile.expanded Setting.unobserved r.form r.machine) := by
  unfold Namespaces.evaluated Namespaces.topLevel
  rw [hread]
  dsimp only
  rw [Compile.reached_congr fun f hf => Compile.compileForm_of_unchanged (hforms f hf) _]
  refine congrArg List.flatten (List.map_congr_left fun r hr => ?_)
  obtain ⟨hform, -⟩ := Compile.forall_mem_reached (P := fun _ => True)
    (fun _ _ _ _ => trivial) trivial r hr
  unfold Reached.evaluated
  rw [hforms r.form hform]
  rfl

/-- What the host knows after such a source. -/
theorem Namespaces.after_of_unchanged {n : Namespaces} {source : String} {forms : List Form}
    (hread : readAll source = .ok forms) (hforms : ∀ f ∈ forms, f.expand = .ok .unchanged) :
    n.after source = (Compile.inTurn (Compile.evaluateForm Setting.unobserved) forms
      { namespaces := n, context := { ns := some defaultNamespace }, outside := () }).2.namespaces := by
  unfold Namespaces.after Compile.compile
  rw [hread]
  dsimp only
  rw [Compile.inTurn_congr fun f hf => Compile.compileForm_of_unchanged (hforms f hf) _]
  rfl

/-! ### A source of one form -/

/-- A source is read as one form, which is evaluated as it stands. -/
structure Form.IsAll (f : Form) (source : String) : Prop where
  read : readAll source = .ok [f]
  expand : f.expand = .ok .unchanged
  steps : f.steps = [f]

/-- The first form that a compilation comes to. -/
def Reached.first (n : Namespaces) (f : Form) : Reached :=
  ⟨f, { namespaces := n, context := { ns := some defaultNamespace, line := f.line? }, outside := () }⟩

theorem Compile.evaluateStep_of_define {f : Form}
    (h : f.head?.bind SpecialForm.ofName? = some .define) :
    evaluateStep Setting.unobserved f = define Setting.unobserved f := by
  unfold evaluateStep
  rw [h]

/-- A definition whose references are known is made. -/
theorem Compile.fst_evaluateStep {f : Form} {m : Machine Unit} {d : Defining}
    {refs : List Reference} (h : (Reached.mk f m).concluded? = some (d, refs)) :
    (evaluateStep Setting.unobserved f m).1 =
      .ok ⟨[d.name], (d.emission? refs).toList.map fun e => dottedName e.unit.1⟩ := by
  obtain ⟨hd, hrefs⟩ := Reached.concluded?_eq_some_iff.mp h
  have hop := Reached.head_of_defining? hd
  rw [Reached.defining?_of_define hop] at hd
  have hvalue := congrArg Prod.fst (analyzeValue_run Setting.unobserved d m)
  rw [hrefs] at hvalue
  rw [evaluateStep_of_define hop, define_run _ hd, bind_run_ok hvalue, fst_conclude]

theorem Compile.reached_singleton (run : Form → Compile Unit CompileSummary) (f : Form)
    (m : Machine Unit) : reached run [f] m = [⟨f, m⟩] := by
  rw [reached]
  rcases run f m with ⟨_ | _, m'⟩ <;> rfl

/-- A form in a row of its own. -/
theorem Compile.fst_inTurn_singleton {run : Form → Compile Unit CompileSummary} {f : Form}
    {m : Machine Unit} {s : CompileSummary} (h : (run f m).1 = .ok s) :
    (inTurn run [f] m).1 = .ok s := by
  rw [inTurn, bind_run_ok h, inTurn, pure_bind]
  show Except.ok (s.append {}) = _
  rw [CompileSummary.append, List.append_nil, List.append_nil]

/-- A form whose expansion comes to one definition compiles if the references of that are known,
and moves no thread. -/
theorem Compile.compileForm_of_single {f g : Form} {e : Expansion} {m : Machine Unit}
    {d : Defining} {refs : List Reference} (hexpand : f.expand = .ok e)
    (hsteps : (e.form f).steps = [g])
    (hc : (Reached.mk g (expanded Setting.unobserved f m)).concluded? = some (d, refs)) :
    (compileForm Setting.unobserved f m).1 =
        .ok ⟨[d.name], (d.emission? refs).toList.map fun e => dottedName e.unit.1⟩ ∧
      (compileForm Setting.unobserved f m).2.context.namespaceName = m.context.namespaceName := by
  have hrun : compileForm Setting.unobserved f m =
      inTurn (evaluateStep Setting.unobserved) [g] (expanded Setting.unobserved f m) := by
    rw [compileForm_run, hexpand, ← hsteps]
    rfl
  have hop := Reached.head_of_defining? (Reached.concluded?_eq_some_iff.mp hc).1
  rw [hrun]
  refine ⟨fst_inTurn_singleton (fst_evaluateStep hc), ?_⟩
  refine stays_inTurn (P := fun c => c.namespaceName = m.context.namespaceName)
    (fun g' hg => ?_) _ rfl
  rw [List.mem_singleton.mp hg, evaluateStep_of_define hop]
  exact stays_define g

/-- A source of one form compiles if the only step that its expansion comes to makes a
definition. -/
theorem Compile.fst_compile_of_single {source : String} {f g : Form} {e : Expansion}
    {n : Namespaces} {d : Defining} {refs : List Reference} (hread : readAll source = .ok [f])
    (hexpand : f.expand = .ok e) (hsteps : (e.form f).steps = [g])
    (hc : (Reached.mk g (Reached.first n f).machine).concluded? = some (d, refs)) :
    (compile Setting.unobserved source { namespaces := n, context := {}, outside := () }).1 =
      .ok ⟨[d.name], (d.emission? refs).toList.map fun e => dottedName e.unit.1⟩ := by
  let start : Machine Unit :=
    { namespaces := n, context := { ns := some defaultNamespace }, outside := () }
  unfold compile
  rw [hread]
  show (inTurn (compileForm Setting.unobserved) [f] start).1 = _
  exact fst_inTurn_singleton (compileForm_of_single (m := start) hexpand hsteps hc).1

namespace Form.IsAll

variable {f : Form} {source : String} (h : f.IsAll source) (n : Namespaces)

include h

theorem evaluated : n.evaluated source = [Reached.first n f] := by
  rw [Namespaces.evaluated_of_unchanged h.read (List.forall_mem_singleton.mpr h.expand),
    Compile.reached_singleton, List.flatMap_singleton]
  dsimp only
  rw [h.steps, Compile.reached_singleton]
  rfl

/-- What the host knows after it. -/
theorem after : n.after source = (Reached.first n f).leaves := by
  have hleads := n.leads_evaluated source
  rw [h.evaluated n] at hleads
  exact hleads.eq_of_singleton

/-- It compiles if it makes a definition. -/
theorem fst_compile {d : Defining} {refs : List Reference}
    (hc : (Reached.first n f).concluded? = some (d, refs)) :
    (Compile.compile Setting.unobserved source
        { namespaces := n, context := {}, outside := () }).1 =
      .ok ⟨[d.name], (d.emission? refs).toList.map fun e => dottedName e.unit.1⟩ :=
  Compile.fst_compile_of_single h.read h.expand h.steps hc

end Form.IsAll

end CompileWatch
