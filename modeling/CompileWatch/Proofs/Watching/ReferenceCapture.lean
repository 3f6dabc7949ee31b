import CompileWatch.Proofs.Capture.Callers
import CompileWatch.Proofs.Report.Unused
import CompileWatch.Proofs.Watching.FormCapture
import CompileWatch.Proofs.Watching.Heard

/-!
# References captured in compilations

A symbol that is analyzed and names a definition is captured once, by one of two hooks: a
constant where the symbol is analyzed, anything else where the reference is made. So in a
host that works, what is known of callers is what the analyzed symbols say, and a definition
is reported as unused exactly when none of them names it.

- `Occurrence.edge?`: the reference that a symbol makes.
- `Occurrence.exists_edge?_iff`, `mem_edges_iff`: the references of symbols, by callee and caller.
- `Session.RefersBy`: from one session to another, exactly these references were captured.
- `Occurrence.point`: the hook that sees it.
- `Host.only`: a host that let an observer in at one point.
- `Host.References`: what is captured in compilations, and by which hook.
- `Host.references_compileAll`: that this is so.
-/

namespace CompileWatch

/-! ### Symbols that refer -/

namespace Occurrence

variable (x : Occurrence)

/-- The reference that a symbol makes: to the definition that it names, from the definition
whose value is being analyzed. One that names nothing makes none. -/
def edge? : Option Edge :=
  x.found?.map fun d => ⟨d.1.text, x.context.enclosing.map QualifiedName.text⟩

/-- The point at which that reference is seen. A constant is inlined, so that no reference to
it is ever made: it shows only where its symbol is analyzed. -/
def point : Point :=
  if x.found?.any (·.2.constant) then .constantResolution else .referenceConstruction

theorem named_of_edge? {e : Edge} (h : x.edge? = some e) : e.Named := by
  obtain ⟨d, -, rfl⟩ := Option.map_eq_some_iff.mp h
  constructor
  · exact d.1.text_ne_empty
  · intro h
    obtain ⟨q, -, hq⟩ := Option.map_eq_some_iff.mp h
    exact q.text_ne_empty hq

variable {l : List Occurrence}

/-- The definitions that symbols refer to are those that they name. -/
theorem exists_edge?_iff {name : String} :
    (∃ e ∈ l.filterMap edge?, e.callee = name) ↔
      ∃ x ∈ l, ∃ q info, x.found? = some (q, info) ∧ q.text = name := by
  constructor
  · rintro ⟨e, he, rfl⟩
    obtain ⟨x, hx, hxe⟩ := List.mem_filterMap.mp he
    obtain ⟨⟨q, info⟩, hq, rfl⟩ := Option.map_eq_some_iff.mp hxe
    exact ⟨x, hx, q, info, hq, rfl⟩
  · rintro ⟨x, hx, q, info, hq, rfl⟩
    have hedge : x.edge? = some ⟨q.text, x.context.enclosing.map QualifiedName.text⟩ := by
      rw [edge?, hq]
      rfl
    exact ⟨_, List.mem_filterMap.mpr ⟨x, hx, hedge⟩, rfl⟩

/-- They refer to it from the definitions whose values are analyzed at them. -/
theorem mem_edges_iff {callee caller : String} :
    ⟨callee, some caller⟩ ∈ l.filterMap edge? ↔
      ∃ x ∈ l, ∃ q info d, x.found? = some (q, info) ∧ q.text = callee ∧
        x.context.enclosing = some d ∧ d.text = caller := by
  constructor
  · intro he
    obtain ⟨x, hx, hxe⟩ := List.mem_filterMap.mp he
    obtain ⟨⟨q, info⟩, hq, hedge⟩ := Option.map_eq_some_iff.mp hxe
    obtain ⟨hcallee, hcaller⟩ := (Edge.mk.injEq ..).mp hedge
    obtain ⟨d, hd, rfl⟩ := Option.map_eq_some_iff.mp hcaller
    exact ⟨x, hx, q, info, d, hq, hcallee, hd, rfl⟩
  · rintro ⟨x, hx, q, info, d, hq, rfl, hd, rfl⟩
    refine List.mem_filterMap.mpr ⟨x, hx, ?_⟩
    rw [edge?, hq, hd]
    rfl

end Occurrence

/-- From one session to another, the references that these symbols make were captured, and no
others: one for each symbol that names a definition. -/
structure Session.RefersBy (l : List Occurrence) (s s' : Session) : Prop where
  /-- The definitions that are referred to are those that a symbol names. -/
  callees : ∀ name, s'.references.callers.contains name ↔
    ∃ x ∈ l, ∃ q info, x.found? = some (q, info) ∧ q.text = name
  /-- The callers of a definition are those whose values were analyzed at such a symbol. -/
  callers : ∀ name caller, s'.references.callers.Calls name caller ↔
    ∃ x ∈ l, ∃ q info d, x.found? = some (q, info) ∧ q.text = name ∧
      x.context.enclosing = some d ∧ d.text = caller
  /-- A subscriber whose queue did not run full was told of one reference for each symbol
  that names a definition, in their order, and of no other. -/
  notices : ∀ f, s.desk.open? = some f → ∃ f', s'.desk.open? = some f' ∧
    (f'.queue.length < f'.capacity →
      f'.queue.filterMap Notice.edge? =
        f.queue.filterMap Notice.edge? ++ l.filterMap Occurrence.edge?)

/-- Captures that start from no references. -/
theorem Session.Takes.refersBy {l : List Occurrence} {units : List (String × Bytes)}
    {s s' : Session} (h : Takes (l.filterMap Occurrence.edge?) units s s')
    (hs : s.references = {}) : s.RefersBy l s' := by
  have hnamed : ∀ e ∈ l.filterMap Occurrence.edge?, e.Named := by
    intro e he
    obtain ⟨x, -, hx⟩ := List.mem_filterMap.mp he
    exact x.named_of_edge? hx
  have hreferences : s'.references =
      (l.filterMap Occurrence.edge?).foldl ReferenceBuffer.capture {} := hs ▸ h.references
  constructor
  · intro name
    rw [hreferences, ReferenceBuffer.contains_foldl_capture rfl hnamed,
      ← Occurrence.exists_edge?_iff]
    exact or_iff_left nofun
  · intro name caller
    rw [hreferences, ReferenceBuffer.calls_foldl_capture rfl hnamed, Occurrence.mem_edges_iff]
    exact or_iff_left nofun
  · intro f hf
    obtain ⟨notices, hnotices, hopen⟩ := h.told
    -- every reference is taken, since the buffer is on and the references have names
    have haccepted : (l.filterMap Occurrence.edge?).filter s.references.accepts =
        l.filterMap Occurrence.edge? := by
      refine List.filter_eq_self.mpr fun e he => ?_
      rw [hs]
      simpa [ReferenceBuffer.accepts] using (hnamed e he).callee
    refine ⟨f.sendAll notices, by rw [hopen, hf]; rfl, fun hroom => ?_⟩
    rw [Feed.queue_sendAll hroom, List.filterMap_append, hnotices, haccepted]

namespace Session.RefersBy

variable {l : List Occurrence} {s s' : Session} (h : s.RefersBy l s')
include h

/-- The names that are known are the callees of the references. -/
theorem contains_iff (name : String) : s'.references.callers.contains name ↔
    name ∈ (l.filterMap Occurrence.edge?).map Edge.callee := by
  rw [h.callees, ← Occurrence.exists_edge?_iff, List.mem_map]

/-- The calls that are known are the references themselves. -/
theorem calls_iff (callee caller : String) : s'.references.callers.Calls callee caller ↔
    ⟨callee, some caller⟩ ∈ l.filterMap Occurrence.edge? := by
  rw [h.callers, Occurrence.mem_edges_iff]

end Session.RefersBy

/-! ### Hooks -/

namespace Host

variable {h : Host Instrumentation} {o : Instrumentation}

/-- The same host with no observer but that of one point. -/
def only {ω : Type} (h : Host ω) (p : Point) : Host ω :=
  { h with observer? := fun q => if q = p then h.observer? q else none }

/-- What is taken of a symbol in a host that works. -/
theorem edgeOf?_of_works (hfaults : h.faults = {}) (x : Occurrence) :
    h.capturing.edgeOf? x = if (h.observer? x.point).isSome then x.edge? else none := by
  have hseen (p : Point) : (h.capturing.observer? p).isSome = (h.observer? p).isSome :=
    Option.isSome_map
  have hresolves : h.capturing.faults.resolves = true := by
    show h.faults.resolves = true
    rw [hfaults]
    rfl
  have hcaller : h.capturing.faults.callerOf? x.context =
      x.context.enclosing.map QualifiedName.text := by
    show h.faults.callerOf? x.context = _
    rw [hfaults]
    rfl
  unfold Setting.edgeOf? Occurrence.edge? Occurrence.point
  rw [hresolves, hcaller, hseen, hseen, Bool.and_true]
  cases x.found? with
  | none => simp
  | some d => by_cases hc : d.2.constant <;> simp [hc]

/-- With an observer at every point, every reference is taken. -/
theorem filterMap_edgeOf?_of_works (hobserver : ∀ p, h.observer? p = some o)
    (hfaults : h.faults = {}) (l : List Occurrence) :
    l.filterMap h.capturing.edgeOf? = l.filterMap Occurrence.edge? := by
  congr 1
  funext x
  rw [edgeOf?_of_works hfaults, hobserver]
  rfl

/-- With the observer of one point, what is taken is what is seen there. -/
theorem filterMap_edgeOf?_only (hobserver : ∀ p, h.observer? p = some o) (hfaults : h.faults = {})
    (p : Point) (l : List Occurrence) :
    l.filterMap (h.only p).capturing.edgeOf? =
      (l.filter fun x => x.point = p).filterMap Occurrence.edge? := by
  have hedge (x : Occurrence) :
      (h.only p).capturing.edgeOf? x = if x.point = p then x.edge? else none := by
    rw [edgeOf?_of_works (h := h.only p) hfaults]
    show (if (if x.point = p then h.observer? x.point else none).isSome then _ else _) = _
    rw [hobserver]
    by_cases hp : x.point = p <;> simp [hp]
  rw [List.filterMap_filter]
  congr 1
  funext x
  rw [hedge]
  by_cases hp : x.point = p <;> simp [hp]

/-! ### Compilations -/

/-- What compilations in a row capture of references. -/
structure References (h : Host Instrumentation) (sources : List String) (c : Context)
    (s : CaptureState) : Prop where
  /-- Every symbol that is analyzed and names a definition is captured, once. -/
  captured : s.session.RefersBy (h.namespaces.occurrencesInTurn sources)
    (h.compileAll sources c s).2.session
  /-- The observer of one point captures those that are seen there. -/
  hooks : ∀ p, s.session.RefersBy
    ((h.namespaces.occurrencesInTurn sources).filter fun x => x.point = p)
    ((h.only p).compileAll sources c s).2.session
  /-- As long as no namespace has a slash in its name, the definitions of namespaces that are
  reported as unused are those that no such symbol names. -/
  unused : ∀ (namespaces : List String) (c' : Context),
    (∀ ns, (h.compileAll sources c s).1.namespaces.contains ns → '/' ∉ ns.toList) →
    (∀ ns ∈ namespaces, (h.compileAll sources c s).1.namespaces.contains ns) →
    ∃ unused,
      ((h.compileAll sources c s).2.session.findUnused ((h.compileAll sources c s).1.view c')
        namespaces).value.1 = .answer (.ok unused) ∧
      ∀ name, unused.has name ↔ ∃ q : QualifiedName, q.ns ∈ namespaces ∧
        ((h.compileAll sources c s).1.namespaces.find? q.name q.ns).isSome ∧ q.text = name ∧
        ∀ x ∈ h.namespaces.occurrencesInTurn sources, ∀ info, x.found? ≠ some (q, info)

/-- Capture of references is exact: after compilations in a host that works, each of which may
succeed or fail, with the capturing observer at every point and with no references captured
before. -/
theorem references_compileAll (h : Host Instrumentation) (o : Instrumentation)
    (hobserver : ∀ p, h.observer? p = some o) (hfaults : h.faults = {}) (sources : List String)
    (c : Context) (s : CaptureState) (hreferences : s.session.references = {}) :
    h.References sources c s := by
  have hcaptured : s.session.RefersBy (h.namespaces.occurrencesInTurn sources)
      (h.compileAll sources c s).2.session := by
    obtain ⟨units, htakes⟩ := h.takes_compileAll sources c s
    rw [filterMap_edgeOf?_of_works hobserver hfaults] at htakes
    exact htakes.refersBy hreferences
  refine ⟨hcaptured, fun p => ?_, fun namespaces c' hslash hexist => ?_⟩
  · obtain ⟨units, htakes⟩ := (h.only p).takes_compileAll sources c s
    rw [show (h.only p).namespaces = h.namespaces from rfl,
      filterMap_edgeOf?_only hobserver hfaults p] at htakes
    exact htakes.refersBy hreferences
  · have hafter := h.fst_compileAll sources c s
    let referenced := (h.compileAll sources c s).2.session.references.callers.contains
    obtain ⟨found, hfound, hhas⟩ := has_detectUnused c' referenced hexist SortedMap.empty
    refine ⟨found, ?_, fun name => ?_⟩
    · have hview : (h.compileAll sources c s).1.view c' =
          hostView {} (h.compileAll sources c s).1.namespaces c' := by
        rw [hafter, view, hfaults]
      rw [hview]
      exact hfound
    · have hnot (q : QualifiedName) (hq : q.ns ∈ namespaces) :
          referenced q.text = false ↔
            ∀ x ∈ h.namespaces.occurrencesInTurn sources, ∀ info, x.found? ≠ some (q, info) := by
        rw [← Bool.not_eq_true, hcaptured.callees]
        constructor
        · intro h x hx info hfound
          exact h ⟨x, hx, q, info, hfound, rfl⟩
        · rintro h ⟨x, hx, q', info, hfound, htext⟩
          -- the definition that the symbol names stands in a namespace without a slash, too
          have hq' := Namespaces.contains_of_mem_occurrencesInTurn hx hfound
          rw [hafter] at hslash hexist
          obtain rfl := QualifiedName.text_inj (hslash _ hq') (hslash _ (hexist _ hq)) htext
          exact h x hx info hfound
      rw [hhas]
      constructor
      · rintro (hempty | ⟨q, hq, hfind, hr, htext⟩)
        · cases hempty
        · exact ⟨q, hq, hfind, htext, (hnot q hq).mp hr⟩
      · rintro ⟨q, hq, hfind, htext, hr⟩
        exact .inr ⟨q, hq, hfind, (hnot q hq).mpr hr, htext⟩

/-! Two sources: a namespace with a constant and a definition that reads it, and a namespace that
uses the first one, with a definition that fails before the last one is reached. -/

/-- A constant, and a definition that reads it. -/
def librarySource : String := "(ns lib.core)\n(def ^:const limit 10)\n(def f limit)"

/-- The forms of that source. -/
def libraryForms : List Form :=
  [.listAt 1 [.symAt 1 "ns", .symAt 1 "lib.core"],
    .listAt 2 [.symAt 2 "def",
      .symbol { name := "limit", metadata := { line := some 2, flags := ["const"] } }, .int 10],
    .listAt 3 [.symAt 3 "def", .symAt 3 "f", .symAt 3 "limit"]]

/-- A definition that uses both, one that fails, and one that is not reached. -/
def usingSource : String :=
  "(ns app.core (:use lib.core))\n(def g (f limit))\n(def h missing)\n(def i f)"

/-- The forms of that source. -/
def usingForms : List Form :=
  [.listAt 1 [.symAt 1 "ns", .symAt 1 "app.core", .listAt 1 [.keyword "use", .symAt 1 "lib.core"]],
    .listAt 2 [.symAt 2 "def", .symAt 2 "g", .listAt 2 [.symAt 2 "f", .symAt 2 "limit"]],
    .listAt 3 [.symAt 3 "def", .symAt 3 "h", .symAt 3 "missing"],
    .listAt 4 [.symAt 4 "def", .symAt 4 "i", .symAt 4 "f"]]

theorem readAll_librarySource : readAll librarySource = .ok libraryForms := rfl

theorem readAll_usingSource : readAll usingSource = .ok usingForms := rfl

theorem expand_libraryForms : ∀ f ∈ libraryForms, f.expand = .ok .unchanged := by
  simp only [libraryForms, List.forall_mem_cons]
  exact ⟨by cbv, by cbv, by cbv, nofun⟩

theorem expand_usingForms : ∀ f ∈ usingForms, f.expand = .ok .unchanged := by
  simp only [usingForms, List.forall_mem_cons]
  exact ⟨by cbv, by cbv, by cbv, by cbv, nofun⟩

/-- What the host knows after the first source. -/
def libraryKnown : Namespaces :=
  (Compile.inTurn (Compile.evaluateForm Setting.unobserved) libraryForms freshMachine).2.namespaces

/-- The forms of both sources are evaluated as they stand. -/
theorem occurrencesInTurn_sources :
    let evaluated (n : Namespaces) (forms : List Form) := (Compile.reached
      (Compile.evaluateForm Setting.unobserved) forms { freshMachine with namespaces := n }).flatMap
        fun r => Compile.reached (Compile.evaluateStep Setting.unobserved) r.form.steps
          (Compile.expanded Setting.unobserved r.form r.machine)
    installed.1.namespaces.occurrencesInTurn [librarySource, usingSource] =
      (evaluated .initial libraryForms ++ evaluated libraryKnown usingForms).flatMap
        Reached.occurrences := by
  intro evaluated
  rw [Namespaces.occurrencesInTurn, Namespaces.occurrencesInTurn, Namespaces.occurrencesInTurn,
    Namespaces.occurrences, Namespaces.occurrences, List.append_nil, List.flatMap_append,
    Namespaces.evaluated_of_unchanged readAll_librarySource expand_libraryForms,
    Namespaces.evaluated_of_unchanged readAll_usingSource expand_usingForms,
    Namespaces.after_of_unchanged readAll_librarySource expand_libraryForms]
  rfl

theorem afterAll_sources : installed.1.namespaces.afterAll [librarySource, usingSource] =
    (Compile.inTurn (Compile.evaluateForm Setting.unobserved) usingForms
      { freshMachine with namespaces := libraryKnown }).2.namespaces := by
  show (installed.1.namespaces.after librarySource).after usingSource = _
  rw [Namespaces.after_of_unchanged readAll_usingSource expand_usingForms,
    Namespaces.after_of_unchanged readAll_librarySource expand_libraryForms]
  rfl

/-- The constant is referred to where its symbol is analyzed, and the function where the reference
is made. Reported as unused are the definition that uses both and the one that fails, while the one
that is not reached does not exist. -/
theorem references_compileAll_installed :
    let sources := [librarySource, usingSource]
    let compiled := installed.1.compileAll sources {} installed.2
    let known := compiled.2.session.references.callers
    let inlined := ((installed.1.only .constantResolution).compileAll sources {}
      installed.2).2.session.references.callers
    (∀ p, installed.1.observer? p = some {}) ∧ installed.1.faults = {} ∧
      installed.2.session.references = {} ∧
      (∀ name, known.contains name ↔ name ∈ ["lib.core/limit", "lib.core/f"]) ∧
      (∀ callee caller, known.Calls callee caller ↔ (callee, caller) ∈
        [("lib.core/limit", "lib.core/f"), ("lib.core/f", "app.core/g"),
          ("lib.core/limit", "app.core/g")]) ∧
      (∀ name, inlined.contains name ↔ name = "lib.core/limit") ∧
      ∃ unused, (compiled.2.session.findUnused (compiled.1.view {}) ["app.core"]).value.1 =
          .answer (.ok unused) ∧
        unused.has "app.core/g" ∧ unused.has "app.core/h" ∧ ¬ unused.has "app.core/i" := by
  intro sources compiled known inlined
  have hedges : (installed.1.namespaces.occurrencesInTurn sources).filterMap Occurrence.edge? =
      [⟨"lib.core/limit", some "lib.core/f"⟩, ⟨"lib.core/f", some "app.core/g"⟩,
        ⟨"lib.core/limit", some "app.core/g"⟩] := by
    rw [occurrencesInTurn_sources]
    rfl
  have hinlined : ((installed.1.namespaces.occurrencesInTurn sources).filter
      fun x => x.point = .constantResolution).filterMap Occurrence.edge? =
      [⟨"lib.core/limit", some "lib.core/f"⟩, ⟨"lib.core/limit", some "app.core/g"⟩] := by
    rw [occurrencesInTurn_sources]
    rfl
  have hknown : compiled.1.namespaces = _ :=
    (congrArg Host.namespaces (installed.1.fst_compileAll sources {} installed.2)).trans
      afterAll_sources
  have hplain : ∀ ns ∈ compiled.1.namespaces.keys, '/' ∉ ns.toList := by
    rw [hknown]
    decide +kernel
  have hexists : compiled.1.namespaces.contains "app.core" := by
    rw [hknown]
    rfl
  have hdefined : (compiled.1.namespaces.find? "g" "app.core").isSome ∧
      (compiled.1.namespaces.find? "h" "app.core").isSome ∧
      compiled.1.namespaces.find? "i" "app.core" = none := by
    rw [hknown]
    exact ⟨rfl, rfl, rfl⟩
  have hcaptured := references_compileAll installed.1 {} observer?_installed rfl sources {}
    installed.2 rfl
  obtain ⟨unused, hfound, hhas⟩ := hcaptured.unused ["app.core"] {}
    (fun ns hns => hplain ns (SortedMap.mem_keys.mpr hns)) (List.forall_mem_singleton.mpr hexists)
  -- a definition that is no callee is named by no symbol
  have hunnamed (q : QualifiedName) (hq : q.text ≠ "lib.core/limit" ∧ q.text ≠ "lib.core/f") :
      ∀ x ∈ installed.1.namespaces.occurrencesInTurn sources, ∀ info, x.found? ≠ some (q, info) := by
    intro x hx info hx?
    have hcallee : q.text ∈ _ := List.mem_map.mpr
      (Occurrence.exists_edge?_iff.mpr ⟨x, hx, q, info, hx?, rfl⟩)
    rw [hedges] at hcallee
    simp [hq] at hcallee
  refine ⟨observer?_installed, rfl, rfl, fun name => ?_, fun callee caller => ?_, fun name => ?_,
    unused, hfound, ?_, ?_, fun hi => ?_⟩
  · rw [hcaptured.captured.contains_iff, hedges]
    simp only [List.map_cons, List.map_nil, List.mem_cons, List.not_mem_nil]
    tauto
  · rw [hcaptured.captured.calls_iff, hedges]
    simp
  · rw [(hcaptured.hooks .constantResolution).contains_iff, hinlined]
    simp
  · exact (hhas _).mpr ⟨⟨"app.core", "g"⟩, List.mem_singleton.mpr rfl, hdefined.1, rfl,
      hunnamed _ (by decide)⟩
  · exact (hhas _).mpr ⟨⟨"app.core", "h"⟩, List.mem_singleton.mpr rfl, hdefined.2.1, rfl,
      hunnamed _ (by decide)⟩
  · obtain ⟨q, hns, hfind, htext, -⟩ := (hhas _).mp hi
    have happ : '/' ∉ "app.core".toList := by decide
    obtain rfl : q = ⟨"app.core", "i"⟩ :=
      QualifiedName.text_inj (List.mem_singleton.mp hns ▸ happ) happ htext
    rw [hdefined.2.2] at hfind
    cases hfind

end Host

end CompileWatch
