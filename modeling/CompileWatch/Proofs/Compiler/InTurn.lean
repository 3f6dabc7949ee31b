import CompileWatch.Proofs.Compiler.Steps
import CompileWatch.Proofs.Compiler.Transparency

/-!
# Compilations in a row

A thread compiles one source after the other in the same host. Each starts from the
namespaces that the one before it left, whether that compiled or not.

- `Host.compileAll`: sources that are compiled in a row.
- `Host.namespaces_compile`, `Host.sums_compile`: what a host knows after a source, and what a
  source defines, whoever observes it.
- `Namespaces.occurrencesInTurn`: the symbols that are analyzed in several sources.
-/

namespace CompileWatch

/-- Where a thread stands before a compilation makes no difference to it, and the thread goes
back there. -/
theorem Compile.compile_within {σ τ : Type} (t : Setting σ τ) (source : String)
    (m : Machine σ) (c : Context) :
    compile t source { m with context := c } =
      ((compile t source m).1, { (compile t source m).2 with context := c }) := by
  unfold compile
  cases readAll source with
  | error e => rfl
  | ok forms => rfl

namespace Host

variable (h : Host Instrumentation)

/-- Sources are compiled in a row on one thread, whatever comes of each. -/
def compileAll (h : Host Instrumentation) (sources : List String) (c : Context)
    (s : CaptureState) : Host Instrumentation × CaptureState :=
  sources.foldl
    (fun p source => (p.1.compile Instrumentation.observer CaptureState.note source c p.2).2)
    (h, s)

/-- What comes of a compilation that nobody observes. -/
def unobserved (source : String) : Except CompileError CompileSummary × Machine Unit :=
  Compile.compile Setting.unobserved source
    { namespaces := h.namespaces, context := {}, outside := () }

/-- A compilation ends alike, whoever observes it. -/
theorem compile_unobserved (source : String) (c : Context) (s : CaptureState) :
    (h.compile Instrumentation.observer CaptureState.note source c s).1 = (h.unobserved source).1 ∧
      (h.compile Instrumentation.observer CaptureState.note source c s).2.1.namespaces =
        (h.unobserved source).2.namespaces := by
  have hsame := (Compile.agrees_compile (h.offersNothing_setting CaptureState.note)
    source).same (h.machine c s) trivial
  have hbare : (h.machine c s).bare = { namespaces := h.namespaces, context := c, outside := () } :=
    rfl
  have hwithin := Compile.compile_within Setting.unobserved source
    { namespaces := h.namespaces, context := {}, outside := () } c
  rw [hbare, hwithin] at hsame
  exact ⟨(congrArg Prod.fst hsame).symm, (congrArg (·.2.namespaces) hsame).symm⟩

/-- What a host knows after a source was compiled. -/
theorem namespaces_compile (source : String) (c : Context) (s : CaptureState) :
    (h.compile Instrumentation.observer CaptureState.note source c s).2.1.namespaces =
      h.namespaces.after source := (h.compile_unobserved source c s).2

/-- What a source defines when it compiles. -/
theorem sums_compile {source : String} {c : Context} {s : CaptureState} {summary : CompileSummary}
    (hok : (h.compile Instrumentation.observer CaptureState.note source c s).1 = .ok summary) :
    summary.Sums (h.namespaces.evaluated source) :=
  Compile.sums_compile ((h.compile_unobserved source c s).1.symm.trans hok)

end Host

namespace Namespaces

/-- What a host knows after several sources. -/
def afterAll (n : Namespaces) (sources : List String) : Namespaces := sources.foldl after n

/-- The symbols that are analyzed when sources are compiled in a row. -/
def occurrencesInTurn (n : Namespaces) : List String → List Occurrence
  | [] => []
  | source :: rest => n.occurrences source ++ (n.after source).occurrencesInTurn rest

variable {n : Namespaces}

/-- No namespace goes. -/
theorem contains_afterAll (sources : List String) {ns : String} (h : n.contains ns) :
    (n.afterAll sources).contains ns := by
  induction sources generalizing n with
  | nil => exact h
  | cons source rest ih => exact ih ((n.leads_evaluated source).contains h)

/-- What a symbol names stands in a namespace that is there in the end. -/
theorem contains_of_mem_occurrencesInTurn {sources : List String} {x : Occurrence}
    (hx : x ∈ n.occurrencesInTurn sources) {q : QualifiedName} {info : VarInfo}
    (hq : x.found? = some (q, info)) : (n.afterAll sources).contains q.ns := by
  induction sources generalizing n with
  | nil => cases hx
  | cons source rest ih =>
    rcases List.mem_append.mp hx with hx | hx
    · obtain ⟨r, hr, hx⟩ := List.mem_flatMap.mp hx
      exact contains_afterAll rest ((n.leads_evaluated source).contains_of_found? hr hx hq)
    · exact ih hx

end Namespaces

/-- Compilations in a row change what a host knows, and nothing else of it. -/
theorem Host.fst_compileAll (h : Host Instrumentation) (sources : List String) (c : Context)
    (s : CaptureState) :
    (h.compileAll sources c s).1 = { h with namespaces := h.namespaces.afterAll sources } := by
  induction sources generalizing h s with
  | nil => rfl
  | cons source rest ih =>
    let compiled := (h.compile Instrumentation.observer CaptureState.note source c s).2
    have hn : compiled.1.namespaces = h.namespaces.after source := h.namespaces_compile source c s
    have hrest := ih compiled.1 compiled.2
    rw [hn] at hrest
    exact hrest

end CompileWatch
