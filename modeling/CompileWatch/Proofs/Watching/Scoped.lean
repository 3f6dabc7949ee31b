import CompileWatch.Proofs.Watching.FormCapture

/-!
# A compilation leaves its thread as it was

While a source is compiled, the thread stands in one namespace after another, at one line after
another, and in one definition after another. All of that is undone in the end, however the
compilation ends, and the observers are told of each symbol and each reference while the thread
stands in the definition whose value is analyzed, and in none while no value is.

- `Setting.Capturing.depth_hearAll`: no list is under way that was not before.
- `News.isAnalysis`: what the observers are told while a form is analyzed.
- `Reached.enclosing_of_mem_occurrences`: the definition in which a symbol is analyzed.
- `Host.scoped_run`: a compilation as a whole.
-/

namespace CompileWatch

/-! ### Lists under way -/

namespace Setting.Capturing

variable {t : Setting CaptureState EnterToken}

/-- Every list that is entered is left again. -/
theorem brackets_depth (ht : t.Capturing) (view : HostView) :
    (t.watch view).Brackets fun s s' => s'.depth = s.depth where
  refl _ := rfl
  trans _ _ _ h h' := h'.trans h
  around f e s s' hinner := by
    unfold watch at hinner ⊢
    cases ho : t.observer? .transform with
    | none =>
      -- where nobody watches, nobody counts
      rw [ho] at hinner
      exact hinner
    | some o =>
      obtain ⟨i, rfl⟩ := ht.observer _ _ ho
      rw [ho] at hinner
      exact Instrumentation.depth_exit_enter (some view) e hinner

/-- Whatever is told, as many lists are under way afterwards as before. -/
theorem depth_hear (ht : t.Capturing) (s : CaptureState) (x : Occasion) :
    (t.hear s x).depth = s.depth := by
  obtain ⟨n, c, news⟩ := x
  have hstands : s.Stands s.depth s.session.forms := ⟨rfl, rfl⟩
  cases news with
  | expansion f => exact (ht.brackets_depth (hostView t.faults n c)).snd_transform f s
  | symbol y =>
    unfold hear
    dsimp only
    cases ho : t.observer? .constantResolution with
    | none => rfl
    | some o =>
      obtain ⟨i, rfl⟩ := ht.observer _ _ ho
      exact (Instrumentation.stands_symbol hstands _ y).depth
  | reference q =>
    unfold hear
    dsimp only
    cases ho : t.observer? .referenceConstruction with
    | none => rfl
    | some o =>
      obtain ⟨i, rfl⟩ := ht.observer _ _ ho
      exact (Instrumentation.stands_reference hstands _ q).depth
  | unit name bytes =>
    unfold hear
    dsimp only
    cases ho : t.observer? .unitDefinition with
    | none => rfl
    | some o =>
      obtain ⟨i, rfl⟩ := ht.observer _ _ ho
      exact (Instrumentation.stands_unit (o := i) hstands name bytes).depth
  | note r =>
    show (t.note r s).depth = s.depth
    rw [ht.note]
    rfl

theorem depth_hearAll (ht : t.Capturing) (s : CaptureState) (l : List Occasion) :
    (t.hearAll s l).depth = s.depth := by
  induction l generalizing s with
  | nil => rfl
  | cons x rest ih => exact (ih (t.hear s x)).trans (ht.depth_hear s x)

end Setting.Capturing

/-! ### What is told of an analysis -/

/-- Whether something is told because a form is analyzed. -/
def News.isAnalysis : News → Bool
  | .symbol _ | .reference _ => true
  | .expansion _ | .unit _ _ | .note _ => false

namespace Occurrence

/-- A symbol is told of where it stands. -/
theorem of_mem_occasions {y : Occurrence} {x : Occasion} (hx : x ∈ y.occasions) :
    x.context = y.context ∧ x.news.isAnalysis := by
  rcases List.mem_cons.mp hx with rfl | hx
  · exact ⟨rfl, rfl⟩
  · split at hx
    · split at hx
      · cases hx
      · rw [List.mem_singleton.mp hx]
        exact ⟨rfl, rfl⟩
    · cases hx

end Occurrence

/-- A definition is concluded where the thread stood before it. -/
theorem Defining.of_mem_conclusion {d : Defining} {n : Namespaces} {c : Context}
    {refs : List Reference} {x : Occasion} (hx : x ∈ d.conclusion n c refs) :
    x.context = c ∧ x.news.isAnalysis = false := by
  rcases List.mem_append.mp hx with hx | hx
  · obtain ⟨e, -, rfl⟩ := List.mem_map.mp hx
    exact ⟨rfl, rfl⟩
  · rw [List.mem_singleton.mp hx]
    exact ⟨rfl, rfl⟩

namespace Reached

variable (r : Reached)

/-- What is told of the symbols of a form when it is analyzed. -/
def analysis : List Occasion := r.occurrences.flatMap Occurrence.occasions

/-- What is told of a form once it was analyzed. -/
def sequel : List Occasion :=
  r.concluded?.elim [] fun p => p.1.conclusion r.machine.namespaces r.machine.context p.2

variable {r}

/-- While the symbols of a form are analyzed, the thread stands in the definition that the form
makes, and otherwise where it stood before. -/
theorem enclosing_of_mem_analysis (hr : r.machine.context.enclosing = none) {x : Occasion}
    (hx : x ∈ r.analysis) : x.context.enclosing = r.defining?.map Defining.name := by
  obtain ⟨y, hy, hx⟩ := List.mem_flatMap.mp hx
  rw [(Occurrence.of_mem_occasions hx).1, (r.eq_of_mem_occurrences hy).2, inside]
  cases r.defining? with
  | none => exact hr
  | some d => rfl

theorem of_mem_sequel {x : Occasion} (hx : x ∈ r.sequel) :
    x.context = r.machine.context ∧ x.news.isAnalysis = false := by
  unfold sequel at hx
  cases hc : r.concluded? with
  | none =>
    rw [hc] at hx
    cases hx
  | some p =>
    rw [hc] at hx
    exact Defining.of_mem_conclusion hx

theorem filter_isAnalysis_occasions : r.occasions.filter (·.news.isAnalysis) = r.analysis := by
  have hall : r.analysis.filter (·.news.isAnalysis) = r.analysis := by
    refine List.filter_eq_self.mpr fun x hx => ?_
    obtain ⟨y, -, hx⟩ := List.mem_flatMap.mp hx
    exact (Occurrence.of_mem_occasions hx).2
  have hnone : r.sequel.filter (·.news.isAnalysis) = [] :=
    List.filter_eq_nil_iff.mpr fun x hx => by simp [(of_mem_sequel hx).2]
  show (r.analysis ++ r.sequel).filter _ = _
  rw [List.filter_append, hall, hnone, List.append_nil]

end Reached

namespace Namespaces

variable (n : Namespaces) (source : String)

/-- Of all that is told of a source, what is told of analyses are its analyses in order. -/
theorem filter_isAnalysis_occasions :
    (n.occasions source).filter (·.news.isAnalysis) =
      (n.evaluated source).flatMap Reached.analysis := by
  have htop (r : Reached) : r.occasionsOnTop.filter (·.news.isAnalysis) =
      r.evaluated.flatMap Reached.analysis := by
    rw [Reached.occasionsOnTop, List.filter_cons_of_neg (by simp [News.isAnalysis]),
      List.filter_flatMap]
    simp only [Reached.filter_isAnalysis_occasions]
  unfold occasions evaluated
  rw [List.filter_flatMap, List.flatMap_assoc]
  simp only [htop]

variable {n source}

/-- Whatever else is told is told while the thread stands in no definition. -/
theorem enclosing_of_mem_occasions {x : Occasion} (hx : x ∈ n.occasions source)
    (hnews : x.news.isAnalysis = false) : x.context.enclosing = none := by
  obtain ⟨r, hr, hx⟩ := List.mem_flatMap.mp hx
  rcases List.mem_cons.mp hx with rfl | hx
  · exact (atTopLevel_of_mem_topLevel hr).2.outside
  · obtain ⟨r', hr', hx⟩ := List.mem_flatMap.mp hx
    have hevaluated : r' ∈ n.evaluated source := List.mem_flatMap.mpr ⟨r, hr, hr'⟩
    rcases List.mem_append.mp (show x ∈ r'.analysis ++ r'.sequel from hx) with hx | hx
    · -- what is told of an analysis is about symbols and references only
      obtain ⟨y, -, hx⟩ := List.mem_flatMap.mp hx
      rw [(Occurrence.of_mem_occasions hx).2] at hnews
      cases hnews
    · -- a definition is concluded where the thread stood before it
      rw [(Reached.of_mem_sequel hx).1]
      exact (atTopLevel_of_mem_evaluated hevaluated).2.outside

end Namespaces

/-! ### A compilation -/

namespace Compile

/-- A thread stands after a compilation where it stood before, however the compilation ends. -/
theorem context_compile {σ τ : Type} (t : Setting σ τ) (source : String) (m : Machine σ) :
    (compile t source m).2.context = m.context := by
  unfold compile
  cases readAll source with
  | error e => rfl
  | ok forms => rfl

end Compile

namespace Host

/-- A compilation leaves where the thread stands and how many lists are under way as they were,
whatever becomes of it. Any observers hear of the same occasions one after the other. Those of an
analysis are the analyses of the forms that are evaluated, during which the host tells of the
definition that the form makes, and of none if it makes none; on all others, the thread stands in
no definition. -/
theorem scoped_run (h : Host Instrumentation) (source : String) (c : Context) (s : CaptureState) :
    let ran := h.run Instrumentation.observer CaptureState.note source c s
    let told := h.namespaces.occasions source
    ran.2.context = c ∧ ran.2.outside.depth = s.depth ∧
      (∀ (σ τ : Type) (meaning : Instrumentation → Observer σ τ) (note : LogRecord → σ → σ) (s : σ),
        (h.setting meaning note).OffersNothing →
          (h.run meaning note source c s).2.outside = (h.setting meaning note).hearAll s told) ∧
      told.filter (·.news.isAnalysis) =
        (h.namespaces.evaluated source).flatMap Reached.analysis ∧
      (∀ r ∈ h.namespaces.evaluated source, ∀ x ∈ r.analysis,
        (hostView h.faults x.namespaces x.context).enclosingDefinition =
          (h.faults.check .enclosingDefinition >>= fun _ => pure (r.defining?.map Defining.name))) ∧
      ∀ x ∈ told, x.news.isAnalysis = false → x.context.enclosing = none := by
  intro ran told
  have hheard : ran.2.outside = h.capturing.hearAll s told := h.outside_compile source c s
  refine ⟨Compile.context_compile _ source _, ?_, ?_,
    h.namespaces.filter_isAnalysis_occasions source, fun r hr x hx => ?_,
    fun x => Namespaces.enclosing_of_mem_occasions⟩
  · rw [hheard, h.capturing_setting.depth_hearAll]
  · intro σ τ meaning note s offers
    exact Compile.outside_compile offers source (h.machine c s) rfl
  · have hbefore := (Namespaces.atTopLevel_of_mem_evaluated hr).2.outside
    rw [← Reached.enclosing_of_mem_analysis hbefore hx]
    rfl

/-- An observer that asks for the enclosing definition whenever something is analyzed. -/
def asking : Observer (List (Reply (Option QualifiedName))) Unit where
  enter _ _ s := ((), s)
  exit _ _ _ _ s := s
  reference view _ s := s ++ [view.enclosingDefinition]
  symbol view _ s := s ++ [view.enclosingDefinition]
  unit _ _ _ s := (none, s)

theorem offersNothing_asking (h : Host Instrumentation)
    (note : LogRecord → List (Reply (Option QualifiedName)) → List (Reply (Option QualifiedName))) :
    (h.setting (fun _ => asking) note).OffersNothing := by
  refine Setting.offersNothing_of_observer fun o ho => ?_
  obtain ⟨i, -, rfl⟩ := Option.map_eq_some_iff.mp ho
  exact fun _ _ _ _ => rfl

/-- A new host in which this observer is installed at every point. -/
def askingSetting : Setting (List (Reply (Option QualifiedName))) Unit :=
  installed.1.setting (fun _ => asking) fun _ s => s

/-- The observer asks when symbols are analyzed and references are made, and at no other time. -/
theorem hear_askingSetting {x : Occasion} (hx : x.news.isAnalysis = false)
    (s : List (Reply (Option QualifiedName))) : askingSetting.hear s x = s := by
  obtain ⟨n, c, news⟩ := x
  cases news with
  | symbol y => cases hx
  | reference q => cases hx
  | expansion f =>
    have hkeeps : (askingSetting.watch (hostView askingSetting.faults n c)).Keeps (· = s) :=
      ⟨fun _ _ hs => hs, fun token _ _ _ hs => by cases token <;> exact hs⟩
    exact hkeeps.snd_transform f rfl
  | unit name bytes => rfl
  | note r => rfl

theorem hearAll_askingSetting (l : List Occasion) (s : List (Reply (Option QualifiedName))) :
    askingSetting.hearAll s l = askingSetting.hearAll s (l.filter (·.news.isAnalysis)) := by
  induction l generalizing s with
  | nil => rfl
  | cons x rest ih =>
    cases hx : x.news.isAnalysis with
    | true =>
      rw [List.filter_cons, if_pos hx]
      exact ih _
    | false =>
      rw [List.filter_cons, if_neg (by simp [hx]), ← ih]
      show askingSetting.hearAll (askingSetting.hear s x) rest = _
      rw [hear_askingSetting hx]

/-- `(def f f)` -/
def recursiveForm : Form :=
  .listAt 1 [.symAt 1 "def", .symAt 1 "f", .symAt 1 "f"]

/-- `(def g missing)` -/
def failingForm : Form :=
  .listAt 1 [.symAt 1 "def", .symAt 1 "g", .symAt 1 "missing"]

/-- An observer that asks for the enclosing definition hears of a recursive definition, of a form
outside any definition and of one whose analysis fails; context and depth are as before. -/
theorem scoped_run_asking :
    let source := "(def f f) f (def g missing)"
    let c : Context := { line := some 7, enclosing := some ⟨"lib.core", "helper"⟩ }
    let ran := installed.1.run Instrumentation.observer CaptureState.note source c installed.2
    let t := installed.1.setting (fun _ => asking) fun _ s => s
    t.OffersNothing ∧ ran.2.context = c ∧ ran.2.outside.depth = installed.2.depth ∧
      (installed.1.run (fun _ => asking) (fun _ s => s) source c []).2.outside =
        t.hearAll [] (installed.1.namespaces.occasions source) ∧
      t.hearAll [] (installed.1.namespaces.occasions source) =
        [.answer (some ⟨"user", "f"⟩), .answer (some ⟨"user", "f"⟩), .answer none, .answer none,
          .answer (some ⟨"user", "g"⟩)] := by
  have hread : readAll "(def f f) f (def g missing)" =
      .ok [recursiveForm, .symAt 1 "f", failingForm] := rfl
  have hrecursive : recursiveForm.expand = .ok .unchanged := by cbv
  have hsymbol : (Form.symAt 1 "f").expand = .ok .unchanged := by cbv
  have hfailing : failingForm.expand = .ok .unchanged := by cbv
  have hevaluated := installed.1.namespaces.evaluated_of_unchanged hread
    (List.forall_mem_cons.mpr ⟨hrecursive, List.forall_mem_cons.mpr
      ⟨hsymbol, List.forall_mem_singleton.mpr hfailing⟩⟩)
  have hanswers : askingSetting.hearAll []
      (installed.1.namespaces.occasions "(def f f) f (def g missing)") =
        [.answer (some ⟨"user", "f"⟩), .answer (some ⟨"user", "f"⟩), .answer none, .answer none,
          .answer (some ⟨"user", "g"⟩)] := by
    rw [hearAll_askingSetting, Namespaces.filter_isAnalysis_occasions, hevaluated]
    rfl
  have offers := offersNothing_asking installed.1 fun _ s => s
  obtain ⟨hcontext, hdepth, hheard, -⟩ := scoped_run installed.1
    "(def f f) f (def g missing)"
    { line := some 7, enclosing := some ⟨"lib.core", "helper"⟩ } installed.2
  exact ⟨offers, hcontext, hdepth, hheard _ _ _ _ [] offers, hanswers⟩

end Host

end CompileWatch
