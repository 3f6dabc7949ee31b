import CompileWatch.Proofs.Capture.Callers
import CompileWatch.Proofs.Watching.FormCapture

/-!
# Faults are confined

A capability that a host lacks costs an observation what was asked of it, and nothing else.
The same source is compiled twice from the same state, in a host that works and in one with
faults of any kind; the two sessions differ only in what the faults concern.

- `Host.withFaults`: the same host with other faults.
- `Setting.edgeOf?_of_observed`: the reference that a symbol leaves under faults.
- `Host.Confined`: what two sessions have in common.
- `Host.confined_compile`: that they have it.
-/

namespace CompileWatch

/-! ### References -/

namespace ReferenceBuffer

theorem foldl_capture_of_disabled {b : ReferenceBuffer} (hb : b.enabled = false) (l : List Edge) :
    l.foldl capture b = b := by
  induction l with
  | nil => rfl
  | cons e rest ih => rw [List.foldl_cons, capture, if_neg (by simp [accepts, hb]), ih]

/-- What a buffer knows after several references, whether it is switched on or off. -/
theorem contains_foldl_capture_iff (b : ReferenceBuffer) {l : List Edge} (hl : ∀ e ∈ l, e.Named)
    (name : String) :
    (l.foldl capture b).callers.contains name ↔
      (b.enabled ∧ ∃ e ∈ l, e.callee = name) ∨ b.callers.contains name := by
  cases hb : b.enabled with
  | false => simp [foldl_capture_of_disabled hb]
  | true => simp [contains_foldl_capture hb hl]

end ReferenceBuffer

namespace Setting

variable {t : Setting CaptureState EnterToken}

/-- The reference that a symbol leaves, under any faults, with an observer at every point. -/
theorem edgeOf?_of_observed (ho : ∀ p, (t.observer? p).isSome) (x : Occurrence) :
    t.edgeOf? x = x.found?.bind fun d =>
      if d.2.constant && !t.faults.resolves then none
      else some ⟨d.1.text, t.faults.callerOf? x.context⟩ := by
  unfold edgeOf?
  rw [ho, ho, Bool.true_and]
  congr 1
  funext d
  cases d.2.constant <;> cases t.faults.resolves <;> rfl

theorem named_of_edgeOf? {x : Occurrence} {e : Edge} (h : t.edgeOf? x = some e) : e.Named := by
  obtain ⟨d, -, hd⟩ := Option.bind_eq_some_iff.mp h
  obtain ⟨-, he⟩ := Option.ite_none_right_eq_some.mp hd
  cases he
  refine ⟨d.1.text_ne_empty, fun hcaller => ?_⟩
  unfold Faults.callerOf? at hcaller
  split at hcaller
  · obtain ⟨q, -, hq⟩ := Option.map_eq_some_iff.mp hcaller
    exact q.text_ne_empty hq
  · cases hcaller

end Setting

theorem Written.events_shown (faults : Faults) (d : Written) :
    (d.shown faults).events =
      d.events.map fun e => { e with ns := faults.shownNamespace e.ns } := by
  unfold Written.events Written.expanded?
  show _ :: (d.changed?.map _).toList = _
  cases d.changed? <;> rfl

/-! ### Two compilations -/

namespace Host

variable {h : Host Instrumentation} {o : Instrumentation}

/-- The same host with other faults. -/
def withFaults {ω : Type} (h : Host ω) (faults : Faults) : Host ω := { h with faults }

/-- The session that a compilation leaves in a host with these faults. -/
def sessionUnder (h : Host Instrumentation) (faults : Faults) (source : String) (c : Context)
    (s : CaptureState) : Session :=
  ((h.withFaults faults).compile Instrumentation.observer CaptureState.note source c s).2.2.session

/-- The forms that a compilation in a host that works captures, in order: those of the
definitions that are entered, unless lists are under way already. -/
def formEvents (h : Host Instrumentation) (source : String) (s : CaptureState) : List FormEvent :=
  if s.depth = 0 then (h.namespaces.written source).flatMap Written.events else []

/-- What faults of a host leave alone in the session that a compilation leaves. -/
structure Confined (h : Host Instrumentation) (faults : Faults) (source : String) (c : Context)
    (s : CaptureState) : Prop where
  /-- No fault concerns the units. -/
  units : (h.sessionUnder faults source c s).units = (h.sessionUnder {} source c s).units
  /-- Where symbols are resolved, the same definitions are referred to. -/
  callees : faults.works .symbolResolution → faults.works .constantMarker → ∀ name,
    (h.sessionUnder faults source c s).references.callers.contains name ↔
      (h.sessionUnder {} source c s).references.callers.contains name
  /-- Where callers are told, too, they have the same callers. -/
  references : faults.works .symbolResolution → faults.works .constantMarker →
    faults.works .enclosingDefinition →
    (h.sessionUnder faults source c s).references = (h.sessionUnder {} source c s).references
  /-- A definition that was known before, or that a symbol names and that is no constant, is
  referred to under any faults. -/
  others : ∀ name, (h.sessionUnder {} source c s).references.callers.contains name →
    (s.session.references.callers.contains name ∨
      ∃ x ∈ h.namespaces.occurrences source, ∃ q info, x.found? = some (q, info) ∧
        info.constant = false ∧ q.text = name) →
    (h.sessionUnder faults source c s).references.callers.contains name
  /-- Where the namespace is told, the same forms are captured, with the same lines: every
  definition that was read has lines of its own. -/
  forms : faults.works .currentNamespace →
    (h.sessionUnder faults source c s).forms = (h.sessionUnder {} source c s).forms
  /-- Where it is not, the same forms are captured in the same order, in the namespace that
  stands in for theirs. -/
  sound : (h.sessionUnder {} source c s).forms =
    (h.formEvents source s).foldl FormBuffer.capture s.session.forms
  standIn : ¬ faults.works .currentNamespace →
    (h.sessionUnder faults source c s).forms =
      ((h.formEvents source s).map fun e => { e with ns := defaultNamespace }).foldl
        FormBuffer.capture s.session.forms

/-- The reference that a symbol leaves, with an observer at every point. -/
theorem edgeOf?_withFaults (hobserver : ∀ p, h.observer? p = some o) (faults : Faults)
    (x : Occurrence) :
    (h.withFaults faults).capturing.edgeOf? x = x.found?.bind fun d =>
      if d.2.constant && !faults.resolves then none
      else some ⟨d.1.text, faults.callerOf? x.context⟩ := by
  refine Setting.edgeOf?_of_observed (fun p => ?_) x
  show ((h.observer? p).map Instrumentation.observer).isSome
  rw [hobserver]
  rfl

/-- The references that a compilation leaves. -/
theorem references_sessionUnder (faults : Faults) (source : String) (c : Context)
    (s : CaptureState) :
    (h.sessionUnder faults source c s).references =
      ((h.namespaces.occurrences source).filterMap (h.withFaults faults).capturing.edgeOf?).foldl
        ReferenceBuffer.capture s.session.references :=
  ((h.withFaults faults).takes_compile source c s).references

/-- The definitions that are referred to after a compilation: those that were before, and
those that a symbol names, except for constants that the host does not tell. -/
theorem contains_references_sessionUnder (hobserver : ∀ p, h.observer? p = some o)
    (faults : Faults) (source : String) (c : Context) (s : CaptureState) (name : String) :
    (h.sessionUnder faults source c s).references.callers.contains name ↔
      (s.session.references.enabled ∧ ∃ x ∈ h.namespaces.occurrences source, ∃ q info,
        x.found? = some (q, info) ∧ (info.constant → faults.resolves) ∧ q.text = name) ∨
      s.session.references.callers.contains name := by
  rw [references_sessionUnder, ReferenceBuffer.contains_foldl_capture_iff]
  · refine or_congr_left (and_congr_right fun _ => ?_)
    constructor
    · rintro ⟨e, he, rfl⟩
      obtain ⟨x, hx, hxe⟩ := List.mem_filterMap.mp he
      rw [edgeOf?_withFaults hobserver] at hxe
      obtain ⟨⟨q, info⟩, hfound, hq⟩ := Option.bind_eq_some_iff.mp hxe
      obtain ⟨hseen, he⟩ := Option.ite_none_left_eq_some.mp hq
      cases he
      refine ⟨x, hx, q, info, hfound, fun hconstant => ?_, rfl⟩
      simpa [show info.constant = true from hconstant] using hseen
    · rintro ⟨x, hx, q, info, hfound, hseen, rfl⟩
      have hxe : (h.withFaults faults).capturing.edgeOf? x =
          some ⟨q.text, faults.callerOf? x.context⟩ := by
        rw [edgeOf?_withFaults hobserver, hfound, Option.bind_some]
        refine if_neg fun hlost => ?_
        rw [Bool.and_eq_true] at hlost
        simp [hseen hlost.1] at hlost
      exact ⟨_, List.mem_filterMap.mpr ⟨x, hx, hxe⟩, rfl⟩
  · intro e he
    obtain ⟨x, -, hxe⟩ := List.mem_filterMap.mp he
    exact Setting.named_of_edgeOf? hxe

/-- The forms that a compilation leaves: the same ones in the same order, in the namespaces
that the host tells. -/
theorem forms_sessionUnder (hobserver : ∀ p, h.observer? p = some o) (faults : Faults)
    (source : String) (c : Context) (s : CaptureState) :
    (h.sessionUnder faults source c s).forms =
      ((h.formEvents source s).map fun e => { e with ns := faults.shownNamespace e.ns }).foldl
        FormBuffer.capture s.session.forms := by
  unfold formEvents
  by_cases hdepth : s.depth = 0
  · have hidle := idle_compile (h := h.withFaults faults) hobserver source c
      (s := s) (b := s.session.forms) ⟨hdepth, rfl⟩
    rw [if_pos hdepth, List.map_flatMap]
    refine hidle.forms.trans ?_
    rw [FormBuffer.take, List.flatMap_map]
    simp only [Written.events_shown]
    rfl
  · have hstands := stands_compile (h := h.withFaults faults) hobserver source c
      (Nat.pos_of_ne_zero hdepth) (s := s) (b := s.session.forms) ⟨rfl, rfl⟩
    rw [if_neg hdepth]
    exact hstands.forms

/-- A host that tells of namespaces tells of them as they are. -/
theorem map_shownNamespace {faults : Faults} (hns : faults.works .currentNamespace)
    (l : List FormEvent) :
    (l.map fun e => { e with ns := faults.shownNamespace e.ns }) = l := by
  refine List.map_id'' (fun e => ?_) l
  rw [Faults.shownNamespace, if_pos hns]

/-- Faults of a host are confined: the units are those of a host that works, the references
lose at most their callers and the constants, and the forms at most their namespaces. -/
theorem confined_compile (h : Host Instrumentation) (o : Instrumentation)
    (hobserver : ∀ p, h.observer? p = some o) (faults : Faults) (source : String) (c : Context)
    (s : CaptureState) : h.Confined faults source c s where
  units := by
    have hfaulty := ((h.withFaults faults).takes_compile source c s).units
    have hsound := ((h.withFaults {}).takes_compile source c s).units
    exact hfaulty.trans hsound.symm
  callees hresolution hmarker name := by
    have hresolves : faults.resolves = true := by rw [Faults.resolves, hresolution, hmarker]; rfl
    have hsound : ({} : Faults).resolves = true := rfl
    rw [contains_references_sessionUnder hobserver, contains_references_sessionUnder hobserver,
      hresolves, hsound]
  references hresolution hmarker hcaller := by
    have hresolves : faults.resolves = true := by rw [Faults.resolves, hresolution, hmarker]; rfl
    have hsame : (h.withFaults faults).capturing.edgeOf? = (h.withFaults {}).capturing.edgeOf? := by
      funext x
      rw [edgeOf?_withFaults hobserver, edgeOf?_withFaults hobserver, hresolves,
        Faults.callerOf?, if_pos hcaller]
      rfl
    rw [references_sessionUnder, references_sessionUnder, hsame]
  others name hname hother := by
    rw [contains_references_sessionUnder hobserver] at hname ⊢
    rcases hname with ⟨hon, -⟩ | hold
    · rcases hother with hold | ⟨x, hx, q, info, hfound, hconstant, htext⟩
      · exact .inr hold
      · refine .inl ⟨hon, x, hx, q, info, hfound, fun h => ?_, htext⟩
        rw [hconstant] at h
        cases h
    · exact .inr hold
  forms hns := by
    rw [forms_sessionUnder hobserver, forms_sessionUnder hobserver, map_shownNamespace hns,
      map_shownNamespace rfl]
  sound := by
    rw [forms_sessionUnder hobserver, map_shownNamespace rfl]
  standIn hns := by
    rw [forms_sessionUnder hobserver]
    simp only [Faults.shownNamespace, if_neg hns]

/-- Two points are broken and one crashes; the source defines a constant and a recursive function
that reads it. -/
theorem confined_compile_installed :
    let faults : Faults := { broken := [.currentNamespace, .compilerLine], crashing := [.constantMarker] }
    (∀ p, installed.1.observer? p = some {}) ∧
      installed.1.Confined faults
        "(ns lib.core)\n(def ^:const limit 10)\n(defn f [x] (if x limit (f (inc x))))" {}
        installed.2 :=
  ⟨observer?_installed, confined_compile installed.1 {} observer?_installed _ _ {} installed.2⟩

end Host

end CompileWatch
