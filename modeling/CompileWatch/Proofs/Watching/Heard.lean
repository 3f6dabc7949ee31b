import CompileWatch.Proofs.Capture.Taken
import CompileWatch.Proofs.Compiler.InTurn
import Mathlib.Data.List.Basic

/-!
# What the capturing observer takes from what it is told

Every symbol that is analyzed is told of, and so is every reference that is made; the
capturing observer takes a reference to a constant where the symbol is analyzed, and any
other where it is made. Faults of the host cost it at most what they concern: the caller,
or the references to constants.

- `Faults.works`: a binding works.
- `Instrumentation.takes_reference`, `takes_symbol` and so on: what is taken at each point.
- `Setting.edge?`, `Setting.unit?`: what is taken of one thing that is told.
- `Setting.edgeOf?`: the one reference that is taken of a symbol.
- `Host.takes_compile`, `Host.takes_compileAll`: all that is taken in compilations.
-/

namespace CompileWatch

/-! ### What a host tells -/

/-- The answer of a reply, if it is one. -/
def Reply.answer? {α : Type} : Reply α → Option α
  | .answer a => some a
  | _ => none

/-- A reply that is built on another one is there if both are. -/
theorem Reply.answer?_bind {α β : Type} (r : Reply α) (f : α → Reply β) :
    (r >>= f).answer? = r.answer?.bind fun a => (f a).answer? := by
  cases r <;> rfl

/-- What a guard hands on is the answer, if there is one. -/
theorem Reply.value_guard {α : Type} (site : Point) (debug : Bool) (r : Reply α) :
    (r.guard site debug).value = r.answer? := by
  cases r with
  | answer a => rfl
  | refusal e => cases debug <;> rfl
  | crash text => cases debug <;> rfl

/-- Whether a binding works. -/
def Faults.works (f : Faults) (c : Capability) : Bool :=
  !f.crashing.contains c && !f.broken.contains c

/-- A capability answers when it works. -/
theorem Faults.answer?_check (f : Faults) (c : Capability) :
    (f.check c).answer? = if f.works c then some () else none := by
  unfold check works
  by_cases hcrash : c ∈ f.crashing
  · simp [hcrash, Reply.answer?]
  · by_cases hbroken : c ∈ f.broken
    · simp [hcrash, hbroken, Reply.answer?]
    · simp [hcrash, hbroken, Reply.answer?]

namespace Faults

variable (f : Faults)

/-- The definition that is being compiled, as far as the host tells. -/
def callerOf? (c : Context) : Option String :=
  if f.works .enclosingDefinition then c.enclosing.map QualifiedName.text else none

/-- The namespace in which a thread stands, as far as the host tells. -/
def shownNamespace (ns : String) : String :=
  if f.works .currentNamespace then ns else defaultNamespace

/-- Whether a host tells what a symbol stands for. -/
def resolves : Bool := f.works .symbolResolution && f.works .constantMarker

/-- The constant that a symbol stands for, as far as the host tells. -/
def constant? (n : Namespaces) (c : Context) (y : Symbol) : Option QualifiedName :=
  if f.resolves then ((n.lookup? c y).filter (·.2.constant)).map (·.1) else none

end Faults

namespace Instrumentation

variable (o : Instrumentation) (faults : Faults) (n : Namespaces) (c : Context)

/-- The caller is the definition that is being compiled, as far as the host tells of it. -/
theorem value_callerOf (site : Point) :
    (o.callerOf site (hostView faults n c)).value = faults.callerOf? c := by
  unfold callerOf
  simp only [Logged.value_bind, Logged.value_pure, Reply.value_guard]
  unfold hostView Faults.callerOf?
  simp only [Reply.answer?_bind, Faults.answer?_check]
  by_cases h : faults.works .enclosingDefinition
  · rw [if_pos h, if_pos h]
    rfl
  · rw [if_neg h, if_neg h]
    rfl

/-- The namespace is that of the thread, as far as the host tells of it. -/
theorem value_namespaceOf (hc : c.namespaceName ≠ "") :
    (o.namespaceOf (hostView faults n c)).value = faults.shownNamespace c.namespaceName := by
  unfold namespaceOf
  simp only [Logged.value_bind, Logged.value_pure, Reply.value_guard]
  unfold hostView Faults.shownNamespace
  simp only [Reply.answer?_bind, Faults.answer?_check]
  by_cases h : faults.works .currentNamespace
  · rw [if_pos h, if_pos h]
    show ((some c.namespaceName).filter (!·.isEmpty)).getD defaultNamespace = c.namespaceName
    rw [Option.filter_some, if_pos (by simpa using hc)]
    rfl
  · rw [if_neg h, if_neg h]
    rfl

/-- What a symbol stands for, as far as a host tells. -/
theorem answer?_resolve (y : Symbol) :
    ((hostView faults n c).resolve y).answer? =
      if faults.resolves then some ((n.lookup? c y).map fun d => ⟨d.1, d.2.constant⟩) else none := by
  unfold hostView Faults.resolves
  simp only [Reply.answer?_bind, Faults.answer?_check]
  by_cases hs : faults.works .symbolResolution
  · by_cases hc : faults.works .constantMarker
    · rw [if_pos hs, if_pos hc, hs, hc]
      rfl
    · rw [if_pos hs, if_neg hc, hs]
      simp [hc]
  · simp [hs]

/-- Whatever else a host says, no constant comes of it. -/
theorem value_constantOf (view : HostView) (y : Symbol) :
    (o.constantOf view y).value =
      ((view.resolve y).answer?.join.filter (·.constant)).map (·.name) := by
  unfold constantOf
  cases view.resolve y with
  | answer var? =>
    cases var? with
    | none => rfl
    | some var => cases h : var.constant <;> simp [h, Reply.answer?, Option.filter_some]
  | refusal e =>
    cases e with
    | unresolved symbol => rfl
    | _ => simp only [Logged.value_bind, Logged.value_pure]; rfl
  | crash text =>
    simp only [Logged.value_bind, Logged.value_pure]
    rfl

theorem value_constantOf_hostView (y : Symbol) :
    (o.constantOf (hostView faults n c) y).value = faults.constant? n c y := by
  rw [value_constantOf, answer?_resolve, Faults.constant?]
  by_cases h : faults.resolves
  · rw [if_pos h, if_pos h]
    cases n.lookup? c y with
    | none => rfl
    | some d => cases hd : d.2.constant <;> simp [hd, Option.filter_some]
  · rw [if_neg h, if_neg h]
    rfl

/-! ### What the observer takes -/

variable {o n c} {s : CaptureState}

open Session (Takes)

/-- A reference is taken where it is made. -/
theorem takes_reference (q : QualifiedName) :
    Takes [⟨q.text, faults.callerOf? c⟩] [] s.session
      (o.reference (some (hostView faults n c)) q s).session := by
  unfold reference
  split
  next h => exact Session.takes_disabled (by simpa using h) _
  next h =>
    show Takes _ _ _ (Logged.value _)
    simp only [value_callerOf]
    exact s.session.takes_captureReference _

/-- A reference to a constant is taken where its symbol is analyzed. -/
theorem takes_symbol (y : Symbol) :
    Takes ((faults.constant? n c y).map fun q => (⟨q.text, faults.callerOf? c⟩ : Edge)).toList []
      s.session (o.symbol (some (hostView faults n c)) y s).session := by
  unfold symbol
  split
  next h => exact Session.takes_disabled (by simpa using h) _
  next h =>
    show Takes _ _ _ (Logged.value _)
    simp only [value_constantOf_hostView]
    cases faults.constant? n c y with
    | none => exact s.session.takes_refl
    | some q =>
      simp only [Logged.value_bind, value_callerOf]
      exact s.session.takes_captureReference _

/-- The observer of units takes each of them. -/
theorem takes_unit (name : String) (bytes : Bytes) :
    Takes [] [(name, bytes)] s.session (o.unit name bytes s).session := by
  unfold unit
  split
  next h => exact Session.takes_units_disabled (by simpa using h) name bytes
  next h => exact s.session.takes_captureUnit name bytes

/-- At the beginning of a capture, only a form is taken. -/
theorem takes_beginCapture (view : Option HostView) (f : Form) (s : Session) :
    Takes [] [] s (o.beginCapture view f s).value.2 := by
  unfold beginCapture
  cases f.defKind? with
  | none => exact s.takes_refl
  | some kind =>
    cases f.definedName? with
    | none => exact s.takes_refl
    | some name =>
      cases view with
      | none => exact s.takes_refl
      | some view => exact s.takes_captureForm _

/-- Expansion makes no reference and no unit. -/
theorem takes_enter (view : Option HostView) (f : Form) :
    Takes [] [] s.session (o.enter view f s).2.session := by
  unfold enter
  split
  · exact s.session.takes_refl
  · split
    · exact s.session.takes_refl
    · have h := takes_beginCapture (o := o) view f s.session
      dsimp only
      split <;> exact h

theorem takes_exit (token : EnterToken) (e : Expansion) :
    Takes [] [] s.session (o.exit token e s).session := by
  have hrelease : (s.release token).session = s.session := by
    unfold CaptureState.release
    split <;> rfl
  unfold exit
  dsimp only
  split
  · show Takes _ _ _ (captureExpanded _ _ (s.release _).session).value
    rw [hrelease]
    exact s.session.takes_captureForm _
  · rw [hrelease]
    exact s.session.takes_refl

end Instrumentation

/-! ### What is told -/

/-- A setting in which every observer captures. -/
structure Setting.Capturing (t : Setting CaptureState EnterToken) : Prop where
  observer : ∀ p o, t.observer? p = some o → ∃ i : Instrumentation, o = i.observer
  note : t.note = CaptureState.note

namespace Setting

variable (t : Setting CaptureState EnterToken)

/-- The reference that is taken of what is told, if any. -/
def edge? (x : Occasion) : Option Edge :=
  match x.news with
  | .symbol y =>
    if (t.observer? .constantResolution).isSome then
      (t.faults.constant? x.namespaces x.context y).map fun q => ⟨q.text, t.faults.callerOf? x.context⟩
    else none
  | .reference q =>
    if (t.observer? .referenceConstruction).isSome then
      some ⟨q.text, t.faults.callerOf? x.context⟩
    else none
  | _ => none

/-- The unit that is taken of what is told, if any. -/
def unit? (x : Occasion) : Option (String × Bytes) :=
  match x.news with
  | .unit name bytes => if (t.observer? .unitDefinition).isSome then some (name, bytes) else none
  | _ => none

variable {t}

open Session (Takes)

/-- What is taken of a single occasion is its edge and its unit. -/
theorem Capturing.takes_hear (ht : t.Capturing) (s : CaptureState) (x : Occasion) :
    Takes (t.edge? x).toList (t.unit? x).toList s.session (t.hear s x).session := by
  obtain ⟨n, c, news⟩ := x
  cases news with
  | expansion f =>
    have hkeeps : (t.watch (hostView t.faults n c)).Keeps
        fun s' => Takes [] [] s.session s'.session := by
      cases ho : t.observer? .transform with
      | none => 
        constructor
        · intro f s' hs
          unfold watch
          rw [ho]
          exact hs
        · intro token f e s' hs
          unfold watch
          rw [ho]
          exact hs
      | some o =>
        obtain ⟨i, rfl⟩ := ht.observer _ _ ho
        constructor
        · intro f s' hs
          unfold watch
          rw [ho]
          exact hs.trans (i.takes_enter _ f)
        · intro token f e s' hs
          unfold watch
          rw [ho]
          cases token with
          | none => exact hs
          | some token => exact hs.trans (i.takes_exit token e)
    exact hkeeps.snd_transform f s.session.takes_refl
  | symbol y =>
    unfold edge? unit? hear
    dsimp only
    cases ho : t.observer? .constantResolution with
    | none => exact s.session.takes_refl
    | some o =>
      obtain ⟨i, rfl⟩ := ht.observer _ _ ho
      exact i.takes_symbol t.faults y
  | reference q =>
    unfold edge? unit? hear
    dsimp only
    cases ho : t.observer? .referenceConstruction with
    | none => exact s.session.takes_refl
    | some o =>
      obtain ⟨i, rfl⟩ := ht.observer _ _ ho
      exact i.takes_reference t.faults q
  | unit name bytes =>
    unfold edge? unit? hear
    dsimp only
    cases ho : t.observer? .unitDefinition with
    | none => exact s.session.takes_refl
    | some o =>
      obtain ⟨i, rfl⟩ := ht.observer _ _ ho
      exact i.takes_unit name bytes
  | note r =>
    show Takes [] [] s.session (t.note r s).session
    rw [ht.note]
    exact s.session.takes_refl

/-- The references and the units that are taken of what is told are those that are told of. -/
theorem Capturing.takes_hearAll (ht : t.Capturing) (s : CaptureState) (l : List Occasion) :
    Takes (l.filterMap t.edge?) (l.filterMap t.unit?) s.session (t.hearAll s l).session := by
  induction l generalizing s with
  | nil => exact s.session.takes_refl
  | cons x rest ih =>
    have h := (ht.takes_hear s x).trans (ih (t.hear s x))
    rw [List.filterMap_eq_flatMap_toList, List.filterMap_eq_flatMap_toList] at h ⊢
    exact h

/-! ### Symbols -/

variable (t)

/-- The reference that is taken of a symbol that is analyzed. One that names nothing makes
none; one that names a constant makes one where it is analyzed, any other where the
reference is made. -/
def edgeOf? (x : Occurrence) : Option Edge :=
  x.found?.bind fun d =>
    let seen :=
      if d.2.constant then (t.observer? .constantResolution).isSome && t.faults.resolves
      else (t.observer? .referenceConstruction).isSome
    if seen then some ⟨d.1.text, t.faults.callerOf? x.context⟩ else none

/-- Of a symbol an edge is taken when it names a constant. -/
theorem edge?_symbol (x : Occurrence) :
    t.edge? (x.occasion (.symbol x.symbol)) =
      if (t.observer? .constantResolution).isSome && t.faults.resolves then
        (x.found?.filter (·.2.constant)).map fun d => ⟨d.1.text, t.faults.callerOf? x.context⟩
      else none := by
  show (if (t.observer? .constantResolution).isSome then
    (t.faults.constant? x.namespaces x.context x.symbol).map _ else none) = _
  unfold Faults.constant?
  by_cases ho : (t.observer? .constantResolution).isSome
  · by_cases hr : t.faults.resolves
    · rw [if_pos ho, if_pos hr, ho, hr]
      exact Option.map_map _ _ _
    · rw [if_pos ho, if_neg hr]
      simp [hr]
  · simp [ho]

/-- A symbol is told of at two points, and taken at one of them. -/
theorem filterMap_edge?_occasions (x : Occurrence) :
    x.occasions.filterMap t.edge? = (t.edgeOf? x).toList := by
  have hsymbol := t.edge?_symbol x
  unfold Occurrence.occasions edgeOf?
  rw [List.filterMap_eq_flatMap_toList, List.flatMap_cons, hsymbol]
  cases hd : x.found? with
  | none => simp
  | some d =>
    by_cases hc : d.2.constant
    · by_cases hseen : (t.observer? .constantResolution).isSome && t.faults.resolves
      · simp [hc, hseen, Option.filter_some]
      · simp [hc, hseen]
    · have hreference : t.edge? (x.occasion (.reference d.1)) =
        if (t.observer? .referenceConstruction).isSome then
          some ⟨d.1.text, t.faults.callerOf? x.context⟩
        else none := rfl
      simp [hc, Option.filter_some, hreference]

theorem filterMap_unit?_occasions (x : Occurrence) : x.occasions.filterMap t.unit? = [] := by
  unfold Occurrence.occasions
  rw [List.filterMap_cons_none rfl]
  split
  · split <;> rfl
  · rfl

/-- A definition that is concluded makes no further reference. -/
theorem filterMap_edge?_conclusion (d : Defining) (n : Namespaces) (c : Context)
    (refs : List Reference) : (d.conclusion n c refs).filterMap t.edge? = [] := by
  unfold Defining.conclusion
  cases d.emission? refs <;> rfl

/-- Of a definition that is made, the unit of its function is taken. -/
theorem filterMap_unit?_conclusion (d : Defining) (n : Namespaces) (c : Context)
    (refs : List Reference) :
    (d.conclusion n c refs).filterMap t.unit? =
      if (t.observer? .unitDefinition).isSome then (d.emission? refs).toList.map Emission.unit
      else [] := by
  unfold Defining.conclusion
  cases d.emission? refs with
  | none => simp [unit?]
  | some e => by_cases ho : (t.observer? .unitDefinition).isSome <;> simp [unit?, ho]

/-- Of a form, the edges of its symbols are taken. -/
theorem filterMap_edge?_reached (r : Reached) :
    r.occasions.filterMap t.edge? = r.occurrences.filterMap t.edgeOf? := by
  have hconclusion : (r.concluded?.elim [] fun p =>
      p.1.conclusion r.machine.namespaces r.machine.context p.2).filterMap t.edge? = [] := by
    cases r.concluded? with
    | none => rfl
    | some p => exact t.filterMap_edge?_conclusion _ _ _ _
  unfold Reached.occasions
  rw [List.filterMap_append, hconclusion, List.append_nil, List.filterMap_flatMap,
    List.filterMap_eq_flatMap_toList t.edgeOf?]
  simp only [filterMap_edge?_occasions]

/-- Of a form, the unit that it emits is taken. -/
theorem filterMap_unit?_reached (r : Reached) :
    r.occasions.filterMap t.unit? =
      if (t.observer? .unitDefinition).isSome then r.emission?.toList.map Emission.unit else [] := by
  have hoccurrences : (r.occurrences.flatMap Occurrence.occasions).filterMap t.unit? = [] := by
    rw [List.filterMap_flatMap]
    exact List.flatMap_eq_nil_iff.mpr fun x _ => t.filterMap_unit?_occasions x
  unfold Reached.occasions Reached.emission?
  rw [List.filterMap_append, hoccurrences, List.nil_append]
  cases r.concluded? with
  | none => simp
  | some p => exact t.filterMap_unit?_conclusion _ _ _ _

/-- The references that are taken of a source. -/
theorem filterMap_edge?_source (n : Namespaces) (source : String) :
    (n.occasions source).filterMap t.edge? = (n.occurrences source).filterMap t.edgeOf? := by
  have htop (r : Reached) :
      r.occasionsOnTop.filterMap t.edge? =
        (r.evaluated.flatMap Reached.occurrences).filterMap t.edgeOf? := by
    rw [Reached.occasionsOnTop, List.filterMap_cons_none rfl, List.filterMap_flatMap,
      List.filterMap_flatMap]
    simp only [filterMap_edge?_reached]
  unfold Namespaces.occasions Namespaces.occurrences Namespaces.evaluated
  rw [List.filterMap_flatMap, List.flatMap_assoc, List.filterMap_flatMap]
  simp only [htop]

/-- The units that are taken of a source. -/
theorem filterMap_unit?_source (ho : (t.observer? .unitDefinition).isSome) (n : Namespaces)
    (source : String) :
    (n.occasions source).filterMap t.unit? = (n.emissions source).map Emission.unit := by
  have hreached (r : Reached) :
      r.occasions.filterMap t.unit? = r.emission?.toList.map Emission.unit := by
    rw [filterMap_unit?_reached, if_pos ho]
  have htop (r : Reached) :
      r.occasionsOnTop.filterMap t.unit? =
        (r.evaluated.filterMap Reached.emission?).map Emission.unit := by
    rw [Reached.occasionsOnTop, List.filterMap_cons_none rfl, List.filterMap_flatMap,
      List.filterMap_eq_flatMap_toList, List.map_flatMap]
    simp only [hreached]
  unfold Namespaces.occasions Namespaces.emissions Namespaces.evaluated
  rw [List.filterMap_flatMap, List.filterMap_flatMap, List.map_flatMap]
  simp only [htop]

end Setting

/-! ### What a host makes known -/

namespace Host

variable (h : Host Instrumentation)

/-- What surrounds a compilation in a host that capturing observers were let into. -/
abbrev capturing : Setting CaptureState EnterToken :=
  h.setting Instrumentation.observer CaptureState.note

theorem capturing_setting : h.capturing.Capturing where
  observer p o ho := by
    obtain ⟨i, -, rfl⟩ := Option.map_eq_some_iff.mp ho
    exact ⟨i, rfl⟩
  note := rfl

/-- What a compilation makes of the state of the observers. -/
theorem outside_compile (source : String) (c : Context) (s : CaptureState) :
    (h.compile Instrumentation.observer CaptureState.note source c s).2.2 =
      h.capturing.hearAll s (h.namespaces.occasions source) :=
  Compile.outside_compile (h.offersNothing_setting CaptureState.note) source (h.machine c s) rfl

/-- The references and the units that are taken when a source is compiled, whatever points
the observers were let in at, and whatever faults the host has. -/
theorem takes_compile (source : String) (c : Context) (s : CaptureState) :
    Session.Takes ((h.namespaces.occurrences source).filterMap h.capturing.edgeOf?)
      ((h.namespaces.occasions source).filterMap h.capturing.unit?) s.session
      (h.compile Instrumentation.observer CaptureState.note source c s).2.2.session := by
  rw [outside_compile, ← Setting.filterMap_edge?_source]
  exact h.capturing_setting.takes_hearAll s _

/-- The units that are taken when a source is compiled are those that are emitted for it. -/
theorem units_compile (ho : (h.observer? .unitDefinition).isSome) (source : String) (c : Context)
    (s : CaptureState) :
    (h.compile Instrumentation.observer CaptureState.note source c s).2.2.session.units =
      ((h.namespaces.emissions source).map Emission.unit).foldl UnitBuffer.take s.session.units := by
  have hobserved : (h.capturing.observer? .unitDefinition).isSome := by
    show (Option.map _ (h.observer? .unitDefinition)).isSome
    rwa [Option.isSome_map]
  rw [← Setting.filterMap_unit?_source _ hobserved]
  exact (h.takes_compile source c s).units

/-- The references that are taken when sources are compiled in a row. -/
theorem takes_compileAll (sources : List String) (c : Context) (s : CaptureState) :
    ∃ units, Session.Takes ((h.namespaces.occurrencesInTurn sources).filterMap h.capturing.edgeOf?)
      units s.session (h.compileAll sources c s).2.session := by
  induction sources generalizing h s with
  | nil => exact ⟨[], s.session.takes_refl⟩
  | cons source rest ih =>
    have hfirst := h.takes_compile source c s
    let compiled := (h.compile Instrumentation.observer CaptureState.note source c s).2
    obtain ⟨units, hrest⟩ := ih compiled.1 compiled.2
    rw [Namespaces.occurrencesInTurn, List.filterMap_append]
    have hn : compiled.1.namespaces = h.namespaces.after source := h.namespaces_compile source c s
    rw [hn] at hrest
    exact ⟨_, hfirst.trans hrest⟩

end Host

end CompileWatch
