import CompileWatch.Proofs.ClassFile.Overlong
import CompileWatch.Proofs.Compiler.Bounds
import CompileWatch.Proofs.Watching.Views

/-!
# Units that can be read

Within the limits of names and references, the unit of a function can be read if and only if the
function has no more parameters than its descriptor has room for. A short source keeps to these
limits, so its parameters alone decide.

- `Emission.WithinLimits`: the names and the references of a function are within the limits.
- `Emission.isKnown_record_iff`: when its record is known.
- `Namespaces.withinLimits_of_length_le`: the functions of a short source.
- `Host.readable_compile`: the records after a source was compiled.
-/

namespace CompileWatch

-- what is read off the bytes of a unit is said by `Emit.Moderate.ofBytes_overlong` and
-- `Emit.ofBytes_emitFunction`
attribute [local irreducible] Metrics.ofBytes emitFunction

namespace Emission

/-- The names and the references of a function are within the limits of a unit. -/
structure WithinLimits (e : Emission) : Prop where
  references : e.references.length ≤ 0xFFFF
  moderate : Emit.Moderate e.name e.references

variable {e : Emission}

/-- The unit of a function within the limits can be read unless the function has too many
parameters. -/
theorem isKnown_record_iff (h : e.WithinLimits) :
    e.record.IsKnown ↔ e.arity ≤ Emit.parameterLimit := by
  constructor
  · intro hknown
    by_contra harity
    exact UnitRecord.not_isKnown_of_unknown (u := e.unit)
      (h.moderate.ofBytes_overlong (Nat.lt_of_not_le harity)) hknown
  · intro harity
    have hroom : e.HasRoom := h.moderate.hasRoom h.references harity
    exact UnitRecord.isKnown_of_ofEvents (Emit.ofBytes_emitFunction hroom)

/-- How many characters a source can have, so that its names and its references are within the
limits whatever they are: a unit name takes up to 11 bytes for each of them. -/
def sourceLimit : Nat := 5957

/-- Names and references that are within a bound. -/
theorem Within.withinLimits (h : e.Within sourceLimit) : e.WithinLimits := by
  have hsize (q : QualifiedName) (hns : q.ns.length ≤ 5957) (hname : q.name.length ≤ 5957) :
      q.unitSize ≤ 65531 := by
    have hunit := q.unitSize_le
    omega
  refine ⟨Nat.le_trans h.references (by decide), hsize _ h.ns h.name, ?_, fun var hvar => ?_⟩
  · exact Nat.le_trans (Nat.le_trans Emit.length_heldVars_le h.references) (by decide)
  · obtain ⟨ref, href, -, rfl⟩ := (Emit.mem_heldVars var).mp hvar
    obtain ⟨hns, hname⟩ := h.names ref href
    exact hsize _ hns hname

end Emission

namespace Namespaces

/-- A function of a source for a new host has no more parameters than the source has characters. -/
theorem within_of_mem_emissions_initial {source : String} {limit : Nat} (hlimit : 12 ≤ limit)
    (hsource : source.length ≤ limit) {e : Emission} (he : e ∈ initial.emissions source) :
    e.Within limit := by
  have hkeys : ∀ ns ∈ initial.keys, ns.length ≤ 12 := by decide
  refine within_of_mem_emissions (fun ns hns => ?_) (Nat.le_trans (by decide) hlimit) hsource he
  exact Nat.le_trans (hkeys ns (SortedMap.mem_keys.mpr hns)) hlimit

/-- The functions of a short source. -/
theorem withinLimits_of_length_le {source : String} (hsource : source.length ≤ Emission.sourceLimit)
    {e : Emission} (he : e ∈ initial.emissions source) : e.WithinLimits :=
  (within_of_mem_emissions_initial (by decide) hsource he).withinLimits

end Namespaces

namespace Host

/-- The records after a source was compiled are those of the functions in it. -/
theorem exists_emission_of_record (h : Host Instrumentation) (o : Instrumentation)
    (hobserver : ∀ p, h.observer? p = some o) (source : String) (c : Context) (s : CaptureState)
    (hunits : s.session.units = {}) {name : String} {record : UnitRecord}
    (hrecord : (h.compile Instrumentation.observer CaptureState.note source c
      s).2.2.session.units.units.get? name = some record) :
    ∃ e ∈ h.namespaces.emissions source, e.name.dottedUnit = name ∧ e.record = record := by
  rw [h.units_compile (by rw [hobserver]; rfl), hunits] at hrecord
  have hnames : ∀ u ∈ (h.namespaces.emissions source).map Emission.unit, u.1 ≠ "" := by
    intro u hu
    obtain ⟨e, -, rfl⟩ := List.mem_map.mp hu
    rw [e.fst_unit]
    exact e.name.unitName_ne_empty
  rcases UnitBuffer.exists_of_get?_foldl_take rfl hnames hrecord with ⟨u, hu, hname, hof⟩ | hnone
  · obtain ⟨e, he, rfl⟩ := List.mem_map.mp hu
    rw [e.fst_unit] at hname
    exact ⟨e, he, hname, hof⟩
  · cases hnone

/-- The units of a source for a new host can be read, except for those of functions with too many
parameters. A source of no more characters than there may be parameters has no such function. -/
theorem readable_compile (h : Host Instrumentation) (o : Instrumentation)
    (hobserver : ∀ p, h.observer? p = some o) (hfresh : h.namespaces = .initial) (source : String)
    (c : Context) (s : CaptureState) (hunits : s.session.units = {}) :
    let compiled := h.compile Instrumentation.observer CaptureState.note source c s
    ∀ name record, compiled.2.2.session.units.units.get? name = some record →
      (source.length ≤ Emit.parameterLimit → record.IsKnown) ∧
      ∃ e ∈ h.namespaces.emissions source, e.name.dottedUnit = name ∧ e.record = record ∧
        (source.length ≤ Emission.sourceLimit ∨ e.WithinLimits →
          (record.IsKnown ↔ e.arity ≤ Emit.parameterLimit)) := by
  intro compiled name record hrecord
  obtain ⟨e, he, hname, rfl⟩ := h.exists_emission_of_record o hobserver source c s hunits hrecord
  have hinitial : e ∈ Namespaces.initial.emissions source := hfresh ▸ he
  have hknown (hlimits : source.length ≤ Emission.sourceLimit ∨ e.WithinLimits) :
      e.record.IsKnown ↔ e.arity ≤ Emit.parameterLimit :=
    Emission.isKnown_record_iff
      (hlimits.elim (fun hshort => Namespaces.withinLimits_of_length_le hshort hinitial) id)
  refine ⟨fun hshort => ?_, e, he, hname, rfl, hknown⟩
  have hwithin := Namespaces.within_of_mem_emissions_initial (by decide) hshort hinitial
  exact (hknown (.inl (Nat.le_trans hshort (by decide)))).mpr hwithin.arity

/-- A function of one parameter that calls itself is far within the limit. -/
theorem readable_compile_installed :
    let source := "(def f (fn [x] (f (inc x))))"
    let compiled :=
      installed.1.compile Instrumentation.observer CaptureState.note source {} installed.2
    ∃ record, compiled.2.2.session.units.units.get? callingEmission.name.dottedUnit = some record ∧
      record.IsKnown ∧ (record.IsKnown ↔ callingEmission.arity ≤ Emit.parameterLimit) := by
  intro source compiled
  have hconcluded : (Reached.first .initial callingForm).concluded? =
      some (⟨callingEmission.name, ⟨false, true⟩, callingForm.nth? 2, some 1, some 1⟩,
        callingEmission.references) := rfl
  have hemissions : installed.1.namespaces.emissions source = [callingEmission] := by
    show (Namespaces.evaluated .initial source).filterMap Reached.emission? = _
    rw [isAll_callingForm.evaluated, List.filterMap_cons, Reached.emission?, hconcluded]
    rfl
  have hrecord : compiled.2.2.session.units.units.get? callingEmission.name.dottedUnit =
      some callingEmission.record := by
    show (installed.1.compile Instrumentation.observer CaptureState.note source {}
      installed.2).2.2.session.units.units.get? _ = _
    rw [installed.1.units_compile (by rw [observer?_installed]; rfl), hemissions]
    show (UnitBuffer.take {} callingEmission.unit).units.get? _ = _
    have hname := callingEmission.name.unitName_ne_empty
    rw [← callingEmission.fst_unit] at hname
    rw [UnitBuffer.get?_take rfl hname, callingEmission.fst_unit]
    exact if_pos rfl
  obtain ⟨hknown, e, he, -, -, hiff⟩ := readable_compile installed.1 {} observer?_installed rfl
    source {} installed.2 rfl _ _ hrecord
  rw [hemissions, List.mem_singleton] at he
  subst he
  exact ⟨_, hrecord, hknown (by decide), hiff (.inl (by decide))⟩

end Host

end CompileWatch
