import Mathlib.Data.List.Nodup
import CompileWatch.Proofs.Capture.Taken

/-!
# Records of units

A buffer that takes units in a row holds one record for each dotted name: that of the last
unit of the name.

- `UnitRecord.ofUnit`: the record of a unit.
- `UnitRecord.IsKnown`: a record of a unit that could be read.
- `UnitBuffer.get?_foldl_take_eq`: what is recorded under a name.
- `UnitBuffer.get?_foldl_take`: the record of a unit that no later one replaces.
- `UnitBuffer.exists_of_get?_foldl_take`: a record is that of a unit that was taken.
-/

namespace CompileWatch

/-- The record of a unit that is taken. -/
def UnitRecord.ofUnit (u : String × Bytes) : UnitRecord :=
  .ofMetrics (dottedName u.1) u.2.length (Metrics.ofBytes u.2).1

namespace UnitRecord

/-- A record has the references of the unit, but not to itself. -/
theorem references_ofUnit (u : String × Bytes) :
    (ofUnit u).references = (Metrics.ofBytes u.2).1.references.remove (dottedName u.1) := rfl

/-- A record has as many fields as were counted. -/
theorem fieldCount_ofUnit (u : String × Bytes) :
    (ofUnit u).fieldCount = (Metrics.ofBytes u.2).1.fieldCount := rfl

/-- A record has as many instructions as were counted. -/
theorem instructionCount_ofUnit (u : String × Bytes) :
    (ofUnit u).instructionCount = (Metrics.ofBytes u.2).1.instructionCount := rfl

/-- Both counts of a record are known. -/
structure IsKnown (record : UnitRecord) : Prop where
  fields : record.knownFields?.isSome
  instructions : record.knownInstructions?.isSome

/-- A count is known unless it is negative. -/
theorem isSome_knownCount? {n : Int} : (knownCount? n).isSome ↔ 0 ≤ n := by
  unfold knownCount?
  split <;> simp_all

/-- The counts of a unit that was visited to its end are known. -/
theorem isKnown_of_ofEvents {u : String × Bytes} {events : List Event}
    (h : (Metrics.ofBytes u.2).1 = Metrics.ofEvents events) : (ofUnit u).IsKnown := by
  constructor
  · rw [knownFields?, isSome_knownCount?, fieldCount_ofUnit, h]
    exact Int.natCast_nonneg _
  · rw [knownInstructions?, isSome_knownCount?, instructionCount_ofUnit, h]
    exact Int.natCast_nonneg _

/-- Those of a unit that cannot be read are not. -/
theorem not_isKnown_of_unknown {u : String × Bytes} (h : (Metrics.ofBytes u.2).1 = .unknown) :
    ¬ (ofUnit u).IsKnown := by
  rintro ⟨hfields, -⟩
  rw [knownFields?, isSome_knownCount?, fieldCount_ofUnit, h] at hfields
  exact absurd hfields (by decide)

end UnitRecord

theorem value_analyzeUnit (bytes : Bytes) : (analyzeUnit bytes).value = (Metrics.ofBytes bytes).1 := by
  unfold analyzeUnit
  dsimp only
  split <;> rfl

namespace UnitBuffer

variable {b : UnitBuffer}

theorem enabled_take (u : String × Bytes) : (b.take u).enabled = b.enabled := by
  unfold take capture
  split <;> rfl

/-- A unit with a name is taken by a buffer that is switched on, with the record of it. -/
theorem value_capture (hb : b.enabled) {name : String} (hname : name ≠ "") (bytes : Bytes) :
    (b.capture name bytes).value =
      ({ b with units := b.units.insert (dottedName name) (.ofUnit (name, bytes)) },
        some (.ofUnit (name, bytes))) := by
  have haccepts : b.accepts name := by simp [accepts, hb, hname]
  unfold capture
  rw [if_pos haccepts]
  simp only [Logged.value_bind, value_analyzeUnit]
  rfl

/-- A unit that is taken shows under its own name and nowhere else. -/
theorem get?_take (hb : b.enabled) {u : String × Bytes} (hu : u.1 ≠ "") (name : String) :
    (b.take u).units.get? name =
      if name = dottedName u.1 then some (.ofUnit u) else b.units.get? name := by
  have htake : (b.take u).units = b.units.insert (dottedName u.1) (.ofUnit u) := by
    rw [take, value_capture hb hu]
  rw [htake, SortedMap.get?_insert]
  by_cases hname : name = dottedName u.1
  · rw [if_pos hname, if_pos (Std.LawfulEqCmp.compare_eq_iff_eq.mpr hname)]
  · rw [if_neg hname, if_neg (by rwa [Std.LawfulEqCmp.compare_eq_iff_eq])]

/-- Of units that are taken in a row, the last one of a name is recorded; where there is none of
a name, what was recorded stays. -/
theorem get?_foldl_take_eq {l : List (String × Bytes)} (hb : b.enabled) (hl : ∀ u ∈ l, u.1 ≠ "")
    (name : String) :
    (l.foldl take b).units.get? name =
      ((l.filter (dottedName ·.1 = name)).getLast?.map .ofUnit).or (b.units.get? name) := by
  induction l generalizing b with
  | nil => rfl
  | cons u rest ih =>
    obtain ⟨hu, hrest⟩ := List.forall_mem_cons.mp hl
    rw [List.foldl_cons, ih (by rw [enabled_take, hb]) hrest, get?_take hb hu]
    by_cases hname : dottedName u.1 = name
    · rw [List.filter_cons_of_pos (by simpa using hname), List.getLast?_cons, if_pos hname.symm]
      cases (rest.filter (dottedName ·.1 = name)).getLast? <;> rfl
    · rw [List.filter_cons_of_neg (by simpa using hname), if_neg (Ne.symm hname)]

/-- Of units with different names, each is recorded. -/
theorem get?_foldl_take {l : List (String × Bytes)} (hb : b.enabled) (hl : ∀ u ∈ l, u.1 ≠ "")
    (hnodup : (l.map fun u => dottedName u.1).Nodup) {u : String × Bytes} (hu : u ∈ l) :
    (l.foldl take b).units.get? (dottedName u.1) = some (.ofUnit u) := by
  have hmem : u ∈ l.filter (dottedName ·.1 = dottedName u.1) := List.mem_filter.mpr ⟨hu, by simp⟩
  obtain ⟨last, hlast⟩ := Option.isSome_iff_exists.mp
    (List.getLast?_isSome.mpr (List.ne_nil_of_mem hmem))
  obtain ⟨hin, hnamed⟩ := List.mem_filter.mp (List.mem_of_getLast? hlast)
  -- no other unit has the name
  have hsame : last = u := List.inj_on_of_nodup_map hnodup hin hu (by simpa using hnamed)
  rw [get?_foldl_take_eq hb hl, hlast, hsame]
  rfl

/-- Every record is that of a unit that was taken, or was there before. -/
theorem exists_of_get?_foldl_take {l : List (String × Bytes)} (hb : b.enabled)
    (hl : ∀ u ∈ l, u.1 ≠ "") {name : String} {record : UnitRecord}
    (h : (l.foldl take b).units.get? name = some record) :
    (∃ u ∈ l, dottedName u.1 = name ∧ .ofUnit u = record) ∨ b.units.get? name = some record := by
  rw [get?_foldl_take_eq hb hl] at h
  cases hlast : (l.filter (dottedName ·.1 = name)).getLast? with
  | none =>
    rw [hlast] at h
    exact .inr h
  | some u =>
    rw [hlast] at h
    obtain ⟨hu, hnamed⟩ := List.mem_filter.mp (List.mem_of_getLast? hlast)
    exact .inl ⟨u, hu, by simpa using hnamed, Option.some.inj h⟩

end UnitBuffer

end CompileWatch
