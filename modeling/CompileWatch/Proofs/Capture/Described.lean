import CompileWatch.Proofs.Capture.Recorded
import CompileWatch.Proofs.ClassFile.Needed
import CompileWatch.Proofs.ClassFile.Visited

/-!
# What the record of a unit says

A record is made during one visit, event by event, and what counts as the unit itself is known
only from the header on. Said of the visit as a whole: a unit that is visited to its end is
recorded with the numbers of its fields and instructions and with all other units that it names,
and of one that is not, whatever was reported of it, nothing is recorded but its size.

- `UnitRecord.Describes`: a record says of a unit what a visit of its bytes reports.
- `UnitRecord.describes_ofUnit`: the record that is made of a unit does.
- `UnitBuffer.capture_describes`: it is the one that a buffer keeps.
-/

namespace CompileWatch

open ClassFile (visit)

namespace UnitRecord

/-- A record says of a unit under a name what a visit of its bytes reports. -/
structure Describes (record : UnitRecord) (name : String) (bytes : Bytes) : Prop where
  called : record.name = dottedName name
  byteSize : record.byteSize = bytes.length
  /-- Nothing is known of a unit that cannot be read, whatever was reported before the fault. -/
  unreadable : ∀ e, (visit bytes).status = .error e →
    record.fieldCount = -1 ∧ record.instructionCount = -1 ∧ record.references = SortedMap.empty
  /-- The counts of a unit that can be read, as long as they can be shown. -/
  counts : (visit bytes).status = .ok () → (visit bytes).events.length < 0x80000000 →
    record.fieldCount = (visit bytes).events.countP Event.isField ∧
      record.instructionCount = (visit bytes).events.countP Event.isInstruction
  /-- Its references are the units that it names, except for what it calls itself and what it is
  recorded as. -/
  references : (visit bytes).status = .ok () →
    ∃ header, (visit bytes).events.head? = some (.header header) ∧
      ∀ unit, record.references.has unit ↔
        (∃ class_ ∈ (visit bytes).events.flatMap Event.names, NamesUnit class_ unit) ∧
          unit ≠ dottedName header.thisClass ∧ unit ≠ dottedName name

/-- The record of a unit describes it. -/
theorem describes_ofUnit (u : String × Bytes) : (ofUnit u).Describes u.1 u.2 where
  called := rfl
  byteSize := rfl
  unreadable e h := by
    rw [fieldCount_ofUnit, instructionCount_ofUnit, references_ofUnit,
      Metrics.ofBytes_of_status_error h]
    exact ⟨rfl, rfl, rfl⟩
  counts h hlength := by
    obtain ⟨e, hvisit⟩ | ⟨header, members, hevents, hmembers, -⟩ := ClassFile.visit_cases u.2
    · rw [hvisit] at h
      cases h
    · rw [hevents, List.length_cons] at hlength
      obtain ⟨hfields, hinstructions⟩ := Metrics.counts_ofEvents header hmembers
      have hf := List.countP_le_length (p := Event.isField) (l := members)
      have hi := List.countP_le_length (p := Event.isInstruction) (l := members)
      rw [countLimit] at hfields hinstructions
      rw [fieldCount_ofUnit, instructionCount_ofUnit, Metrics.ofBytes_of_status_ok h, hevents,
        hfields, hinstructions, Nat.min_eq_left (by omega), Nat.min_eq_left (by omega)]
      exact ⟨rfl, rfl⟩
  references h := by
    obtain ⟨e, hvisit⟩ | ⟨header, members, hevents, hmembers, -⟩ := ClassFile.visit_cases u.2
    · rw [hvisit] at h
      cases h
    · refine ⟨header, by rw [hevents]; rfl, fun unit => ?_⟩
      rw [references_ofUnit, SortedSet.has_remove, Metrics.ofBytes_of_status_ok h, hevents,
        Metrics.has_references_ofEvents header hmembers]
      tauto

end UnitRecord

namespace UnitBuffer

/-- A buffer that takes a unit keeps a record that describes it, and every record of a unit with
another name. -/
theorem capture_describes {b : UnitBuffer} (hb : b.enabled) {name : String} (hname : name ≠ "")
    (bytes : Bytes) :
    ∃ record : UnitRecord, record.Describes name bytes ∧
      (b.capture name bytes).value =
        ({ b with units := b.units.insert (dottedName name) record }, some record) ∧
      ∀ other, (b.capture name bytes).value.1.units.get? other =
        if other = dottedName name then some record else b.units.get? other := by
  refine ⟨.ofUnit (name, bytes), UnitRecord.describes_ofUnit (name, bytes), value_capture hb hname bytes,
    fun other => ?_⟩
  exact get?_take hb (u := (name, bytes)) hname other

/-- The record of a unit of 83 bytes, whose method does nothing but return: the name is known by its
dots. -/
theorem capture_describes_smallUnit : ({} : UnitBuffer).enabled ∧ "app/Demo" ≠ "" ∧
    ∃ record : UnitRecord, record.Describes "app/Demo" ClassFile.smallUnit ∧
      (({} : UnitBuffer).capture "app/Demo" ClassFile.smallUnit).value.2 = some record ∧
      record.name = "app.Demo" ∧ record.byteSize = 83 ∧ record.fieldCount = 0 ∧
        record.instructionCount = 1 := by
  have hname : "app/Demo" ≠ "" := by decide
  refine ⟨rfl, hname, ?_⟩
  obtain ⟨record, hdescribes, hcapture, -⟩ :=
    capture_describes (b := {}) rfl hname ClassFile.smallUnit
  obtain ⟨hfields, hinstructions⟩ :=
    hdescribes.counts ClassFile.status_visit_smallUnit (by decide +kernel)
  refine ⟨record, hdescribes, congrArg Prod.snd hcapture, ?_, hdescribes.byteSize, ?_, ?_⟩
  · rw [hdescribes.called]
    decide +kernel
  · rw [hfields]
    decide +kernel
  · rw [hinstructions]
    decide +kernel

end UnitBuffer

end CompileWatch
