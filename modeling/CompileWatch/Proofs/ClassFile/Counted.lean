import CompileWatch.ClassFile.Metrics
import CompileWatch.Proofs.ClassFile.UnitReading

/-!
# What a visit counts

The metrics of a unit are counted along its visit. Of a unit that was put together step by
step they say what the steps say: as many fields as were added, and the classes that the
instructions name, except for the unit itself.

- `Event.names`, `ClassStep.names`: the classes that an event names, and those that a step
  makes the unit name.
- `Metrics.has_references_ofEvents`, `Metrics.counts_ofEvents`: the metrics of a visit.
- `ClassBuilder.mem_names_declared`: the classes that a unit names are those of its steps.
- `ClassBuilder.has_references_build`, `fieldCount_build`, `instructionCount_build`: the metrics
  of a unit that was built.
-/

namespace CompileWatch

/-! ### Names of classes -/

/-- A constant names the class of this dotted name. -/
def NamesUnit (constant unit : String) : Prop := (namedClass? constant).map dottedName = some unit

theorem namesUnit_iff {name u : String} (h : namedClass? name = some name) :
    NamesUnit name u ↔ dottedName name = u := by
  unfold NamesUnit
  rw [h, Option.map_some, Option.some.injEq]

/-- The name of a class that is no array type stands for itself. -/
theorem namedClass?_of_head {name : String} (hne : name ≠ "") (h : name.toList.head? ≠ some '[') :
    namedClass? name = some name := by
  have helement : name.toList.dropWhile (· = '[') = name.toList := by
    cases hl : name.toList with
    | nil => rfl
    | cons c rest =>
      rw [hl] at h
      have hc : c ≠ '[' := fun hc => h (congrArg some hc)
      simp [hc]
  unfold namedClass?
  dsimp only
  rw [if_pos (congrArg List.length helement), if_neg (by simpa using hne)]

namespace QualifiedName

/-- A unit is named by a class name, and by no array type, if its namespace is. -/
theorem namedClass?_unitName {q : QualifiedName} (h : q.ns.toList.head? ≠ some '[') :
    namedClass? q.unitName = some q.unitName := by
  have htext : q.unitName.toList =
      (replaceChar '.' '/' (replaceChar '-' '_' q.ns)).toList ++ '$' :: (munge q.name).toList := by
    simp [unitName]
  refine namedClass?_of_head (fun hempty => ?_) ?_
  · rw [hempty] at htext
    simp at htext
  · rw [htext]
    cases hns : q.ns.toList with
    | nil => simp [replaceChar, hns]
    | cons c rest =>
      -- no other character becomes a bracket
      have hc : c ≠ '[' := fun hc => h (by rw [hns, hc]; rfl)
      simp only [replaceChar, String.toList_map, hns, List.map_cons, List.cons_append,
        List.head?_cons, ne_eq, Option.some.injEq]
      split <;> split <;> simp_all

end QualifiedName

/-- The class that an operand names. -/
def Operand.name? : Operand → Option String
  | .field owner | .method owner => Option.some owner
  | .type name => Option.some name
  | .none | .dynamic => Option.none

namespace Event

/-- The classes that an event names beside the unit itself. -/
def names : Event → List String
  | .header h => h.superClass.toList ++ h.interfaces
  | .instruction i => i.operand.name?.toList
  | .field _ | .method _ | .finished => []

/-- Whether an event declares a field. -/
def isField : Event → Bool
  | .field _ => true
  | _ => false

/-- Whether an event is an instruction. -/
def isInstruction : Event → Bool
  | .instruction _ => true
  | _ => false

/-- Whether an event says what the unit is. -/
def isHeader : Event → Bool
  | .header _ => true
  | _ => false

end Event

/-! ### Counting -/

namespace Tally

variable (t : Tally)

/-- Noting a class changes nothing but the classes. -/
theorem refer_eq (name : String) :
    t.refer name = { t with references := (t.refer name).references } := by
  unfold refer
  cases namedClass? name with
  | none => rfl
  | some c =>
    dsimp only
    split <;> rfl

theorem foldl_refer_eq (l : List String) :
    l.foldl refer t = { t with references := (l.foldl refer t).references } := by
  induction l generalizing t with
  | nil => rfl
  | cons name rest ih =>
    rw [List.foldl_cons, ih, t.refer_eq name]

/-- A class is noted unless it is the unit itself. -/
theorem has_references_refer (name u : String) :
    (t.refer name).references.has u ↔
      t.references.has u ∨ (NamesUnit name u ∧ t.self ≠ some u) := by
  unfold refer NamesUnit
  cases namedClass? name with
  | none => simp
  | some c =>
    dsimp only
    by_cases hself : t.self = some (dottedName c)
    · rw [if_pos hself, Option.map_some, Option.some.injEq]
      constructor
      · exact .inl
      · rintro (h | ⟨rfl, hu⟩)
        · exact h
        · exact absurd hself hu
    · rw [if_neg hself, Option.map_some, Option.some.injEq]
      show SortedSet.has (SortedSet.add _ _) u ↔ _
      rw [SortedSet.has_add, Bool.or_eq_true, beq_iff_eq, Std.LawfulEqCmp.compare_eq_iff_eq]
      constructor
      · rintro (rfl | h)
        · exact .inr ⟨rfl, hself⟩
        · exact .inl h
      · rintro (h | ⟨rfl, -⟩)
        · exact .inr h
        · exact .inl rfl

theorem has_references_foldl_refer (l : List String) (u : String) :
    (l.foldl refer t).references.has u ↔
      t.references.has u ∨ ((∃ name ∈ l, NamesUnit name u) ∧ t.self ≠ some u) := by
  induction l generalizing t with
  | nil => simp
  | cons name rest ih =>
    have hself : (t.refer name).self = t.self := by rw [refer_eq]
    rw [List.foldl_cons, ih, has_references_refer, hself, List.exists_mem_cons_iff, or_assoc,
      ← or_and_right]

/-- An event is counted with all the classes that it names. -/
theorem step_spec {e : Event} (h : e.isHeader = false) :
    (t.step e).self = t.self ∧ (t.step e).fields = t.fields + (if e.isField then 1 else 0) ∧
      (t.step e).instructions = t.instructions + (if e.isInstruction then 1 else 0) ∧
      ∀ u, (t.step e).references.has u ↔
        t.references.has u ∨ ((∃ name ∈ e.names, NamesUnit name u) ∧ t.self ≠ some u) := by
  cases e with
  | header h => cases h
  | field m => exact ⟨rfl, rfl, rfl, fun u => by simp [step, Event.names]⟩
  | method m => exact ⟨rfl, rfl, rfl, fun u => by simp [step, Event.names]⟩
  | finished => exact ⟨rfl, rfl, rfl, fun u => by simp [step, Event.names]⟩
  | instruction i =>
    -- counting the instruction changes neither the fields nor the classes
    let counted := { t with instructions := t.instructions + 1 }
    have hstep : t.step (.instruction i) = i.operand.name?.toList.foldl refer counted := by
      unfold step
      dsimp only
      cases i.operand <;> rfl
    refine ⟨?_, ?_, ?_, fun u => ?_⟩
    · rw [hstep, foldl_refer_eq]
    · rw [hstep, foldl_refer_eq]
      rfl
    · rw [hstep, foldl_refer_eq]
      rfl
    · rw [hstep]
      exact counted.has_references_foldl_refer _ u

/-- Events after the header add up. -/
theorem foldl_step_spec {l : List Event} (h : ∀ e ∈ l, e.isHeader = false) :
    (l.foldl step t).fields = t.fields + l.countP Event.isField ∧
      (l.foldl step t).instructions = t.instructions + l.countP Event.isInstruction ∧
      ∀ u, (l.foldl step t).references.has u ↔
        t.references.has u ∨ ((∃ name ∈ l.flatMap Event.names, NamesUnit name u) ∧ t.self ≠ some u) := by
  induction l generalizing t with
  | nil => exact ⟨rfl, rfl, fun u => by simp⟩
  | cons e rest ih =>
    obtain ⟨he, hrest⟩ := List.forall_mem_cons.mp h
    obtain ⟨hself, hfields, hinstructions, hhas⟩ := t.step_spec he
    obtain ⟨hfields', hinstructions', hhas'⟩ := ih (t.step e) hrest
    refine ⟨?_, ?_, fun u => ?_⟩
    · rw [List.foldl_cons, hfields', hfields, List.countP_cons]
      omega
    · rw [List.foldl_cons, hinstructions', hinstructions, List.countP_cons]
      omega
    · rw [List.foldl_cons, hhas', hhas, hself, or_assoc, ← or_and_right]
      simp [or_and_right, exists_or]

end Tally

namespace Metrics

open ClassFile (visit)

section

variable {bytes : Bytes}

theorem ofBytes_of_status_ok (h : (visit bytes).status = .ok ()) :
    ofBytes bytes = (ofEvents (visit bytes).events, none) := by
  unfold ofBytes
  dsimp only
  rw [h]

theorem ofBytes_of_status_error {e : FormatError} (h : (visit bytes).status = .error e) :
    ofBytes bytes = (unknown, some e) := by
  unfold ofBytes
  dsimp only
  rw [h]

end

variable (h : Header) {l : List Event}

/-- The metrics of a visit name what its events name, except for the unit itself. -/
theorem has_references_ofEvents (hl : ∀ e ∈ l, e.isHeader = false) (u : String) :
    (ofEvents (.header h :: l)).references.has u ↔
      u ≠ dottedName h.thisClass ∧
        ∃ name ∈ (Event.header h :: l).flatMap Event.names, NamesUnit name u := by
  let start : Tally := { self := some (dottedName h.thisClass) }
  have hspec := ((h.superClass.toList ++ h.interfaces).foldl Tally.refer start).foldl_step_spec hl
  have hstart : ((h.superClass.toList ++ h.interfaces).foldl Tally.refer start).self = start.self := by
    rw [Tally.foldl_refer_eq]
  have hself : some (dottedName h.thisClass) ≠ some u ↔ u ≠ dottedName h.thisClass := by
    rw [ne_eq, Option.some.injEq, eq_comm]
  show (l.foldl Tally.step (List.foldl Tally.refer start _)).references.has u ↔ _
  rw [hspec.2.2, Tally.has_references_foldl_refer, hstart, ← hself]
  have hempty : ¬ SortedSet.has start.references u := Bool.false_ne_true
  have happend : (∃ name ∈ (Event.header h :: l).flatMap Event.names, NamesUnit name u) ↔
      (∃ name ∈ h.superClass.toList ++ h.interfaces, NamesUnit name u) ∨
        ∃ name ∈ l.flatMap Event.names, NamesUnit name u := by
    rw [List.flatMap_cons]
    simp only [List.mem_append, or_and_right, exists_or, Event.names]
  rw [happend, or_iff_right hempty, ← or_and_right]
  exact and_comm

/-- The metrics of a visit have the numbers of its fields and of its instructions. -/
theorem counts_ofEvents (hl : ∀ e ∈ l, e.isHeader = false) :
    (ofEvents (.header h :: l)).fieldCount = (min (l.countP Event.isField) countLimit : Nat) ∧
      (ofEvents (.header h :: l)).instructionCount =
        (min (l.countP Event.isInstruction) countLimit : Nat) := by
  let start : Tally := { self := some (dottedName h.thisClass) }
  let headed := (h.superClass.toList ++ h.interfaces).foldl Tally.refer start
  obtain ⟨hfields, hinstructions, -⟩ := headed.foldl_step_spec hl
  -- what the header names counts as nothing
  have hheaded : headed = { start with references := headed.references } := start.foldl_refer_eq _
  have hnofields : headed.fields = 0 := congrArg Tally.fields hheaded
  have hnoinstructions : headed.instructions = 0 := congrArg Tally.instructions hheaded
  rw [hnofields, Nat.zero_add] at hfields
  rw [hnoinstructions, Nat.zero_add] at hinstructions
  constructor
  · show ((min (l.foldl Tally.step headed).fields countLimit : Nat) : Int) = _
    rw [hfields]
  · show ((min (l.foldl Tally.step headed).instructions countLimit : Nat) : Int) = _
    rw [hinstructions]

end Metrics

/-! ### Units that were built -/

/-- The class that a step of a body makes it name. -/
def CodeStep.name? : CodeStep → Option String
  | .field _ owner _ _ | .invoke _ owner _ _ | .invokeInterface owner _ _ _ => some owner
  | .type _ name => some name
  | .multiArray descriptor _ => some descriptor
  | .op _ _ | .aload _ | .constant _ | .load _ | .wideIncrement _ _ | .tableSwitch _ _
  | .lookupSwitch _ | .line _ | .maxStack _ | .maxLocals _ => none

/-- The classes that a step makes a unit name. -/
def ClassStep.names : ClassStep → List String
  | .interface name => [name]
  | .method _ _ _ body => body.filterMap CodeStep.name?
  | .field _ _ _ | .source _ => []

theorem CodeBuilder.name?_reported (b : CodeBuilder) (s : CodeStep) :
    (b.reported s).bind (·.operand.name?) = s.name? := by
  cases s with
  | op opcode operands =>
    show Operand.name? (if _ then _ else _) = none
    split <;> rfl
  | _ => rfl

theorem CodeBuilder.names_reportedAll (b : CodeBuilder) (l : List CodeStep) :
    (b.reportedAll l).filterMap (·.operand.name?) = l.filterMap CodeStep.name? := by
  induction l generalizing b with
  | nil => rfl
  | cons s rest ih =>
    rw [reportedAll, List.filterMap_append, ih, List.filterMap_cons, ← b.name?_reported s]
    cases h : b.reported s with
    | none => rfl
    | some i => cases hi : i.operand.name? <;> simp [hi]

/-- Whether a step of a body writes an instruction. -/
def CodeStep.isInstruction : CodeStep → Bool
  | .constant _ | .line _ | .maxStack _ | .maxLocals _ => false
  | .op _ _ | .aload _ | .load _ | .field _ _ _ _ | .invoke _ _ _ _ | .invokeInterface _ _ _ _
  | .type _ _ | .multiArray _ _ | .wideIncrement _ _ | .tableSwitch _ _ | .lookupSwitch _ => true

/-- The steps of the body that a step adds to a unit. -/
def ClassStep.body : ClassStep → List CodeStep
  | .method _ _ _ body => body
  | .interface _ | .field _ _ _ | .source _ => []

theorem CodeBuilder.length_reportedAll (b : CodeBuilder) (l : List CodeStep) :
    (b.reportedAll l).length = l.countP CodeStep.isInstruction := by
  induction l generalizing b with
  | nil => rfl
  | cons s rest ih =>
    have hfirst : (b.reported s).toList.length = if s.isInstruction then 1 else 0 := by
      cases s <;> rfl
    rw [reportedAll, List.length_append, ih, hfirst, List.countP_cons, Nat.add_comm]

namespace ClassBuilder

/-- A step makes a unit name the interface that it adds, or what the body of its method names. -/
theorem mem_names_step (b : ClassBuilder) (s : ClassStep) (c : String) :
    c ∈ s.names ↔
      c ∈ s.interface?.toList ∨ c ∈ (b.methodEvents s).flatten.flatMap Event.names := by
  cases s with
  | interface name => simp [ClassStep.names, ClassStep.interface?, methodEvents]
  | field access name descriptor => simp [ClassStep.names, ClassStep.interface?, methodEvents]
  | source file => simp [ClassStep.names, ClassStep.interface?, methodEvents]
  | method access name descriptor body =>
    have hbody := (b.openMethod name descriptor).2.names_reportedAll body
    rw [List.filterMap_eq_flatMap_toList] at hbody
    show c ∈ body.filterMap CodeStep.name? ↔ _
    rw [← hbody]
    simp [ClassStep.interface?, methodEvents, Event.names, List.flatMap_map]

theorem mem_names_steps (b : ClassBuilder) (l : List ClassStep) (c : String) :
    c ∈ l.flatMap ClassStep.names ↔
      c ∈ l.filterMap ClassStep.interface? ∨
        c ∈ (b.allMethodEvents l).flatten.flatMap Event.names := by
  induction l generalizing b with
  | nil => simp [allMethodEvents]
  | cons s rest ih =>
    have hfirst := b.mem_names_step s c
    rw [List.flatMap_cons, List.mem_append, hfirst, ih (b.step s), allMethodEvents,
      List.flatten_append, List.flatMap_append, List.mem_append, List.filterMap_cons]
    cases s.interface? <;> simp [or_assoc, or_left_comm]

variable {name superName : String} {l : List ClassStep}

/-- The classes that a unit names are its super class and those that its steps say. -/
theorem mem_names_declared (c : String) :
    c ∈ (declared name superName l).flatMap Event.names ↔
      c = superName ∨ c ∈ l.flatMap ClassStep.names := by
  have hfields : ((l.filterMap ClassStep.field?).map Event.field).flatMap Event.names = [] :=
    List.flatMap_eq_nil_iff.mpr fun e he => by
      obtain ⟨m, -, rfl⟩ := List.mem_map.mp he
      rfl
  rw [(start name superName).mem_names_steps l c]
  unfold declared
  rw [List.flatMap_cons, List.flatMap_append, List.flatMap_append, hfields]
  simp [Event.names]

/-- A method is reported with its instructions. -/
theorem eq_of_mem_methodEvents {b : ClassBuilder} {s : ClassStep} {e : Event}
    (h : e ∈ (b.methodEvents s).flatten) : (∃ m, e = .method m) ∨ ∃ i, e = .instruction i := by
  cases s with
  | method access name descriptor body =>
    rw [methodEvents, List.flatten_singleton] at h
    rcases List.mem_cons.mp h with rfl | h
    · exact .inl ⟨_, rfl⟩
    · obtain ⟨i, -, rfl⟩ := List.mem_map.mp h
      exact .inr ⟨i, rfl⟩
  | _ => cases h

theorem eq_of_mem_allMethodEvents {b : ClassBuilder} {e : Event}
    (h : e ∈ (b.allMethodEvents l).flatten) : (∃ m, e = .method m) ∨ ∃ i, e = .instruction i := by
  induction l generalizing b with
  | nil => cases h
  | cons s rest ih =>
    rw [allMethodEvents, List.flatten_append] at h
    rcases List.mem_append.mp h with h | h
    · exact eq_of_mem_methodEvents h
    · exact ih h

/-- The metrics of a unit are those of what its steps said. -/
theorem ofBytes_build (hroom : HasRoom name superName l) (hl : ∀ s ∈ l, s.Admissible) :
    (Metrics.ofBytes ((start name superName).steps l).build.1).1 =
      Metrics.ofEvents (declared name superName l) := by
  have hvisit := ClassFile.visit_of_reports (reports_build hroom hl)
  rw [Metrics.ofBytes_of_status_ok (congrArg ClassFile.Visit.status hvisit), hvisit]

/-- After the header, a unit says nothing more of itself. -/
theorem isHeader_tail {e : Event}
    (he : e ∈ (l.filterMap ClassStep.field?).map Event.field ++
      (((start name superName).allMethodEvents l).flatten ++ [.finished])) : e.isHeader = false := by
  rcases List.mem_append.mp he with he | he
  · obtain ⟨m, -, rfl⟩ := List.mem_map.mp he
    rfl
  · rcases List.mem_append.mp he with he | he
    · obtain ⟨m, rfl⟩ | ⟨i, rfl⟩ := eq_of_mem_allMethodEvents he <;> rfl
    · rw [List.mem_singleton.mp he]
      rfl

/-- The classes that the metrics of a unit show are its super class and those that its steps
name, except for the unit itself. -/
theorem has_references_build (hroom : HasRoom name superName l) (hl : ∀ s ∈ l, s.Admissible)
    (u : String) :
    (Metrics.ofBytes ((start name superName).steps l).build.1).1.references.has u ↔
      u ≠ dottedName name ∧
        ∃ c, (c = superName ∨ c ∈ l.flatMap ClassStep.names) ∧ NamesUnit c u := by
  rw [ofBytes_build hroom hl, declared, Metrics.has_references_ofEvents _ fun e he => isHeader_tail he]
  refine and_congr_right fun _ => exists_congr fun c => and_congr_left fun _ => ?_
  exact mem_names_declared c

/-- The metrics of a unit show as many fields as its steps added. -/
theorem fieldCount_build (hroom : HasRoom name superName l) (hl : ∀ s ∈ l, s.Admissible) :
    (Metrics.ofBytes ((start name superName).steps l).build.1).1.fieldCount =
      (l.filterMap ClassStep.field?).length := by
  have hmethods : ((start name superName).allMethodEvents l).flatten.countP Event.isField = 0 := by
    refine List.countP_eq_zero.mpr fun e he => ?_
    obtain ⟨m, rfl⟩ | ⟨i, rfl⟩ := eq_of_mem_allMethodEvents he <;> exact Bool.false_ne_true
  have hfields : ((l.filterMap ClassStep.field?).map Event.field).countP Event.isField =
      (l.filterMap ClassStep.field?).length := by
    rw [List.countP_map, List.countP_eq_length]
    exact fun m _ => rfl
  rw [ofBytes_build hroom hl, declared, (Metrics.counts_ofEvents _ fun e he => isHeader_tail he).1,
    List.countP_append, List.countP_append, hfields, hmethods]
  have hle := hroom.fields
  show ((min (_ + (0 + 0)) countLimit : Nat) : Int) = _
  rw [countLimit]
  omega

/-- The methods of a unit have the instructions that its steps write. -/
theorem countP_allMethodEvents (b : ClassBuilder) (l : List ClassStep) :
    (b.allMethodEvents l).flatten.countP Event.isInstruction =
      (l.flatMap ClassStep.body).countP CodeStep.isInstruction := by
  induction l generalizing b with
  | nil => rfl
  | cons s rest ih =>
    have hfirst : (b.methodEvents s).flatten.countP Event.isInstruction =
        s.body.countP CodeStep.isInstruction := by
      cases s with
      | method access name descriptor body =>
        have hall : ((b.openMethod name descriptor).2.reportedAll body).countP
            (Event.isInstruction ∘ Event.instruction) =
            ((b.openMethod name descriptor).2.reportedAll body).length :=
          List.countP_eq_length.mpr fun _ _ => rfl
        rw [methodEvents, List.flatten_singleton, List.countP_cons_of_neg Bool.false_ne_true,
          List.countP_map, hall, CodeBuilder.length_reportedAll]
        rfl
      | _ => rfl
    rw [allMethodEvents, List.flatten_append, List.countP_append, hfirst, ih, List.flatMap_cons,
      List.countP_append]

/-- The metrics of a unit show as many instructions as its steps write. -/
theorem instructionCount_build (hroom : HasRoom name superName l) (hl : ∀ s ∈ l, s.Admissible) :
    (Metrics.ofBytes ((start name superName).steps l).build.1).1.instructionCount =
      (min ((l.flatMap ClassStep.body).countP CodeStep.isInstruction) countLimit : Nat) := by
  have hfields : ((l.filterMap ClassStep.field?).map Event.field).countP Event.isInstruction = 0 := by
    refine List.countP_eq_zero.mpr fun e he => ?_
    obtain ⟨m, -, rfl⟩ := List.mem_map.mp he
    exact Bool.false_ne_true
  rw [ofBytes_build hroom hl, declared, (Metrics.counts_ofEvents _ fun e he => isHeader_tail he).2,
    List.countP_append, List.countP_append, hfields, countP_allMethodEvents, Nat.zero_add]
  rfl

end ClassBuilder

end CompileWatch
