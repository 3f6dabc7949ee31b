import CompileWatch.Proofs.ClassFile.Room
import CompileWatch.Proofs.ClassFile.Visited
import Mathlib.Data.List.Dedup

/-!
# What determines the unit of a function

The unit of a function is written once and read twice, for its metrics and for its name. What is
read depends on nothing but the name, the number of parameters and the references of the
function, however its constants are numbered and however often a name is repeated.

- `Emit.variableCount`, `Emit.loadCount`: what is counted among references.
- `Emit.instructions_classSteps`: how many instructions a unit has.
- `Emit.metrics_emitFunction`: what is read of the unit of a function.
-/

namespace CompileWatch

namespace Emit

/-! ### Counting references -/

/-- How many different names are referred to that are no constants. -/
def variableCount (refs : List Reference) : Nat :=
  ((refs.filter (!·.constant)).map (·.name)).dedup.length

/-- How many references are neither to a constant nor to a function. -/
def loadCount (refs : List Reference) : Nat := refs.countP fun r => !r.constant && !r.function

variable (name : QualifiedName) (arity : Nat) (refs : List Reference) (line : Option Nat)

/-- The variables that are held are counted by their names. -/
theorem length_heldVars : (heldVars refs).length = variableCount refs := by
  have hperm : (heldVars refs).Perm ((refs.filter (!·.constant)).map (·.name)).dedup := by
    refine (List.perm_ext_iff_of_nodup nodup_heldVars (List.nodup_dedup _)).mpr fun q => ?_
    rw [mem_heldVars, List.mem_dedup, List.mem_map]
    simp only [List.mem_filter, Bool.not_eq_true', and_assoc]
  exact hperm.length_eq

/-! ### Counting instructions -/

theorem countP_initSteps (this : String) (vars : List (QualifiedName × Nat)) :
    (vars.flatMap fun (var, i) => initSteps this i var).countP CodeStep.isInstruction =
      5 * vars.length := by
  induction vars with
  | nil => rfl
  | cons x rest ih =>
    have hone : (initSteps this x.2 x.1).countP CodeStep.isInstruction = 5 := rfl
    rw [List.flatMap_cons, List.countP_append, ih, hone, List.length_cons]
    omega

/-- A reference takes two instructions, and a variable that is loaded one more. -/
theorem countP_referenceSteps (this : String) (vars : List QualifiedName) :
    (refs.flatMap (referenceSteps this vars)).countP CodeStep.isInstruction =
      2 * refs.length + loadCount refs := by
  induction refs with
  | nil => rfl
  | cons r rest ih =>
    have hone : (referenceSteps this vars r).countP CodeStep.isInstruction =
        2 + if !r.constant && !r.function then 1 else 0 := by
      unfold referenceSteps
      cases r.constant <;> cases r.function <;> rfl
    rw [List.flatMap_cons, List.countP_append, ih, hone, List.length_cons, loadCount, loadCount,
      List.countP_cons]
    omega

theorem countP_parameterSteps : (parameterSteps arity).countP CodeStep.isInstruction = arity := by
  have hall : (parameterSteps arity).countP CodeStep.isInstruction = (parameterSteps arity).length :=
    List.countP_eq_length.mpr fun s hs => by
      obtain ⟨i, -, rfl⟩ := List.mem_map.mp hs
      rfl
  rw [hall, parameterSteps, List.length_map, List.length_range]

/-- The instructions of a unit are those of its four bodies. -/
theorem instructions_classSteps :
    ((classSteps name arity refs line).flatMap ClassStep.body).countP CodeStep.isInstruction =
      5 * variableCount refs + 2 * refs.length + loadCount refs + arity + 7 := by
  -- the steps before the bodies only add fields
  have hfields : ((List.range (heldVars refs).length).map fun i =>
      ClassStep.field (accessBits [.isPublic, .isStatic, .isFinal]) (fieldName i)
        varDescriptor).flatMap ClassStep.body = [] := by
    refine List.flatMap_eq_nil_iff.mpr fun s hs => ?_
    obtain ⟨i, -, rfl⟩ := List.mem_map.mp hs
    rfl
  have hlines : (line.toList.map CodeStep.line).countP CodeStep.isInstruction = 0 := by
    cases line <;> rfl
  have hinit := countP_initSteps name.unitName (heldVars refs).zipIdx
  rw [List.length_zipIdx, length_heldVars] at hinit
  simp only [classSteps, List.flatMap_append, hfields, List.nil_append, List.flatMap_cons,
    List.flatMap_nil, List.append_nil, ClassStep.body, List.countP_append, hlines, hinit,
    countP_referenceSteps, countP_parameterSteps, List.countP_cons, List.countP_nil,
    CodeStep.isInstruction, if_true]
  omega

/-! ### The unit of a function -/

variable {name arity refs line}

theorem visit_emitFunction (hroom : HasRoom name arity refs line) :
    ClassFile.visit (emitFunction name arity refs line).2 = ⟨ClassBuilder.declared name.unitName
      functionClass (classSteps name arity refs line), .ok ()⟩ := by
  rw [emitFunction_eq]
  exact ClassFile.visit_of_reports (ClassBuilder.reports_build hroom fun s hs =>
    admissible_classSteps name arity line hs)

/-- A unit has as many instructions as its steps write. -/
theorem instructionCount (hroom : HasRoom name arity refs line) :
    (Metrics.ofBytes (emitFunction name arity refs line).2).1.instructionCount =
      (min (5 * variableCount refs + 2 * refs.length + loadCount refs + arity + 7) countLimit :
        Nat) := by
  rw [emitFunction_eq, ClassBuilder.instructionCount_build hroom fun s hs =>
    admissible_classSteps name arity line hs, instructions_classSteps]

/-- A unit gives itself the name of its function. -/
theorem ownName_emitFunction (hroom : HasRoom name arity refs line) :
    ClassFile.ownName (emitFunction name arity refs line).2 = .ok (dottedName name.unitName) := by
  have hheader : ∃ header, .header header ∈
      (ClassFile.visit (emitFunction name arity refs line).2).events ∧
        header.thisClass = name.unitName := by
    rw [visit_emitFunction hroom]
    exact ⟨_, List.mem_cons_self, rfl⟩
  obtain ⟨header, hmem, hname⟩ := hheader
  rw [ClassFile.ownName_of_header_mem hmem, hname]

/-- What is read of the unit of a function is determined by the references of the function: it has
a field for each variable, a number of instructions for each reference and each parameter, and it
refers to its super class, to the runtime if it holds a variable, and to the units of functions,
except for itself. -/
theorem metrics_emitFunction (hroom : HasRoom name arity refs line)
    (hname : name.ns.toList.head? ≠ some '[')
    (hrefs : ∀ r ∈ refs, r.name.ns.toList.head? ≠ some '[')
    (hcount : 5 * variableCount refs + 2 * refs.length + loadCount refs + arity + 7 ≤ countLimit) :
    ∃ metrics : Metrics,
      Metrics.ofBytes (emitFunction name arity refs line).2 = (metrics, none) ∧
      metrics.fieldCount = variableCount refs ∧
      metrics.instructionCount =
        (5 * variableCount refs + 2 * refs.length + loadCount refs + arity + 7 : Nat) ∧
      (∀ unit, metrics.references.has unit ↔
        unit ≠ dottedName name.unitName ∧
          (unit = "clojure.lang.AFunction" ∨
            (0 < variableCount refs ∧ (unit = "clojure.lang.RT" ∨ unit = "clojure.lang.Var")) ∨
            ∃ r ∈ refs, r.constant = false ∧ r.function ∧ dottedName r.name.unitName = unit)) ∧
      ClassFile.ownName (emitFunction name arity refs line).2 = .ok (dottedName name.unitName) := by
  have hstatus : (ClassFile.visit (emitFunction name arity refs line).2).status = .ok () := by
    rw [visit_emitFunction hroom]
  have hread := Metrics.ofBytes_of_status_ok hstatus
  have hfields := fieldCount hroom
  have hinstructions := instructionCount hroom
  have hreferences := has_references_iff hroom hname hrefs
  rw [length_heldVars] at hfields
  rw [Nat.min_eq_left hcount] at hinstructions
  have hdotted : dottedName functionClass = "clojure.lang.AFunction" ∧
      dottedName runtimeClass = "clojure.lang.RT" ∧ dottedName varClass = "clojure.lang.Var" := by
    decide +kernel
  have hheld : heldVars refs ≠ [] ↔ 0 < variableCount refs := by
    rw [← length_heldVars, List.length_pos_iff]
  rw [hread] at hfields hinstructions hreferences
  rw [hdotted.1, hdotted.2.1, hdotted.2.2] at hreferences
  simp only [hheld] at hreferences
  exact ⟨_, hread, hfields, hinstructions, hreferences, ownName_emitFunction hroom⟩

/-- The name of a function that calls itself. -/
def busyName : QualifiedName := ⟨"app.core", "b"⟩

/-- Its references: to a function, a constant, itself, and twice to a variable. -/
def busyReferences : List Reference :=
  [⟨⟨"lib.core", "helper"⟩, false, true⟩, ⟨⟨"app.core", "limit"⟩, true, false⟩,
    ⟨busyName, false, true⟩, ⟨⟨"lib.core", "state"⟩, false, false⟩,
    ⟨⟨"lib.core", "state"⟩, false, false⟩]

/-- A function that refers to the same names more than once, to constants and to itself. -/
theorem metrics_emitFunction_busy : HasRoom busyName 1 busyReferences (some 3) ∧
    ∃ metrics : Metrics,
      Metrics.ofBytes (emitFunction busyName 1 busyReferences (some 3)).2 = (metrics, none) ∧
      metrics.fieldCount = 3 ∧ metrics.instructionCount = 35 ∧
      metrics.references.has "lib.core$helper" ∧ ¬ metrics.references.has "app.core$b" ∧
      ClassFile.ownName (emitFunction busyName 1 busyReferences (some 3)).2 = .ok "app.core$b" := by
  have hroom : HasRoom busyName 1 busyReferences (some 3) :=
    hasRoom_of_fits (by decide) (by decide) ⟨by decide +kernel, by decide +kernel⟩
  have hself : dottedName busyName.unitName = "app.core$b" := by decide +kernel
  obtain ⟨metrics, hread, hfields, hinstructions, hreferences, hname⟩ :=
    metrics_emitFunction hroom (by decide) (by decide) (by decide)
  rw [hself] at hname
  refine ⟨hroom, metrics, hread, hfields, hinstructions, ?_, ?_, hname⟩
  · rw [hreferences, hself]
    exact ⟨by decide, .inr (.inr ⟨_, List.mem_cons_self, rfl, rfl, by decide +kernel⟩)⟩
  · rw [hreferences, hself]
    exact fun h => h.1 rfl

end Emit

end CompileWatch
