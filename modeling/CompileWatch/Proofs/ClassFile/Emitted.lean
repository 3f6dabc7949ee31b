import CompileWatch.ClassFile.Emit
import CompileWatch.Proofs.ClassFile.Counted
import Mathlib.Algebra.Order.BigOperators.Group.List
import Mathlib.Algebra.Order.Group.Nat
import Mathlib.Data.List.Perm.Subperm

/-!
# What the unit of a function shows

The unit of a function is put together in steps. Read back, it has a field for each variable
that its body refers to, and it names the units of the functions among them, beside itself
and the classes of the runtime.

- `Emit.classSteps`: the steps of a unit.
- `Emit.HasRoom`: everything in it fits the format.
- `Emit.mem_heldVars`: the variables that a unit holds.
- `Emit.Plain`, `Emit.method_spec`: what its bodies are made of.
- `Emit.has_references`, `Emit.fieldCount`: what the metrics of a unit show.
-/

namespace CompileWatch

namespace Emit

variable (name : QualifiedName) (arity : Nat) (refs : List Reference) (line : Option Nat)

/-- The steps in which the unit of a function is put together. -/
def classSteps : List ClassStep :=
  let this := name.unitName
  let vars := heldVars refs
  let descriptor := invokeDescriptor arity
  (List.range vars.length).map (fun i =>
      .field (accessBits [.isPublic, .isStatic, .isFinal]) (fieldName i) varDescriptor) ++
    [.method (accessBits [.isStatic]) "<clinit>" "()V"
        ((vars.zipIdx.flatMap fun (var, i) => initSteps this i var) ++
          [.op Opcode.voidReturn []]),
      .method (accessBits [.isPublic, .isStatic]) "invokeStatic" descriptor
        (line.toList.map .line ++ refs.flatMap (referenceSteps this vars) ++
          [.op Opcode.aconstNull [], .op Opcode.areturn []]),
      .method (accessBits [.isPublic]) "invoke" descriptor
        (parameterSteps arity ++
          [.invoke Opcode.invokeStatic this "invokeStatic" descriptor, .op Opcode.areturn []]),
      .method (accessBits [.isPublic]) "getRequiredArity" "()I"
        [.load (.integer (min arity maxInt32)), .op Opcode.ireturn []],
      .source name.sourceFile]

theorem emitFunction_eq :
    emitFunction name arity refs line =
      (name.unitName, ((ClassBuilder.start name.unitName functionClass).steps
        (classSteps name arity refs line)).build.1) := by
  simp only [emitFunction, classSteps, ClassBuilder.steps, List.foldl_append, List.foldl_map,
    List.foldl_cons, List.foldl_nil, ClassBuilder.step]

/-- The unit of a function fits the format. -/
def HasRoom : Prop :=
  ClassBuilder.HasRoom name.unitName functionClass (classSteps name arity refs line)

/-! ### Variables -/

/-- One reference more, among the variables that are held. -/
def holdVar (vars : List QualifiedName) (r : Reference) : List QualifiedName :=
  if r.constant || vars.contains r.name then vars else vars ++ [r.name]

variable {refs}

theorem mem_foldl_holdVar (vars : List QualifiedName) (q : QualifiedName) :
    q ∈ refs.foldl holdVar vars ↔ q ∈ vars ∨ ∃ r ∈ refs, r.constant = false ∧ r.name = q := by
  induction refs generalizing vars with
  | nil => simp
  | cons r rest ih =>
    have hfirst : q ∈ holdVar vars r ↔ q ∈ vars ∨ r.constant = false ∧ r.name = q := by
      unfold holdVar
      by_cases hc : r.constant
      · simp [hc]
      · by_cases hr : r.name ∈ vars
        · have hmem : r.name = q → q ∈ vars := fun h => h ▸ hr
          simpa [hc, hr] using hmem
        · simp [hc, hr, eq_comm]
    rw [List.foldl_cons, ih, hfirst, or_assoc, List.exists_mem_cons_iff]

theorem nodup_foldl_holdVar {vars : List QualifiedName} (h : vars.Nodup) :
    (refs.foldl holdVar vars).Nodup := by
  induction refs generalizing vars with
  | nil => exact h
  | cons r rest ih =>
    refine ih ?_
    unfold holdVar
    split
    · exact h
    next hr =>
      have hnew : r.name ∉ vars := fun hmem => hr (by simp [hmem])
      exact List.nodup_append.mpr ⟨h, by simp, by
        rintro q hq q' hq' rfl
        rw [List.mem_singleton.mp hq'] at hq
        exact hnew hq⟩

/-- The variables that are held are those that are referred to and are no constants. -/
theorem mem_heldVars (q : QualifiedName) :
    q ∈ heldVars refs ↔ ∃ r ∈ refs, r.constant = false ∧ r.name = q :=
  (mem_foldl_holdVar [] q).trans (or_iff_right List.not_mem_nil)

/-- Each of them is held once. -/
theorem nodup_heldVars : (heldVars refs).Nodup := nodup_foldl_holdVar List.nodup_nil

/-! ### Steps -/

/-- The steps that the bodies of a unit are made of. -/
def Plain : CodeStep → Prop
  | .op opcode operands => operands = [] ∧ opcode ∈ [Opcode.aconstNull, Opcode.pop,
      Opcode.ireturn, Opcode.areturn, Opcode.voidReturn]
  | .field opcode _ _ _ => opcode = Opcode.getStatic ∨ opcode = Opcode.putStatic
  | .invoke opcode _ _ _ => opcode = Opcode.invokeVirtual ∨ opcode = Opcode.invokeStatic
  | .type opcode _ => opcode = Opcode.checkCast
  | .aload _ | .load _ | .line _ => True
  | _ => False

theorem Plain.admissible {s : CodeStep} (h : Plain s) : s.Admissible := by
  cases s with
  | op opcode operands =>
    obtain ⟨rfl, h⟩ := h
    have hall : ∀ opcode ∈ [Opcode.aconstNull, Opcode.pop, Opcode.ireturn, Opcode.areturn,
        Opcode.voidReturn], (CodeStep.op opcode []).Admissible := by decide
    exact hall opcode h
  | field opcode _ _ _ => rcases h with rfl | rfl <;> exact ⟨by decide, by decide⟩
  | invoke opcode _ _ _ => rcases h with rfl | rfl <;> exact ⟨by decide, by decide⟩
  | type opcode _ => exact .inr (.inr (.inl h))
  | aload | load | line => trivial
  | _ => exact h.elim

theorem plain_initSteps {this : String} {i : Nat} {var : QualifiedName} {s : CodeStep}
    (h : s ∈ initSteps this i var) : Plain s := by
  simp only [initSteps, List.mem_cons, List.not_mem_nil, or_false] at h
  rcases h with rfl | rfl | rfl | rfl | rfl
  · trivial
  · trivial
  · exact .inr rfl
  · rfl
  · exact .inr rfl

theorem plain_referenceSteps {this : String} {vars : List QualifiedName} {r : Reference}
    {s : CodeStep} (h : s ∈ referenceSteps this vars r) : Plain s := by
  have hpop : Plain (.op Opcode.pop []) := ⟨rfl, by decide⟩
  unfold referenceSteps at h
  split at h
  · simp only [List.mem_cons, List.not_mem_nil, or_false] at h
    rcases h with rfl | rfl
    · exact ⟨rfl, by decide⟩
    · exact hpop
  · split at h <;> simp only [List.mem_cons, List.not_mem_nil, or_false] at h
    · rcases h with rfl | rfl
      · exact .inr rfl
      · exact hpop
    · rcases h with rfl | rfl | rfl
      · exact .inl rfl
      · exact .inl rfl
      · exact hpop

/-- Where each thing stands for so many steps, several of them stand for no more than that. -/
theorem length_flatMap_le {α : Type} {f : α → List CodeStep} {n : Nat} (l : List α)
    (h : ∀ a, (f a).length ≤ n) : (l.flatMap f).length ≤ l.length * n := by
  have hsum := List.sum_le_card_nsmul (l.map fun a => (f a).length) n fun k hk => by
    obtain ⟨a, -, rfl⟩ := List.mem_map.mp hk
    exact h a
  rwa [List.length_map, ← List.length_flatMap] at hsum

theorem length_referenceSteps_le (this : String) (vars : List QualifiedName) (r : Reference) :
    (referenceSteps this vars r).length ≤ 3 := by
  unfold referenceSteps
  split
  · exact Nat.le_succ 2
  · split
    · exact Nat.le_succ 2
    · exact Nat.le_refl 3

/-- There are no more variables than references. -/
theorem length_heldVars_le : (heldVars refs).length ≤ refs.length := by
  have hsubset : heldVars refs ⊆ refs.map Reference.name := by
    intro q hq
    obtain ⟨r, hr, -, rfl⟩ := (mem_heldVars q).mp hq
    exact List.mem_map_of_mem hr
  have hle := (nodup_heldVars.subperm hsubset).length_le
  rwa [List.length_map] at hle

/-- The bodies of a unit are made of plain steps, a few for each reference and each parameter. -/
theorem method_spec {access : Nat} {method descriptor : String} {body : List CodeStep}
    (h : .method access method descriptor body ∈ classSteps name arity refs line) :
    access < 0x10000 ∧ (∀ s ∈ body, Plain s) ∧ body.length ≤ 5 * refs.length + arity + 3 := by
  simp only [classSteps, List.mem_append, List.mem_map, reduceCtorEq, and_false, exists_false,
    false_or, List.mem_cons, List.not_mem_nil, or_false, ClassStep.method.injEq] at h
  rcases h with ⟨rfl, -, -, rfl⟩ | ⟨rfl, -, -, rfl⟩ | ⟨rfl, -, -, rfl⟩ | ⟨rfl, -, -, rfl⟩
  · refine ⟨by decide, fun s hs => ?_, ?_⟩
    · rcases List.mem_append.mp hs with hs | hs
      · obtain ⟨⟨var, i⟩, -, hs⟩ := List.mem_flatMap.mp hs
        exact plain_initSteps hs
      · rw [List.mem_singleton.mp hs]
        exact ⟨rfl, by decide⟩
    · have hvars : (heldVars refs).length ≤ refs.length := length_heldVars_le
      have hinit := length_flatMap_le (heldVars refs).zipIdx
        (f := fun x => initSteps name.unitName x.2 x.1) fun _ => Nat.le_refl 5
      rw [List.length_zipIdx] at hinit
      rw [List.length_append, List.length_singleton]
      omega
  · refine ⟨by decide, fun s hs => ?_, ?_⟩
    · rcases List.mem_append.mp hs with hs | hs
      · rcases List.mem_append.mp hs with hs | hs
        · obtain ⟨n, -, rfl⟩ := List.mem_map.mp hs
          trivial
        · obtain ⟨r, -, hs⟩ := List.mem_flatMap.mp hs
          exact plain_referenceSteps hs
      · simp only [List.mem_cons, List.not_mem_nil, or_false] at hs
        rcases hs with rfl | rfl <;> exact ⟨rfl, by decide⟩
    · have hrefs := length_flatMap_le refs
        (length_referenceSteps_le name.unitName (heldVars refs))
      have hlines : line.toList.length ≤ 1 := Option.length_toList_le
      simp only [List.length_append, List.length_map, List.length_cons, List.length_nil]
      omega
  · refine ⟨by decide, fun s hs => ?_, ?_⟩
    · rcases List.mem_append.mp hs with hs | hs
      · obtain ⟨i, -, rfl⟩ := List.mem_map.mp hs
        trivial
      · simp only [List.mem_cons, List.not_mem_nil, or_false] at hs
        rcases hs with rfl | rfl
        · exact .inr rfl
        · exact ⟨rfl, by decide⟩
    · simp only [parameterSteps, List.length_append, List.length_map, List.length_range,
        List.length_cons, List.length_nil]
      omega
  · refine ⟨by decide, fun s hs => ?_, ?_⟩
    · simp only [List.mem_cons, List.not_mem_nil, or_false] at hs
      rcases hs with rfl | rfl
      · trivial
      · exact ⟨rfl, by decide⟩
    · simp only [List.length_cons, List.length_nil]
      omega

/-- Every step of a unit says what it writes. -/
theorem admissible_classSteps {s : ClassStep} (h : s ∈ classSteps name arity refs line) :
    s.Admissible := by
  cases s with
  | method access method descriptor body =>
    obtain ⟨haccess, hbody, -⟩ := method_spec name arity line h
    exact ⟨haccess, fun s hs => (hbody s hs).admissible⟩
  | field access field descriptor =>
    simp only [classSteps, List.mem_append, List.mem_map, ClassStep.field.injEq, List.mem_cons,
      reduceCtorEq, List.not_mem_nil, or_false] at h
    obtain ⟨i, -, rfl, -⟩ := h
    show accessBits _ < 0x10000
    decide
  | _ => trivial

/-- Looking up variables names the runtime and the unit itself. -/
theorem mem_names_initSteps (this c : String) (vars : List (QualifiedName × Nat)) :
    c ∈ (vars.flatMap fun (var, i) => initSteps this i var).filterMap CodeStep.name? ↔
      vars ≠ [] ∧ (c = runtimeClass ∨ c = varClass ∨ c = this) := by
  have hone (x : QualifiedName × Nat) : c ∈ (initSteps this x.2 x.1).filterMap CodeStep.name? ↔
      c = runtimeClass ∨ c = varClass ∨ c = this := by
    simp [initSteps, CodeStep.name?, eq_comm]
  rw [List.filterMap_flatMap, List.mem_flatMap]
  constructor
  · rintro ⟨x, hx, hc⟩
    exact ⟨List.ne_nil_of_mem hx, (hone x).mp hc⟩
  · rintro ⟨hvars, hc⟩
    obtain ⟨x, hx⟩ := List.exists_mem_of_ne_nil vars hvars
    exact ⟨x, hx, (hone x).mpr hc⟩

/-- A reference names the function that it is to, or the unit itself for a variable that is
none. A constant names nothing. -/
theorem mem_names_referenceSteps (this : String) (vars : List QualifiedName) (r : Reference)
    (c : String) :
    c ∈ (referenceSteps this vars r).filterMap CodeStep.name? ↔
      r.constant = false ∧
        if r.function then c = r.name.unitName else c = this ∨ c = varClass := by
  unfold referenceSteps
  cases r.constant <;> cases r.function <;> simp [CodeStep.name?]

/-- The classes that a unit names are those that setting its fields and its body name, and
itself. -/
theorem names_classSteps :
    (classSteps name arity refs line).flatMap ClassStep.names =
      ((heldVars refs).zipIdx.flatMap fun (var, i) =>
          initSteps name.unitName i var).filterMap CodeStep.name? ++
        (refs.flatMap (referenceSteps name.unitName (heldVars refs))).filterMap CodeStep.name? ++
          [name.unitName] := by
  have hfields : ((List.range (heldVars refs).length).map fun i =>
      ClassStep.field (accessBits [.isPublic, .isStatic, .isFinal]) (fieldName i)
        varDescriptor).flatMap ClassStep.names = [] := by simp [ClassStep.names]
  have hlines : (line.toList.map CodeStep.line).filterMap CodeStep.name? = [] := by
    cases line <;> rfl
  have hparameters : (parameterSteps arity).filterMap CodeStep.name? = [] := by
    simp [parameterSteps, CodeStep.name?]
  unfold classSteps
  simp only [List.flatMap_append, hfields, List.flatMap_cons, List.flatMap_nil, ClassStep.names,
    List.filterMap_append, hlines, hparameters, List.append_assoc, List.nil_append]
  rfl

theorem length_fields_classSteps :
    ((classSteps name arity refs line).filterMap ClassStep.field?).length =
      (heldVars refs).length := by
  have hfields (vars : List QualifiedName) : ((List.range vars.length).map fun i =>
      ClassStep.field (accessBits [.isPublic, .isStatic, .isFinal]) (fieldName i)
        varDescriptor).filterMap ClassStep.field? =
      (List.range vars.length).map fun i =>
        ⟨accessBits [.isPublic, .isStatic, .isFinal], fieldName i, varDescriptor⟩ :=
    List.filterMap_map.trans (congrFun List.filterMap_eq_map' _)
  unfold classSteps
  rw [List.filterMap_append, hfields, List.length_append, List.length_map, List.length_range]
  rfl

/-- The steps of a unit name the unit itself, the runtime if there is a variable to look up, and
the units of functions. -/
theorem mem_names_classSteps (c : String) :
    c ∈ (classSteps name arity refs line).flatMap ClassStep.names ↔
      c = name.unitName ∨ (heldVars refs ≠ [] ∧ (c = runtimeClass ∨ c = varClass)) ∨
        ∃ r ∈ refs, r.constant = false ∧ r.function ∧ c = r.name.unitName := by
  have hheld {r : Reference} (hr : r ∈ refs) (hconstant : r.constant = false) :
      heldVars refs ≠ [] := List.ne_nil_of_mem ((mem_heldVars r.name).mpr ⟨r, hr, hconstant, rfl⟩)
  have hvars : (heldVars refs).zipIdx ≠ [] ↔ heldVars refs ≠ [] :=
    not_congr List.zipIdx_eq_nil_iff
  rw [names_classSteps, List.mem_append, List.mem_append, mem_names_initSteps, hvars,
    List.mem_singleton, List.filterMap_flatMap, List.mem_flatMap]
  simp only [mem_names_referenceSteps]
  constructor
  · rintro ((⟨hne, rfl | rfl | rfl⟩ | ⟨r, hr, hconstant, hc⟩) | rfl)
    · exact .inr (.inl ⟨hne, .inl rfl⟩)
    · exact .inr (.inl ⟨hne, .inr rfl⟩)
    · exact .inl rfl
    · by_cases hfunction : r.function
      · rw [if_pos hfunction] at hc
        exact .inr (.inr ⟨r, hr, hconstant, hfunction, hc⟩)
      · rw [if_neg hfunction] at hc
        rcases hc with rfl | rfl
        · exact .inl rfl
        · exact .inr (.inl ⟨hheld hr hconstant, .inr rfl⟩)
    · exact .inl rfl
  · rintro (rfl | ⟨hne, hc⟩ | ⟨r, hr, hconstant, hfunction, rfl⟩)
    · exact .inr rfl
    · exact .inl (.inl ⟨hne, hc.imp_right .inl⟩)
    · exact .inl (.inr ⟨r, hr, hconstant, by rw [if_pos hfunction]⟩)

/-- The classes of the runtime that a unit names. -/
def runtimeUnits : List String := [functionClass, runtimeClass, varClass].map dottedName

variable {name arity line}

/-- What a unit refers to, except for itself: its super class, the runtime if it holds a variable,
and the units of the functions that its body refers to. -/
theorem has_references_iff (hroom : HasRoom name arity refs line)
    (hname : name.ns.toList.head? ≠ some '[') (hrefs : ∀ r ∈ refs, r.name.ns.toList.head? ≠ some '[')
    (u : String) :
    (Metrics.ofBytes (emitFunction name arity refs line).2).1.references.has u ↔
      u ≠ dottedName name.unitName ∧
        (u = dottedName functionClass ∨
          (heldVars refs ≠ [] ∧ (u = dottedName runtimeClass ∨ u = dottedName varClass)) ∨
          ∃ r ∈ refs, r.constant = false ∧ r.function ∧ dottedName r.name.unitName = u) := by
  rw [emitFunction_eq, ClassBuilder.has_references_build hroom fun s hs =>
    admissible_classSteps name arity line hs]
  simp only [mem_names_classSteps]
  have hruntime : ∀ c ∈ [functionClass, runtimeClass, varClass], ∀ u,
      NamesUnit c u ↔ u = dottedName c := by
    intro c hc u
    have hall : ∀ c ∈ [functionClass, runtimeClass, varClass], namedClass? c = some c := by decide
    rw [namesUnit_iff (hall c hc), eq_comm]
  refine and_congr_right fun hself => ⟨?_, ?_⟩
  · rintro ⟨c, rfl | rfl | ⟨hheld, rfl | rfl⟩ | ⟨r, hr, hconstant, hfunction, rfl⟩, hc⟩
    · exact .inl ((hruntime _ (by simp) u).mp hc)
    · exact absurd ((namesUnit_iff (QualifiedName.namedClass?_unitName hname)).mp hc).symm hself
    · exact .inr (.inl ⟨hheld, .inl ((hruntime _ (by simp) u).mp hc)⟩)
    · exact .inr (.inl ⟨hheld, .inr ((hruntime _ (by simp) u).mp hc)⟩)
    · have hnamed := QualifiedName.namedClass?_unitName (hrefs r hr)
      exact .inr (.inr ⟨r, hr, hconstant, hfunction, (namesUnit_iff hnamed).mp hc⟩)
  · rintro (hu | ⟨hheld, hu | hu⟩ | ⟨r, hr, hconstant, hfunction, hu⟩)
    · exact ⟨functionClass, .inl rfl, (hruntime _ (by simp) u).mpr hu⟩
    · exact ⟨runtimeClass, .inr (.inr (.inl ⟨hheld, .inl rfl⟩)), (hruntime _ (by simp) u).mpr hu⟩
    · exact ⟨varClass, .inr (.inr (.inl ⟨hheld, .inr rfl⟩)), (hruntime _ (by simp) u).mpr hu⟩
    · have hnamed := QualifiedName.namedClass?_unitName (hrefs r hr)
      exact ⟨r.name.unitName, .inr (.inr (.inr ⟨r, hr, hconstant, hfunction, rfl⟩)),
        (namesUnit_iff hnamed).mpr hu⟩

/-- What a unit refers to, beside the runtime and itself, are the units of the functions that
its body refers to. -/
theorem has_references (hroom : HasRoom name arity refs line) (hname : '[' ∉ name.ns.toList)
    (hrefs : ∀ r ∈ refs, '[' ∉ r.name.ns.toList) {u : String} (hu : u ∉ runtimeUnits) :
    (Metrics.ofBytes (emitFunction name arity refs line).2).1.references.has u ↔
      u ≠ dottedName name.unitName ∧
        ∃ r ∈ refs, r.constant = false ∧ r.function ∧ dottedName r.name.unitName = u := by
  have hhead {q : QualifiedName} (h : '[' ∉ q.ns.toList) : q.ns.toList.head? ≠ some '[' :=
    fun hq => h (List.mem_of_head? hq)
  simp only [runtimeUnits, List.map_cons, List.map_nil, List.mem_cons, List.not_mem_nil, or_false,
    not_or] at hu
  rw [has_references_iff hroom (hhead hname) fun r hr => hhead (hrefs r hr), or_iff_right hu.1,
    or_iff_right]
  rintro ⟨-, hruntime | hvar⟩
  · exact hu.2.1 hruntime
  · exact hu.2.2 hvar

/-- A unit has a field for each variable that it holds. -/
theorem fieldCount (hroom : HasRoom name arity refs line) :
    (Metrics.ofBytes (emitFunction name arity refs line).2).1.fieldCount =
      (heldVars refs).length := by
  rw [emitFunction_eq, ClassBuilder.fieldCount_build hroom fun s hs =>
    admissible_classSteps name arity line hs, length_fields_classSteps]

/-- A unit that fits the format says when it is read what its steps say. -/
theorem ofBytes_emitFunction (hroom : HasRoom name arity refs line) :
    (Metrics.ofBytes (emitFunction name arity refs line).2).1 = Metrics.ofEvents
      (ClassBuilder.declared name.unitName functionClass (classSteps name arity refs line)) := by
  rw [emitFunction_eq, ClassBuilder.ofBytes_build hroom fun s hs =>
    admissible_classSteps name arity line hs]

end Emit

end CompileWatch
