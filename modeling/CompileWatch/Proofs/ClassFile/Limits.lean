import CompileWatch.Proofs.ClassFile.Room
import CompileWatch.Proofs.Text.Size

/-!
# Limits of units

How many constants the unit of a function needs depends on the number of its variables, and how
long their texts are on the names in it and on the number of its parameters.

- `Emit.unitConstants`: every constant that a unit can need, each listed once.
- `Emit.mem_unitConstants`: that it needs no others.
- `Emit.Moderate`: a function whose names and variables are within the limits.
- `Emit.Moderate.hasRoom`: its unit fits the format, unless it has too many parameters.
-/

namespace CompileWatch

namespace PoolBuilder

variable {es l : List PoolEntry}

/-- Constants of one slot each take as many slots as there are. -/
theorem slotsOf_eq_length (h : ∀ e ∈ es, e.slots = 1) : slotsOf es = es.length := by
  induction es with
  | nil => rfl
  | cons e rest ih =>
    obtain ⟨he, hrest⟩ := List.forall_mem_cons.mp h
    rw [slotsOf, he, ih hrest, List.length_cons, Nat.add_comm]

/-- Constants that are all among others, and of which each takes one number. -/
theorem slotsOf_after_le {requests : List PoolEntry} (h : ∀ e ∈ after [] requests, e ∈ l)
    (hl : ∀ e ∈ l, e.slots = 1) : slotsOf (after [] requests) ≤ l.length := by
  rw [slotsOf_eq_length fun e he => hl e (h e he)]
  exact ((nodup_adding List.nodup_nil _).subperm h).length_le

end PoolBuilder

namespace Emit

open PoolBuilder

variable (name : QualifiedName) (arity : Nat) (refs : List Reference) (line : Option Nat)

/-! ### Constants -/

/-- The constants of a unit in which its variables have no part. -/
def ownConstants : List PoolEntry :=
  let this := name.unitName
  let descriptor := invokeDescriptor arity
  let lookup := "(Ljava/lang/String;Ljava/lang/String;)Lclojure/lang/Var;"
  [.utf8 this, .classEntry this, .utf8 functionClass, .classEntry functionClass,
    .utf8 runtimeClass, .classEntry runtimeClass, .utf8 varClass, .classEntry varClass,
    .utf8 "Code", .utf8 "LineNumberTable", .utf8 "SourceFile", .utf8 name.sourceFile,
    .utf8 "<clinit>", .utf8 "()V", .utf8 varDescriptor,
    .utf8 "var", .utf8 lookup, .nameAndType "var" lookup, .member .method runtimeClass "var" lookup,
    .utf8 "getRawRoot", .utf8 (invokeDescriptor 0), .nameAndType "getRawRoot" (invokeDescriptor 0),
    .member .method varClass "getRawRoot" (invokeDescriptor 0),
    .utf8 "invokeStatic", .nameAndType "invokeStatic" (invokeDescriptor 0),
    .utf8 "invoke", .utf8 descriptor, .nameAndType "invokeStatic" descriptor,
    .member .method this "invokeStatic" descriptor,
    .utf8 "getRequiredArity", .utf8 "()I", .integer (min arity maxInt32 : Nat)]

/-- The constants of a unit for one of its variables: those that look it up, and those that call
it. -/
def varConstants (this : String) (index : Nat) (var : QualifiedName) : List PoolEntry :=
  [.utf8 (fieldName index), .utf8 var.ns, .string var.ns, .utf8 var.name, .string var.name,
    .nameAndType (fieldName index) varDescriptor,
    .member .field this (fieldName index) varDescriptor,
    .utf8 var.unitName, .classEntry var.unitName,
    .member .method var.unitName "invokeStatic" (invokeDescriptor 0)]

/-- Every constant that the unit of a function can need. -/
def unitConstants : List PoolEntry :=
  ownConstants name arity ++
    (heldVars refs).zipIdx.flatMap fun (var, index) => varConstants name.unitName index var

/-- A function needs 32 constants and ten for each definition that it refers to. -/
theorem length_unitConstants :
    (unitConstants name arity refs).length = 32 + 10 * (heldVars refs).length := by
  have hvars (l : List (QualifiedName × Nat)) :
      (l.flatMap fun (var, index) => varConstants name.unitName index var).length =
        10 * l.length := by
    induction l with
    | nil => rfl
    | cons x rest ih =>
      rw [List.flatMap_cons, List.length_append, ih, List.length_cons]
      show 10 + _ = _
      omega
  rw [unitConstants, List.length_append, hvars, List.length_zipIdx]
  rfl

/-- Each constant of the unit's own takes one slot. -/
theorem slots_own : ∀ e ∈ ownConstants name arity, e.slots = 1 := by
  simp only [ownConstants, List.forall_mem_cons, PoolEntry.slots]
  simp

theorem slots_var (this : String) (index : Nat) (var : QualifiedName) :
    ∀ e ∈ varConstants this index var, e.slots = 1 := by
  simp only [varConstants, List.forall_mem_cons, PoolEntry.slots]
  simp

/-- A constant of a unit with everything that belongs to it. -/
def Needs (e : PoolEntry) : Prop := ∀ x ∈ e.parts, x ∈ unitConstants name arity refs

variable {name arity refs}

/-- A unit's own constants are among all its constants. -/
theorem mem_own {e : PoolEntry} (h : e ∈ ownConstants name arity) :
    e ∈ unitConstants name arity refs := List.mem_append_left _ h

theorem mem_var {index : Nat} {var : QualifiedName} (h : (var, index) ∈ (heldVars refs).zipIdx)
    {e : PoolEntry} (he : e ∈ varConstants name.unitName index var) :
    e ∈ unitConstants name arity refs :=
  List.mem_append_right _ (List.mem_flatMap.mpr ⟨(var, index), h, he⟩)

/-- A unit needs each constant of its own. -/
theorem needs_own : ∀ e ∈ ownConstants name arity, Needs name arity refs e := by
  have hall : ∀ e ∈ ownConstants name arity, ∀ x ∈ e.parts, x ∈ ownConstants name arity := by
    simp only [ownConstants, PoolEntry.parts, PoolEntry.before, PoolEntry.refs, List.forall_mem_cons,
      List.cons_append, List.nil_append]
    simp
  exact fun e he x hx => mem_own (hall e he x hx)

/-- A unit needs the constants of the definitions that it refers to. -/
theorem needs_var {index : Nat} {var : QualifiedName} (h : (var, index) ∈ (heldVars refs).zipIdx) :
    ∀ e ∈ varConstants name.unitName index var, Needs name arity refs e := by
  have hall : ∀ e ∈ varConstants name.unitName index var, ∀ x ∈ e.parts,
      x ∈ ownConstants name arity ∨ x ∈ varConstants name.unitName index var := by
    simp only [varConstants, PoolEntry.parts, PoolEntry.before, PoolEntry.refs,
      List.forall_mem_cons, List.cons_append, List.nil_append]
    simp [ownConstants]
  intro e he x hx
  rcases hall e he x hx with h' | h'
  · exact mem_own h'
  · exact mem_var h h'

/-- Where a variable that is held has its field. -/
theorem mem_zipIdx_of_reference {r : Reference} (hr : r ∈ refs) (hconstant : r.constant = false) :
    (r.name, ((heldVars refs).findIdx? (· == r.name)).getD 0) ∈ (heldVars refs).zipIdx := by
  have hmem : r.name ∈ heldVars refs := (mem_heldVars r.name).mpr ⟨r, hr, hconstant, rfl⟩
  have hfound : ((heldVars refs).findIdx? (· == r.name)).isSome := by
    rw [List.findIdx?_isSome, List.any_eq_true]
    exact ⟨r.name, hmem, beq_self_eq_true _⟩
  obtain ⟨i, hi⟩ := Option.isSome_iff_exists.mp hfound
  obtain ⟨hlt, hname, -⟩ := List.findIdx?_eq_some_iff_getElem.mp hi
  rw [hi, Option.getD_some, List.mk_mem_zipIdx_iff_getElem?, List.getElem?_eq_getElem hlt,
    beq_iff_eq.mp hname]

variable {line}

/-- What looking up a variable asks for. -/
theorem needs_initSteps {index : Nat} {var : QualifiedName}
    (h : (var, index) ∈ (heldVars refs).zipIdx) {s : CodeStep}
    (hs : s ∈ initSteps name.unitName index var) :
    ∀ e ∈ s.requests, Needs name arity refs e := by
  simp only [initSteps, List.mem_cons, List.not_mem_nil, or_false] at hs
  rcases hs with rfl | rfl | rfl | rfl | rfl
  all_goals
    simp only [CodeStep.requests, List.forall_mem_singleton]
  · exact needs_var h _ (by simp [varConstants])
  · exact needs_var h _ (by simp [varConstants])
  · exact needs_own _ (by simp [ownConstants])
  · exact needs_own _ (by simp [ownConstants])
  · exact needs_var h _ (by simp [varConstants])

/-- What a reference asks for. -/
theorem needs_referenceSteps {r : Reference} (hr : r ∈ refs) {s : CodeStep}
    (hs : s ∈ referenceSteps name.unitName (heldVars refs) r) :
    ∀ e ∈ s.requests, Needs name arity refs e := by
  have hpop : ∀ e ∈ (CodeStep.op Opcode.pop []).requests, Needs name arity refs e := by
    simp [CodeStep.requests]
  unfold referenceSteps at hs
  split at hs
  · simp only [List.mem_cons, List.not_mem_nil, or_false] at hs
    rcases hs with rfl | rfl
    · simp [CodeStep.requests]
    · exact hpop
  next hconstant =>
    have hvar := mem_zipIdx_of_reference hr (Bool.not_eq_true _ ▸ hconstant)
    split at hs <;> simp only [List.mem_cons, List.not_mem_nil, or_false] at hs
    · rcases hs with rfl | rfl
      · simp only [CodeStep.requests, List.forall_mem_singleton]
        exact needs_var hvar _ (by simp [varConstants])
      · exact hpop
    · rcases hs with rfl | rfl | rfl
      · simp only [CodeStep.requests, List.forall_mem_singleton]
        exact needs_var hvar _ (by simp [varConstants])
      · simp only [CodeStep.requests, List.forall_mem_singleton]
        exact needs_own _ (by simp [ownConstants, invokeDescriptor, objectDescriptor])
      · exact hpop

/-- What the bodies of a unit ask for. -/
theorem needs_body {access : Nat} {method descriptor : String} {body : List CodeStep}
    (h : .method access method descriptor body ∈ classSteps name arity refs line) :
    ∀ s ∈ body, ∀ e ∈ s.requests, Needs name arity refs e := by
  simp only [classSteps, List.mem_append, List.mem_map, reduceCtorEq, and_false, exists_false,
    false_or, List.mem_cons, List.not_mem_nil, or_false, ClassStep.method.injEq] at h
  rcases h with ⟨-, -, -, rfl⟩ | ⟨-, -, -, rfl⟩ | ⟨-, -, -, rfl⟩ | ⟨-, -, -, rfl⟩
  · intro s hs
    rcases List.mem_append.mp hs with hs | hs
    · obtain ⟨⟨var, index⟩, hvar, hs⟩ := List.mem_flatMap.mp hs
      exact needs_initSteps hvar hs
    · simp [List.mem_singleton.mp hs, CodeStep.requests]
  · intro s hs
    rcases List.mem_append.mp hs with hs | hs
    · rcases List.mem_append.mp hs with hs | hs
      · obtain ⟨n, -, rfl⟩ := List.mem_map.mp hs
        simp [CodeStep.requests]
      · obtain ⟨r, hr, hs⟩ := List.mem_flatMap.mp hs
        exact needs_referenceSteps hr hs
    · simp only [List.mem_cons, List.not_mem_nil, or_false] at hs
      rcases hs with rfl | rfl <;> simp [CodeStep.requests]
  · intro s hs
    rcases List.mem_append.mp hs with hs | hs
    · obtain ⟨i, -, rfl⟩ := List.mem_map.mp hs
      simp [CodeStep.requests]
    · simp only [List.mem_cons, List.not_mem_nil, or_false] at hs
      rcases hs with rfl | rfl
      · simp only [CodeStep.requests, List.forall_mem_singleton]
        exact needs_own _ (by simp [ownConstants])
      · simp [CodeStep.requests]
  · intro s hs
    simp only [List.mem_cons, List.not_mem_nil, or_false] at hs
    rcases hs with rfl | rfl
    · simp only [CodeStep.requests, List.forall_mem_singleton]
      exact needs_own _ (by simp [ownConstants])
    · simp [CodeStep.requests]

/-- What the steps of a unit ask for. -/
theorem needs_classSteps {s : ClassStep} (hs : s ∈ classSteps name arity refs line) :
    ∀ e ∈ s.requests, Needs name arity refs e := by
  cases s with
  | method access method descriptor body =>
    have hbody := needs_body hs
    have hnames : ∀ text ∈ [method, descriptor, "Code"], .utf8 text ∈ ownConstants name arity := by
      simp only [classSteps, List.mem_append, List.mem_map, reduceCtorEq, and_false, exists_false,
        false_or, List.mem_cons, List.not_mem_nil, or_false, ClassStep.method.injEq] at hs
      rcases hs with ⟨-, rfl, rfl, -⟩ | ⟨-, rfl, rfl, -⟩ | ⟨-, rfl, rfl, -⟩ | ⟨-, rfl, rfl, -⟩ <;>
        simp [ownConstants]
    intro e he
    rcases List.mem_append.mp he with he | he
    · obtain ⟨text, htext, rfl⟩ := List.mem_map.mp
        (show e ∈ [method, descriptor, "Code"].map PoolEntry.utf8 from he)
      exact needs_own _ (hnames text htext)
    · rcases List.mem_append.mp he with he | he
      · obtain ⟨s, hs, he⟩ := List.mem_flatMap.mp he
        exact hbody s hs e he
      · unfold ClassStep.lineRequests at he
        split at he
        · rw [List.mem_singleton.mp he]
          exact needs_own _ (by simp [ownConstants])
        · cases he
  | field access field descriptor =>
    simp only [classSteps, List.mem_append, List.mem_map, ClassStep.field.injEq, List.mem_cons,
      reduceCtorEq, List.not_mem_nil, or_false] at hs
    obtain ⟨i, hi, -, rfl, rfl⟩ := hs
    have hlt := List.mem_range.mp hi
    have hvar : ((heldVars refs)[i], i) ∈ (heldVars refs).zipIdx := by
      rw [List.mk_mem_zipIdx_iff_getElem?, List.getElem?_eq_getElem hlt]
    simp only [ClassStep.requests, List.forall_mem_cons]
    exact ⟨needs_var hvar _ (by simp [varConstants]), needs_own _ (by simp [ownConstants]), by simp⟩
  | source file =>
    simp only [classSteps, List.mem_append, List.mem_map, reduceCtorEq, and_false, exists_false,
      false_or, List.mem_cons, List.not_mem_nil, or_false, ClassStep.source.injEq] at hs
    obtain rfl := hs
    simp only [ClassStep.requests, List.forall_mem_singleton]
    exact needs_own _ (by simp [ownConstants])
  | interface name =>
    simp [classSteps] at hs

/-- A unit needs no other constants. -/
theorem mem_unitConstants {e : PoolEntry} (he : e ∈ after []
    (ClassBuilder.constants name.unitName functionClass (classSteps name arity refs line))) :
    e ∈ unitConstants name arity refs := by
  obtain ⟨request, hrequest, he⟩ := List.mem_flatMap.mp
    ((mem_adding.mp he).resolve_left List.not_mem_nil)
  have hneeds : Needs name arity refs request := by
    rcases List.mem_append.mp hrequest with hrequest | hrequest
    · simp only [List.mem_cons, List.not_mem_nil, or_false] at hrequest
      rcases hrequest with rfl | rfl <;> exact needs_own _ (by simp [ownConstants])
    · rcases List.mem_append.mp hrequest with hrequest | hrequest
      · obtain ⟨s, hs, hrequest⟩ := List.mem_flatMap.mp hrequest
        exact needs_classSteps hs request hrequest
      · unfold ClassBuilder.sourceRequests at hrequest
        split at hrequest
        · rw [List.mem_singleton.mp hrequest]
          exact needs_own _ (by simp [ownConstants])
        · cases hrequest
  exact hneeds e he

/-! ### Limits -/

/-- How many bytes a name may take, so that there is room for the dollar sign of its unit and for
the ending of its source file. -/
def nameLimit : Nat := 65531

/-- How many variables a unit has room for: each takes ten numbers, and the unit itself 32. -/
def variableLimit : Nat := 6550

/-- How many parameters the descriptor of a function has room for: each takes 18 bytes, and the
rest of it 20. -/
def parameterLimit : Nat := 3639

/-- The names and the variables of a function are within the limits, if not its parameters. -/
structure Moderate (name : QualifiedName) (refs : List Reference) : Prop where
  name : name.unitSize ≤ nameLimit
  few : (heldVars refs).length ≤ variableLimit
  names : ∀ var ∈ heldVars refs, var.unitSize ≤ nameLimit

/-- The descriptor has 18 characters for each parameter. -/
theorem utf8ByteSize_invokeDescriptor (arity : Nat) :
    (invokeDescriptor arity).utf8ByteSize = 20 + 18 * arity := by
  have hjoin : (String.join (List.replicate arity objectDescriptor)).utf8ByteSize = 18 * arity := by
    rw [utf8ByteSize_eq, String.toList_join]
    induction arity with
    | zero => rfl
    | succ n ih =>
      rw [List.replicate_succ, List.flatMap_cons, sizeOfChars_append, ih]
      show 18 + _ = _
      omega
  rw [invokeDescriptor, String.utf8ByteSize_append, String.utf8ByteSize_append,
    String.utf8ByteSize_append, hjoin]
  show 1 + 18 * arity + 1 + 18 = _
  omega

/-- The name of a field is short. -/
theorem utf8ByteSize_fieldName_le {index : Nat} (h : index < variableLimit) :
    (fieldName index).utf8ByteSize ≤ 11 := by
  have hindex : (toString index).utf8ByteSize ≤ 4 :=
    utf8ByteSize_toString_le (by decide) (Nat.lt_trans h (by decide))
  rw [fieldName, String.utf8ByteSize_append]
  show 7 + _ ≤ _
  omega

namespace Moderate

variable (h : Moderate name refs)

include h

/-- The numbers of the constants fit. -/
theorem slots_le : slotsOf (after []
    (ClassBuilder.constants name.unitName functionClass (classSteps name arity refs line))) ≤
      65534 := by
  have hslots : ∀ e ∈ unitConstants name arity refs, e.slots = 1 := by
    intro e he
    rcases List.mem_append.mp he with he | he
    · exact slots_own _ _ e he
    · obtain ⟨⟨var, index⟩, -, he⟩ := List.mem_flatMap.mp he
      exact slots_var _ _ _ e he
  have hfew : (heldVars refs).length ≤ 6550 := h.few
  refine Nat.le_trans (slotsOf_after_le (fun e he => mem_unitConstants he) hslots) ?_
  rw [length_unitConstants]
  omega

/-- But for the descriptor, the texts of the unit's own constants fit. -/
theorem textSize_own : ∀ e ∈ ownConstants name arity,
    e ≠ .utf8 (invokeDescriptor arity) → e.textSize ≤ 65535 := by
  have hname : name.unitSize ≤ 65531 := h.name
  have hunit : name.unitName.utf8ByteSize ≤ 65535 := by
    rw [name.utf8ByteSize_unitName]
    omega
  have hsource : name.sourceFile.utf8ByteSize ≤ 65535 :=
    Nat.le_trans name.utf8ByteSize_sourceFile_le (by omega)
  have hfixed : ∀ text ∈ [functionClass, runtimeClass, varClass, "Code", "LineNumberTable",
      "SourceFile", "<clinit>", "()V", varDescriptor, "var",
      "(Ljava/lang/String;Ljava/lang/String;)Lclojure/lang/Var;", "getRawRoot", invokeDescriptor 0,
      "invokeStatic", "invoke", "getRequiredArity", "()I"], text.utf8ByteSize ≤ 65535 := by decide
  simp only [List.forall_mem_cons] at hfixed
  simp only [ownConstants, List.forall_mem_cons, PoolEntry.textSize]
  simp [hunit, hsource, hfixed]

theorem textSize_var {index : Nat} {var : QualifiedName}
    (hvar : (var, index) ∈ (heldVars refs).zipIdx) :
    ∀ e ∈ varConstants name.unitName index var, e.textSize ≤ 65535 := by
  have hindex : index < variableLimit := by
    obtain ⟨hlt, -⟩ := List.getElem?_eq_some_iff.mp (List.mk_mem_zipIdx_iff_getElem?.mp hvar)
    exact Nat.lt_of_lt_of_le hlt h.few
  have hfield := utf8ByteSize_fieldName_le hindex
  have hname : var.unitSize ≤ 65531 := h.names var (List.fst_mem_of_mem_zipIdx hvar)
  obtain ⟨hns, hvarName⟩ := var.utf8ByteSize_parts_le
  simp only [varConstants, List.forall_mem_cons, PoolEntry.textSize, var.utf8ByteSize_unitName]
  simp only [List.not_mem_nil, false_implies, implies_true, and_true]
  omega

/-- All texts fit, except for the descriptor. -/
theorem textSize_le {e : PoolEntry} (he : e ∈ unitConstants name arity refs)
    (hdescriptor : e ≠ .utf8 (invokeDescriptor arity)) : e.textSize ≤ 65535 := by
  rcases List.mem_append.mp he with he | he
  · exact h.textSize_own e he hdescriptor
  · obtain ⟨⟨var, index⟩, hvar, he⟩ := List.mem_flatMap.mp he
    exact h.textSize_var hvar e he

/-- The constants of a unit fit, unless its function has too many parameters. -/
theorem fits (harity : arity ≤ parameterLimit) : Fits (after []
    (ClassBuilder.constants name.unitName functionClass (classSteps name arity refs line))) := by
  refine ⟨h.slots_le, fun e he => ?_⟩
  by_cases hdescriptor : e = .utf8 (invokeDescriptor arity)
  · have hparameters : arity ≤ 3639 := harity
    rw [hdescriptor, PoolEntry.textSize, utf8ByteSize_invokeDescriptor]
    omega
  · exact h.textSize_le (mem_unitConstants he) hdescriptor

/-- The unit of a function with few parameters fits the format. -/
theorem hasRoom (hrefs : refs.length ≤ 0xFFFF) (harity : arity ≤ parameterLimit) :
    HasRoom name arity refs line :=
  hasRoom_of_fits hrefs (Nat.le_trans harity (by decide)) (h.fits harity)

end Moderate

end Emit

end CompileWatch
