import CompileWatch.Capture.References
import CompileWatch.ClassFile.Name

/-!
# Who refers to whom

What the map of callers says after references were taken, in whatever order: a definition is
in it when one of them is to it, and has the callers that those were made from.

- `CallerMap.Calls`: one definition is known to refer to another.
- `CallerMap.mem_edges_some`, `mem_edges_none`: the references of a map, one by one.
- `CallerMap.ext_calls`: a map is known by who is referred to, and by whom.
- `ReferenceBuffer.contains_foldl_capture`, `calls_foldl_capture`: after several references.
- `QualifiedName.text_inj`: different definitions are written differently.
-/

namespace CompileWatch

namespace CallerMap

/-- A definition is known to refer to another. -/
def Calls (m : CallerMap) (callee caller : String) : Prop :=
  SortedSet.has ((m.get? callee).getD SortedMap.empty) caller

/-- An edge adds its callee to the names that are known. -/
theorem contains_add (m : CallerMap) (e : Edge) (name : String) :
    (m.add e).contains name ↔ e.callee = name ∨ m.contains name := by
  unfold add
  rw [SortedMap.contains_alter, Bool.or_eq_true, beq_iff_eq, Std.LawfulEqCmp.compare_eq_iff_eq]
  exact or_congr_left eq_comm

/-- An edge adds one call, if it has a caller. -/
theorem calls_add (m : CallerMap) (e : Edge) (callee caller : String) :
    (m.add e).Calls callee caller ↔ e = ⟨callee, some caller⟩ ∨ m.Calls callee caller := by
  obtain ⟨callee', caller?⟩ := e
  unfold Calls add
  rw [SortedMap.get?_alter]
  by_cases hcallee : callee = callee'
  · subst hcallee
    rw [if_pos Std.ReflCmp.compare_self, Option.getD_some]
    cases caller? with
    | none => simp
    | some caller' =>
      show SortedSet.has (SortedSet.add _ caller') caller ↔ _
      rw [SortedSet.has_add, Bool.or_eq_true, beq_iff_eq, Std.LawfulEqCmp.compare_eq_iff_eq]
      simp only [Edge.mk.injEq, true_and, Option.some.injEq]
      exact or_congr_left eq_comm
  · have hne : ¬ (⟨callee', caller?⟩ : Edge) = ⟨callee, some caller⟩ := fun h =>
      hcallee (congrArg Edge.callee h).symm
    rw [if_neg (by rwa [Std.LawfulEqCmp.compare_eq_iff_eq])]
    simp [hne]

/-- A map of callers is known by who is referred to and by whom. -/
theorem ext_calls {m m' : CallerMap} (hcontains : ∀ name, m.contains name ↔ m'.contains name)
    (hcalls : ∀ callee caller, m.Calls callee caller ↔ m'.Calls callee caller) : m = m' := by
  refine SortedMap.ext_get? fun callee => ?_
  have hsome : (m.get? callee).isSome ↔ (m'.get? callee).isSome := hcontains callee
  have hcallers (caller : String) := hcalls callee caller
  unfold Calls at hcallers
  cases h : m.get? callee <;> cases h' : m'.get? callee
  · rfl
  · simp [h, h'] at hsome
  · simp [h, h'] at hsome
  · rw [h, h'] at hcallers
    exact congrArg some (SortedSet.ext_has hcallers)

/-- A definition gives one reference for each caller. -/
theorem mem_edges_some {m : CallerMap} {callee caller : String} :
    ⟨callee, some caller⟩ ∈ m.edges ↔ m.Calls callee caller := by
  unfold edges
  rw [List.mem_flatMap]
  constructor
  · rintro ⟨⟨name, callers⟩, hentry, he⟩
    dsimp only at he
    split at he
    · simp at he
    · obtain ⟨c, hc, ⟨⟩⟩ := List.mem_map.mp he
      rw [Calls, SortedMap.mem_entries.mp hentry]
      exact SortedSet.mem_members.mp hc
  · intro h
    unfold Calls at h
    cases hget : m.get? callee with
    | none =>
      rw [hget] at h
      cases h
    | some callers =>
      rw [hget, Option.getD_some, ← SortedSet.mem_members] at h
      refine ⟨(callee, callers), SortedMap.mem_entries.mpr hget, ?_⟩
      dsimp only
      split
      next hnone =>
        rw [hnone] at h
        cases h
      next => exact List.mem_map.mpr ⟨caller, h, rfl⟩

/-- And it gives one without caller if it has none. -/
theorem mem_edges_none {m : CallerMap} {callee : String} :
    ⟨callee, none⟩ ∈ m.edges ↔ m.contains callee ∧ ∀ caller, ¬ m.Calls callee caller := by
  unfold edges Calls SortedMap.contains
  rw [List.mem_flatMap]
  constructor
  · rintro ⟨⟨name, callers⟩, hentry, he⟩
    dsimp only at he
    split at he
    next hnone =>
      obtain ⟨⟩ := List.mem_singleton.mp he
      rw [SortedMap.mem_entries.mp hentry]
      refine ⟨rfl, fun caller hcaller => ?_⟩
      rw [Option.getD_some, ← SortedSet.mem_members, hnone] at hcaller
      cases hcaller
    next => simp at he
  · rintro ⟨hcontains, hnone⟩
    obtain ⟨callers, hget⟩ := Option.isSome_iff_exists.mp hcontains
    rw [hget, Option.getD_some] at hnone
    have hmembers : callers.members = [] :=
      List.eq_nil_iff_forall_not_mem.mpr fun c hc => hnone c (SortedSet.mem_members.mp hc)
    refine ⟨(callee, callers), SortedMap.mem_entries.mpr hget, ?_⟩
    dsimp only
    rw [hmembers]
    exact List.mem_singleton_self _

end CallerMap

/-- The definitions of a reference have names. -/
structure Edge.Named (e : Edge) : Prop where
  callee : e.callee ≠ ""
  caller : e.caller ≠ some ""

namespace ReferenceBuffer

variable {b : ReferenceBuffer}

theorem enabled_capture (e : Edge) : (b.capture e).enabled = b.enabled := by
  unfold capture
  split <;> rfl

/-- A buffer that is on adds every edge with names. -/
theorem callers_capture (hb : b.enabled) {e : Edge} (he : e.Named) :
    (b.capture e).callers = b.callers.add e := by
  obtain ⟨callee, caller?⟩ := e
  have haccepts : b.accepts ⟨callee, caller?⟩ := by
    rw [accepts, hb]
    simpa using he.callee
  have hcaller : caller?.filter (!·.isEmpty) = caller? := by
    cases caller? with
    | none => rfl
    | some caller =>
      have hne : caller ≠ "" := fun h => he.caller (congrArg some h)
      simpa [Option.filter_some] using hne
  rw [capture, if_pos haccepts, hcaller]

/-- After edges in a row, the names that are known are the callees, and those from before. -/
theorem contains_foldl_capture (hb : b.enabled) {l : List Edge} (hl : ∀ e ∈ l, e.Named)
    (name : String) :
    (l.foldl capture b).callers.contains name ↔
      (∃ e ∈ l, e.callee = name) ∨ b.callers.contains name := by
  induction l generalizing b with
  | nil => simp
  | cons e rest ih =>
    obtain ⟨he, hrest⟩ := List.forall_mem_cons.mp hl
    rw [List.foldl_cons, ih (by rw [enabled_capture, hb]) hrest, callers_capture hb he,
      CallerMap.contains_add, or_left_comm, ← or_assoc]
    simp

theorem calls_foldl_capture (hb : b.enabled) {l : List Edge} (hl : ∀ e ∈ l, e.Named)
    (callee caller : String) :
    (l.foldl capture b).callers.Calls callee caller ↔
      ⟨callee, some caller⟩ ∈ l ∨ b.callers.Calls callee caller := by
  induction l generalizing b with
  | nil => simp
  | cons e rest ih =>
    obtain ⟨he, hrest⟩ := List.forall_mem_cons.mp hl
    rw [List.foldl_cons, ih (by rw [enabled_capture, hb]) hrest, callers_capture hb he,
      CallerMap.calls_add, List.mem_cons, eq_comm, or_left_comm, or_assoc]

end ReferenceBuffer

/-! ### Names -/

namespace QualifiedName

/-- The text of a qualified name is never empty. -/
theorem text_ne_empty (q : QualifiedName) : q.text ≠ "" := by
  intro h
  have hlist := congrArg String.toList h
  simp [text] at hlist

/-- The namespace of a definition is what stands before the first slash, if it has none. -/
theorem takeWhile_text {q : QualifiedName} (hq : '/' ∉ q.ns.toList) :
    q.text.toList.takeWhile (· != '/') = q.ns.toList := by
  have hall : ∀ c ∈ q.ns.toList, (c != '/') = true := fun c hc =>
    bne_iff_ne.mpr fun h => hq (h ▸ hc)
  have htext : q.text.toList = q.ns.toList ++ '/' :: q.name.toList := by simp [text]
  rw [htext, List.takeWhile_append_of_pos hall]
  simp

/-- Without a slash in the names of their namespaces, different definitions are written
differently. -/
theorem text_inj {q q' : QualifiedName} (hq : '/' ∉ q.ns.toList) (hq' : '/' ∉ q'.ns.toList)
    (h : q.text = q'.text) : q = q' := by
  have hns : q.ns = q'.ns := by
    apply String.toList_injective
    rw [← takeWhile_text hq, ← takeWhile_text hq', h]
  have hname : q.name = q'.name := by
    rw [text, text, hns] at h
    apply String.toList_injective
    simpa using congrArg String.toList h
  exact (QualifiedName.mk.injEq ..).mpr ⟨hns, hname⟩

end QualifiedName

end CompileWatch
