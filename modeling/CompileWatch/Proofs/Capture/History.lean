import Mathlib.Data.List.Induction
import CompileWatch.Capture.Request
import CompileWatch.Proofs.Capture.Callers
import CompileWatch.Proofs.Capture.Effect
import CompileWatch.Proofs.Capture.Recorded

/-!
# Buffers and their history

What a session holds can be read off the requests that were made to it. A buffer of forms or of
units holds, for each key, the last capture of that key since the buffer was last emptied; the
references are all those that were captured since then, in whatever order. So a capture that was
taken is handed out by one drain at most.

- `CaptureKind.effect`: what a request does to the buffer of one kind.
- `Session.forms_perform`, `Session.units_perform`, `Session.references_perform`: one request.
- `Session.follows_after`: any requests to a new session.
- `Session.Remembers`: what a session holds and would take, in terms of its requests.
- `CaptureKind.Drained`, `CaptureKind.latest_iff_drained`: the drain that hands a capture out.
- `Session.history_remembered`: all of it.
-/

namespace CompileWatch

/-! ### What requests do to a buffer -/

/-- One kind of captures: what it is called, and the captures that requests make of it. A capture
without a name is none. -/
structure CaptureKind (α : Type) where
  category : Category
  capture? : CaptureRequest → Option α

namespace CaptureKind

variable {α κ : Type}

/-- What a request does to the buffer of a kind. -/
def effect (k : CaptureKind α) : Request → Effect α
  | .captures r =>
    match r with
    | .enable c on => if c = k.category then .switch on else .other
    | .drain c => if c = k.category then .empty else .other
    | .clear c => if c = k.category then .empty else .other
    | .clearAll => .empty
    | r => (k.capture? r).elim .other .capture
  | .feeds _ => .other

/-- What requests do to the buffer of a kind, one after the other. -/
def effects (k : CaptureKind α) (requests : List Request) : List (Effect α) :=
  requests.map k.effect

end CaptureKind

/-- The captures of forms. -/
def formKind : CaptureKind FormEvent where
  category := .forms
  capture?
    | .form e => if e.name = "" then none else some e
    | _ => none

/-- The captures of references. -/
def referenceKind : CaptureKind Edge where
  category := .references
  capture?
    | .reference e => if e.callee = "" then none else some e
    | _ => none

/-- The captures of units. -/
def unitKind : CaptureKind (String × Bytes) where
  category := .units
  capture?
    | .unit name bytes => if name = "" then none else some (name, bytes)
    | _ => none

/-- The key of a unit: its name with dots, however it was spelled. -/
def unitKey (u : String × Bytes) : String := dottedName u.1

/-- A reference as it is noted: a caller without a name counts as none. -/
def Edge.noted (e : Edge) : Edge := ⟨e.callee, e.caller.filter (!·.isEmpty)⟩

namespace Session

variable (s : Session)

/-- What a request does to the buffer of forms. -/
theorem forms_perform (r : Request) :
    (s.perform r).value.2.forms =
      ⟨(formKind.effect r).switched s.forms.enabled,
        (formKind.effect r).content (fun m e => m.insert e.key e) SortedMap.empty
          s.forms.enabled s.forms.events⟩ := by
  cases r with
  | feeds r => rfl
  | captures r =>
    cases r with
    | form e =>
      show (s.captureForm e).value.forms = _
      rw [value_captureForm]
      show s.forms.capture e = _
      generalize s.forms = b
      obtain ⟨on, events⟩ := b
      cases on <;> by_cases hname : e.name = "" <;>
        simp [FormBuffer.capture, FormBuffer.accepts, CaptureKind.effect, formKind, hname,
          Effect.switched, Effect.content]
    | reference e =>
      show (s.captureReference e).value.forms = _
      rw [value_captureReference]
      rfl
    | unit name bytes =>
      show (s.captureUnit name bytes).value.forms = _
      rw [value_captureUnit]
      rfl
    | enable c on => cases c <;> rfl
    | drain c => cases c <;> rfl
    | clear c => cases c <;> rfl
    | _ => rfl

/-- What a request does to the buffer of references. -/
theorem references_perform (r : Request) :
    (s.perform r).value.2.references =
      ⟨(referenceKind.effect r).switched s.references.enabled,
        (referenceKind.effect r).content (fun m e => m.add e.noted) SortedMap.empty
          s.references.enabled s.references.callers⟩ := by
  cases r with
  | feeds r => rfl
  | captures r =>
    cases r with
    | form e =>
      show (s.captureForm e).value.references = _
      rw [value_captureForm]
      rfl
    | reference e =>
      show (s.captureReference e).value.references = _
      rw [value_captureReference]
      show s.references.capture e = _
      generalize s.references = b
      obtain ⟨on, callers⟩ := b
      cases on <;> by_cases hname : e.callee = "" <;>
        simp [ReferenceBuffer.capture, ReferenceBuffer.accepts, CaptureKind.effect, referenceKind,
          hname, Effect.switched, Effect.content, Edge.noted]
    | unit name bytes =>
      show (s.captureUnit name bytes).value.references = _
      rw [value_captureUnit]
      rfl
    | enable c on => cases c <;> rfl
    | drain c => cases c <;> rfl
    | clear c => cases c <;> rfl
    | _ => rfl

/-- What a request does to the buffer of units. -/
theorem units_perform (r : Request) :
    (s.perform r).value.2.units =
      ⟨(unitKind.effect r).switched s.units.enabled,
        (unitKind.effect r).content (fun m u => m.insert (unitKey u) (.ofUnit u)) SortedMap.empty
          s.units.enabled s.units.units⟩ := by
  cases r with
  | feeds r => rfl
  | captures r =>
    cases r with
    | form e =>
      show (s.captureForm e).value.units = _
      rw [value_captureForm]
      rfl
    | reference e =>
      show (s.captureReference e).value.units = _
      rw [value_captureReference]
      rfl
    | unit name bytes =>
      show (s.captureUnit name bytes).value.units = _
      rw [value_captureUnit]
      show s.units.take (name, bytes) = _
      generalize s.units = b
      obtain ⟨on, units⟩ := b
      cases on <;> by_cases hname : name = "" <;>
        simp [UnitBuffer.take, UnitBuffer.capture, UnitBuffer.accepts, CaptureKind.effect, unitKind,
          hname, Effect.switched, Effect.content, value_analyzeUnit, UnitRecord.ofUnit, unitKey]
    | enable c on => cases c <;> rfl
    | drain c => cases c <;> rfl
    | clear c => cases c <;> rfl
    | _ => rfl

/-! ### What a session holds -/

/-- The buffers of a session are as its requests say. -/
structure Follows (s : Session) (requests : List Request) : Prop where
  formsOn : s.forms.enabled = Effect.isOn (formKind.effects requests)
  forms : Effect.Holds FormEvent.key id (formKind.effects requests) s.forms.events
  unitsOn : s.units.enabled = Effect.isOn (unitKind.effects requests)
  units : Effect.Holds unitKey .ofUnit (unitKind.effects requests) s.units.units
  referencesOn : s.references.enabled = Effect.isOn (referenceKind.effects requests)
  contains : ∀ callee, s.references.callers.contains callee ↔
    ∃ i e, Effect.Since (referenceKind.effects requests) i e ∧ e.callee = callee
  calls : ∀ callee caller, s.references.callers.Calls callee caller ↔
    ∃ i e, Effect.Since (referenceKind.effects requests) i e ∧ e.noted = ⟨callee, some caller⟩

/-- One more request has one more effect. -/
theorem effects_snoc {α : Type} (k : CaptureKind α) (requests : List Request) (r : Request) :
    k.effects (requests ++ [r]) = k.effects requests ++ [k.effect r] :=
  List.map_append

variable {s}

/-- A session that follows a history follows it with one request more. -/
theorem Follows.perform {requests : List Request} (h : s.Follows requests) (r : Request) :
    (s.perform r).value.2.Follows (requests ++ [r]) := by
  constructor
  · rw [forms_perform, effects_snoc, Effect.isOn_snoc, h.formsOn]
  · rw [forms_perform, effects_snoc, h.formsOn]
    exact Effect.holds_snoc h.forms _
  · rw [units_perform, effects_snoc, Effect.isOn_snoc, h.unitsOn]
  · rw [units_perform, effects_snoc, h.unitsOn]
    exact Effect.holds_snoc h.units _
  · rw [references_perform, effects_snoc, Effect.isOn_snoc, h.referencesOn]
  · intro callee
    rw [references_perform, effects_snoc, h.referencesOn]
    refine Effect.shown_snoc (fun m : CallerMap => m.contains callee) ?_ ?_ (h.contains callee) _
    · exact Bool.false_ne_true
    · exact fun m e => CallerMap.contains_add m e.noted callee
  · intro callee caller
    rw [references_perform, effects_snoc, h.referencesOn]
    refine Effect.shown_snoc (CallerMap.Calls · callee caller) ?_ ?_ (h.calls callee caller) _
    · exact Bool.false_ne_true
    · exact fun m e => CallerMap.calls_add m e.noted callee caller

theorem after_snoc (s : Session) (requests : List Request) (r : Request) :
    s.after (requests ++ [r]) = ((s.after requests).perform r).value.2 := by
  rw [after, List.foldl_append]
  rfl

/-- A new session holds nothing. -/
theorem follows_new : ({} : Session).Follows [] := by
  refine ⟨rfl, Effect.holds_nil, rfl, Effect.holds_nil, rfl, fun callee => ?_, fun callee caller => ?_⟩
  · refine iff_of_false Bool.false_ne_true ?_
    rintro ⟨i, e, hsince, -⟩
    cases hsince.taken.1
  · refine iff_of_false Bool.false_ne_true ?_
    rintro ⟨i, e, hsince, -⟩
    cases hsince.taken.1

/-- A new session follows whatever is asked of it. -/
theorem follows_after (requests : List Request) :
    (({} : Session).after requests).Follows requests := by
  induction requests using List.reverseRecOn with
  | nil => exact follows_new
  | append_singleton requests r ih =>
    rw [after_snoc]
    exact ih.perform r

end Session

/-! ### What is handed out -/

namespace CaptureKind

variable {α κ : Type} {k : CaptureKind α} {key : α → κ} {requests : List Request} {n i : Nat} {a : α}

/-- Request `n` is the first drain after request `i` made a capture, and before it the buffer was
neither cleared nor took another capture of the same key. -/
structure Drained (k : CaptureKind α) (key : α → κ) (requests : List Request) (n i : Nat) (a : α) :
    Prop where
  drain : requests[n]? = some (.captures (.drain k.category))
  taken : Effect.Taken (k.effects requests) i a
  earlier : i < n
  first : ∀ j, i < j → j < n → requests[j]? ≠ some (.captures (.drain k.category))
  kept : ∀ j, i < j → j < n → requests[j]? ≠ some (.captures (.clear k.category)) ∧
    requests[j]? ≠ some (.captures .clearAll)
  last : ∀ j b, i < j → j < n → Effect.Taken (k.effects requests) j b → key b ≠ key a

theorem effects_take (k : CaptureKind α) (requests : List Request) (n : Nat) :
    k.effects (requests.take n) = (k.effects requests).take n :=
  List.map_take

/-- Nothing but a request to capture has the effect of a capture. -/
theorem capture?_of_effect {r : Request} (h : k.effect r = .capture a) :
    ∃ r', r = .captures r' ∧ k.capture? r' = some a := by
  cases r with
  | feeds r => cases h
  | captures r =>
    refine ⟨r, rfl, ?_⟩
    have hsome (a? : Option α) (ha : a?.elim Effect.other .capture = .capture a) : a? = some a := by
      cases a? with
      | none => cases ha
      | some b => exact congrArg some (Effect.capture.inj ha)
    cases r with
    | enable c on => by_cases hc : c = k.category <;> simp [effect, hc] at h
    | drain c => by_cases hc : c = k.category <;> simp [effect, hc] at h
    | clear c => by_cases hc : c = k.category <;> simp [effect, hc] at h
    | clearAll => cases h
    | _ => exact hsome _ h

/-- A request makes the capture that it is, if that has a name. -/
theorem taken_iff {r : Request} {named : Prop}
    (h : ∀ r', k.effect r' = .capture a ↔ r' = r ∧ named) :
    Effect.Taken (k.effects requests) i a ↔
      requests[i]? = some r ∧ Effect.isOn (k.effects (requests.take i)) ∧ named := by
  rw [Effect.Taken, effects_take, effects, List.getElem?_map]
  cases requests[i]? with
  | none => simp
  | some r' => simp [h, and_assoc, and_comm, and_left_comm]

/-- A buffer is emptied when its kind is drained or cleared, or everything is. -/
theorem effect_eq_empty_iff {r : Request} :
    k.effect r = .empty ↔ r = .captures (.drain k.category) ∨ r = .captures (.clear k.category) ∨
      r = .captures .clearAll := by
  have hcapture (a? : Option α) : a?.elim (Effect.other) .capture ≠ .empty := by
    cases a? <;> exact nofun
  cases r with
  | feeds r => simp [effect]
  | captures r =>
    cases r with
    | enable c on =>
      by_cases hc : c = k.category <;> simp [effect, hc]
    | _ => simp [effect, hcapture]

theorem getElem?_effects_eq_empty_iff {j : Nat} :
    (k.effects requests)[j]? = some .empty ↔
      requests[j]? = some (.captures (.drain k.category)) ∨
      requests[j]? = some (.captures (.clear k.category)) ∨
      requests[j]? = some (.captures .clearAll) := by
  rw [effects, List.getElem?_map]
  cases requests[j]? with
  | none => simp
  | some r => simp [effect_eq_empty_iff]

/-- What is in a buffer when it is drained has not been drained before. -/
theorem latest_iff_drained (hn : requests[n]? = some (.captures (.drain k.category))) :
    Effect.Latest key (k.effects (requests.take n)) i a ↔ k.Drained key requests n i a := by
  simp only [effects_take, Effect.latest_take, ne_eq, getElem?_effects_eq_empty_iff, not_or]
  constructor
  · rintro ⟨hi, htaken, hbetween⟩
    exact ⟨hn, htaken, hi, fun j hj hjn => (hbetween j hj hjn).1.1,
      fun j hj hjn => (hbetween j hj hjn).1.2, fun j b hj hjn => (hbetween j hj hjn).2 b⟩
  · intro h
    exact ⟨h.earlier, h.taken, fun j hj hjn => ⟨⟨h.first j hj hjn, h.kept j hj hjn⟩,
      fun b => h.last j b hj hjn⟩⟩

/-- A capture is handed out once. -/
theorem Drained.unique {n' : Nat} (h : k.Drained key requests n i a)
    (h' : k.Drained key requests n' i a) : n = n' := by
  rcases Nat.lt_trichotomy n n' with hlt | heq | hlt
  · exact absurd h.drain (h'.first n h.earlier hlt)
  · exact heq
  · exact absurd h'.drain (h.first n' h'.earlier hlt)

end CaptureKind

/-! ### The whole history -/

namespace Session

open Effect (isOn Taken Since Latest)

/-- What a session holds, and what it would take, in terms of the requests that were made to it:
the last form of each key and the last unit of each name since their buffers were emptied, both in
order, and the references since theirs was. -/
structure Remembers (s : Session) (requests : List Request) : Prop where
  acceptsForm : ∀ e, s.forms.accepts e ↔ isOn (formKind.effects requests) ∧ e.name ≠ ""
  acceptsUnit : ∀ name, s.units.accepts name ↔ isOn (unitKind.effects requests) ∧ name ≠ ""
  acceptsReference : ∀ e,
    s.references.accepts e ↔ isOn (referenceKind.effects requests) ∧ e.callee ≠ ""
  forms : ∀ e, e ∈ s.forms.toList ↔ ∃ i, Latest FormEvent.key (formKind.effects requests) i e
  formsInOrder : s.forms.toList.Pairwise fun a b => compare a.key b.key = .lt
  units : ∀ r, r ∈ s.units.toList ↔
    ∃ i u, Latest unitKey (unitKind.effects requests) i u ∧ .ofUnit u = r
  unitsInOrder : s.units.toList.Pairwise fun a b => compare a.name b.name = .lt
  /-- Both spellings of a name find the unit. -/
  unitOfName : ∀ name r, s.units.get? name = some r ↔
    ∃ i u, Latest unitKey (unitKind.effects requests) i u ∧
      dottedName u.1 = dottedName name ∧ .ofUnit u = r
  references : ∀ callee caller, ⟨callee, some caller⟩ ∈ s.references.callers.edges ↔
    caller ≠ "" ∧ ∃ i, Since (referenceKind.effects requests) i ⟨callee, some caller⟩
  /-- What was referred to, but from nowhere that has a name. -/
  lone : ∀ callee, ⟨callee, none⟩ ∈ s.references.callers.edges ↔
    (∃ i caller?, Since (referenceKind.effects requests) i ⟨callee, caller?⟩) ∧
      ∀ i caller, Since (referenceKind.effects requests) i ⟨callee, some caller⟩ → caller = ""

/-- An edge is noted as a call of a function unless its caller has no name. -/
theorem noted_eq_iff {e : Edge} {callee caller : String} :
    e.noted = ⟨callee, some caller⟩ ↔ e = ⟨callee, some caller⟩ ∧ caller ≠ "" := by
  obtain ⟨callee', caller?⟩ := e
  cases caller? with
  | none => simp [Edge.noted]
  | some caller' =>
    by_cases h : caller' = ""
    · have hnone : (some caller').filter (!·.isEmpty) = none := by simp [Option.filter_some, h]
      rw [Edge.noted, hnone]
      simp only [Edge.mk.injEq, reduceCtorEq, and_false, Option.some.injEq, false_iff]
      rintro ⟨⟨-, rfl⟩, hcaller⟩
      exact hcaller h
    · have hsome : (some caller').filter (!·.isEmpty) = some caller' := by
        simp [Option.filter_some, h]
      rw [Edge.noted, hsome]
      constructor
      · rintro ⟨⟩
        exact ⟨rfl, h⟩
      · rintro ⟨⟨⟩, -⟩
        rfl

/-- A session that follows a history shows what is remembered of it. -/
theorem Follows.remembers {s : Session} {requests : List Request} (h : s.Follows requests) :
    s.Remembers requests := by
  have hcalls (callee caller : String) : s.references.callers.Calls callee caller ↔
      caller ≠ "" ∧ ∃ i, Since (referenceKind.effects requests) i ⟨callee, some caller⟩ := by
    rw [h.calls]
    simp only [noted_eq_iff]
    constructor
    · rintro ⟨i, e, hsince, rfl, hcaller⟩
      exact ⟨hcaller, i, hsince⟩
    · rintro ⟨hcaller, i, hsince⟩
      exact ⟨i, _, hsince, rfl, hcaller⟩
  constructor
  case acceptsForm =>
    intro e
    simp [FormBuffer.accepts, h.formsOn]
  case acceptsUnit =>
    intro name
    simp [UnitBuffer.accepts, h.unitsOn]
  case acceptsReference =>
    intro e
    simp [ReferenceBuffer.accepts, h.referencesOn]
  case forms =>
    intro e
    show e ∈ s.forms.events.values ↔ _
    simp only [SortedMap.mem_values, h.forms _ _]
    constructor
    · rintro ⟨k, i, e', hlatest, rfl, rfl⟩
      exact ⟨i, hlatest⟩
    · rintro ⟨i, hlatest⟩
      exact ⟨e.key, i, e, hlatest, rfl, rfl⟩
  case formsInOrder =>
    refine SortedMap.pairwise_values fun k v hget => ?_
    obtain ⟨i, e, -, rfl, rfl⟩ := (h.forms k v).mp hget
    rfl
  case units =>
    intro r
    show r ∈ s.units.units.values ↔ _
    simp only [SortedMap.mem_values, h.units _ _]
    constructor
    · rintro ⟨k, i, u, hlatest, rfl, hr⟩
      exact ⟨i, u, hlatest, hr⟩
    · rintro ⟨i, u, hlatest, hr⟩
      exact ⟨unitKey u, i, u, hlatest, rfl, hr⟩
  case unitsInOrder =>
    refine SortedMap.pairwise_values fun k v hget => ?_
    obtain ⟨i, e, -, rfl, rfl⟩ := (h.units k v).mp hget
    rfl
  case unitOfName => exact fun name r => h.units (dottedName name) r
  case references =>
    intro callee caller
    rw [CallerMap.mem_edges_some, hcalls]
  case lone =>
    intro callee
    rw [CallerMap.mem_edges_none, h.contains]
    constructor
    · rintro ⟨⟨i, ⟨_, caller?⟩, hsince, rfl⟩, hnone⟩
      refine ⟨⟨i, caller?, hsince⟩, fun j caller hj => ?_⟩
      by_contra hcaller
      exact hnone caller ((hcalls _ _).mpr ⟨hcaller, j, hj⟩)
    · rintro ⟨⟨i, caller?, hsince⟩, hnone⟩
      refine ⟨⟨i, _, hsince, rfl⟩, fun caller hcaller => ?_⟩
      obtain ⟨hne, j, hj⟩ := (hcalls _ _).mp hcaller
      exact hne (hnone j caller hj)

/-- The history lists each request with the session before it and with its answer. -/
theorem getElem?_history (s : Session) (requests : List Request) (n : Nat) :
    (s.history requests)[n]? = requests[n]?.map fun r =>
      ⟨s.after (requests.take n), r, ((s.after (requests.take n)).perform r).value.1⟩ := by
  induction requests generalizing s n with
  | nil => rfl
  | cons r rest ih =>
    cases n with
    | zero => rfl
    | succ n => exact ih _ n

/-- The references do not depend on the order in which they were captured. -/
theorem Follows.references_eq {s s' : Session} {requests requests' : List Request}
    (h : s.Follows requests) (h' : s'.Follows requests')
    (hsince : ∀ e, (∃ i, Since (referenceKind.effects requests) i e) ↔
      ∃ i, Since (referenceKind.effects requests') i e) :
    s.references.callers = s'.references.callers := by
  apply CallerMap.ext_calls
  · intro name
    rw [h.contains, h'.contains, exists_comm, exists_comm (α := ℕ)]
    simp only [exists_and_right, hsince]
  · intro callee caller
    rw [h.calls, h'.calls, exists_comm, exists_comm (α := ℕ)]
    simp only [exists_and_right, hsince]

/-- A capture is taken when it is made of a session that accepts it. -/
theorem taken_form_iff {requests : List Request} {i : Nat} {e : FormEvent} :
    Taken (formKind.effects requests) i e ↔ requests[i]? = some (.captures (.form e)) ∧
      (({} : Session).after (requests.take i)).forms.accepts e := by
  have heffect (r : Request) :
      formKind.effect r = .capture e ↔ r = .captures (.form e) ∧ e.name ≠ "" := by
    constructor
    · intro h
      obtain ⟨r', rfl, hr'⟩ := CaptureKind.capture?_of_effect h
      cases r' with
      | form e' =>
        obtain ⟨hname, ⟨⟩⟩ := Option.ite_none_left_eq_some.mp hr'
        exact ⟨rfl, hname⟩
      | _ => cases hr'
    · rintro ⟨rfl, hname⟩
      simp [CaptureKind.effect, formKind, hname]
  rw [(follows_after _).remembers.acceptsForm, CaptureKind.taken_iff heffect]

/-- A unit is taken when the buffer accepts it at the time of its request. -/
theorem taken_unit_iff {requests : List Request} {i : Nat} {u : String × Bytes} :
    Taken (unitKind.effects requests) i u ↔ requests[i]? = some (.captures (.unit u.1 u.2)) ∧
      (({} : Session).after (requests.take i)).units.accepts u.1 := by
  have heffect (r : Request) :
      unitKind.effect r = .capture u ↔ r = .captures (.unit u.1 u.2) ∧ u.1 ≠ "" := by
    constructor
    · intro h
      obtain ⟨r', rfl, hr'⟩ := CaptureKind.capture?_of_effect h
      cases r' with
      | unit name bytes =>
        obtain ⟨hname, ⟨⟩⟩ := Option.ite_none_left_eq_some.mp hr'
        exact ⟨rfl, hname⟩
      | _ => cases hr'
    · rintro ⟨rfl, hname⟩
      simp [CaptureKind.effect, unitKind, hname]
  rw [(follows_after _).remembers.acceptsUnit, CaptureKind.taken_iff heffect]

theorem taken_reference_iff {requests : List Request} {i : Nat} {e : Edge} :
    Taken (referenceKind.effects requests) i e ↔ requests[i]? = some (.captures (.reference e)) ∧
      (({} : Session).after (requests.take i)).references.accepts e := by
  have heffect (r : Request) :
      referenceKind.effect r = .capture e ↔ r = .captures (.reference e) ∧ e.callee ≠ "" := by
    constructor
    · intro h
      obtain ⟨r', rfl, hr'⟩ := CaptureKind.capture?_of_effect h
      cases r' with
      | reference e' =>
        obtain ⟨hname, ⟨⟩⟩ := Option.ite_none_left_eq_some.mp hr'
        exact ⟨rfl, hname⟩
      | _ => cases hr'
    · rintro ⟨rfl, hname⟩
      simp [CaptureKind.effect, referenceKind, hname]
  rw [(follows_after _).remembers.acceptsReference, CaptureKind.taken_iff heffect]

/-- After any number of requests to a new session its buffers hold what the requests say. What is
asked about captures is answered from the buffers, so a drain hands out the latest form of each key
and the latest unit of each name; each of them is handed out once. And the references are the same
in whatever order they were captured. -/
theorem history_remembered (requests : List Request) :
    let session (n : Nat) : Session := ({} : Session).after (requests.take n)
    let answer? (n : Nat) : Option Answer := (({} : Session).history requests)[n]?.map (·.answer)
    (∀ n, (session n).Remembers (requests.take n)) ∧
    (∀ i e, Taken (formKind.effects requests) i e ↔
      requests[i]? = some (.captures (.form e)) ∧ (session i).forms.accepts e) ∧
    (∀ i u, Taken (unitKind.effects requests) i u ↔
      requests[i]? = some (.captures (.unit u.1 u.2)) ∧ (session i).units.accepts u.1) ∧
    (∀ i e, Taken (referenceKind.effects requests) i e ↔
      requests[i]? = some (.captures (.reference e)) ∧ (session i).references.accepts e) ∧
    (∀ n c, requests[n]? = some (.captures (.peek c)) ∨ requests[n]? = some (.captures (.drain c)) →
      answer? n = some (.contents ((session n).contents c))) ∧
    (∀ n, requests[n]? = some (.captures (.drain .forms)) →
      ∃ l, answer? n = some (.contents (.forms l)) ∧
        ∀ e, e ∈ l ↔ ∃ i, formKind.Drained FormEvent.key requests n i e) ∧
    (∀ n, requests[n]? = some (.captures (.drain .units)) →
      ∃ l, answer? n = some (.contents (.units l)) ∧
        ∀ r, r ∈ l ↔ ∃ i u, unitKind.Drained unitKey requests n i u ∧ .ofUnit u = r) ∧
    (∀ n n' i e, formKind.Drained FormEvent.key requests n i e →
      formKind.Drained FormEvent.key requests n' i e → n = n') ∧
    (∀ n n' i u, unitKind.Drained unitKey requests n i u →
      unitKind.Drained unitKey requests n' i u → n = n') ∧
    ∀ requests' : List Request,
      (∀ e, (∃ i, Since (referenceKind.effects requests) i e) ↔
        ∃ i, Since (referenceKind.effects requests') i e) →
      (({} : Session).after requests).references.callers =
        (({} : Session).after requests').references.callers := by
  intro session answer?
  have hremembers (n : Nat) : (session n).Remembers (requests.take n) :=
    (follows_after _).remembers
  have hanswer {n : Nat} {r : Request} (hr : requests[n]? = some r) :
      answer? n = some ((session n).perform r).value.1 := by
    show (({} : Session).history requests)[n]?.map (·.answer) = _
    rw [getElem?_history, hr]
    rfl
  refine ⟨hremembers, fun i e => taken_form_iff, fun i u => taken_unit_iff,
    fun i e => taken_reference_iff, ?_, ?_, ?_, fun _ _ _ _ h h' => h.unique h',
    fun _ _ _ _ h h' => h.unique h', ?_⟩
  · rintro n c (hr | hr) <;> exact hanswer hr
  · intro n hr
    refine ⟨(session n).forms.toList, hanswer hr, fun e => ?_⟩
    rw [(hremembers n).forms e]
    exact exists_congr fun i => CaptureKind.latest_iff_drained hr
  · intro n hr
    refine ⟨(session n).units.toList, hanswer hr, fun r => ?_⟩
    rw [(hremembers n).units r]
    refine exists_congr fun i => exists_congr fun u => and_congr_left fun _ => ?_
    exact CaptureKind.latest_iff_drained hr
  · exact fun requests' => (follows_after requests).references_eq (follows_after requests')

/-- A caller makes a reference known, a switch that is off keeps one from being taken, and a drain
leaves nothing for the next. -/
example :
    let refer (caller : Option String) : Request := .captures (.reference ⟨"a/x", caller⟩)
    let s := ({} : Session).after [refer none, refer (some "a/y"), refer (some ""),
      .captures (.enable .references false), refer (some "a/z")]
    s.references.callers.edges = [⟨"a/x", some "a/y"⟩] ∧
      (s.after [.captures (.drain .references)]).references.callers.edges = [] := by
  decide

end Session

end CompileWatch
