import CompileWatch.Proofs.ClassFile.Counted
import CompileWatch.Proofs.ClassFile.Fields

/-!
# What every visit reports

A visit reports what a unit is before anything else, and never again, whatever the bytes are and
wherever they end. The name that a unit gives itself can therefore be read without a visit.

- `Walk.Adds`: a walk only reports events with a property, with a law for each combinator.
- `ClassFile.visit_cases`: a visit reports nothing at all, or the header and then members.
- `ClassFile.ownName_of_header_mem`: the name in the header is the one that the unit gives itself.
-/

namespace CompileWatch

variable {α β : Type}

namespace ClassFile

namespace Walk

/-- Whatever becomes of a walk, it only adds events with a property to those before it. -/
def Adds (P : Event → Prop) (p : Walk α) : Prop :=
  ∀ s, ∃ events : List Event, (∀ e ∈ events, P e) ∧ (p s).2.events = s.events ++ events

variable {P : Event → Prop}

/-- What reports nothing adds nothing. -/
theorem adds_of_events_eq {p : Walk α} (h : ∀ s, (p s).2.events = s.events) : Adds P p := by
  intro s
  exact ⟨[], by simp, by rw [h]; simp⟩

theorem adds_pure (a : α) : Adds P (pure a) := adds_of_events_eq fun _ => rfl

/-- Reading reports nothing. -/
theorem adds_read (p : Read α) : Adds P (read p) := by
  refine adds_of_events_eq fun s => ?_
  cases h : p s.cursor with
  | error e => rw [read_of_error h]
  | ok r => rw [read_of_ok h]

/-- A report adds its event. -/
theorem adds_report {e : Event} (h : P e) : Adds P (report e) := by
  intro s
  refine ⟨[e], by simpa using h, ?_⟩
  show s.events.push e = _
  simp

/-- One computation after another adds the events of both. -/
theorem adds_bind {p : Walk α} {f : α → Walk β} (hp : Adds P p) (hf : ∀ a, Adds P (f a)) :
    Adds P (p >>= f) := by
  intro s
  obtain ⟨first, hfirst, hevents⟩ := hp s
  match hps : p s with
  | (.error e, s') =>
    rw [hps] at hevents
    exact ⟨first, hfirst, by rw [bind_run_of_error hps]; exact hevents⟩
  | (.ok a, s') =>
    obtain ⟨others, hothers, hevents'⟩ := hf a s'
    rw [hps] at hevents
    refine ⟨first ++ others, List.forall_mem_append.mpr ⟨hfirst, hothers⟩, ?_⟩
    rw [bind_run_of_ok hps, hevents', hevents]
    exact Array.ext' (by simp)

/-- A computation that is repeated adds events of one kind. -/
theorem adds_times {p : Walk Unit} (h : Adds P p) (n : Nat) : Adds P (times p n) := by
  induction n with
  | zero => exact adds_pure ()
  | succ n ih => exact adds_bind h fun _ => ih

/-- Of a body of code, instructions are reported and nothing else. -/
theorem adds_code (h : ∀ i, P (.instruction i)) (pool : ConstantPool) (bytes : Bytes) :
    Adds P (code pool bytes) := by
  intro s
  refine ⟨(Instruction.decode pool bytes).1.toList.map .instruction, ?_, ?_⟩
  · intro e he
    obtain ⟨i, -, rfl⟩ := List.mem_map.mp he
    exact h i
  · show (Instruction.decode pool bytes).1.foldl (fun es i => es.push (.instruction i)) s.events = _
    rw [Array.foldl_push_eq_append rfl]
    exact Array.ext' (by simp)

theorem adds_skipAttributes : Adds P skipAttributes :=
  adds_bind (adds_read _) fun count => adds_times (adds_read _) count

/-- The members of a unit say nothing of the unit itself. -/
abbrev AddsMembers (p : Walk α) : Prop := Adds (fun e => e.isHeader = false) p

variable (pool : ConstantPool)

/-- A field is reported as a member. -/
theorem adds_field : AddsMembers (field pool) :=
  adds_bind (adds_read _) fun _ => adds_bind (adds_report rfl) fun _ => adds_skipAttributes

theorem adds_methodAttribute : AddsMembers (methodAttribute pool) := by
  refine adds_bind (adds_read _) fun name => adds_bind (adds_read _) fun body => ?_
  split
  · exact adds_bind (adds_read _) fun bytes => adds_code (fun _ => rfl) pool bytes
  · exact adds_pure ()

/-- A method is reported as a member, with its instructions behind it. -/
theorem adds_method : AddsMembers (method pool) :=
  adds_bind (adds_read _) fun _ => adds_bind (adds_report rfl) fun _ =>
    adds_bind (adds_read _) fun count => adds_times (adds_methodAttribute pool) count

/-- What a unit has after its header. -/
def members : Walk Unit := do
  let fieldCount ← read Read.u16
  times (field pool) fieldCount
  let methodCount ← read Read.u16
  times (method pool) methodCount
  skipAttributes
  report .finished

/-- Fields and methods are all that follows the header. -/
theorem adds_members : AddsMembers (members pool) := by
  refine adds_bind (adds_read _) fun fieldCount => ?_
  refine adds_bind (adds_times (adds_field pool) fieldCount) fun _ => ?_
  refine adds_bind (adds_read _) fun methodCount => ?_
  refine adds_bind (adds_times (adds_method pool) methodCount) fun _ => ?_
  exact adds_bind adds_skipAttributes fun _ => adds_report rfl

end Walk

/-! ### Header and members -/

/-- The name that was read for a header is read again by itself. -/
theorem readName_of_readHeader {bytes : Bytes} {front : Prelude} {header : Header} {c c' : Cursor}
    (hfront : readPrelude ⟨0, bytes⟩ = .ok (front, c))
    (hheader : readHeader front c = .ok (header, c')) : readName bytes = .ok header.thisClass := by
  obtain ⟨hlength, hheader⟩ := Read.takes_u16.bind_eq_ok_iff.mp hheader
  obtain ⟨name, c₁, hname, hheader⟩ := Read.exists_of_bind_eq_ok hheader
  obtain ⟨superClass, c₂, -, hheader⟩ := Read.exists_of_bind_eq_ok hheader
  obtain ⟨count, c₃, -, hheader⟩ := Read.exists_of_bind_eq_ok hheader
  obtain ⟨interfaces, c₄, -, hheader⟩ := Read.exists_of_bind_eq_ok hheader
  cases hheader
  -- the access flags, which a header has in front of its name, are passed over
  have hskip : (do Read.skip 2; readClassName front.pool : Read String) c = .ok (name, c₁) :=
    (Read.takes_skip 2).bind_eq_ok_iff.mpr ⟨hlength, hname⟩
  have hread : (do let front ← readPrelude; Read.skip 2; readClassName front.pool : Read String)
      ⟨0, bytes⟩ = .ok (name, c₁) := (Read.bind_run_of_ok hfront).trans hskip
  show Except.map Prod.fst (StateT.run _ _) = _
  exact congrArg (Except.map Prod.fst) hread

/-- A visit that finds no header reports nothing. Any other reports it first and then only
members, and the name in it is the one that the unit gives itself. -/
theorem visit_cases (bytes : Bytes) :
    (∃ e, visit bytes = ⟨[], .error e⟩) ∨
      ∃ header members, (visit bytes).events = .header header :: members ∧
        (∀ e ∈ members, e.isHeader = false) ∧ readName bytes = .ok header.thisClass := by
  have hvisit : visit bytes = ⟨(Walk.unit ⟨⟨0, bytes⟩, #[]⟩).2.events.toList,
    (Walk.unit ⟨⟨0, bytes⟩, #[]⟩).1⟩ := rfl
  rw [hvisit]
  match hfront : readPrelude ⟨0, bytes⟩ with
  | .error e =>
    left
    exact ⟨e, by rw [Walk.unit, Walk.bind_run_of_error (Walk.read_of_error hfront)]⟩
  | .ok (front, c) =>
    rw [Walk.unit, Walk.bind_run_of_ok (Walk.read_of_ok hfront)]
    match hheader : readHeader front c with
    | .error e =>
      left
      exact ⟨e, by rw [Walk.bind_run_of_error (Walk.read_of_error hheader)]⟩
    | .ok (header, c') =>
      right
      obtain ⟨events, hevents, hadded⟩ :=
        Walk.adds_members front.pool ⟨c', #[.header header]⟩
      refine ⟨header, events, ?_, hevents, readName_of_readHeader hfront hheader⟩
      rw [Walk.bind_run_of_ok (Walk.read_of_ok hheader)]
      show (Walk.members front.pool ⟨c', #[.header header]⟩).2.events.toList = _
      rw [hadded]
      simp

/-- The header that a visit reports has the name that the unit gives itself. -/
theorem ownName_of_header_mem {bytes : Bytes} {header : Header}
    (h : .header header ∈ (visit bytes).events) :
    ownName bytes = .ok (dottedName header.thisClass) := by
  obtain ⟨e, hvisit⟩ | ⟨header', members, hevents, hmembers, hname⟩ := visit_cases bytes
  · rw [hvisit] at h
    cases h
  · rw [hevents] at h
    rcases List.mem_cons.mp h with hfirst | hlater
    · rw [ownName, hname, Event.header.inj hfirst]
      rfl
    · cases hmembers _ hlater

end ClassFile

end CompileWatch
