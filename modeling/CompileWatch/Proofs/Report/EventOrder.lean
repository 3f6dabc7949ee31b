import Mathlib.Data.List.Permutation
import CompileWatch.Proofs.Report.Definitions

/-!
# Summaries and the order of events

Where no two events have one key, a definition has at most one event of each phase. Its summary then
says the same in whatever order the events come, except for the line: where the raw event has none,
the line is that of the expanded event if that event comes first, and is missing otherwise.

- `DefinitionSummary.ofEvents?`: what the events of one definition tell.
- `get?_groupDefinitions`: every definition is summarized from its own events.
- `DefinitionSummary.Phases`: the events of one definition, in either order.
- `summarizeDefinitions_perm_iff`: when the order of the events does not matter at all.
-/

namespace CompileWatch

/-- The definition that an event is about. -/
def FormEvent.definition (e : FormEvent) : QualifiedName := ⟨e.ns, e.name⟩

/-- Of one definition, events of one phase have one key. -/
theorem FormEvent.key_eq_iff {a b : FormEvent} (h : a.definition = b.definition) :
    a.key = b.key ↔ a.phase = b.phase := by
  injection h with hns hname
  constructor
  · intro hkey
    injection hkey
  · intro hphase
    rw [key, key, hns, hname, hphase]

theorem FormEvent.key_eq_mk_iff {e : FormEvent} {q : QualifiedName} {phase : Phase} :
    e.key = ⟨q.ns, q.name, phase⟩ ↔ e.definition = q ∧ e.phase = phase := by
  obtain ⟨ns, name⟩ := q
  constructor
  · intro h
    injection h with hns hname hphase
    exact ⟨by rw [definition, hns, hname], hphase⟩
  · rintro ⟨h, rfl⟩
    injection h with hns hname
    rw [key, hns, hname]

/-! ### The events of one definition -/

namespace DefinitionSummary

/-- What the events of one definition tell, one after the other. -/
def ofEvents? (events : List FormEvent) : Option DefinitionSummary :=
  events.foldl (fun d? e => some ((d?.getD (start e)).take e)) none

/-- A summary without its line. -/
def unplaced (d : DefinitionSummary) : DefinitionSummary := { d with line := none }

end DefinitionSummary

/-- Every definition is summarized from its own events, in their order. -/
theorem get?_groupDefinitions (events : List FormEvent) (q : QualifiedName) :
    (groupDefinitions events).get? q =
      DefinitionSummary.ofEvents? (events.filter (·.definition = q)) := by
  -- from the end, where the last event is taken into the summary of its definition
  induction events using List.reverseRecOn with
  | nil => rfl
  | append_singleton events e ih =>
    have hsnoc : groupDefinitions (events ++ [e]) = (groupDefinitions events).alter e.definition
        fun d => (d.getD (.start e)).take e := by
      rw [groupDefinitions, List.foldl_append]
      rfl
    rw [hsnoc, SortedMap.get?_alter, List.filter_append]
    by_cases hq : q = e.definition
    · subst hq
      rw [if_pos Std.ReflCmp.compare_self, ih, List.filter_cons_of_pos (by simp),
        DefinitionSummary.ofEvents?, DefinitionSummary.ofEvents?, List.foldl_append]
      rfl
    · rw [if_neg (by rwa [Std.LawfulEqCmp.compare_eq_iff_eq]), ih,
        List.filter_cons_of_neg (by simpa using Ne.symm hq), List.filter_nil, List.append_nil]

namespace DefinitionSummary

/-- The events of a definition, where no two have one key: one of each phase at most. -/
inductive Phases : List FormEvent → Prop
  | empty : Phases []
  | one (e : FormEvent) : Phases [e]
  | rawFirst (r e : FormEvent) (hr : r.phase = .raw) (he : e.phase = .expanded)
      (h : r.definition = e.definition) : Phases [r, e]
  | expandedFirst (r e : FormEvent) (hr : r.phase = .raw) (he : e.phase = .expanded)
      (h : r.definition = e.definition) : Phases [e, r]

theorem phases_of_nodup {l : List FormEvent} {q : QualifiedName} (hl : ∀ e ∈ l, e.definition = q)
    (hkeys : (l.map (·.key)).Nodup) : Phases l := by
  match l with
  | [] => exact .empty
  | [e] => exact .one e
  | [a, b] =>
    have hab : a.definition = b.definition := (hl a (by simp)).trans (hl b (by simp)).symm
    have hne : a.phase ≠ b.phase := by
      rw [ne_eq, ← FormEvent.key_eq_iff hab]
      simpa using hkeys
    cases hpa : a.phase <;> cases hpb : b.phase
    · exact absurd (hpa.trans hpb.symm) hne
    · exact .rawFirst a b hpa hpb hab
    · exact .expandedFirst b a hpb hpa hab.symm
    · exact absurd (hpa.trans hpb.symm) hne
  | a :: b :: c :: rest =>
    -- there are two phases only
    have hphase {x y : FormEvent} (hx : x ∈ a :: b :: c :: rest) (hy : y ∈ a :: b :: c :: rest)
        (hne : x.key ≠ y.key) : x.phase ≠ y.phase := by
      rwa [ne_eq, ← FormEvent.key_eq_iff ((hl x hx).trans (hl y hy).symm)]
    simp only [List.map_cons, List.nodup_cons, List.mem_cons, not_or] at hkeys
    obtain ⟨⟨hab, hac, -⟩, ⟨hbc, -⟩, -⟩ := hkeys
    have hab := hphase (by simp) (by simp) hab
    have hac := hphase (by simp) (by simp) hac
    have hbc := hphase (by simp) (by simp) hbc
    cases hpa : a.phase <;> cases hpb : b.phase <;> cases hpc : c.phase <;> simp_all

/-- Another order of the events of a definition is the same order, or the raw and the expanded
event change places. -/
theorem Phases.eq_or_swapped {l l' : List FormEvent} (hl : Phases l) (hperm : l'.Perm l) :
    l' = l ∨ ∃ r e, r.phase = .raw ∧ e.phase = .expanded ∧ r.definition = e.definition ∧
      (l = [r, e] ∧ l' = [e, r] ∨ l = [e, r] ∧ l' = [r, e]) := by
  cases hl with
  | empty => exact .inl hperm.eq_nil
  | one e => exact .inl (List.perm_singleton.mp hperm)
  | rawFirst r e hr he h =>
    rcases List.perm_pair.mp hperm with rfl | rfl
    · exact .inl rfl
    · exact .inr ⟨r, e, hr, he, h, .inl ⟨rfl, rfl⟩⟩
  | expandedFirst r e hr he h =>
    rcases List.perm_pair.mp hperm with rfl | rfl
    · exact .inl rfl
    · exact .inr ⟨r, e, hr, he, h, .inr ⟨rfl, rfl⟩⟩

section

variable {r e : FormEvent} (hr : r.phase = .raw) (he : e.phase = .expanded)

include hr he

theorem ofEvents?_rawFirst : ofEvents? [r, e] =
    some ⟨r.definition, r.kind, r.line, some r.form.size, some e.form.size⟩ := by
  simp [ofEvents?, take, start, hr, he, FormEvent.definition]

theorem ofEvents?_expandedFirst : ofEvents? [e, r] =
    some ⟨e.definition, r.kind, r.line.or e.line, some r.form.size, some e.form.size⟩ := by
  simp [ofEvents?, take, start, hr, he, FormEvent.definition]

end

/-- The line of a summary is that of the raw event, or else that of the first event. -/
theorem Phases.line {l : List FormEvent} (hl : Phases l) :
    (ofEvents? l).bind (·.line) =
      ((l.find? (·.phase = .raw)).bind (·.line)).or (l.head?.bind (·.line)) := by
  cases hl with
  | empty => rfl
  | one e => cases hphase : e.phase <;> simp [ofEvents?, take, start, hphase]
  | rawFirst r e hr he h =>
    rw [ofEvents?_rawFirst hr he]
    simp [hr]
  | expandedFirst r e hr he h =>
    rw [ofEvents?_expandedFirst hr he]
    simp [hr, he]

/-- Whatever the order of the events of a definition, its summary says the same but for the line. -/
theorem Phases.unplaced_perm {l l' : List FormEvent} (hl : Phases l) (hperm : l'.Perm l) :
    (ofEvents? l').map unplaced = (ofEvents? l).map unplaced := by
  rcases hl.eq_or_swapped hperm with rfl | ⟨r, e, hr, he, h, ⟨rfl, rfl⟩ | ⟨rfl, rfl⟩⟩
  · rfl
  · rw [ofEvents?_rawFirst hr he, ofEvents?_expandedFirst hr he, h]
    rfl
  · rw [ofEvents?_rawFirst hr he, ofEvents?_expandedFirst hr he, h]
    rfl

/-- Where the raw event has a line if the expanded event has one, the summary says the same. -/
theorem Phases.perm {l l' : List FormEvent} (hl : Phases l) (hperm : l'.Perm l)
    (hline : ∀ r ∈ l, ∀ e ∈ l, r.phase = .raw → e.phase = .expanded → r.line = none →
      e.line = none) : ofEvents? l' = ofEvents? l := by
  have hor {r e : FormEvent} (h : r.line = none → e.line = none) : r.line.or e.line = r.line := by
    cases hr : r.line with
    | none => rw [Option.none_or, h hr]
    | some n => rfl
  rcases hl.eq_or_swapped hperm with rfl | ⟨r, e, hr, he, h, ⟨rfl, rfl⟩ | ⟨rfl, rfl⟩⟩
  · rfl
  · rw [ofEvents?_rawFirst hr he, ofEvents?_expandedFirst hr he, h,
      hor (hline r (by simp) e (by simp) hr he)]
  · rw [ofEvents?_rawFirst hr he, ofEvents?_expandedFirst hr he, h,
      hor (hline r (by simp) e (by simp) hr he)]

end DefinitionSummary

/-! ### Maps that agree in part -/

namespace SortedMap

variable {κ β γ : Type} [Ord κ]

/-- The map with something made of every value. -/
def mapValues (m : SortedMap κ β) (f : β → γ) : SortedMap κ γ :=
  ⟨m.entries.map fun e => (e.1, f e.2), List.pairwise_map.mpr m.increasing⟩

theorem get?_mapValues (m : SortedMap κ β) (f : β → γ) (k : κ) :
    (m.mapValues f).get? k = (m.get? k).map f := by
  obtain ⟨l, h⟩ := m
  show lookup k (l.map fun e => (e.1, f e.2)) = (lookup k l).map f
  clear h
  induction l with
  | nil => rfl
  | cons e rest ih =>
    rw [List.map_cons, lookup, lookup]
    split
    · rfl
    · exact ih

/-- Maps of which something agrees at every key have values that agree in it. -/
theorem map_values_congr [Std.TransOrd κ] [Std.LawfulEqOrd κ] {m m' : SortedMap κ β} {f : β → γ}
    (h : ∀ k, (m.get? k).map f = (m'.get? k).map f) : m.values.map f = m'.values.map f := by
  have hmapped : m.mapValues f = m'.mapValues f := by
    refine ext_get? fun k => ?_
    rw [get?_mapValues, get?_mapValues, h]
  have hvalues (m : SortedMap κ β) : (m.mapValues f).values = m.values.map f := by
    simp only [values, mapValues, List.map_map]
    rfl
  rw [← hvalues, ← hvalues, hmapped]

end SortedMap

/-! ### All events -/

/-- Two elements of a list may be put in front of the others. -/
theorem exists_perm_of_mem_of_mem {α : Type} {l : List α} {a b : α} (ha : a ∈ l) (hb : b ∈ l)
    (hne : a ≠ b) : ∃ rest, l.Perm (a :: b :: rest) := by
  obtain ⟨l₁, l₂, rfl⟩ := List.append_of_mem ha
  have hrest : b ∈ l₁ ++ l₂ := by simpa [hne.symm] using hb
  obtain ⟨l₃, l₄, hsplit⟩ := List.append_of_mem hrest
  refine ⟨l₃ ++ l₄, List.perm_middle.trans ?_⟩
  rw [hsplit]
  exact List.perm_middle.cons a

section

variable {events : List FormEvent}

/-- The summaries are in the order of the definitions. -/
theorem pairwise_summarizeDefinitions (events : List FormEvent) :
    (summarizeDefinitions events).Pairwise fun a b => compare a.name b.name = .lt :=
  SortedMap.pairwise_values fun q d hd => (shows_groupDefinitions events q).name d hd

theorem mem_summarizeDefinitions {d : DefinitionSummary} : d ∈ summarizeDefinitions events ↔
    DefinitionSummary.ofEvents? (events.filter (·.definition = d.name)) = some d := by
  rw [← get?_groupDefinitions]
  constructor
  · intro hd
    obtain ⟨q, hq⟩ := SortedMap.mem_values.mp hd
    obtain rfl : d.name = q := (shows_groupDefinitions events q).name d hq
    exact hq
  · intro hd
    exact SortedMap.mem_values.mpr ⟨d.name, hd⟩

/-- There is a summary for each definition that an event is about. -/
theorem mem_names_summarizeDefinitions {q : QualifiedName} :
    q ∈ (summarizeDefinitions events).map (·.name) ↔ q ∈ events.map (·.definition) := by
  have hsome {l : List FormEvent} : (DefinitionSummary.ofEvents? l).isSome ↔ l ≠ [] := by
    induction l using List.reverseRecOn with
    | nil => simp [DefinitionSummary.ofEvents?]
    | append_singleton l e ih => simp [DefinitionSummary.ofEvents?, List.foldl_append]
  constructor
  · intro hq
    obtain ⟨d, hd, rfl⟩ := List.mem_map.mp hq
    have hne := hsome.mp (Option.isSome_of_eq_some (mem_summarizeDefinitions.mp hd))
    obtain ⟨e, he⟩ := List.exists_mem_of_ne_nil _ hne
    obtain ⟨hmem, hdefinition⟩ := List.mem_filter.mp he
    exact List.mem_map.mpr ⟨e, hmem, by simpa using hdefinition⟩
  · intro hq
    obtain ⟨e, he, rfl⟩ := List.mem_map.mp hq
    have hne : events.filter (·.definition = e.definition) ≠ [] :=
      List.ne_nil_of_mem (List.mem_filter.mpr ⟨he, by simp⟩)
    obtain ⟨d, hd⟩ := Option.isSome_iff_exists.mp (hsome.mpr hne)
    rw [← get?_groupDefinitions] at hd
    have hname := (shows_groupDefinitions events e.definition).name d hd
    exact List.mem_map.mpr ⟨d, SortedMap.mem_values.mpr ⟨_, hd⟩, hname⟩

/-- Where no two events have one key, the last event of a key is the only one. -/
theorem lastSize?_eq_some_iff (hkeys : (events.map (·.key)).Nodup) {k : FormKey} {size : FormSize} :
    lastSize? events k = some size ↔ ∃ e ∈ events, e.key = k ∧ e.form.size = size := by
  unfold lastSize?
  constructor
  · intro h
    obtain ⟨e, he, rfl⟩ := Option.map_eq_some_iff.mp h
    obtain ⟨hmem, hkey⟩ := List.mem_filter.mp (List.mem_of_getLast? he)
    exact ⟨e, hmem, by simpa using hkey, rfl⟩
  · rintro ⟨e, he, rfl, rfl⟩
    obtain ⟨x, hx⟩ : ∃ x, (events.filter (·.key = e.key)).getLast? = some x :=
      Option.isSome_iff_exists.mp (List.getLast?_isSome.mpr
        (List.ne_nil_of_mem (List.mem_filter.mpr ⟨he, by simp⟩)))
    obtain ⟨hmem, hkey⟩ := List.mem_filter.mp (List.mem_of_getLast? hx)
    obtain rfl := List.inj_on_of_nodup_map hkeys hmem he (by simpa using hkey)
    rw [hx]
    rfl

variable (hkeys : (events.map (·.key)).Nodup)

include hkeys

theorem phases_filter (q : QualifiedName) :
    DefinitionSummary.Phases (events.filter (·.definition = q)) :=
  DefinitionSummary.phases_of_nodup (fun e he => by simpa using (List.mem_filter.mp he).2)
    (hkeys.sublist (List.filter_sublist.map _))

/-- The line of a summary is that of the raw event, or else that of the first event. -/
theorem line_of_mem_summarizeDefinitions {d : DefinitionSummary}
    (hd : d ∈ summarizeDefinitions events) :
    d.line = ((events.find? (·.key = ⟨d.name.ns, d.name.name, .raw⟩)).bind (·.line)).or
      ((events.find? (·.definition = d.name)).bind (·.line)) := by
  have hline := (phases_filter hkeys d.name).line
  rw [mem_summarizeDefinitions.mp hd, Option.bind_some, List.find?_filter, List.head?_filter] at hline
  rw [hline]
  congr 3
  funext e
  rw [Bool.eq_iff_iff]
  simp [FormEvent.key_eq_mk_iff]

end

/-- A raw event without a line, in front of an expanded event that has one, leaves the summary
without a line; behind it, it does not. -/
theorem summarizeDefinitions_swap_ne {r e : FormEvent} {rest : List FormEvent}
    (hkeys : ((r :: e :: rest).map (·.key)).Nodup) (hdefinition : r.definition = e.definition)
    (hraw : r.phase = .raw) (hexpanded : e.phase = .expanded) (hnone : r.line = none)
    (hsome : e.line ≠ none) :
    summarizeDefinitions (r :: e :: rest) ≠ summarizeDefinitions (e :: r :: rest) := by
  intro hsame
  have hmem : r.definition ∈ (r :: e :: rest).map (·.definition) := by simp
  obtain ⟨d, hd, hname⟩ := List.mem_map.mp (mem_names_summarizeDefinitions.mpr hmem)
  have hswapped : ((e :: r :: rest).map (·.key)).Nodup :=
    ((List.Perm.swap e r rest).map _).nodup_iff.mp hkeys
  have hfirst := line_of_mem_summarizeDefinitions hkeys hd
  have hbehind := line_of_mem_summarizeDefinitions hswapped (hsame ▸ hd)
  have hrawKey : r.key = ⟨d.name.ns, d.name.name, .raw⟩ :=
    FormEvent.key_eq_mk_iff.mpr ⟨hname.symm, hraw⟩
  have hexpandedKey : ¬ e.key = ⟨d.name.ns, d.name.name, .raw⟩ := by
    intro hkey
    have hphase := (FormEvent.key_eq_mk_iff.mp hkey).2
    rw [hexpanded] at hphase
    cases hphase
  have hof : e.definition = d.name := hdefinition.symm.trans hname.symm
  simp only [List.find?_cons, hrawKey, hexpandedKey, hname.symm, hof, decide_true, decide_false,
    Option.bind_some, hnone, Option.none_or] at hfirst hbehind
  exact hsome (hbehind.symm.trans hfirst)

/-- Where no two events have one key, there is one summary for each definition, in order, with the
sizes of its events, and in whatever order the events come, the summaries say the same but for the
lines. The line is that of the raw event or else that of the definition's first event. So the order
of the events does not matter if and only if no raw event is without a line that the expanded event
of the definition has. -/
theorem summarizeDefinitions_perm_iff {events : List FormEvent}
    (hkeys : (events.map (·.key)).Nodup) :
    ((summarizeDefinitions events).Pairwise fun a b => compare a.name b.name = .lt) ∧
    (∀ q, q ∈ (summarizeDefinitions events).map (·.name) ↔ q ∈ events.map (·.definition)) ∧
    (∀ d ∈ summarizeDefinitions events,
      (∀ size, d.raw = some size ↔
        ∃ e ∈ events, e.key = ⟨d.name.ns, d.name.name, .raw⟩ ∧ e.form.size = size) ∧
      (∀ size, d.expanded = some size ↔
        ∃ e ∈ events, e.key = ⟨d.name.ns, d.name.name, .expanded⟩ ∧ e.form.size = size) ∧
      d.line = ((events.find? (·.key = ⟨d.name.ns, d.name.name, .raw⟩)).bind (·.line)).or
        ((events.find? (·.definition = d.name)).bind (·.line))) ∧
    (∀ events', events'.Perm events → (summarizeDefinitions events').map (·.unplaced) =
      (summarizeDefinitions events).map (·.unplaced)) ∧
    ((∀ events', events'.Perm events → summarizeDefinitions events' = summarizeDefinitions events) ↔
      ∀ r ∈ events, ∀ e ∈ events, r.definition = e.definition → r.phase = .raw →
        e.phase = .expanded → r.line = none → e.line = none) := by
  refine ⟨pairwise_summarizeDefinitions events, fun q => mem_names_summarizeDefinitions,
    fun d hd => ⟨?_, ?_, line_of_mem_summarizeDefinitions hkeys hd⟩, ?_, ?_, ?_⟩
  · intro size
    rw [← lastSize?_eq_some_iff hkeys, ← (shows_of_mem_summarizeDefinitions hd).raw]
    rfl
  · intro size
    rw [← lastSize?_eq_some_iff hkeys, ← (shows_of_mem_summarizeDefinitions hd).expanded]
    rfl
  · intro events' hperm
    refine SortedMap.map_values_congr fun q => ?_
    show ((groupDefinitions events').get? q).map _ = ((groupDefinitions events).get? q).map _
    rw [get?_groupDefinitions, get?_groupDefinitions]
    exact (phases_filter hkeys q).unplaced_perm (hperm.filter _)
  · intro hsame r hr e he hdefinition hraw hexpanded hnone
    by_contra hsome
    have hne : r ≠ e := by
      rintro rfl
      exact hsome hnone
    -- either of the two may come first of all
    obtain ⟨rest, hperm⟩ := exists_perm_of_mem_of_mem hr he hne
    have hswap : (e :: r :: rest).Perm events := (List.Perm.swap r e rest).trans hperm.symm
    refine summarizeDefinitions_swap_ne ((hperm.map _).nodup_iff.mp hkeys) hdefinition hraw
      hexpanded hnone hsome ?_
    rw [hsame _ hperm.symm, hsame _ hswap]
  · intro hline events' hperm
    refine congrArg SortedMap.values (SortedMap.ext_get? fun q => ?_)
    show (groupDefinitions events').get? q = (groupDefinitions events).get? q
    rw [get?_groupDefinitions, get?_groupDefinitions]
    refine (phases_filter hkeys q).perm (hperm.filter _) fun r hr e he => ?_
    obtain ⟨hr, hrq⟩ := List.mem_filter.mp hr
    obtain ⟨he, heq⟩ := List.mem_filter.mp he
    simp only [decide_eq_true_eq] at hrq heq
    exact hline r hr e he (hrq.trans heq.symm)

/-- `(def f 1)` -/
def plainForm : Form := .call [.sym "def", .sym "f", .int 1]

/-- A definition, one of which only the expanded form is known, and the first one expanded. -/
def interleaved : List FormEvent :=
  [⟨.raw, .function, "app", "f", some 1, none, plainForm⟩,
    ⟨.expanded, .value, "app", "e", some 2, none, plainForm⟩,
    ⟨.expanded, .function, "app", "f", none, none, plainForm⟩]

/-- Events of two definitions can be told in the opposite order. -/
theorem summarizeDefinitions_perm_iff_interleaved :
    (interleaved.map (·.key)).Nodup ∧
      summarizeDefinitions interleaved.reverse = summarizeDefinitions interleaved := by
  have hkeys : (interleaved.map (·.key)).Nodup := by decide
  have hlines : ∀ r ∈ interleaved, ∀ e ∈ interleaved, r.definition = e.definition →
      r.phase = .raw → e.phase = .expanded → r.line = none → e.line = none := by
    simp [interleaved]
  exact ⟨hkeys, (summarizeDefinitions_perm_iff hkeys).2.2.2.2.mpr hlines _
    (List.reverse_perm interleaved)⟩

/-- The raw form of a definition, of which no line is known. -/
def linelessRaw : FormEvent := ⟨.raw, .value, "app", "f", none, none, plainForm⟩

/-- The expanded form of it, at a line. -/
def lineExpanded : FormEvent := ⟨.expanded, .value, "app", "f", some 5, none, plainForm⟩

/-- If only the expanded form has a line, the summary has it in one order and lacks it in the
other. -/
theorem not_summarizeDefinitions_perm_lineless :
    ([linelessRaw, lineExpanded].map (·.key)).Nodup ∧
      [lineExpanded, linelessRaw].Perm [linelessRaw, lineExpanded] ∧
      summarizeDefinitions [lineExpanded, linelessRaw] ≠
        summarizeDefinitions [linelessRaw, lineExpanded] := by
  have hkeys : ([linelessRaw, lineExpanded].map (·.key)).Nodup := by decide
  exact ⟨hkeys, .swap _ _ _,
    (summarizeDefinitions_swap_ne hkeys rfl rfl rfl rfl (by decide)).symm⟩

end CompileWatch
