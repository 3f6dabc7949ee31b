import CompileWatch.Watching.Instrumentation

/-!
# Written definitions

A definition that is written in a source gives rise to one form event, or to two where its
expansion is another form. A buffer that takes the events of definitions in a row holds, for
each name, the raw form of the last one, and the expansion of the last one that has any.

- `Written`: a definition as it was written, and the events it gives rise to.
- `FormBuffer.get?_foldl_capture`: taking events in a row.
- `FormBuffer.take`: taking definitions in a row.
- `FormBuffer.get?_take_raw`, `FormBuffer.get?_take_expanded`: what is there afterwards.
-/

namespace CompileWatch

/-- A definition as it was written, in the namespace where it was written. -/
structure Written where
  kind : DefKind
  ns : String
  name : String
  form : Form

namespace Written

/-- The definition that a form writes in a namespace, if it is one: a list whose operator is
a defining one and whose second element is a symbol. -/
def ofForm? (ns : String) (f : Form) : Option Written := do
  let kind ← f.defKind?
  let name ← f.definedName?
  return ⟨kind, ns, name, f⟩

/-- Whether it is a definition of a name in a namespace. -/
def isOf (ns name : String) (d : Written) : Bool := d.ns == ns && d.name == name

/-- The form that takes its place, where expansion succeeds and gives another form. -/
def changed? (d : Written) : Option Form :=
  match d.form.expand with
  | .ok e => e.new?
  | .error _ => none

/-- The form as it was written, with its lines. -/
def raw (d : Written) : FormEvent :=
  ⟨.raw, d.kind, d.ns, d.name, d.form.line?, d.form.endLine?, d.form⟩

/-- Another form in its place, with the lines of that form as far as it has any. -/
def expandedTo (d : Written) (g : Form) : FormEvent :=
  let (line, endLine) := g.position d.form.line?
  ⟨.expanded, d.kind, d.ns, d.name, line, endLine.or d.form.endLine?, g⟩

/-- The expanded form, where there is another one. -/
def expanded? (d : Written) : Option FormEvent := d.changed?.map d.expandedTo

/-- Both events, the raw one first. -/
def events (d : Written) : List FormEvent := d.raw :: d.expanded?.toList

/-- A form writes a definition if it has a defining operator and a name. -/
theorem ofForm?_eq_some_iff {ns : String} {f : Form} {d : Written} :
    ofForm? ns f = some d ↔
      f.defKind? = some d.kind ∧ f.definedName? = some d.name ∧ d.ns = ns ∧ d.form = f := by
  obtain ⟨kind, ns', name, f'⟩ := d
  unfold ofForm?
  cases f.defKind? <;> cases f.definedName? <;> simp [eq_comm, and_left_comm]

/-- The definition keeps the form that wrote it. -/
theorem form_of_ofForm? {ns : String} {f : Form} {d : Written} (h : ofForm? ns f = some d) :
    d.form = f := (ofForm?_eq_some_iff.mp h).2.2.2

theorem key_raw (d : Written) : d.raw.key = ⟨d.ns, d.name, .raw⟩ := rfl

theorem key_expandedTo (d : Written) (g : Form) : (d.expandedTo g).key = ⟨d.ns, d.name, .expanded⟩ :=
  rfl

/-- The expanded event has the key of the name, in the expanded phase. -/
theorem key_of_expanded? {d : Written} {e : FormEvent} (h : d.expanded? = some e) :
    e.key = ⟨d.ns, d.name, .expanded⟩ := by
  obtain ⟨g, -, rfl⟩ := Option.map_eq_some_iff.mp h
  exact d.key_expandedTo g

/-- A definition is of a name if it has its namespace and its name. -/
theorem isOf_iff {d : Written} {ns name : String} : d.isOf ns name ↔ d.ns = ns ∧ d.name = name := by
  simp [isOf]

/-- Both events have the name of the definition. -/
theorem name_of_mem_events {d : Written} {e : FormEvent} (h : e ∈ d.events) : e.name = d.name := by
  rcases List.mem_cons.mp h with rfl | h
  · rfl
  · obtain ⟨g, -, rfl⟩ := Option.map_eq_some_iff.mp (Option.mem_toList.mp h)
    rfl

/-! ### The events of one name -/

/-- The raw events of a name are those of its definitions. -/
theorem filter_raw (ns name : String) (l : List Written) :
    (l.flatMap events).filter (·.key = ⟨ns, name, .raw⟩) =
      (l.filter (isOf ns name)).map raw := by
  induction l with
  | nil => rfl
  | cons d rest ih =>
    -- the other event of a definition has another key
    have hexpanded : d.expanded?.toList.filter (·.key = ⟨ns, name, .raw⟩) = [] := by
      refine List.filter_eq_nil_iff.mpr fun e he => ?_
      rw [key_of_expanded? (Option.mem_toList.mp he)]
      simp
    rw [List.flatMap_cons, List.filter_append, ih, events, List.filter_cons, hexpanded, key_raw]
    by_cases hd : d.isOf ns name
    · obtain ⟨rfl, rfl⟩ := isOf_iff.mp hd
      simp [hd]
    · have hne : ¬ (d.ns = ns ∧ d.name = name) := fun h => hd (isOf_iff.mpr h)
      simp [hd, hne]

/-- The expanded events of a name are those of its definitions that have any. -/
theorem filter_expanded (ns name : String) (l : List Written) :
    (l.flatMap events).filter (·.key = ⟨ns, name, .expanded⟩) =
      (l.filter (isOf ns name)).filterMap expanded? := by
  induction l with
  | nil => rfl
  | cons d rest ih =>
    rw [List.flatMap_cons, List.filter_append, ih, events, List.filter_cons, key_raw]
    by_cases hd : d.isOf ns name
    · obtain ⟨rfl, rfl⟩ := isOf_iff.mp hd
      rw [List.filter_cons_of_pos hd]
      cases he : d.expanded? with
      | none => simp [he]
      | some e => simp [he, key_of_expanded? he]
    · have hne : ¬ (d.ns = ns ∧ d.name = name) := fun h => hd (isOf_iff.mpr h)
      rw [List.filter_cons_of_neg hd]
      cases he : d.expanded? with
      | none => simp
      | some e => simp [key_of_expanded? he, hne]

end Written

/-! ### Taking events -/

namespace FormBuffer

theorem enabled_capture (b : FormBuffer) (e : FormEvent) : (b.capture e).enabled = b.enabled := by
  unfold capture
  split <;> rfl

/-- An event that is taken shows at its own key and nowhere else. -/
theorem get?_capture {b : FormBuffer} (hb : b.enabled) {e : FormEvent} (he : e.name ≠ "")
    (k : FormKey) : (b.capture e).get? k = if e.key = k then some e else b.get? k := by
  have haccepts : b.accepts e := by simp [accepts, hb, he]
  rw [capture, if_pos haccepts]
  show (b.events.insert e.key e).get? k = _
  rw [SortedMap.get?_insert]
  by_cases hk : e.key = k
  · rw [if_pos hk, if_pos]
    rw [hk]
    exact Std.ReflCmp.compare_self
  · rw [if_neg hk, if_neg]
    · rfl
    · exact fun h => hk (Std.LawfulEqCmp.eq_of_compare h).symm

/-- The last event of a key stays. -/
theorem get?_foldl_capture {b : FormBuffer} (hb : b.enabled) {es : List FormEvent}
    (he : ∀ e ∈ es, e.name ≠ "") (k : FormKey) :
    (es.foldl capture b).get? k = ((es.filter (·.key = k)).getLast?).or (b.get? k) := by
  induction es generalizing b with
  | nil => rfl
  | cons e rest ih =>
    obtain ⟨hname, hrest⟩ := List.forall_mem_cons.mp he
    rw [List.foldl_cons, ih (by rw [enabled_capture, hb]) hrest, get?_capture hb hname]
    by_cases hk : e.key = k
    · rw [if_pos hk, List.filter_cons_of_pos (by simpa using hk), List.getLast?_cons]
      cases (rest.filter (·.key = k)).getLast? <;> rfl
    · rw [if_neg hk, List.filter_cons_of_neg (by simpa using hk)]

/-- Take the events of definitions in a row. -/
def take (b : FormBuffer) (l : List Written) : FormBuffer := (l.flatMap Written.events).foldl capture b

/-- Definitions are taken one after the other. -/
theorem take_append (b : FormBuffer) (l l' : List Written) :
    b.take (l ++ l') = (b.take l).take l' := by
  simp [take]

/-- A buffer that is switched off takes nothing. -/
theorem take_of_disabled {b : FormBuffer} (hb : b.enabled = false) (l : List Written) :
    b.take l = b := by
  unfold take
  induction l.flatMap Written.events with
  | nil => rfl
  | cons e rest ih => rw [List.foldl_cons, capture, if_neg (by simp [accepts, hb]), ih]

section

variable {b : FormBuffer} {l : List Written}

/-- A key shows the last event of it that was taken, or what it showed before. -/
theorem get?_take (hb : b.enabled) (hl : ∀ d ∈ l, d.name ≠ "") (k : FormKey) :
    (b.take l).get? k = (((l.flatMap Written.events).filter (·.key = k)).getLast?).or (b.get? k) := by
  refine get?_foldl_capture hb (fun e he => ?_) k
  obtain ⟨d, hd, he⟩ := List.mem_flatMap.mp he
  rw [Written.name_of_mem_events he]
  exact hl d hd

/-- The raw form of a name is that of its last definition. -/
theorem get?_take_raw (hb : b.enabled) (hl : ∀ d ∈ l, d.name ≠ "") (ns name : String) :
    (b.take l).get? ⟨ns, name, .raw⟩ =
      ((l.filter (Written.isOf ns name)).getLast?.map Written.raw).or (b.get? ⟨ns, name, .raw⟩) := by
  rw [get?_take hb hl, Written.filter_raw, List.getLast?_map]

/-- The expanded form of a name is that of its last definition that has one. -/
theorem get?_take_expanded (hb : b.enabled) (hl : ∀ d ∈ l, d.name ≠ "") (ns name : String) :
    (b.take l).get? ⟨ns, name, .expanded⟩ =
      ((l.filter (Written.isOf ns name)).filterMap Written.expanded?).getLast?.or
        (b.get? ⟨ns, name, .expanded⟩) := by
  rw [get?_take hb hl, Written.filter_expanded]

/-! In an empty buffer nothing else is there. -/

/-- From an empty buffer, the raw form of a name is that of its last definition. -/
theorem get?_take_empty_raw (hl : ∀ d ∈ l, d.name ≠ "") (ns name : String) :
    (take {} l).get? ⟨ns, name, .raw⟩ =
      (l.filter (Written.isOf ns name)).getLast?.map Written.raw := by
  rw [get?_take_raw rfl hl]
  exact Option.or_none

/-- From an empty buffer, the expanded form of a name is that of its last definition with one. -/
theorem get?_take_empty_expanded (hl : ∀ d ∈ l, d.name ≠ "") (ns name : String) :
    (take {} l).get? ⟨ns, name, .expanded⟩ =
      ((l.filter (Written.isOf ns name)).filterMap Written.expanded?).getLast? := by
  rw [get?_take_expanded rfl hl]
  exact Option.or_none

end

end FormBuffer

end CompileWatch
