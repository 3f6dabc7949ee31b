import CompileWatch.Proofs.Compiler.InTurn
import CompileWatch.Proofs.Watching.FormCapture

/-!
# Raw and expanded forms in step

The raw form of a definition and its expansion are kept under keys of their own, and each
is replaced when a new one is captured. So after any compilations, an expanded form has a
raw form beside it, but not always the one that it is the expansion of: a definition that
is expanded to no other form replaces the raw form alone.

- `Namespaces.writtenInTurn`: the definitions that compilations in a row enter.
- `FormBuffer.InStep`: the expanded form of a name is the expansion of its raw form.
- `FormBuffer.inStep_take_iff`: when that is so.
- `Host.inStep_compileAll_iff`: when that is so after compilations in a row.
-/

namespace CompileWatch

/-! ### Pairs -/

namespace FormBuffer

/-- The expanded form of a name, if there is one, is the expansion of its raw form. -/
def InStep (b : FormBuffer) (ns name : String) : Prop :=
  ∀ e, b.get? ⟨ns, name, .expanded⟩ = some e →
    ∃ r, b.get? ⟨ns, name, .raw⟩ = some r ∧ r.form.expand = .ok (.changed e.form)

end FormBuffer

namespace Written

/-- A definition is changed to the form that its own is expanded to. -/
theorem changed?_eq_some_iff {d : Written} {g : Form} :
    d.changed? = some g ↔ d.form.expand = .ok (.changed g) := by
  unfold changed?
  cases d.form.expand with
  | error e => simp
  | ok e => cases e <;> simp [Expansion.new?]

/-- A definition that is changed has an expanded form. -/
theorem isSome_expanded? (d : Written) : d.expanded?.isSome = d.changed?.isSome :=
  Option.isSome_map

/-- The last expanded form of definitions is that of the last definition, where it has one. -/
theorem getLast?_filterMap_expanded? {l : List Written} {d : Written} {e : FormEvent}
    (hl : l.getLast? = some d) (hd : d.expanded? = some e) :
    (l.filterMap expanded?).getLast? = some e := by
  obtain ⟨init, rfl⟩ := List.getLast?_eq_some_iff.mp hl
  rw [List.filterMap_append, List.filterMap_cons_some hd]
  exact List.getLast?_concat

end Written

namespace FormBuffer

section

variable {l : List Written}

/-- An expanded form never stands alone. -/
theorem isSome_raw_of_expanded (hl : ∀ d ∈ l, d.name ≠ "") {ns name : String}
    (h : ((take {} l).get? ⟨ns, name, .expanded⟩).isSome) :
    ((take {} l).get? ⟨ns, name, .raw⟩).isSome := by
  rw [get?_take_empty_expanded hl] at h
  rw [get?_take_empty_raw hl, Option.isSome_map]
  cases hlast : (l.filter (Written.isOf ns name)).getLast? with
  | some d => rfl
  | none =>
    rw [List.getLast?_eq_none_iff.mp hlast] at h
    cases h

/-- A pair is in step when none of the definitions was expanded to another form, or the last
one was. -/
theorem inStep_take_iff (hl : ∀ d ∈ l, d.name ≠ "") (ns name : String) :
    (take {} l).InStep ns name ↔
      ∀ d ∈ l.filter (Written.isOf ns name), d.changed?.isSome →
        ∃ last ∈ (l.filter (Written.isOf ns name)).getLast?, last.changed?.isSome := by
  unfold InStep
  rw [get?_take_empty_expanded hl, get?_take_empty_raw hl]
  generalize l.filter (Written.isOf ns name) = written
  constructor
  · intro h d hd hchanged
    -- there is an expanded form, so the last definition has that expansion
    rw [← Written.isSome_expanded?] at hchanged
    obtain ⟨e, he⟩ := Option.isSome_iff_exists.mp hchanged
    have hne : written.filterMap Written.expanded? ≠ [] :=
      List.ne_nil_of_mem (List.mem_filterMap.mpr ⟨d, hd, he⟩)
    obtain ⟨r, hr, hexpand⟩ := h _ (List.getLast?_eq_some_getLast hne)
    obtain ⟨last, hlast, rfl⟩ := Option.map_eq_some_iff.mp hr
    refine ⟨last, hlast, ?_⟩
    rw [Written.changed?_eq_some_iff.mpr hexpand]
    rfl
  · intro h e he
    -- some definition has an expanded form, so the last one has
    obtain ⟨d, hd, hde⟩ := List.mem_filterMap.mp (List.mem_of_getLast? he)
    have hchanged : d.changed?.isSome := by
      rw [← Written.isSome_expanded?, hde]
      rfl
    obtain ⟨last, hlast, hlastChanged⟩ := h d hd hchanged
    obtain ⟨g, hg⟩ := Option.isSome_iff_exists.mp hlastChanged
    have hexpanded : last.expanded? = some (last.expandedTo g) := by
      rw [Written.expanded?, hg]
      rfl
    rw [Written.getLast?_filterMap_expanded? hlast hexpanded] at he
    obtain rfl := Option.some.inj he
    refine ⟨last.raw, ?_, Written.changed?_eq_some_iff.mp hg⟩
    rw [hlast]
    rfl

end

end FormBuffer

/-! ### Compilations in a row -/

/-- The definitions that sources write when they are compiled in a row. -/
def Namespaces.writtenInTurn (n : Namespaces) : List String → List Written
  | [] => []
  | source :: rest => n.written source ++ (n.after source).writtenInTurn rest

/-- Every definition that is written has a name. -/
theorem Namespaces.name_of_mem_writtenInTurn {n : Namespaces} {sources : List String} {d : Written}
    (hd : d ∈ n.writtenInTurn sources) : d.name ≠ "" := by
  induction sources generalizing n with
  | nil => cases hd
  | cons source rest ih =>
    rcases List.mem_append.mp hd with hd | hd
    · exact Namespaces.name_of_mem_written hd
    · exact ih hd

namespace Host

variable {h : Host Instrumentation} {o : Instrumentation}

/-- Compilations in a row add the definitions that they enter. -/
theorem idle_compileAll (hobserver : ∀ p, h.observer? p = some o) (hfaults : h.faults = {})
    (sources : List String) (c : Context) {s : CaptureState} {b : FormBuffer} (hs : s.Idle b) :
    (h.compileAll sources c s).2.Idle (b.take (h.namespaces.writtenInTurn sources)) := by
  induction sources generalizing h s b with
  | nil => exact hs
  | cons source rest ih =>
    have hone := idle_compile hobserver source c hs
    rw [map_shown_of_works (by rw [hfaults]; rfl)] at hone
    have hn := h.namespaces_compile source c s
    -- a compilation changes the namespaces of the host, and not its observers
    have hrest := ih (h := (h.compile Instrumentation.observer CaptureState.note source c s).2.1)
      hobserver hfaults hone
    rw [hn, ← FormBuffer.take_append] at hrest
    exact hrest

/-- After any compilations in a host that works, with the capturing observer at every point
and with nothing captured before, an expanded form has a raw form beside it. It is the
expansion of that raw form as long as no definition of the name was expanded to another
form, or the last one was; otherwise it is left from an earlier definition. -/
theorem inStep_compileAll_iff (h : Host Instrumentation) (o : Instrumentation)
    (hobserver : ∀ p, h.observer? p = some o) (hfaults : h.faults = {}) (sources : List String)
    (c : Context) (s : CaptureState) (hdepth : s.depth = 0) (hforms : s.session.forms = {})
    (ns name : String) :
    let forms := (h.compileAll sources c s).2.session.forms
    let written := (h.namespaces.writtenInTurn sources).filter (Written.isOf ns name)
    ((forms.get? ⟨ns, name, .expanded⟩).isSome → (forms.get? ⟨ns, name, .raw⟩).isSome) ∧
      (forms.InStep ns name ↔ ∀ d ∈ written, d.changed?.isSome →
        ∃ last ∈ written.getLast?, last.changed?.isSome) := by
  intro forms written
  have hidle := idle_compileAll hobserver hfaults sources c ⟨hdepth, hforms⟩
  have hname : ∀ d ∈ h.namespaces.writtenInTurn sources, d.name ≠ "" :=
    fun d hd => Namespaces.name_of_mem_writtenInTurn hd
  have hbuffer : forms = FormBuffer.take {} (h.namespaces.writtenInTurn sources) := hidle.forms
  rw [hbuffer]
  exact ⟨FormBuffer.isSome_raw_of_expanded hname, FormBuffer.inStep_take_iff hname ns name⟩

/-! A name that is defined by a function and by a value, in either order. The expansion of the
function stays beside the raw form of the value, which expands to nothing else. -/

/-- `(defn f [x] x)` -/
def functionForm : Form :=
  .list [.symbol { name := "defn", metadata := .atLine 1 },
    .symbol { name := "f", metadata := .atLine 1 },
    .vector [.symbol { name := "x", metadata := .atLine 1 }] (.span 1 1),
    .symbol { name := "x", metadata := .atLine 1 }] (.span 1 1)

/-- `(def f (fn f [x] x))` -/
def functionExpanded : Form :=
  .call [.sym "def", .symAt 1 "f",
    .call [.sym "fn", .sym "f", .vector [.symAt 1 "x"] (.span 1 1), .symAt 1 "x"]]

/-- `(def f 1)` -/
def valueForm : Form :=
  .list [.symbol { name := "def", metadata := .atLine 1 },
    .symbol { name := "f", metadata := .atLine 1 }, .int 1] (.span 1 1)

theorem written_functionForm :
    functionForm.written defaultNamespace = [⟨.function, "user", "f", functionForm⟩] := by cbv

theorem written_valueForm :
    valueForm.written defaultNamespace = [⟨.value, "user", "f", valueForm⟩] := by cbv

/-- A value that is redefined by a function: both forms that are captured are of the function. -/
theorem inStep_compileAll_iff_installed :
    let sources := ["(def f 1)", "(defn f [x] x)"]
    let forms := (installed.1.compileAll sources {} installed.2).2.session.forms
    (∀ p, installed.1.observer? p = some {}) ∧ installed.1.faults = {} ∧
      installed.2.depth = 0 ∧ installed.2.session.forms = {} ∧
      forms.get? ⟨"user", "f", .raw⟩ =
        some ⟨.raw, .function, "user", "f", some 1, some 1, functionForm⟩ ∧
      forms.get? ⟨"user", "f", .expanded⟩ =
        some ⟨.expanded, .function, "user", "f", some 1, some 1, functionExpanded⟩ ∧
      forms.InStep "user" "f" := by
  intro sources forms
  have hwritten : installed.1.namespaces.writtenInTurn sources =
      [⟨.value, "user", "f", valueForm⟩, ⟨.function, "user", "f", functionForm⟩] := by
    rw [Namespaces.writtenInTurn, Namespaces.writtenInTurn, Namespaces.writtenInTurn,
      Namespaces.written_of_single (f := valueForm) rfl, written_valueForm,
      Namespaces.written_of_single (f := functionForm) rfl, written_functionForm]
    rfl
  have hexpanded : (Written.mk .function "user" "f" functionForm).expanded? =
      some ⟨.expanded, .function, "user", "f", some 1, some 1, functionExpanded⟩ := by cbv
  have hsame : (Written.mk .value "user" "f" valueForm).expanded? = none := by cbv
  have hidle := idle_compileAll (h := installed.1) observer?_installed rfl sources {}
    (s := installed.2) (b := {}) ⟨rfl, rfl⟩
  have hforms : forms = FormBuffer.take {} _ := hidle.forms
  have hnamed : ∀ d ∈ installed.1.namespaces.writtenInTurn sources, d.name ≠ "" :=
    fun d hd => Namespaces.name_of_mem_writtenInTurn hd
  refine ⟨observer?_installed, rfl, rfl, rfl, ?_, ?_, ?_⟩
  · rw [hforms, FormBuffer.get?_take_empty_raw hnamed, hwritten]
    rfl
  · rw [hforms, FormBuffer.get?_take_empty_expanded hnamed, hwritten]
    show ([⟨.value, "user", "f", valueForm⟩, ⟨.function, "user", "f", functionForm⟩].filterMap
      Written.expanded?).getLast? = _
    rw [List.filterMap_cons_none hsame, List.filterMap_cons_some hexpanded]
    rfl
  · -- the function was expanded to another form, and it is the last definition
    refine (inStep_compileAll_iff installed.1 {} observer?_installed rfl sources {} installed.2
      rfl rfl "user" "f").2.mpr fun d _ _ => ?_
    rw [hwritten]
    exact ⟨⟨.function, "user", "f", functionForm⟩, rfl, by cbv⟩

/-- A function that is redefined by a value: the expanded form is left from the function. -/
theorem not_inStep_redefined :
    (∀ p, installed.1.observer? p = some {}) ∧ installed.1.faults = {} ∧
      installed.2.depth = 0 ∧ installed.2.session.forms = {} ∧
      ¬ (installed.1.compileAll ["(defn f [x] x)", "(def f 1)"] {}
        installed.2).2.session.forms.InStep "user" "f" := by
  refine ⟨observer?_installed, rfl, rfl, rfl, fun h => ?_⟩
  have hwritten : installed.1.namespaces.writtenInTurn ["(defn f [x] x)", "(def f 1)"] =
      [⟨.function, "user", "f", functionForm⟩, ⟨.value, "user", "f", valueForm⟩] := by
    rw [Namespaces.writtenInTurn, Namespaces.writtenInTurn, Namespaces.writtenInTurn,
      Namespaces.written_of_single (f := functionForm) rfl, written_functionForm,
      Namespaces.written_of_single (f := valueForm) rfl, written_valueForm]
    rfl
  have hidle := idle_compileAll (h := installed.1) observer?_installed rfl
    ["(defn f [x] x)", "(def f 1)"] {} (s := installed.2) (b := {}) ⟨rfl, rfl⟩
  rw [hidle.forms, hwritten, FormBuffer.inStep_take_iff (by simp)] at h
  -- the function was expanded to another form, and the value was not
  obtain ⟨last, hlast, hchanged⟩ :=
    h ⟨.function, "user", "f", functionForm⟩ (by simp [Written.isOf]) (by cbv)
  obtain rfl : last = ⟨.value, "user", "f", valueForm⟩ := by
    simpa [Written.isOf, eq_comm] using hlast
  have hkept : (Written.mk .value "user" "f" valueForm).changed?.isSome = false := by cbv
  rw [hkept] at hchanged
  cases hchanged

end Host

end CompileWatch
