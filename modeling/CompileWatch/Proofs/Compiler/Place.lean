import CompileWatch.Proofs.Compiler.Agreement
import CompileWatch.Proofs.Expansion.Inherited

/-!
# Where a compilation stands

Only a declaration moves a thread to another namespace, and everything else leaves the
thread where it is. A namespace is declared by a symbol, and a symbol has a name, so the
thread never comes to stand in a namespace without one. From one form to the next, it stands
in no definition.

- `Compile.Stays`: a computation keeps a property of where the thread stands.
- `Compile.stays_define`, `Compile.stays_analyze`: what moves no thread.
- `Compile.Confines`: forms that leave a thread where it has a property.
- `Context.AtTopLevel`: a thread stands in a namespace with a name, and in no definition.
- `Compile.confines_named`: between forms it always does.
-/

namespace CompileWatch

namespace Form

mutual

/-- What is evaluated for a form is a part of it. -/
theorem part_of_mem_steps {f g : Form} (hg : g ∈ f.steps) : Part g f := by
  cases f with
  | list items m =>
    rw [steps] at hg
    split at hg
    · obtain ⟨c, hc, hpart⟩ := part_of_mem_stepsTail hg
      exact .inside hc hpart
    · rw [List.mem_singleton.mp hg]
      exact .here
  | _ =>
    rw [List.mem_singleton.mp hg]
    exact .here

theorem part_of_mem_stepsTail {l : List Form} {g : Form} (hg : g ∈ stepsTail l) :
    ∃ c ∈ l, Part g c := by
  cases l with
  | nil => cases hg
  | cons f rest =>
    obtain ⟨c, hc, hpart⟩ := part_of_mem_stepsAll hg
    exact ⟨c, .tail f hc, hpart⟩

/-- A step of forms in a row is a part of one of them. -/
theorem part_of_mem_stepsAll {l : List Form} {g : Form} (hg : g ∈ stepsAll l) :
    ∃ c ∈ l, Part g c := by
  cases l with
  | nil => cases hg
  | cons f rest =>
    rcases List.mem_append.mp hg with hg | hg
    · exact ⟨f, List.mem_cons_self, part_of_mem_steps hg⟩
    · obtain ⟨c, hc, hpart⟩ := part_of_mem_stepsAll hg
      exact ⟨c, .tail f hc, hpart⟩

end

end Form

/-- A thread stands in a namespace with a name that can be written, and in no definition. -/
structure Context.AtTopLevel (c : Context) : Prop where
  named : c.namespaceName ≠ ""
  bare : '[' ∉ c.namespaceName.toList
  outside : c.enclosing = none

/-- Every thread starts at top level. -/
theorem Context.atTopLevel_start : AtTopLevel { ns := some defaultNamespace } :=
  ⟨by decide, by decide, rfl⟩

namespace Compile

variable {σ τ α β : Type}

/-- However a computation ends, the thread stands where it has the property `P`, if that
is so in the beginning. -/
def Stays (P : Context → Prop) (x : Compile σ α) : Prop :=
  ∀ m, P m.context → P (x m).2.context

section

variable {P : Context → Prop}

theorem stays_pure (a : α) : Stays P (pure a : Compile σ α) := fun _ h => h

theorem stays_throw (e : CompileError) : Stays P (throw e : Compile σ α) := fun _ h => h

/-- Where two computations stay, both of them in a row do. -/
theorem stays_bind {x : Compile σ α} {f : α → Compile σ β} (hx : Stays P x)
    (hf : ∀ a, Stays P (f a)) : Stays P (x >>= f) := by
  intro m hm
  cases h : (x m).1 with
  | ok a =>
    rw [bind_run_ok h]
    exact hf a _ (hx m hm)
  | error e =>
    rw [bind_run_error h]
    exact hx m hm

theorem stays_get_bind {f : Machine σ → Compile σ α} (h : ∀ m, Stays P (f m)) :
    Stays P (get >>= f) := fun m hm => h m m hm

/-- A change that does not touch the context moves no thread. -/
theorem stays_change {f : Machine σ → Machine σ} (h : ∀ m, (f m).context = m.context) :
    Stays P (change f) := by
  intro m hm
  rw [change_run, h m]
  exact hm

/-- The thread goes back after a computation, wherever that one went. -/
theorem stays_within (f : Context → Context) (x : Compile σ α) : Stays P (within f x) :=
  fun _ hm => hm

/-- What moves no thread for any item moves none for a list of them. -/
theorem stays_mapM {ι : Type} {f : ι → Compile σ α} (h : ∀ i, Stays P (f i)) (l : List ι) :
    Stays P (l.mapM f) := by
  induction l with
  | nil => exact stays_pure []
  | cons i rest ih =>
    rw [List.mapM_cons]
    exact stays_bind (h i) fun a => stays_bind ih fun as => stays_pure (a :: as)

/-- Forms in a row move no thread if none of them does. -/
theorem stays_inTurn {run : Form → Compile σ CompileSummary} {l : List Form}
    (h : ∀ f ∈ l, Stays P (run f)) : Stays P (inTurn run l) := by
  induction l with
  | nil => exact stays_pure ({} : CompileSummary)
  | cons f rest ih =>
    obtain ⟨hf, hrest⟩ := List.forall_mem_cons.mp h
    exact stays_bind hf fun first => stays_bind (ih hrest) fun others =>
      stays_pure (first.append others)

/-! ### Routines that move no thread -/

variable {t : Setting σ τ}

/-- Telling the observers moves no thread. -/
theorem stays_tell (p : Point) (f : Observer σ τ → HostView → σ → σ) :
    Stays P (change (t.tell p f)) := by
  refine stays_change fun m => ?_
  unfold Setting.tell
  split <;> rfl

theorem stays_refer (s : Symbol) : Stays P (refer t s) := by
  refine stays_bind (stays_tell _ _) fun _ => stays_get_bind fun m => ?_
  split
  · exact stays_throw _
  · split
    · exact stays_pure _
    · exact stays_bind (stays_tell _ _) fun _ => stays_pure _

theorem stays_analyze (f : Form) : Stays P (analyze t f) := by
  refine stays_bind (stays_mapM stays_refer _) fun refs => ?_
  split
  · exact stays_throw _
  · exact stays_pure _

/-- A definition moves the thread for the time of its value only. -/
theorem stays_define (f : Form) : Stays P (define t f) := by
  unfold define
  cases (f.nth? 1).bind Form.symbol? with
  | none => exact stays_throw _
  | some name =>
    refine stays_get_bind fun m => ?_
    refine stays_bind (stays_change fun _ => rfl) fun _ => ?_
    refine stays_bind (stays_within _ _) fun refs => ?_
    refine stays_bind (stays_mapM (fun arity => ?_) _) fun units => ?_
    · exact stays_bind (stays_change fun _ => rfl) fun _ => stays_pure _
    · exact stays_bind (stays_change fun _ => rfl) fun _ => stays_pure _

end

/-! ### The top level -/

/-- Forms with the property `F` leave a thread where it has the property `P`: what is evaluated for
such a form is such a form, and a namespace that one of them declares is a place with `P`. -/
structure Confines (F : Form → Prop) (P : Context → Prop) : Prop where
  steps {f g : Form} {e : Expansion} (h : F f) (he : f.expand = .ok e) (hg : g ∈ (e.form f).steps) :
    F g
  declared {f : Form} {name : Symbol} (h : F f) (hname : (f.nth? 1).bind Form.symbol? = some name)
    {c : Context} (hc : P c) : P { c with ns := some name.text }
  line {c : Context} (line : Option Nat) (hc : P c) : P { c with line := line }

namespace Confines

variable {F : Form → Prop} {P : Context → Prop} (confines : Confines F P) {f : Form}

include confines

/-- A declaration moves the thread to a namespace of the kind that is confined. -/
theorem stays_enterNamespace (h : F f) : Stays P (enterNamespace f : Compile σ CompileSummary) := by
  unfold enterNamespace
  cases hn : (f.nth? 1).bind Form.symbol? with
  | none => exact stays_throw _
  | some name =>
    refine stays_bind (stays_change fun _ => rfl) fun _ => ?_
    exact stays_bind (fun m hm => confines.declared h hn hm) fun _ => stays_pure _

variable {t : Setting σ τ}

/-- A form that is evaluated leaves the thread in a namespace of the confined kind. -/
theorem stays_evaluateStep (h : F f) : Stays P (evaluateStep t f) := by
  unfold evaluateStep
  split
  · exact confines.stays_enterNamespace h
  · exact stays_define f
  · exact stays_bind (stays_analyze f) fun _ => stays_pure _

/-- Expansion is reported, and moves no thread. -/
theorem expanded {m : Machine σ} (hm : P m.context) : P (Compile.expanded t f m).context :=
  confines.line f.line? hm

theorem stays_compileForm (h : F f) : Stays P (compileForm t f) := by
  intro m hm
  rw [compileForm_run]
  have hexpanded : P (Compile.expanded t f m).context := confines.expanded hm
  cases he : f.expand with
  | error e => exact hexpanded
  | ok e =>
    exact stays_inTurn (fun g hg => confines.stays_evaluateStep (confines.steps h he hg)) _ hexpanded

end Confines

/-- Forms in which every symbol has a name never leave for a namespace that has none. -/
theorem confines_named : Confines Form.Named Context.AtTopLevel where
  steps h he hg := (Form.named_expand h _ he).part (Form.part_of_mem_steps hg)
  declared h hname _ hc :=
    have hproper := h.nth?_symbol hname
    ⟨Symbol.text_ne_empty hproper.1, hproper.2, hc.outside⟩
  line _ hc := ⟨hc.named, hc.bare, hc.outside⟩

end Compile

end CompileWatch
