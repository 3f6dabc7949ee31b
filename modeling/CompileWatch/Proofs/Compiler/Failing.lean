import CompileWatch.Compiler.Host
import CompileWatch.Proofs.Compiler.Steps
import CompileWatch.Proofs.Form.Parts

/-!
# Compilations that fail

A compilation ends at the first form that fails, and nothing is taken back of what was done before:
not of the forms before it, and not of what the form itself has done by then. A definition is known
from the moment at which its value is analyzed, so it stays when its value fails; and the parts of a
sequence that were evaluated stay when a later one fails.

- `Compile.exists_of_inTurn_error`: forms in a row fail at the first that does.
- `Compile.Fails`: how a form at top level fails, and what the host knows then.
- `Compile.Fails.of_compileForm`: a form at top level fails in no other way.
- `Host.namespaces_run_of_error`: what a host knows after a source that does not compile.
-/

namespace CompileWatch

variable {σ τ : Type}

namespace Compile

/-! ### Forms in a row -/

/-- Forms in a row fail at one of them, after those before it were run to their end. -/
theorem exists_of_inTurn_error {run : Form → Compile σ CompileSummary} {l : List Form}
    {m : Machine σ} {e : CompileError} (h : (inTurn run l m).1 = .error e) :
    ∃ earlier f later summary before, l = earlier ++ f :: later ∧
      inTurn run earlier m = (.ok summary, before) ∧ (run f before).1 = .error e ∧
      (inTurn run l m).2 = (run f before).2 := by
  induction l generalizing m with
  | nil => cases h
  | cons f rest ih =>
    cases hf : (run f m).1 with
    | error e' =>
      rw [inTurn, bind_run_error hf] at h ⊢
      cases h
      exact ⟨[], f, rest, {}, m, rfl, rfl, hf, rfl⟩
    | ok first =>
      have hrun (l : List Form) : inTurn run (f :: l) m =
          (inTurn run l >>= fun others => pure (first.append others)) (run f m).2 := by
        rw [inTurn, bind_run_ok hf]
      have hrest : (inTurn run rest (run f m).2).1 = .error e := by
        rw [hrun] at h
        cases hr : (inTurn run rest (run f m).2).1 with
        | error e' =>
          rw [bind_run_error hr] at h
          exact h
        | ok others =>
          rw [bind_run_ok hr] at h
          cases h
      obtain ⟨earlier, g, later, summary, before, rfl, hearlier, hg, hsnd⟩ := ih hrest
      refine ⟨f :: earlier, g, later, first.append summary, before, rfl, ?_, hg, ?_⟩
      · rw [hrun, bind_run_ok (congrArg Prod.fst hearlier), hearlier, pure_run]
      · rw [hrun, snd_bind_pure, hsnd]

/-! ### One form -/

/-- What the host knows after a form that failed when it was evaluated: the definition that the form
was to make, but for a definition without a name. -/
def leftBy (f : Form) (m : Machine σ) : Namespaces :=
  (Reached.mk f m.bare).defining?.elim m.namespaces fun d => d.known m.namespaces

variable {t : Setting σ τ} {f : Form} {m : Machine σ} {e : CompileError}

/-- A form that fails leaves the definition that it was about to make, if it was one. -/
theorem namespaces_of_evaluateStep_error (h : (evaluateStep t f m).1 = .error e) :
    (evaluateStep t f m).2.namespaces = leftBy f m := by
  rw [namespaces_evaluateStep, leftBy, Reached.leaves]
  obtain ⟨hop, heval⟩ | ⟨hop, -⟩ | ⟨hdeclaration, hdefine, -⟩ := evaluateStep_cases t f
  · -- a declaration fails for want of a name, and then changes nothing
    rw [Reached.defining?_of_ne (by rw [hop]; decide), hop]
    cases hname : (f.nth? 1).bind Form.symbol? with
    | none => rfl
    | some name =>
      rw [heval, enterNamespace, hname] at h
      cases h
  · rw [hop]
    rfl
  · rw [Reached.defining?_of_ne hdefine]
    split
    · contradiction
    · contradiction
    · rfl

/-- How a form at top level fails that a compilation comes to on a machine, and what the host knows
then: the form cannot be expanded, or one of the forms that are evaluated for it fails. -/
inductive Fails (t : Setting σ τ) (f : Form) (m : Machine σ) : Namespaces → Prop where
  | expansion {e : SyntaxError} (h : f.expand = .error e) : Fails t f m m.namespaces
  | step {x : Expansion} {done rest : List Form} {step : Form} {summary : CompileSummary}
    {reached : Machine σ} {e : CompileError} (hx : f.expand = .ok x)
    (hsteps : (x.form f).steps = done ++ step :: rest)
    (hdone : inTurn (evaluateStep t) done (expanded t f m) = (.ok summary, reached))
    (hstep : (evaluateStep t step reached).1 = .error e) : Fails t f m (leftBy step reached)

/-- A form at top level that does not compile fails in one of the ways. -/
theorem Fails.of_compileForm (h : (compileForm t f m).1 = .error e) :
    Fails t f m (compileForm t f m).2.namespaces := by
  rw [compileForm_run] at h ⊢
  cases hx : f.expand with
  | error se => exact .expansion hx
  | ok x =>
    rw [hx] at h
    have hfail : (inTurn (evaluateStep t) (x.form f).steps (expanded t f m)).1 = .error e := h
    obtain ⟨done, step, rest, summary, reached, hsteps, hdone, hstep, hsnd⟩ :=
      exists_of_inTurn_error hfail
    show Fails t f m (inTurn (evaluateStep t) (x.form f).steps (expanded t f m)).2.namespaces
    rw [hsnd, namespaces_of_evaluateStep_error hstep]
    exact .step hx hsteps hdone hstep

/-! ### Forms that leave nothing behind -/

/-- A form that is no sequence stands for itself. -/
theorem steps_of_head?_ne (h : f.head? ≠ some SpecialForm.sequence.name) : f.steps = [f] := by
  cases f with
  | list items m => exact if_neg h
  | _ => rfl

/-- A form that is no definition does not define anything. -/
theorem leftBy_of_head?_ne (h : f.head? ≠ some SpecialForm.define.name) :
    leftBy f m = m.namespaces := by
  have hdefine : f.head?.bind SpecialForm.ofName? ≠ some .define := by
    intro hop
    obtain ⟨name, hname, hop⟩ := Option.bind_eq_some_iff.mp hop
    have heq : SpecialForm.define.name = name := by simpa using List.find?_some hop
    exact h (heq ▸ hname)
  rw [leftBy, Reached.defining?_of_ne hdefine]
  rfl

/-- What is expanded to no sequence and no definition leaves nothing behind. -/
theorem Fails.eq_of_head?_ne {n : Namespaces} (h : Fails t f m n) {x : Expansion}
    (hx : f.expand = .ok x) (hsequence : (x.form f).head? ≠ some SpecialForm.sequence.name)
    (hdefine : (x.form f).head? ≠ some SpecialForm.define.name) : n = m.namespaces := by
  cases h with
  | expansion => rfl
  | @step x' done rest step summary reached e hx' hsteps hdone hstep =>
    rw [hx] at hx'
    cases hx'
    rw [steps_of_head?_ne hsequence] at hsteps
    cases done with
    | cons d done => simp at hsteps
    | nil =>
      cases hsteps
      cases hdone
      exact leftBy_of_head?_ne hdefine

end Compile

/-! ### A whole source -/

namespace Host

variable {ω : Type} (h : Host ω) (meaning : ω → Observer σ τ) (note : LogRecord → σ → σ)

/-- The state of a host and of its observers at the first form of a source. -/
def begun (c : Context) (s : σ) : Machine σ :=
  { h.machine c s with context := { ns := some defaultNamespace } }

/-- A source that can be read is compiled form by form. -/
theorem run_of_readAll {source : String} {forms : List Form} (hread : readAll source = .ok forms)
    (c : Context) (s : σ) :
    h.run meaning note source c s =
      ((Compile.inTurn (Compile.compileForm (h.setting meaning note)) forms (h.begun c s)).1,
        { (Compile.inTurn (Compile.compileForm (h.setting meaning note)) forms (h.begun c s)).2 with
          context := c }) := by
  rw [run, Compile.compile, hread]
  rfl

/-- A source that does not compile cannot be read, or fails at one of its forms. What the host knows
then is what it knows when a source of the forms before it was compiled, and what the form itself has
left behind: the definitions that were made for it before it failed, and the one that failed. A form
that cannot be expanded, or is expanded to no sequence and no definition, leaves nothing behind. -/
theorem namespaces_run_of_error {source : String} {c : Context} {s : σ} {e : CompileError}
    (hfail : (h.run meaning note source c s).1 = .error e) :
    let t := h.setting meaning note
    let known := (h.run meaning note source c s).2.namespaces
    (∃ unread, readAll source = .error unread ∧ known = h.namespaces) ∨
      ∃ earlier f later summary before,
        readAll source = .ok (earlier ++ f :: later) ∧
          Compile.inTurn (Compile.compileForm t) earlier (h.begun c s) = (.ok summary, before) ∧
          (∀ shorter, readAll shorter = .ok earlier →
            h.run meaning note shorter c s = (.ok summary, { before with context := c })) ∧
          Compile.Fails t f before known ∧
          (∀ x, f.expand = .ok x → (x.form f).head? ≠ some SpecialForm.sequence.name →
            (x.form f).head? ≠ some SpecialForm.define.name → known = before.namespaces) := by
  intro t known
  cases hread : readAll source with
  | error unread =>
    refine .inl ⟨unread, rfl, ?_⟩
    show (Compile.compile t source (h.machine c s)).2.namespaces = _
    rw [Compile.compile, hread]
    rfl
  | ok forms =>
    right
    have hrun := h.run_of_readAll meaning note hread c s
    rw [hrun] at hfail
    obtain ⟨earlier, f, later, summary, before, rfl, hearlier, hf, hsnd⟩ :=
      Compile.exists_of_inTurn_error hfail
    have hknown : known = (Compile.compileForm t f before).2.namespaces :=
      (congrArg (·.2.namespaces) hrun).trans (congrArg Machine.namespaces hsnd)
    have hfails := Compile.Fails.of_compileForm hf
    rw [← hknown] at hfails
    refine ⟨earlier, f, later, summary, before, rfl, hearlier, fun shorter hshorter => ?_, hfails,
      fun x hx => hfails.eq_of_head?_ne hx⟩
    rw [h.run_of_readAll meaning note hshorter, hearlier]

/-- A new host. -/
def unwatched : Host Empty := {}

/-- What comes of a source in a new host that nobody observes. -/
def firstRun (source : String) : Except CompileError CompileSummary × Machine Unit :=
  unwatched.run (τ := Unit) Empty.elim (fun _ s => s) source {} ()

/-- What comes of forms that are expanded to themselves: each is evaluated as it stands. -/
theorem firstRun_of_unchanged {source : String} {forms : List Form}
    (hread : readAll source = .ok forms) (hforms : ∀ f ∈ forms, f.expand = .ok .unchanged) :
    let ran := Compile.inTurn (Compile.evaluateForm Setting.unobserved) forms (unwatched.begun {} ())
    firstRun source = (ran.1, { ran.2 with context := {} }) := by
  intro ran
  have hforms : Compile.inTurn (Compile.compileForm (unwatched.setting (τ := Unit) Empty.elim
      fun _ s => s)) forms = Compile.inTurn (Compile.evaluateForm Setting.unobserved) forms :=
    Compile.inTurn_congr fun f hf => Compile.compileForm_of_unchanged (hforms f hf) _
  rw [firstRun, unwatched.run_of_readAll _ _ hread, hforms]

/-- The second form fails. The definition of the first one stays, and that of the second is known
although it was not made. -/
theorem namespaces_run_of_error_second :
    let ran := firstRun "(def a 1) (def b c)"
    (∃ e, ran.1 = .error e) ∧
      (∃ earlier f later before, readAll "(def a 1) (def b c)" = .ok (earlier ++ f :: later) ∧
        Compile.Fails Setting.unobserved f before ran.2.namespaces) ∧
      (ran.2.namespaces.find? "a" "user").isSome ∧ (ran.2.namespaces.find? "b" "user").isSome := by
  intro ran
  have hread : readAll "(def a 1) (def b c)" =
      .ok [.listAt 1 [.symAt 1 "def", .symAt 1 "a", .int 1],
        .listAt 1 [.symAt 1 "def", .symAt 1 "b", .symAt 1 "c"]] := rfl
  have hone : (Form.listAt 1 [.symAt 1 "def", .symAt 1 "a", .int 1]).expand =
      .ok .unchanged := by cbv
  have hother : (Form.listAt 1 [.symAt 1 "def", .symAt 1 "b", .symAt 1 "c"]).expand =
      .ok .unchanged := by cbv
  have hran : ran = _ := firstRun_of_unchanged hread
    (List.forall_mem_cons.mpr ⟨hone, List.forall_mem_singleton.mpr hother⟩)
  have hfail : ran.1 = .error (.unresolved { name := "c", metadata := .atLine 1 }) := by
    rw [hran]
    rfl
  refine ⟨⟨_, hfail⟩, ?_, ?_⟩
  · rcases namespaces_run_of_error unwatched Empty.elim (fun _ s => s) hfail with
      ⟨unread, hunread, -⟩ | ⟨earlier, f, later, summary, before, hread, -, -, hfails, -⟩
    · rw [hread] at hunread
      cases hunread
    · exact ⟨earlier, f, later, before, hread, hfails⟩
  · rw [hran]
    exact ⟨rfl, rfl⟩

/-! A form can fail and leave something behind: a definition whose value fails, or the parts of a
sequence before the one that fails. -/

/-- The only form of a source fails, and yet the host knows more than after a source without any. -/
theorem left_behind :
    (∃ f e, readAll "(def x y)" = .ok [f] ∧ (firstRun "(def x y)").1 = .error e) ∧
      (∃ f e, readAll "(do (def a 1) b)" = .ok [f] ∧
        (firstRun "(do (def a 1) b)").1 = .error e) ∧
      readAll "" = .ok [] ∧
      (firstRun "(def x y)").2.namespaces ≠ (firstRun "").2.namespaces ∧
      (firstRun "(do (def a 1) b)").2.namespaces ≠ (firstRun "").2.namespaces := by
  have hvalue : readAll "(def x y)" =
      .ok [.listAt 1 [.symAt 1 "def", .symAt 1 "x", .symAt 1 "y"]] := rfl
  have hsequence : readAll "(do (def a 1) b)" =
      .ok [.listAt 1 [.symAt 1 "do", .listAt 1 [.symAt 1 "def", .symAt 1 "a", .int 1],
        .symAt 1 "b"]] := rfl
  have hvalueRun := firstRun_of_unchanged hvalue (List.forall_mem_singleton.mpr (by cbv))
  have hsequenceRun := firstRun_of_unchanged hsequence (List.forall_mem_singleton.mpr (by cbv))
  have hempty : (firstRun "").2.namespaces = Namespaces.initial := rfl
  rw [hempty, hvalueRun, hsequenceRun]
  refine ⟨⟨_, _, hvalue, rfl⟩, ⟨_, _, hsequence, rfl⟩, rfl, fun heq => ?_, fun heq => ?_⟩
  · have hx := congrArg (fun n : Namespaces => (n.find? "x" "user").isSome) heq
    exact absurd hx (by decide +kernel)
  · have ha := congrArg (fun n : Namespaces => (n.find? "a" "user").isSome) heq
    exact absurd ha (by decide +kernel)

end Host

end CompileWatch
