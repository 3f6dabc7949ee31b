import CompileWatch.Proofs.Compiler.Told

/-!
# How definitions come about

A compilation adds to what the host knows: a definition is known from the moment at which
its value is analyzed, and stays known as it is until the next definition of its name. No
namespace ever goes.

- `Namespaces.find?_intern`: a definition shows at its own name and nowhere else.
- `Reached.leaves`: what the host knows once a form is evaluated.
- `Namespaces.Leads`: forms that are evaluated one after the other.
- `Namespaces.leads_evaluated`: those of a source.
- `CompileSummary.Sums`: what forms define that are all evaluated.
- `Compile.sums_compile`: what a source defines when it compiles.
-/

namespace CompileWatch

variable {σ τ : Type}

/-! ### Namespaces that change -/

namespace Namespaces

variable (n : Namespaces)

/-- A definition shows at its own name and nowhere else. -/
theorem find?_intern (q : QualifiedName) (info : VarInfo) (name ns : String) :
    (n.intern q info).find? name ns =
      if q = ⟨ns, name⟩ then some (q, info) else n.find? name ns := by
  obtain ⟨qns, qname⟩ := q
  unfold find? intern
  rw [SortedMap.get?_alter]
  by_cases hns : ns = qns
  · subst hns
    rw [if_pos (Std.ReflCmp.compare_self), Option.bind_some, SortedMap.get?_insert]
    by_cases hname : name = qname
    · subst hname
      rw [if_pos (Std.ReflCmp.compare_self), if_pos rfl]
      rfl
    · have hne : ¬ (⟨ns, qname⟩ : QualifiedName) = ⟨ns, name⟩ := fun h =>
        hname (congrArg QualifiedName.name h).symm
      rw [if_neg (by rwa [Std.LawfulEqCmp.compare_eq_iff_eq]), if_neg hne]
      cases n.get? ns <;> rfl
  · have hne : ¬ (⟨qns, qname⟩ : QualifiedName) = ⟨ns, name⟩ := fun h =>
      hns (congrArg QualifiedName.ns h).symm
    rw [if_neg (by rwa [Std.LawfulEqCmp.compare_eq_iff_eq]), if_neg hne]

/-- Using other namespaces changes no definition. -/
theorem find?_use (ns : String) (used : List String) (name ns' : String) :
    (n.use ns used).find? name ns' = n.find? name ns' := by
  unfold find? use
  rw [SortedMap.get?_alter]
  by_cases hns : ns' = ns
  · subst hns
    rw [if_pos (Std.ReflCmp.compare_self), Option.bind_some]
    cases n.get? ns' <;> rfl
  · rw [if_neg (by rwa [Std.LawfulEqCmp.compare_eq_iff_eq])]

/-- What is found under a name has that name. -/
theorem name_of_find? {name ns : String} {q : QualifiedName} {info : VarInfo}
    (h : n.find? name ns = some (q, info)) : q = ⟨ns, name⟩ := by
  obtain ⟨_, _, h⟩ := Option.map_eq_some_iff.mp h
  exact (congrArg Prod.fst h).symm

/-- What a symbol names is a definition. -/
theorem find?_of_lookup? {c : Context} {s : Symbol} {q : QualifiedName} {info : VarInfo}
    (h : n.lookup? c s = some (q, info)) : n.find? q.name q.ns = some (q, info) := by
  have hfound {ns : String} (h : n.find? s.name ns = some (q, info)) :
      n.find? q.name q.ns = some (q, info) := by
    obtain rfl := n.name_of_find? h
    exact h
  unfold lookup? at h
  cases hs : s.ns with
  | some ns =>
    rw [hs] at h
    exact hfound h
  | none =>
    rw [hs] at h
    obtain ⟨ns, -, h⟩ := List.exists_of_findSome?_eq_some h
    exact hfound h

/-- A definition stands in a namespace. -/
theorem contains_of_find? {q : QualifiedName} {info : VarInfo}
    (h : n.find? q.name q.ns = some (q, info)) : n.contains q.ns := by
  unfold find? at h
  unfold SortedMap.contains
  cases hn : n.get? q.ns with
  | none =>
    rw [hn] at h
    cases h
  | some _ => rfl

end Namespaces

/-! ### One form -/

namespace Reached

variable (r : Reached)

/-- What the host knows once the form was evaluated, however that ended. -/
def leaves : Namespaces :=
  let n := r.machine.namespaces
  match r.form.head?.bind SpecialForm.ofName? with
  | some .declaration =>
    ((r.form.nth? 1).bind Form.symbol?).elim n fun name =>
      n.use name.text ((r.form.children.drop 2).flatMap Compile.usedBy)
  | some .define => r.defining?.elim n fun d => d.known n
  | _ => n

theorem leaves_of_defining? {d : Defining} (h : r.defining? = some d) :
    r.leaves = d.known r.machine.namespaces := by
  unfold leaves
  rw [head_of_defining? h, h]
  rfl

/-- A form changes what is known of the definition that it makes, and of no other. -/
theorem find?_leaves {name ns : String} (h : ∀ d ∈ r.defining?, d.name ≠ ⟨ns, name⟩) :
    r.leaves.find? name ns = r.machine.namespaces.find? name ns := by
  unfold leaves
  split
  · cases (r.form.nth? 1).bind Form.symbol? with
    | none => rfl
    | some s => exact Namespaces.find?_use _ _ _ _ _
  · cases hd : r.defining? with
    | none => rfl
    | some d =>
      show (d.known _).find? name ns = _
      rw [Defining.known, Namespaces.find?_intern, if_neg (h d hd)]
  · rfl

/-- No namespace goes. -/
theorem contains_leaves {ns : String} (h : r.machine.namespaces.contains ns) :
    r.leaves.contains ns := by
  unfold leaves
  split
  · cases (r.form.nth? 1).bind Form.symbol? with
    | none => exact h
    | some s =>
      show (Namespaces.use _ _ _).contains ns
      rw [Namespaces.use, SortedMap.contains_alter, h, Bool.or_true]
  · cases r.defining? with
    | none => exact h
    | some d =>
      show (d.known _).contains ns
      rw [Defining.known, Namespaces.intern, SortedMap.contains_alter, h, Bool.or_true]
  · exact h

end Reached

namespace Namespaces

/-- The symbols of a form are looked up in what the host knows, from where the thread stands. -/
theorem eq_of_mem_analyzed {n : Namespaces} {c : Context} {l : List Symbol} {x : Occurrence}
    (h : x ∈ n.analyzed c l) : x.namespaces = n ∧ x.context = c := by
  induction l with
  | nil => cases h
  | cons s rest ih =>
    rw [analyzed] at h
    rcases List.mem_cons.mp h with rfl | h
    · exact ⟨rfl, rfl⟩
    · split at h
      · exact ih h
      · cases h

end Namespaces

namespace Reached

variable (r : Reached)

/-- Where the thread stands while the symbols of the form are analyzed. -/
def inside : Context :=
  r.defining?.elim r.machine.context fun d => d.within r.machine.context

theorem leaves_of_ne (hdeclaration : r.form.head?.bind SpecialForm.ofName? ≠ some .declaration)
    (hdefine : r.form.head?.bind SpecialForm.ofName? ≠ some .define) :
    r.leaves = r.machine.namespaces := by
  unfold leaves
  dsimp only
  split
  · contradiction
  · contradiction
  · rfl

/-- The symbols of a form are looked up in what the host knows after it. -/
theorem eq_of_mem_occurrences {x : Occurrence} (h : x ∈ r.occurrences) :
    x.namespaces = r.leaves ∧ x.context = r.inside := by
  unfold inside
  cases hd : r.defining? with
  | some d =>
    rw [occurrences_of_defining? hd, Defining.occurrences] at h
    rw [r.leaves_of_defining? hd]
    cases hinit : d.init? with
    | none =>
      rw [hinit] at h
      cases h
    | some init =>
      rw [hinit] at h
      exact Namespaces.eq_of_mem_analyzed h
  | none =>
    by_cases hdeclaration : r.form.head?.bind SpecialForm.ofName? = some .declaration
    · rw [occurrences, hdeclaration] at h
      cases h
    by_cases hdefine : r.form.head?.bind SpecialForm.ofName? = some .define
    · rw [occurrences, hdefine, hd] at h
      cases h
    · rw [occurrences_of_ne hdeclaration hdefine] at h
      rw [r.leaves_of_ne hdeclaration hdefine]
      exact Namespaces.eq_of_mem_analyzed h

end Reached

/-! ### Forms one after the other -/

/-- Forms that are evaluated one after the other, each on what the one before it leaves. -/
inductive Namespaces.Leads : Namespaces → List Reached → Namespaces → Prop where
  | nil (n : Namespaces) : Leads n [] n
  | cons (r : Reached) {l : List Reached} {n : Namespaces} (rest : Leads r.leaves l n) :
    Leads r.machine.namespaces (r :: l) n

namespace Namespaces.Leads

variable {n n' n'' : Namespaces} {l l' : List Reached}

theorem append (h : Leads n l n') (h' : Leads n' l' n'') : Leads n (l ++ l') n'' := by
  induction h with
  | nil n => exact h'
  | cons r rest ih => exact .cons r (ih h')

/-- The forms before one of them, and those after it. -/
theorem of_append (h : Leads n (l ++ l') n'') : ∃ n', Leads n l n' ∧ Leads n' l' n'' := by
  induction l generalizing n with
  | nil => exact ⟨n, .nil n, h⟩
  | cons r rest ih =>
    cases h with
    | cons _ h =>
      obtain ⟨n', hfirst, hrest⟩ := ih h
      exact ⟨n', .cons r hfirst, hrest⟩

theorem eq_of_nil (h : Leads n [] n') : n' = n := by
  cases h
  rfl

theorem eq_of_singleton {r : Reached} (h : Leads n [r] n') : n' = r.leaves := by
  cases h with
  | cons _ hrest => exact hrest.eq_of_nil

/-- No namespace goes. -/
theorem contains (h : Leads n l n') {ns : String} (hns : n.contains ns) : n'.contains ns := by
  induction h with
  | nil n => exact hns
  | cons r rest ih => exact ih (r.contains_leaves hns)

/-- What is not defined again stays as it is. -/
theorem find? (h : Leads n l n') {name ns : String}
    (hnot : ∀ r ∈ l, ∀ d ∈ r.defining?, d.name ≠ ⟨ns, name⟩) :
    n'.find? name ns = n.find? name ns := by
  induction h with
  | nil n => rfl
  | cons r rest ih =>
    obtain ⟨hr, hrest⟩ := List.forall_mem_cons.mp hnot
    rw [ih hrest, r.find?_leaves hr]

/-- A namespace that is there on the way is there in the end. -/
theorem contains_of_leaves (h : Leads n l n') {r : Reached} (hr : r ∈ l) {ns : String}
    (hns : r.leaves.contains ns) : n'.contains ns := by
  obtain ⟨before, after, rfl⟩ := List.append_of_mem hr
  obtain ⟨_, -, hafter⟩ := h.of_append
  cases hafter with
  | cons _ hafter => exact hafter.contains hns

/-- What a symbol names on the way stands in a namespace that is there in the end. -/
theorem contains_of_found? (h : Leads n l n') {r : Reached} (hr : r ∈ l) {x : Occurrence}
    (hx : x ∈ r.occurrences) {q : QualifiedName} {info : VarInfo} (hq : x.found? = some (q, info)) :
    n'.contains q.ns := by
  refine h.contains_of_leaves hr ?_
  rw [← (r.eq_of_mem_occurrences hx).1]
  exact Namespaces.contains_of_find? _ (Namespaces.find?_of_lookup? _ hq)

/-- So is the namespace of a definition. -/
theorem contains_of_defining? (h : Leads n l n') {r : Reached} (hr : r ∈ l) {d : Defining}
    (hd : r.defining? = some d) : n'.contains d.name.ns := by
  refine h.contains_of_leaves hr ?_
  rw [r.leaves_of_defining? hd, Defining.known, Namespaces.intern, SortedMap.contains_alter]
  simp

end Namespaces.Leads

/-! ### The run of a source -/

namespace Compile

variable (t : Setting σ τ)

theorem namespaces_conclude (d : Defining) (refs : List Reference) (m : Machine σ) :
    (conclude t d refs m).2.namespaces = m.namespaces := by
  unfold conclude
  cases d.arity? with
  | none => rfl
  | some arity =>
    have hunit := defineFunction_run t d.name arity refs d.line m
    rw [Option.toList_some, List.mapM_cons, List.mapM_nil, bind_assoc,
      bind_run_ok (congrArg Prod.fst hunit), hunit]
    rfl

/-- What the host knows once a form was evaluated. -/
theorem namespaces_evaluateStep (f : Form) (m : Machine σ) :
    (evaluateStep t f m).2.namespaces = (Reached.mk f m.bare).leaves := by
  obtain ⟨hop, heval⟩ | ⟨hop, heval⟩ | ⟨hdeclaration, hdefine, heval⟩ := evaluateStep_cases t f
  · rw [heval, Reached.leaves, hop]
    unfold enterNamespace
    show _ = ((f.nth? 1).bind Form.symbol?).elim _ _
    cases (f.nth? 1).bind Form.symbol? <;> rfl
  · have hdefining := Reached.defining?_of_define (r := ⟨f, m.bare⟩) hop
    rw [heval]
    obtain ⟨hd, hrun⟩ | ⟨d, hd, hrun⟩ := define_cases t f m
    · rw [hrun, Reached.leaves, hop, hdefining]
      show m.namespaces = (f.defining? m.context).elim _ _
      rw [hd]
      rfl
    · rw [Reached.leaves_of_defining? _ (hdefining.trans hd)]
      obtain ⟨e, -, hrun⟩ | ⟨refs, -, hrun⟩ := hrun
      · rw [hrun]
        rfl
      · rw [hrun, namespaces_conclude]
        rfl
  · rw [heval, snd_bind_pure, analyze_run, Reached.leaves_of_ne _ hdeclaration hdefine]
    rfl

/-! ### Runs -/

/-- Forms that are compiled in a row, given what is evaluated for each of them. -/
theorem leads_inTurn {run : Form → Compile Unit CompileSummary} {steps : Reached → List Reached}
    (h : ∀ (f : Form) (m : Machine Unit), m.namespaces.Leads (steps ⟨f, m⟩) (run f m).2.namespaces)
    (l : List Form) (m : Machine Unit) :
    m.namespaces.Leads ((reached run l m).flatMap steps) (inTurn run l m).2.namespaces := by
  induction l generalizing m with
  | nil => exact .nil m.namespaces
  | cons f rest ih =>
    have hfirst := h f m
    rw [reached, List.flatMap_cons]
    cases hr : run f m with
    | mk r m' =>
      rw [hr] at hfirst
      cases r with
      | error e =>
        rw [inTurn, bind_run_error (e := e) (by rw [hr]), hr]
        exact hfirst.append (.nil _)
      | ok first =>
        rw [inTurn, bind_run_ok (a := first) (by rw [hr]), snd_bind_pure, hr]
        exact hfirst.append (ih m')

/-- A form at top level. -/
theorem leads_compileForm (f : Form) (m : Machine Unit) :
    m.namespaces.Leads (Reached.mk f m).evaluated
      (compileForm Setting.unobserved f m).2.namespaces := by
  rw [compileForm_run]
  unfold Reached.evaluated
  dsimp only
  cases f.expand with
  | error e => exact .nil m.namespaces
  | ok e =>
    have h := @leads_inTurn (evaluateStep Setting.unobserved) (fun r => [r])
      (fun f m => .cons ⟨f, m⟩ (namespaces_evaluateStep Setting.unobserved f m ▸ .nil _))
      (e.form f).steps (expanded Setting.unobserved f m)
    rw [List.flatMap_singleton'] at h
    exact h

end Compile

/-- What the host knows after a source was compiled. -/
def Namespaces.after (n : Namespaces) (source : String) : Namespaces :=
  (Compile.compile Setting.unobserved source
    { namespaces := n, context := {}, outside := () }).2.namespaces

/-- The forms that are evaluated for a source lead from what the host knows before to what it
knows after. -/
theorem Namespaces.leads_evaluated (n : Namespaces) (source : String) :
    n.Leads (n.evaluated source) (n.after source) := by
  unfold evaluated topLevel after Compile.compile
  cases readAll source with
  | error e => exact .nil n
  | ok forms =>
    exact Compile.leads_inTurn Compile.leads_compileForm forms
      { namespaces := n, context := { ns := some defaultNamespace }, outside := () }

/-! ### What is defined -/

/-- What is defined, in the order in which forms are evaluated, when all of them are. -/
structure CompileSummary.Sums (s : CompileSummary) (l : List Reached) : Prop where
  definitions : s.definitions = l.filterMap fun r => r.defining?.map Defining.name
  units : s.units = (l.filterMap Reached.emission?).map fun e => dottedName e.unit.1
  /-- Every definition was made. -/
  concluded : ∀ r ∈ l, ∀ d ∈ r.defining?, ∃ refs, r.concluded? = some (d, refs)

namespace CompileSummary.Sums

theorem nil : Sums {} [] := ⟨rfl, rfl, fun _ hr => (List.not_mem_nil hr).elim⟩

theorem append {a b : CompileSummary} {l l' : List Reached} (ha : a.Sums l) (hb : b.Sums l') :
    (a.append b).Sums (l ++ l') := by
  constructor
  · show a.definitions ++ b.definitions = _
    rw [ha.definitions, hb.definitions, List.filterMap_append]
  · show a.units ++ b.units = _
    rw [ha.units, hb.units, List.filterMap_append, List.map_append]
  · intro r hr
    rcases List.mem_append.mp hr with hr | hr
    · exact ha.concluded r hr
    · exact hb.concluded r hr

/-- A form that makes no definition. -/
theorem of_none {r : Reached} (h : r.defining? = none) : Sums {} [r] := by
  have hemission : r.emission? = none := by
    rw [Reached.emission?, Reached.concluded?_of_none h]
    rfl
  constructor
  · rw [List.filterMap_cons, h]
    rfl
  · rw [List.filterMap_cons, hemission]
    rfl
  · intro r' hr' d hd
    obtain rfl := List.mem_singleton.mp hr'
    rw [h] at hd
    cases hd

/-- A form that makes a definition. -/
theorem of_concluded {r : Reached} {d : Defining} {refs : List Reference}
    (h : r.concluded? = some (d, refs)) :
    Sums ⟨[d.name], (d.emission? refs).toList.map fun e => dottedName e.unit.1⟩ [r] := by
  obtain ⟨hd, -⟩ := Reached.concluded?_eq_some_iff.mp h
  have hemission : r.emission? = d.emission? refs := by
    rw [Reached.emission?, h]
    rfl
  constructor
  · rw [List.filterMap_cons, hd]
    rfl
  · rw [List.filterMap_cons, hemission]
    cases d.emission? refs <;> rfl
  · intro r' hr' d' hd'
    obtain rfl := List.mem_singleton.mp hr'
    rw [hd] at hd'
    obtain rfl := Option.some.inj hd'
    exact ⟨refs, h⟩

end CompileSummary.Sums

namespace Compile

theorem fst_conclude (t : Setting σ τ) (d : Defining) (refs : List Reference) (m : Machine σ) :
    (conclude t d refs m).1 =
      .ok ⟨[d.name], (d.emission? refs).toList.map fun e => dottedName e.unit.1⟩ := by
  unfold conclude Defining.emission?
  cases d.arity? with
  | none => rfl
  | some arity =>
    have hunit := defineFunction_run t d.name arity refs d.line m
    rw [Option.toList_some, List.mapM_cons, List.mapM_nil, bind_assoc,
      bind_run_ok (congrArg Prod.fst hunit), hunit]
    rfl

/-- What a form defines when it is evaluated and nothing is wrong with it. -/
theorem sums_evaluateStep {f : Form} {m : Machine Unit} {s : CompileSummary}
    (h : (evaluateStep Setting.unobserved f m).1 = .ok s) : s.Sums [⟨f, m⟩] := by
  obtain ⟨hop, heval⟩ | ⟨hop, heval⟩ | ⟨-, hdefine, heval⟩ := evaluateStep_cases Setting.unobserved f
  · have hnone : (Reached.mk f m).defining? = none := Reached.defining?_of_ne (by rw [hop]; decide)
    rw [heval] at h
    unfold enterNamespace at h
    cases hname : (f.nth? 1).bind Form.symbol? with
    | none =>
      rw [hname] at h
      cases h
    | some name =>
      rw [hname] at h
      obtain rfl := Except.ok.inj h
      exact .of_none hnone
  · have hdefining := Reached.defining?_of_define (r := ⟨f, m⟩) hop
    rw [heval] at h
    obtain ⟨-, hrun⟩ | ⟨d, hd, ⟨e, -, hrun⟩ | ⟨refs, hrefs, hrun⟩⟩ :=
      define_cases Setting.unobserved f m
    · rw [hrun] at h
      cases h
    · rw [hrun] at h
      cases h
    · rw [hrun, fst_conclude] at h
      obtain rfl := Except.ok.inj h
      exact .of_concluded (Reached.concluded?_eq_some_iff.mpr ⟨hdefining.trans hd, hrefs⟩)
  · have hnone : (Reached.mk f m).defining? = none := Reached.defining?_of_ne hdefine
    have hanalyze := analyze_run Setting.unobserved f m
    rw [heval] at h
    cases hrefs : m.namespaces.referencesIn m.context f with
    | error e =>
      rw [hrefs] at hanalyze
      rw [bind_run_error (congrArg Prod.fst hanalyze)] at h
      cases h
    | ok refs =>
      rw [hrefs] at hanalyze
      rw [bind_run_ok (congrArg Prod.fst hanalyze)] at h
      obtain rfl := Except.ok.inj h
      exact .of_none hnone

/-- What is defined when forms are compiled in a row and all of them compile, given what is
defined for each. -/
theorem sums_inTurn {run : Form → Compile Unit CompileSummary} {steps : Reached → List Reached}
    (h : ∀ (f : Form) (m : Machine Unit) s, (run f m).1 = .ok s → s.Sums (steps ⟨f, m⟩))
    {l : List Form} {m : Machine Unit} {s : CompileSummary} (hs : (inTurn run l m).1 = .ok s) :
    s.Sums ((reached run l m).flatMap steps) := by
  induction l generalizing m s with
  | nil =>
    obtain rfl := Except.ok.inj hs
    exact .nil
  | cons f rest ih =>
    rw [reached, List.flatMap_cons]
    cases hr : run f m with
    | mk r m' =>
      cases r with
      | error e =>
        rw [inTurn, bind_run_error (e := e) (by rw [hr])] at hs
        cases hs
      | ok first =>
        rw [inTurn, bind_run_ok (a := first) (by rw [hr]), hr] at hs
        cases hrest : (inTurn run rest m').1 with
        | error e =>
          rw [bind_run_error hrest] at hs
          cases hs
        | ok others =>
          rw [bind_run_ok hrest] at hs
          obtain rfl := Except.ok.inj hs
          exact (h f m first (by rw [hr])).append (ih hrest)

/-- What a form at top level defines when it compiles. -/
theorem sums_compileForm {f : Form} {m : Machine Unit} {s : CompileSummary}
    (h : (compileForm Setting.unobserved f m).1 = .ok s) : s.Sums (Reached.mk f m).evaluated := by
  rw [compileForm_run] at h
  unfold Reached.evaluated
  dsimp only
  cases hexpand : f.expand with
  | error e =>
    rw [hexpand] at h
    cases h
  | ok e =>
    rw [hexpand] at h
    have hsums := @sums_inTurn _ (fun r => [r]) (fun f m s => sums_evaluateStep) _ _ _ h
    rw [List.flatMap_singleton'] at hsums
    exact hsums

/-- What a source defines when it compiles. -/
theorem sums_compile {source : String} {n : Namespaces} {s : CompileSummary}
    (h : (compile Setting.unobserved source
      { namespaces := n, context := {}, outside := () }).1 = .ok s) :
    s.Sums (n.evaluated source) := by
  unfold compile at h
  unfold Namespaces.evaluated Namespaces.topLevel
  cases hread : readAll source with
  | error e =>
    rw [hread] at h
    cases h
  | ok forms =>
    rw [hread] at h
    exact sums_inTurn (fun f m s => sums_compileForm) h

end Compile

end CompileWatch
