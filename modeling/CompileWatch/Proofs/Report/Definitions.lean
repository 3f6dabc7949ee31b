import Mathlib.Data.List.Induction
import CompileWatch.Proofs.Expansion.Growth
import CompileWatch.Proofs.Watching.Pairing
import CompileWatch.Report.Definitions

/-!
# Definitions before and after expansion

A summary shows the sizes of the last events of a definition, one for each phase. Where those are
of the same definition as it was written once, they differ by what the rewrites of its calls add,
and so expansion makes a definition smaller only where rewrites take nodes away.

- `DefinitionSummary.Shows`: what a summary shows of events.
- `shows_of_mem_summarize`: every summary shows the last events of its definition.
- `Host.balance_compileAll`: the sizes after compilations in a row.
-/

namespace CompileWatch

/-! ### Summaries of events -/

/-- The size of the last event of a key. -/
def lastSize? (events : List FormEvent) (k : FormKey) : Option FormSize :=
  (events.filter (·.key = k)).getLast?.map (·.form.size)

/-- The definitions that events are about, by name. -/
def groupDefinitions (events : List FormEvent) : SortedMap QualifiedName DefinitionSummary :=
  events.foldl (fun m e => m.alter ⟨e.ns, e.name⟩ fun d =>
    (d.getD (DefinitionSummary.start e)).take e) SortedMap.empty

/-- What is known of a definition is its name and the sizes of its last events. -/
structure DefinitionSummary.Shows (events : List FormEvent) (q : QualifiedName)
    (d? : Option DefinitionSummary) : Prop where
  name : ∀ d ∈ d?, d.name = q
  raw : d?.bind (·.raw) = lastSize? events ⟨q.ns, q.name, .raw⟩
  expanded : d?.bind (·.expanded) = lastSize? events ⟨q.ns, q.name, .expanded⟩

theorem lastSize?_snoc (events : List FormEvent) (e : FormEvent) (k : FormKey) :
    lastSize? (events ++ [e]) k = if e.key = k then some e.form.size else lastSize? events k := by
  unfold lastSize?
  rw [List.filter_append]
  by_cases hk : e.key = k
  · rw [if_pos hk, List.filter_cons_of_pos (by simpa using hk), List.filter_nil,
      List.getLast?_concat]
    rfl
  · rw [if_neg hk, List.filter_cons_of_neg (by simpa using hk), List.filter_nil, List.append_nil]

namespace DefinitionSummary

/-- One event more of a definition. -/
theorem Shows.take {events : List FormEvent} {e : FormEvent} {d? : Option DefinitionSummary}
    (h : Shows events ⟨e.ns, e.name⟩ d?) :
    Shows (events ++ [e]) ⟨e.ns, e.name⟩ (some ((d?.getD (start e)).take e)) := by
  have hname : (d?.getD (start e)).name = ⟨e.ns, e.name⟩ := by
    cases d? with
    | none => rfl
    | some d => exact h.name d rfl
  have hraw : (d?.getD (start e)).raw = lastSize? events ⟨e.ns, e.name, .raw⟩ := by
    rw [← h.raw]
    cases d? <;> rfl
  have hexpanded : (d?.getD (start e)).expanded = lastSize? events ⟨e.ns, e.name, .expanded⟩ := by
    rw [← h.expanded]
    cases d? <;> rfl
  have hkey : e.key = ⟨e.ns, e.name, e.phase⟩ := rfl
  constructor
  · rintro d ⟨⟩
    rw [← hname, DefinitionSummary.take]
    split <;> rfl
  · rw [lastSize?_snoc, hkey, ← hraw, Option.bind_some, DefinitionSummary.take]
    cases e.phase <;> simp
  · rw [lastSize?_snoc, hkey, ← hexpanded, Option.bind_some, DefinitionSummary.take]
    cases e.phase <;> simp

/-- One event more of another definition. -/
theorem Shows.other {events : List FormEvent} {e : FormEvent} {q : QualifiedName}
    {d? : Option DefinitionSummary} (h : Shows events q d?) (hq : q ≠ ⟨e.ns, e.name⟩) :
    Shows (events ++ [e]) q d? := by
  have hkey (phase : Phase) : e.key ≠ ⟨q.ns, q.name, phase⟩ := by
    intro hk
    apply hq
    injection hk with hns hname
    rw [hns, hname]
  refine ⟨h.name, ?_, ?_⟩
  · rw [lastSize?_snoc, if_neg (hkey .raw), h.raw]
  · rw [lastSize?_snoc, if_neg (hkey .expanded), h.expanded]

end DefinitionSummary

theorem shows_groupDefinitions (events : List FormEvent) (q : QualifiedName) :
    DefinitionSummary.Shows events q ((groupDefinitions events).get? q) := by
  induction events using List.reverseRecOn with
  | nil => exact ⟨nofun, rfl, rfl⟩
  | append_singleton events e ih =>
    have hsnoc : groupDefinitions (events ++ [e]) = (groupDefinitions events).alter ⟨e.ns, e.name⟩
        fun d => (d.getD (.start e)).take e := by
      rw [groupDefinitions, List.foldl_append]
      rfl
    rw [hsnoc, SortedMap.get?_alter]
    by_cases hq : q = ⟨e.ns, e.name⟩
    · subst hq
      rw [if_pos Std.ReflCmp.compare_self]
      exact ih.take
    · rw [if_neg (by rwa [Std.LawfulEqCmp.compare_eq_iff_eq])]
      exact ih.other hq

/-- Every summary shows the sizes of the last events of its definition. -/
theorem shows_of_mem_summarizeDefinitions {events : List FormEvent} {d : DefinitionSummary}
    (hd : d ∈ summarizeDefinitions events) : DefinitionSummary.Shows events d.name (some d) := by
  obtain ⟨q, hq⟩ := SortedMap.mem_values.mp hd
  have hshows := shows_groupDefinitions events q
  have hget : (groupDefinitions events).get? q = some d := hq
  rw [hget] at hshows
  rw [hshows.name d rfl]
  exact hshows

/-- A definition of which both sizes are known has a summary with both. -/
theorem exists_mem_summarizeDefinitions {events : List FormEvent} {q : QualifiedName}
    {raw expanded : FormSize} (hraw : lastSize? events ⟨q.ns, q.name, .raw⟩ = some raw)
    (hexpanded : lastSize? events ⟨q.ns, q.name, .expanded⟩ = some expanded) :
    ∃ d ∈ summarizeDefinitions events, d.name = q ∧ d.raw = some raw ∧
      d.expanded = some expanded := by
  have hshows := shows_groupDefinitions events q
  obtain ⟨d, hget, hd⟩ := Option.bind_eq_some_iff.mp (hshows.raw.trans hraw)
  have hother := hshows.expanded.trans hexpanded
  rw [hget, Option.bind_some] at hother
  exact ⟨d, SortedMap.mem_values.mpr ⟨q, hget⟩, hshows.name d hget, hd, hother⟩

/-! ### Summaries of a buffer -/

/-- A value that knows its key is the only one of its key. -/
theorem SortedMap.getLast?_filter_values {κ β : Type} [Ord κ] [Std.LawfulEqOrd κ] [DecidableEq κ]
    {m : SortedMap κ β} {f : β → κ} (hm : ∀ k v, m.get? k = some v → f v = k) (k : κ) :
    (m.values.filter (f · = k)).getLast? = m.get? k := by
  have hmem {v : β} : v ∈ m.values.filter (f · = k) ↔ m.get? k = some v := by
    rw [List.mem_filter, SortedMap.mem_values, decide_eq_true_eq]
    constructor
    · rintro ⟨⟨k', hk'⟩, rfl⟩
      rwa [hm k' v hk']
    · intro h
      exact ⟨⟨k, h⟩, hm k v h⟩
  cases hlast : (m.values.filter (f · = k)).getLast? with
  | some v => exact (hmem.mp (List.mem_of_getLast? hlast)).symm
  | none =>
    rw [List.getLast?_eq_none_iff.mp hlast] at hmem
    exact (Option.eq_none_iff_forall_ne_some.mpr fun v hv => List.not_mem_nil (hmem.mpr hv)).symm

namespace FormBuffer

variable {l : List Written}

/-- In a buffer that took definitions every event stands at its own key. -/
theorem key_of_get?_take (hl : ∀ d ∈ l, d.name ≠ "") {k : FormKey} {e : FormEvent}
    (h : (take {} l).get? k = some e) : e.key = k := by
  rw [get?_take rfl hl] at h
  have hlast : ((l.flatMap Written.events).filter (·.key = k)).getLast? = some e :=
    Option.or_none.symm.trans h
  simpa using (List.mem_filter.mp (List.mem_of_getLast? hlast)).2

theorem lastSize?_take (hl : ∀ d ∈ l, d.name ≠ "") (k : FormKey) :
    lastSize? (take {} l).toList k = ((take {} l).get? k).map (·.form.size) := by
  unfold lastSize? toList
  rw [SortedMap.getLast?_filter_values fun k e => key_of_get?_take hl]
  rfl

end FormBuffer

/-! ### The balance of a definition -/

namespace Host

/-- After any compilations in a host that works, with the capturing observer at every point and
with nothing captured before, a definition that was written once has its expansion beside it. And
where that is so, the summary shows the sizes of a definition and of its expansion. They differ by
what the rewrites of its calls add, so the expansion is no smaller if none of them takes nodes
away. -/
theorem balance_compileAll (h : Host Instrumentation) (o : Instrumentation)
    (hobserver : ∀ p, h.observer? p = some o) (hfaults : h.faults = {}) (sources : List String)
    (c : Context) (s : CaptureState) (hdepth : s.depth = 0) (hforms : s.session.forms = {}) :
    let forms := (h.compileAll sources c s).2.session.forms
    let written (q : QualifiedName) :=
      (h.namespaces.writtenInTurn sources).filter (Written.isOf q.ns q.name)
    (∀ q, (written q).length ≤ 1 → forms.InStep q.ns q.name) ∧
    ∀ d ∈ summarizeDefinitions forms.toList, ∀ raw expanded,
      d.raw = some raw → d.expanded = some expanded → forms.InStep d.name.ns d.name.name →
      ∃ w ∈ (written d.name).getLast?, w.form.size = raw ∧
        (expanded.expressions : Int) = raw.expressions + Form.growthAll w.form.rewritten ∧
        (raw.expressions ≤ expanded.expressions ↔ 0 ≤ Form.growthAll w.form.rewritten) ∧
        ((∀ call ∈ w.form.rewritten, ¬ call.Shrinks) → raw.expressions ≤ expanded.expressions) := by
  intro forms written
  have hidle := idle_compileAll hobserver hfaults sources c ⟨hdepth, hforms⟩
  have hname : ∀ w ∈ h.namespaces.writtenInTurn sources, w.name ≠ "" :=
    fun w hw => Namespaces.name_of_mem_writtenInTurn hw
  have hbuffer : forms = FormBuffer.take {} (h.namespaces.writtenInTurn sources) := hidle.forms
  constructor
  · intro q hone
    rw [hbuffer, FormBuffer.inStep_take_iff hname]
    intro w hw hchanged
    -- the definition that was expanded is the only one
    have hpos : 0 < (written q).length := List.length_pos_of_mem hw
    obtain ⟨only, honly⟩ := List.length_eq_one_iff.mp (Nat.le_antisymm hone hpos)
    have hmem : w ∈ written q := hw
    rw [honly, List.mem_singleton] at hmem
    refine ⟨w, ?_, hchanged⟩
    show w ∈ (written q).getLast?
    rw [honly, hmem]
    rfl
  · intro d hd raw expanded hraw hexpanded hstep
    obtain ⟨-, hrawLast, hexpandedLast⟩ := shows_of_mem_summarizeDefinitions hd
    rw [hbuffer, FormBuffer.lastSize?_take hname, Option.bind_some] at hrawLast hexpandedLast
    rw [hrawLast] at hraw
    rw [hexpandedLast] at hexpanded
    obtain ⟨e, he, rfl⟩ := Option.map_eq_some_iff.mp hexpanded
    rw [hbuffer] at hstep
    obtain ⟨r, hr, hexpand⟩ := hstep e he
    rw [hr] at hraw
    obtain rfl := Option.some.inj hraw
    rw [FormBuffer.get?_take_empty_raw hname] at hr
    obtain ⟨w, hw, rfl⟩ := Option.map_eq_some_iff.mp hr
    have hbalance : (e.form.expressions : Int) =
        w.form.expressions + Form.growthAll w.form.rewritten := Form.expressions_expand hexpand
    have hiff : w.form.expressions ≤ e.form.expressions ↔
        0 ≤ Form.growthAll w.form.rewritten := by omega
    exact ⟨w, hw, rfl, hbalance, hiff, fun hgrowth => hiff.mpr (Form.growthAll_nonneg hgrowth)⟩

/-- What is captured of sources that are compiled in a new host. -/
def capturedOf (sources : List String) : FormBuffer :=
  (installed.1.compileAll sources {} installed.2).2.session.forms

/-- A source of one definition that expansion changes has both sizes. -/
theorem exists_summary_of_single {source : String} {f g : Form} {w : Written}
    (hread : readAll source = .ok [f]) (hwritten : f.written defaultNamespace = [w])
    (hexpand : w.form.expand = .ok (.changed g)) :
    installed.1.namespaces.writtenInTurn [source] = [w] ∧
      ∃ d ∈ summarizeDefinitions (capturedOf [source]).toList,
        d.name = ⟨w.ns, w.name⟩ ∧ d.raw = some w.form.size ∧ d.expanded = some g.size := by
  have hturn : installed.1.namespaces.writtenInTurn [source] = [w] := by
    rw [Namespaces.writtenInTurn, Namespaces.written_of_single hread, hwritten]
    rfl
  have hname : ∀ w' ∈ [w], w'.name ≠ "" :=
    fun w' hw' => Namespaces.name_of_mem_writtenInTurn (hturn ▸ hw')
  have hbuffer : capturedOf [source] = FormBuffer.take {} [w] := by
    have hidle := idle_compileAll (h := installed.1) observer?_installed rfl [source] {}
      (s := installed.2) (b := {}) ⟨rfl, rfl⟩
    rw [hturn] at hidle
    exact hidle.forms
  have hself : [w].filter (Written.isOf w.ns w.name) = [w] := by simp [Written.isOf]
  have hraw : lastSize? (capturedOf [source]).toList ⟨w.ns, w.name, .raw⟩ = some w.form.size := by
    rw [hbuffer, FormBuffer.lastSize?_take hname, FormBuffer.get?_take_empty_raw hname, hself]
    rfl
  have hexpanded : lastSize? (capturedOf [source]).toList ⟨w.ns, w.name, .expanded⟩ =
      some g.size := by
    rw [hbuffer, FormBuffer.lastSize?_take hname, FormBuffer.get?_take_empty_expanded hname, hself]
    have hchanged : w.expanded? = some (w.expandedTo g) := by
      rw [Written.expanded?, Written.changed?_eq_some_iff.mpr hexpand]
      rfl
    rw [List.filterMap_cons_some hchanged]
    rfl
  exact ⟨hturn, exists_mem_summarizeDefinitions (q := ⟨w.ns, w.name⟩) hraw hexpanded⟩

/-- `(def y value)` -/
def valueOf (value : Form) : Form :=
  .list [.symbol { name := "def", metadata := .atLine 1 },
    .symbol { name := "y", metadata := .atLine 1 }, value] (.span 1 1)

/-- `(when 1 2)` -/
def guarded : Form :=
  .list [.symbol { name := "when", metadata := .atLine 1 }, .int 1, .int 2] (.span 1 1)

/-- One rewrite makes 7 expressions into 10, as the growth of that rewrite says. -/
theorem balance_compileAll_guarded :
    let sources := ["(def y (when 1 2))"]
    (∀ p, installed.1.observer? p = some {}) ∧ installed.1.faults = {} ∧
      installed.2.depth = 0 ∧ installed.2.session.forms = {} ∧
      (capturedOf sources).InStep "user" "y" ∧
      ∃ d ∈ summarizeDefinitions (capturedOf sources).toList,
        d.raw = some ⟨7, 2⟩ ∧ d.expanded = some ⟨10, 3⟩ ∧
        ((10 : Nat) : Int) = (7 : Nat) + Form.growthAll (valueOf guarded).rewritten := by
  intro sources
  have hread : readAll "(def y (when 1 2))" = .ok [valueOf guarded] := rfl
  have hwritten : (valueOf guarded).written defaultNamespace =
      [⟨.value, "user", "y", valueOf guarded⟩] := by cbv
  have hexpand : (valueOf guarded).expand =
      .ok (.changed (valueOf (.call [.sym "if", .int 1, .call [.sym "do", .int 2], .nil]))) := by cbv
  obtain ⟨hturn, d, hd, hname, hraw, hexpanded⟩ := exists_summary_of_single hread hwritten hexpand
  obtain ⟨honce, hbalance⟩ := balance_compileAll installed.1 {} observer?_installed rfl sources {}
    installed.2 rfl rfl
  rw [hturn] at honce hbalance
  have hstep := honce ⟨"user", "y"⟩ (List.length_filter_le _ _)
  obtain ⟨w, hw, -, hgrowth, -⟩ := hbalance d hd _ _ hraw hexpanded (hname ▸ hstep)
  obtain rfl : w = ⟨.value, "user", "y", valueOf guarded⟩ :=
    List.mem_singleton.mp (List.mem_filter.mp (List.mem_of_getLast? hw)).1
  exact ⟨observer?_installed, rfl, rfl, rfl, hstep, d, hd, hraw, hexpanded, hgrowth⟩

/-- `(-> 1 (inc))`: the only step takes the value as an argument. -/
def threaded : Form :=
  .list [.symbol { name := "->", metadata := .atLine 1 }, .int 1,
    .list [.symbol { name := "inc", metadata := .atLine 1 }] (.span 1 1)] (.span 1 1)

/-- `(inc 1)`, which it is rewritten to. -/
def unthreaded : Form := .call [.symbol { name := "inc", metadata := .atLine 1 }, .int 1]

/-- The definition of it, once it is expanded. -/
def reachedUnthreaded : Reached :=
  ⟨valueOf unthreaded, (Reached.first .initial (valueOf threaded)).machine⟩

/-- A call that is threaded into another has fewer expressions after the expansion than before. -/
theorem smaller_threaded :
    let source := "(def y (-> 1 (inc)))"
    (∀ p, installed.1.observer? p = some {}) ∧ installed.1.faults = {} ∧
      installed.2.depth = 0 ∧ installed.2.session.forms = {} ∧
      (installed.1.compile Instrumentation.observer CaptureState.note source {} installed.2).1 =
        .ok ⟨[⟨"user", "y"⟩], []⟩ ∧
      ∃ d ∈ summarizeDefinitions (capturedOf [source]).toList, ∃ raw expanded,
        d.raw = some raw ∧ d.expanded = some expanded ∧
        ¬ raw.expressions ≤ expanded.expressions := by
  intro source
  have hread : readAll "(def y (-> 1 (inc)))" = .ok [valueOf threaded] := rfl
  have hwritten : (valueOf threaded).written defaultNamespace =
      [⟨.value, "user", "y", valueOf threaded⟩] := by cbv
  have hexpand : (valueOf threaded).expand = .ok (.changed (valueOf unthreaded)) := by cbv
  have hconcluded : reachedUnthreaded.concluded? =
      some (⟨⟨"user", "y"⟩, ⟨false, false⟩, some unthreaded, none, some 1⟩,
        [⟨⟨"clojure.core", "inc"⟩, false, true⟩]) := rfl
  obtain ⟨hturn, d, hd, hname, hraw, hexpanded⟩ := exists_summary_of_single hread hwritten hexpand
  refine ⟨observer?_installed, rfl, rfl, rfl, ?_, d, hd, _, _, hraw, hexpanded, by decide⟩
  rw [(installed.1.compile_unobserved source {} installed.2).1]
  exact Compile.fst_compile_of_single hread hexpand rfl hconcluded

end Host

end CompileWatch
