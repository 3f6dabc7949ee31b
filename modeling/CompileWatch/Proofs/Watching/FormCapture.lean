import CompileWatch.Proofs.Capture.Written
import CompileWatch.Proofs.Compiler.Evaluated
import CompileWatch.Proofs.Expansion.Outermost
import CompileWatch.Proofs.Reading.Forms
import CompileWatch.Proofs.Watching.Heard

/-!
# Forms captured in a compilation

The capturing observer counts the lists that are under way, so that it captures the
outermost ones only. During a compilation in a host that works, it captures the definitions
among them, each in the namespace where the thread stands, in the order in which they are
entered.

- `Form.written`: the definitions that a form at top level writes.
- `Compile.writtenBy`: those that a compilation enters.
- `CaptureState.Idle`: no list is under way, and these forms have been captured.
- `Instrumentation.idle_exit_enter`: one outermost list.
- `Setting.CapturedBy.idle_hear`, `idle_hearAll`: what is told once, and all of it.
- `Host.idle_compile`: a compilation, whatever faults the host has.
- `Host.get?_forms_compile`: what a compilation leaves in an empty buffer.
-/

namespace CompileWatch

/-! ### What is written -/

/-- The definitions that a form at top level writes in a namespace, as far as it is entered:
those among its outermost lists. -/
def Form.written (ns : String) (f : Form) : List Written :=
  (Form.entered f.outermost).filterMap (Written.ofForm? ns)

namespace Compile

/-- The definitions that are written by forms at top level, as far as they are entered: each
in the namespace where the thread stands when it comes to the form, and none after a form
that does not compile. -/
def writtenBy : List Form → Machine Unit → List Written
  | [], _ => []
  | f :: rest, m =>
    f.written m.context.namespaceName ++
      match compileForm Setting.unobserved f m with
      | (.ok _, m') => writtenBy rest m'
      | (.error _, _) => []

end Compile

/-- The definitions that a source writes into namespaces when it is compiled. -/
def Namespaces.written (n : Namespaces) (source : String) : List Written :=
  match readAll source with
  | .error _ => []
  | .ok forms =>
    Compile.writtenBy forms
      { namespaces := n, context := { ns := some defaultNamespace }, outside := () }

namespace Compile

/-- A form that compiles is followed by the others, on the machine that it leaves. -/
theorem writtenBy_cons_of_isOk {f : Form} {m : Machine Unit}
    (h : (compileForm Setting.unobserved f m).1.isOk) (rest : List Form) :
    writtenBy (f :: rest) m =
      f.written m.context.namespaceName ++ writtenBy rest (compileForm Setting.unobserved f m).2 := by
  rcases hrun : compileForm Setting.unobserved f m with ⟨_ | _, m'⟩
  · rw [hrun] at h
    cases h
  · rw [writtenBy, hrun]

/-- The last form is entered whether it compiles or not. -/
theorem writtenBy_singleton (f : Form) (m : Machine Unit) :
    writtenBy [f] m = f.written m.context.namespaceName := by
  rw [writtenBy]
  split <;> exact List.append_nil _

end Compile

/-- A source of one form writes the definitions of that form, whether it compiles or not. -/
theorem Namespaces.written_of_single {n : Namespaces} {source : String} {f : Form}
    (h : readAll source = .ok [f]) : n.written source = f.written defaultNamespace := by
  unfold Namespaces.written
  rw [h]
  exact Compile.writtenBy_singleton f _

namespace Form

mutual

/-- An outermost list is a part of the form. -/
theorem asRead_of_mem_outermost {f g : Form} (h : f.AsRead) (hg : g ∈ f.outermost) : g.AsRead := by
  cases f with
  | list items m =>
    rw [List.mem_singleton.mp hg]
    exact h
  | vector items m => exact asRead_of_mem_outermostAll (everywhere_vector.mp h).2 hg
  | _ => cases hg

theorem asRead_of_mem_outermostAll {l : List Form} {g : Form} (h : ∀ f ∈ l, f.AsRead)
    (hg : g ∈ outermostAll l) : g.AsRead := by
  cases l with
  | nil => cases hg
  | cons f rest =>
    obtain ⟨hf, hrest⟩ := List.forall_mem_cons.mp h
    rcases List.mem_append.mp hg with hg | hg
    · exact asRead_of_mem_outermost hf hg
    · exact asRead_of_mem_outermostAll hrest hg

end

/-- A definition that was read has lines of its own. -/
theorem position_of_defKind? {f : Form} (h : f.AsRead) {kind : DefKind} (hk : f.defKind? = some kind)
    (fallback : Option Nat) : f.position fallback = (f.line?, f.endLine?) := by
  obtain ⟨op, hop, hkind⟩ := Option.bind_eq_some_iff.mp hk
  cases f with
  | list items m =>
    rcases h.self.2 with hquote | ⟨hline, hend⟩
    · -- a quote mark defines nothing
      obtain rfl : op = "quote" := Option.some.inj (hop.symm.trans hquote)
      rw [show DefKind.ofOperator? "quote" = none by decide] at hkind
      cases hkind
    · obtain ⟨line, hline⟩ := Option.isSome_iff_exists.mp hline
      obtain ⟨endLine, hend⟩ := Option.isSome_iff_exists.mp hend
      simp [position, line?, endLine?, metadata?, hline, hend]
  | _ => cases hop

/-- The name that a form defines is not empty. -/
theorem definedName?_ne_empty {f : Form} (h : f.AsRead) {name : String}
    (hn : f.definedName? = some name) : name ≠ "" := by
  obtain ⟨g, hg, htext⟩ := Option.bind_eq_some_iff.mp hn
  obtain ⟨s, hs, rfl⟩ := Option.map_eq_some_iff.mp htext
  have hsymbol : (f.nth? 1).bind Form.symbol? = some s := Option.bind_eq_some_iff.mpr ⟨g, hg, hs⟩
  exact Symbol.text_ne_empty (Named.nth?_symbol h.named hsymbol).1

end Form

/-! ### Captures of other kinds -/

namespace Session

/-- Capturing a form changes the buffer of forms. -/
theorem forms_captureForm (s : Session) (e : FormEvent) :
    (s.captureForm e).value.forms = s.forms.capture e := by rw [value_captureForm]

/-- Capturing a reference does not touch the forms. -/
theorem forms_captureReference (s : Session) (e : Edge) :
    (s.captureReference e).value.forms = s.forms := by rw [value_captureReference]

theorem forms_captureUnit (s : Session) (name : String) (bytes : Bytes) :
    (s.captureUnit name bytes).value.forms = s.forms := by rw [value_captureUnit]

end Session

/-- So many lists are under way, and these forms have been captured. -/
structure CaptureState.Stands (depth : Nat) (b : FormBuffer) (s : CaptureState) : Prop where
  depth : s.depth = depth
  forms : s.session.forms = b

/-- No list is under way, and these forms have been captured. -/
abbrev CaptureState.Idle (b : FormBuffer) (s : CaptureState) : Prop := s.Stands 0 b

/-- A logged session with the same forms may take the place of the session. -/
theorem CaptureState.Stands.keep {depth : Nat} {b : FormBuffer} {s : CaptureState}
    (h : s.Stands depth b) {r : Logged Session} (hr : r.value.forms = s.session.forms) :
    (s.keep r).Stands depth b :=
  ⟨h.depth, hr.trans h.forms⟩

namespace Instrumentation

variable {o : Instrumentation} {depth : Nat} {b : FormBuffer} {s : CaptureState}

/-- A reference leaves the lists under way and the forms as they are. -/
theorem stands_reference (h : s.Stands depth b) (view : HostView) (callee : QualifiedName) :
    (o.reference (some view) callee s).Stands depth b := by
  unfold reference
  split
  · exact h
  · refine h.keep ?_
    simp only [Logged.value_bind]
    exact Session.forms_captureReference _ _

theorem stands_symbol (h : s.Stands depth b) (view : HostView) (x : Symbol) :
    (o.symbol (some view) x s).Stands depth b := by
  unfold symbol
  split
  · exact h
  · refine h.keep ?_
    simp only [Logged.value_bind]
    split
    · exact Session.forms_captureReference _ _
    · rfl

theorem stands_unit (h : s.Stands depth b) (name : String) (bytes : Bytes) :
    (o.unit name bytes s).Stands depth b := by
  unfold unit
  split
  · exact h
  · exact h.keep (Session.forms_captureUnit _ _ _)

/-! ### One outermost list -/

section

variable {f : Form}

/-- What is no list is not counted. -/
theorem enter_other (hf : ¬ f.isList) (view : Option HostView) (s : CaptureState) :
    o.enter view f s = (.untracked, s) := by
  unfold enter
  rw [if_pos (by simpa using hf)]

/-- A list inside of another is counted, and not captured. -/
theorem enter_nested (hf : f.isList) (view : Option HostView) (hs : 0 < s.depth) :
    o.enter view f s = (.nested, { s with depth := s.depth + 1 }) := by
  unfold enter
  rw [if_neg (by simp [hf]), if_pos (by simp [hs])]

/-- Every list is counted, whether it is captured or not. -/
theorem depth_enter (hf : f.isList) (view : Option HostView) (s : CaptureState) :
    (o.enter view f s).2.depth = s.depth + 1 ∧ (o.enter view f s).1.isTracked := by
  unfold enter
  rw [if_neg (by simp [hf])]
  split
  · exact ⟨rfl, rfl⟩
  · dsimp only
    split <;> exact ⟨rfl, rfl⟩

/-- The count goes back when a list is left, whether its expansion is captured or not. -/
theorem depth_exit (token : EnterToken) (e : Expansion) (s : CaptureState) :
    (o.exit token e s).depth = (s.release token).depth := by
  unfold exit
  dsimp only
  split <;> rfl

/-- What is entered and left again with the same count leaves the count as it was. -/
theorem depth_exit_enter (view : Option HostView) (e : Expansion) {s s' : CaptureState}
    (h : s'.depth = (o.enter view f s).2.depth) :
    (o.exit (o.enter view f s).1 e s').depth = s.depth := by
  by_cases hf : f.isList
  · obtain ⟨hdepth, htracked⟩ := depth_enter (o := o) hf view s
    rw [depth_exit, CaptureState.release, if_pos htracked]
    show s'.depth - 1 = s.depth
    rw [h, hdepth, Nat.add_sub_cancel]
  · rw [enter_other hf] at h ⊢
    rw [depth_exit]
    exact h

/-- What comes of a form when it is entered in a host that tells of this namespace. -/
theorem value_beginCapture {view : HostView} {ns : String} (hns : (o.namespaceOf view).value = ns)
    (hf : f.AsRead) (s : Session) :
    (o.beginCapture (some view) f s).value =
      match Written.ofForm? ns f with
      | none => (none, s)
      | some d => (some ⟨d.kind, d.ns, d.name, f.line?, f.endLine?⟩, (s.captureForm d.raw).value) := by
  unfold beginCapture Written.ofForm?
  cases hk : f.defKind? with
  | none => rfl
  | some kind =>
    cases hn : f.definedName? with
    | none => rfl
    | some name =>
      simp only [Logged.value_bind, hns, Form.position_of_defKind? hf hk]
      rfl

/-- What is left to do for a definition whose raw form has been captured. -/
theorem forms_exit_capturing {d : Written} {s : CaptureState}
    (hs : s.session.forms = b.capture d.raw) :
    (o.exit (.capturing ⟨d.kind, d.ns, d.name, d.form.line?, d.form.endLine?⟩)
      (Expansion.handedBack d.form.expand) s).session.forms = b.take [d] := by
  have htake : b.take [d] = d.expanded?.toList.foldl FormBuffer.capture (b.capture d.raw) := by
    simp [FormBuffer.take, Written.events]
  rw [htake, Written.expanded?, Written.changed?, ← hs]
  cases d.form.expand with
  | error e => rfl
  | ok e =>
    cases e with
    | unchanged => rfl
    | changed g => exact Session.forms_captureForm _ _

/-- An outermost list is entered and left: what it defines, if anything, is captured. -/
theorem idle_exit_enter {view : HostView} {ns : String} (h : s.Idle b)
    (hns : (o.namespaceOf view).value = ns) (hl : f.isList) (hf : f.AsRead) :
    (o.exit (o.enter (some view) f s).1 (Expansion.handedBack f.expand)
      (o.enter (some view) f s).2).Idle (b.take (Written.ofForm? ns f).toList) := by
  constructor
  · rw [depth_exit_enter (some view) _ rfl, h.depth]
  · unfold enter
    rw [if_neg (by simp [hl]), h.depth, h.forms]
    cases hb : b.enabled with
    | false =>
      -- the form is counted and not looked at, and the buffer would not take it
      rw [FormBuffer.take_of_disabled hb]
      exact h.forms
    | true =>
      have hcapture := value_beginCapture (o := o) hns hf s.session
      rw [if_neg (by decide)]
      dsimp only
      cases hd : Written.ofForm? ns f with
      | none =>
        rw [hd] at hcapture
        rw [hcapture]
        exact h.forms
      | some d =>
        obtain rfl : d.form = f := Written.form_of_ofForm? hd
        rw [hd] at hcapture
        rw [hcapture]
        refine forms_exit_capturing ?_
        show (s.session.captureForm d.raw).value.forms = _
        rw [Session.forms_captureForm, h.forms]

end

end Instrumentation

/-! ### What is told -/

/-- A host with the capturing observer at every point. -/
structure Setting.CapturedBy (t : Setting CaptureState EnterToken) (o : Instrumentation) : Prop where
  observer : ∀ p, t.observer? p = some o.observer
  note : t.note = CaptureState.note

/-- The definitions that are entered when this is told, in the namespace that the host tells. -/
def Occasion.written (faults : Faults) (x : Occasion) : List Written :=
  match x.news with
  | .expansion f => f.written (faults.shownNamespace x.context.namespaceName)
  | _ => []

/-- If a form is expanded, it is one that was read, and the thread stands in a namespace. -/
def Occasion.Proper (x : Occasion) : Prop :=
  ∀ f, x.news = .expansion f → f.AsRead ∧ x.context.AtTopLevel

namespace Setting.CapturedBy

variable {t : Setting CaptureState EnterToken} {o : Instrumentation} {b : FormBuffer}

/-- Between two expansions no form is captured. -/
theorem stands_hear (ht : t.CapturedBy o) {x : Occasion} (hx : ∀ f, x.news ≠ .expansion f)
    {depth : Nat} {s : CaptureState} (h : s.Stands depth b) : (t.hear s x).Stands depth b := by
  obtain ⟨n, c, news⟩ := x
  unfold hear
  cases news with
  | expansion f => exact absurd rfl (hx f)
  | symbol y =>
    dsimp only
    rw [ht.observer]
    exact Instrumentation.stands_symbol h _ y
  | reference q =>
    dsimp only
    rw [ht.observer]
    exact Instrumentation.stands_reference h _ q
  | unit name bytes =>
    dsimp only
    rw [ht.observer]
    exact Instrumentation.stands_unit (o := o) h name bytes
  | note r =>
    dsimp only
    rw [ht.note]
    exact ⟨h.depth, h.forms⟩

theorem watch_eq (ht : t.CapturedBy o) (view : HostView) :
    t.watch view =
      { enter := fun f s => (some (o.enter (some view) f s).1, (o.enter (some view) f s).2)
        exit := fun token _ e s =>
          match token with
          | some token => o.exit token e s
          | none => s } := by
  unfold Setting.watch
  rw [ht.observer]
  congr
  funext token f e s
  cases token <;> rfl

/-- While a list is under way, further ones are counted and not looked at. -/
theorem looksAtLists (ht : t.CapturedBy o) (view : HostView) :
    (t.watch view).LooksAtLists (·.depth = 0) (0 < ·.depth) := by
  rw [ht.watch_eq]
  constructor
  -- while a list is under way
  · constructor
    · intro f s hs
      by_cases hf : f.isList
      · show 0 < (o.enter (some view) f s).2.depth
        rw [(Instrumentation.depth_enter hf _ s).1]
        exact Nat.succ_pos _
      · show 0 < (o.enter (some view) f s).2.depth
        rw [Instrumentation.enter_other hf]
        exact hs
    · intro f e s hs
      by_cases hf : f.isList
      · show o.exit (o.enter (some view) f s).1 e (o.enter (some view) f s).2 = s
        rw [Instrumentation.enter_nested hf _ hs]
        rfl
      · show o.exit (o.enter (some view) f s).1 e (o.enter (some view) f s).2 = s
        rw [Instrumentation.enter_other hf]
        rfl
  -- while none is
  · intro f s hs hf
    show 0 < (o.enter (some view) f s).2.depth
    rw [(Instrumentation.depth_enter hf _ s).1]
    exact Nat.succ_pos _
  · intro f e s hs hf
    show (o.exit (o.enter (some view) f s).1 e (o.enter (some view) f s).2).depth = 0
    rw [Instrumentation.depth_exit_enter _ _ rfl, hs]
  -- other forms are not counted at all
  · intro f s hf
    show (o.enter (some view) f s).2 = s
    rw [Instrumentation.enter_other hf]
  · intro f e s s' hf
    show o.exit (o.enter (some view) f s).1 e s' = s'
    rw [Instrumentation.enter_other hf]
    rfl

/-- Outermost lists in a row: what they define is captured, in order. -/
theorem idle_foldl_around (ht : t.CapturedBy o) {view : HostView} {ns : String}
    (hns : (o.namespaceOf view).value = ns) {l : List Form} (hl : ∀ f ∈ l, f.isList ∧ f.AsRead)
    {s : CaptureState} (h : s.Idle b) :
    (l.foldl (t.watch view).around s).Idle (b.take (l.filterMap (Written.ofForm? ns))) := by
  induction l generalizing s b with
  | nil => exact h
  | cons f rest ih =>
    obtain ⟨⟨hlist, hread⟩, hrest⟩ := List.forall_mem_cons.mp hl
    have hone := Instrumentation.idle_exit_enter (o := o) h hns hlist hread
    have haround : (t.watch view).around s f =
        o.exit (o.enter (some view) f s).1 (Expansion.handedBack f.expand)
          (o.enter (some view) f s).2 := by
      rw [Watch.around, ht.watch_eq]
    rw [List.foldl_cons, haround]
    have hmore := ih hrest hone
    rw [← FormBuffer.take_append, List.filterMap_eq_flatMap_toList] at hmore
    rw [List.filterMap_eq_flatMap_toList]
    exact hmore

/-- While a list is under way, nothing is captured of what is told. -/
theorem stands_hearAll (ht : t.CapturedBy o) {depth : Nat} (hdepth : 0 < depth)
    {s : CaptureState} (h : s.Stands depth b) (l : List Occasion) :
    (t.hearAll s l).Stands depth b := by
  induction l generalizing s with
  | nil => exact h
  | cons x rest ih =>
    refine ih ?_
    by_cases hx : ∃ f, x.news = .expansion f
    · obtain ⟨f, hf⟩ := hx
      have hunder : 0 < s.depth := by rw [h.depth]; exact hdepth
      have hsame : t.hear s x = s := by
        unfold hear
        rw [hf]
        exact (ht.looksAtLists _).away.brackets.snd_transform f s hunder
      rw [hsame]
      exact h
    · exact ht.stands_hear (fun f hf => hx ⟨f, hf⟩) h

/-- While none is, the definitions that are entered are captured. -/
theorem idle_hear (ht : t.CapturedBy o) {x : Occasion} (hx : x.Proper) {s : CaptureState}
    (h : s.Idle b) : (t.hear s x).Idle (b.take (x.written t.faults)) := by
  by_cases hnews : ∃ f, x.news = .expansion f
  · obtain ⟨f, hf⟩ := hnews
    obtain ⟨hread, hn⟩ := hx f hf
    let view := hostView t.faults x.namespaces x.context
    have hwritten : x.written t.faults =
        f.written (t.faults.shownNamespace x.context.namespaceName) := by
      rw [Occasion.written, hf]
    have hhear : t.hear s x = (Form.entered f.outermost).foldl (t.watch view).around s := by
      unfold hear
      rw [hf]
      exact (ht.looksAtLists view).snd_transform f h.depth
    rw [hwritten, hhear]
    refine ht.idle_foldl_around (o.value_namespaceOf t.faults x.namespaces x.context hn.named)
      (fun g hg => ?_) h
    have hmem := Form.entered_subset _ hg
    exact ⟨Form.isList_of_mem_outermost hmem, Form.asRead_of_mem_outermost hread hmem⟩
  · have hother : ∀ f, x.news ≠ .expansion f := fun f hf => hnews ⟨f, hf⟩
    have hwritten : x.written t.faults = [] := by
      unfold Occasion.written
      split
      next f hf => exact absurd hf (hother f)
      next => rfl
    rw [hwritten]
    exact ht.stands_hear hother h

/-- Of all that is told, the definitions that are entered are captured, in order. -/
theorem idle_hearAll (ht : t.CapturedBy o) {l : List Occasion} (hl : ∀ x ∈ l, x.Proper)
    {s : CaptureState} (h : s.Idle b) :
    (t.hearAll s l).Idle (b.take (l.flatMap (Occasion.written t.faults))) := by
  induction l generalizing s b with
  | nil => exact h
  | cons x rest ih =>
    obtain ⟨hx, hrest⟩ := List.forall_mem_cons.mp hl
    rw [List.flatMap_cons, FormBuffer.take_append]
    exact ih hrest (ht.idle_hear hx h)

end Setting.CapturedBy

/-! ### A whole source -/

namespace Written

/-- A definition as a host with these faults shows it. -/
def shown (faults : Faults) (d : Written) : Written := { d with ns := faults.shownNamespace d.ns }

/-- Where the host tells of namespaces, a definition shows the one that it is in. -/
theorem shown_of_works {faults : Faults} (h : faults.works .currentNamespace) (d : Written) :
    d.shown faults = d := by
  rw [shown, Faults.shownNamespace, if_pos h]

/-- A form writes the same definition, whatever namespace the host tells of. -/
theorem ofForm?_shownNamespace (faults : Faults) (ns : String) (f : Form) :
    ofForm? (faults.shownNamespace ns) f = (ofForm? ns f).map (shown faults) := by
  unfold ofForm?
  cases f.defKind? with
  | none => rfl
  | some kind => cases f.definedName? <;> rfl

end Written

theorem Form.written_shownNamespace (faults : Faults) (ns : String) (f : Form) :
    f.written (faults.shownNamespace ns) = (f.written ns).map (Written.shown faults) := by
  unfold Form.written
  rw [List.map_filterMap]
  congr 1
  funext g
  exact Written.ofForm?_shownNamespace faults ns g

namespace Reached

variable (r : Reached)

/-- Evaluation expands nothing. -/
theorem news_of_mem_occasions {x : Occasion} (hx : x ∈ r.occasions) (f : Form) :
    x.news ≠ .expansion f := by
  rcases List.mem_append.mp hx with hx | hx
  · obtain ⟨y, -, hx⟩ := List.mem_flatMap.mp hx
    rcases List.mem_cons.mp hx with rfl | hx
    · nofun
    · split at hx
      · split at hx
        · cases hx
        · rw [List.mem_singleton.mp hx]
          nofun
      · cases hx
  · cases hc : r.concluded? with
    | none =>
      rw [hc] at hx
      cases hx
    | some p =>
      rw [hc] at hx
      rcases List.mem_append.mp hx with hx | hx
      · obtain ⟨e, -, rfl⟩ := List.mem_map.mp hx
        nofun
      · rw [List.mem_singleton.mp hx]
        nofun

/-- The definitions that are entered at a form at top level. -/
theorem flatMap_written_occasionsOnTop (faults : Faults) :
    r.occasionsOnTop.flatMap (Occasion.written faults) =
      (r.form.written r.machine.context.namespaceName).map (Written.shown faults) := by
  have hevaluated : (r.evaluated.flatMap occasions).flatMap (Occasion.written faults) = [] := by
    rw [List.flatMap_eq_nil_iff]
    intro x hx
    obtain ⟨r', -, hx⟩ := List.mem_flatMap.mp hx
    unfold Occasion.written
    split
    next f hf => exact absurd hf (r'.news_of_mem_occasions hx f)
    next => rfl
  rw [occasionsOnTop, List.flatMap_cons, hevaluated, List.append_nil, ← Form.written_shownNamespace]
  rfl

/-- The form at top level is the one that is expanded. -/
theorem proper_of_mem_occasionsOnTop (hread : r.form.AsRead)
    (hn : r.machine.context.AtTopLevel) {x : Occasion} (hx : x ∈ r.occasionsOnTop) :
    x.Proper := by
  intro f hf
  rcases List.mem_cons.mp hx with rfl | hx
  · cases hf
    exact ⟨hread, hn.named, hn.bare, hn.outside⟩
  · obtain ⟨r', -, hx⟩ := List.mem_flatMap.mp hx
    exact absurd hf (r'.news_of_mem_occasions hx f)

end Reached

/-- What is written is what the forms write that are reached. -/
theorem Compile.writtenBy_eq (l : List Form) (m : Machine Unit) :
    writtenBy l m = (reached (compileForm Setting.unobserved) l m).flatMap fun r =>
      r.form.written r.machine.context.namespaceName := by
  induction l generalizing m with
  | nil => rfl
  | cons f rest ih =>
    rw [writtenBy, reached, List.flatMap_cons]
    congr 1
    cases compileForm Setting.unobserved f m with
    | mk r m' =>
      cases r with
      | error e => rfl
      | ok s => exact ih m'

namespace Namespaces

variable (n : Namespaces) (source : String)

/-- The definitions that are entered when a source is compiled are those that it writes. -/
theorem flatMap_written_occasions (faults : Faults) :
    (n.occasions source).flatMap (Occasion.written faults) =
      (n.written source).map (Written.shown faults) := by
  unfold occasions topLevel written
  cases readAll source with
  | error e => rfl
  | ok forms =>
    dsimp only
    rw [Compile.writtenBy_eq, List.flatMap_assoc, List.map_flatMap]
    simp only [Reached.flatMap_written_occasionsOnTop]

/-- Every form that is expanded was read, and in a namespace. -/
theorem proper_of_mem_occasions {x : Occasion} (hx : x ∈ n.occasions source) : x.Proper := by
  obtain ⟨r, hr, hx⟩ := List.mem_flatMap.mp hx
  obtain ⟨hread, hcontext⟩ := atTopLevel_of_mem_topLevel hr
  exact r.proper_of_mem_occasionsOnTop hread hcontext hx

end Namespaces

/-- Every definition that is written has a name. -/
theorem Form.name_of_mem_written {f : Form} (hf : f.AsRead) {ns : String} {d : Written}
    (hd : d ∈ f.written ns) : d.name ≠ "" := by
  obtain ⟨g, hg, hof⟩ := List.mem_filterMap.mp hd
  have hread := Form.asRead_of_mem_outermost hf (Form.entered_subset _ hg)
  exact Form.definedName?_ne_empty hread (Written.ofForm?_eq_some_iff.mp hof).2.1

theorem Compile.name_of_mem_writtenBy {l : List Form} (hl : ∀ f ∈ l, f.AsRead) {m : Machine Unit}
    {d : Written} (hd : d ∈ writtenBy l m) : d.name ≠ "" := by
  induction l generalizing m with
  | nil => cases hd
  | cons f rest ih =>
    obtain ⟨hf, hrest⟩ := List.forall_mem_cons.mp hl
    rw [writtenBy] at hd
    rcases List.mem_append.mp hd with hd | hd
    · exact Form.name_of_mem_written hf hd
    · split at hd
      · exact ih hrest hd
      · cases hd

/-- Every definition that a source writes has a name. -/
theorem Namespaces.name_of_mem_written {n : Namespaces} {source : String} {d : Written}
    (hd : d ∈ n.written source) : d.name ≠ "" := by
  unfold Namespaces.written at hd
  cases hr : readAll source with
  | error e =>
    rw [hr] at hd
    cases hd
  | ok forms =>
    rw [hr] at hd
    exact Compile.name_of_mem_writtenBy (asRead_of_readAll hr) hd

namespace Host

variable {h : Host Instrumentation} {o : Instrumentation}

/-- A host that has an observer at every point is captured by it. -/
theorem capturedBy_capturing (hobserver : ∀ p, h.observer? p = some o) :
    h.capturing.CapturedBy o where
  observer p := by
    show (h.observer? p).map Instrumentation.observer = _
    rw [hobserver]
    rfl
  note := rfl

/-- A compilation in a host with the capturing observer at every point adds the definitions
that it enters, as the host shows them, to what was captured before. -/
theorem idle_compile (hobserver : ∀ p, h.observer? p = some o) (source : String) (c : Context)
    {s : CaptureState} {b : FormBuffer} (hs : s.Idle b) :
    (h.compile Instrumentation.observer CaptureState.note source c s).2.2.Idle
      (b.take ((h.namespaces.written source).map (Written.shown h.faults))) := by
  rw [outside_compile, ← Namespaces.flatMap_written_occasions]
  exact (capturedBy_capturing hobserver).idle_hearAll
    (fun x => h.namespaces.proper_of_mem_occasions source) hs

/-- A compilation while lists are under way captures none. -/
theorem stands_compile (hobserver : ∀ p, h.observer? p = some o) (source : String) (c : Context)
    {s : CaptureState} {depth : Nat} (hdepth : 0 < depth) {b : FormBuffer}
    (hs : s.Stands depth b) :
    (h.compile Instrumentation.observer CaptureState.note source c s).2.2.Stands depth b := by
  rw [outside_compile]
  exact (capturedBy_capturing hobserver).stands_hearAll hdepth hs _

/-- A host that works shows definitions as they are. -/
theorem map_shown_of_works {faults : Faults} (h : faults.works .currentNamespace)
    (l : List Written) : l.map (Written.shown faults) = l := by
  rw [show Written.shown faults = id from funext (Written.shown_of_works h), List.map_id]

/-- Capture of forms is exact. A compilation in a host that works, with the capturing
observer at every point and with nothing captured before, leaves for each name the raw form
of the last definition of that name that was entered, and the expansion of the last one that
was expanded to another form; and no other forms. -/
theorem get?_forms_compile (h : Host Instrumentation) (o : Instrumentation)
    (hobserver : ∀ p, h.observer? p = some o) (hfaults : h.faults = {}) (source : String)
    (c : Context) (s : CaptureState) (hdepth : s.depth = 0) (hforms : s.session.forms = {})
    (ns name : String) :
    let forms := (h.compile Instrumentation.observer CaptureState.note source c s).2.2.session.forms
    let written := (h.namespaces.written source).filter (Written.isOf ns name)
    forms.get? ⟨ns, name, .raw⟩ = written.getLast?.map Written.raw ∧
      forms.get? ⟨ns, name, .expanded⟩ = (written.filterMap Written.expanded?).getLast? := by
  intro forms written
  have hidle := idle_compile hobserver source c ⟨hdepth, hforms⟩
  rw [map_shown_of_works (by rw [hfaults]; rfl)] at hidle
  have hname : ∀ d ∈ h.namespaces.written source, d.name ≠ "" :=
    fun d hd => Namespaces.name_of_mem_written hd
  have hbuffer : forms = FormBuffer.take {} (h.namespaces.written source) := hidle.forms
  rw [hbuffer]
  constructor
  · exact FormBuffer.get?_take_empty_raw hname ns name
  · exact FormBuffer.get?_take_empty_expanded hname ns name

/-- A new host into which the capturing observer was just installed, and the state of a
thread on which nothing was captured. -/
def installed : Host Instrumentation × CaptureState :=
  let r := (({} : Host Instrumentation).install {} { config := {} } {} {}).value
  (r.2, { session := r.1.session })

/-- The observer is installed at every point. -/
theorem observer?_installed (p : Point) : installed.1.observer? p = some {} := by
  cases p <;> rfl

/-! A source that enters a namespace, defines a function there, and has a definition inside of
vectors and another one inside of a list. The last one is not captured. -/

/-- `(ns lib.core)` -/
def declarationForm : Form :=
  .listAt 1 [.symAt 1 "ns", .symAt 1 "lib.core"]

/-- `[x] (inc x)` -/
def helperParts : List Form :=
  [.vector [.symAt 2 "x"] (.span 2 2), .listAt 2 [.symAt 2 "inc", .symAt 2 "x"]]

/-- `(defn helper [x] (inc x))` -/
def helperForm : Form :=
  .listAt 2 (.symAt 2 "defn" :: .symAt 2 "helper" :: helperParts)

/-- `(def helper (fn helper [x] (inc x)))`, with two lists that have no lines -/
def helperExpanded : Form :=
  .call [.sym "def", .symAt 2 "helper", .call (.sym "fn" :: .sym "helper" :: helperParts)]

/-- `(def a 1)` -/
def enclosedForm : Form :=
  .listAt 3 [.symAt 3 "def", .symAt 3 "a", .int 1]

/-- `[[(def a 1)] (when 1 (def b 2))]` -/
def nestedForm : Form :=
  .vector [.vector [enclosedForm] (.span 3 3),
    .listAt 3 [.symAt 3 "when", .int 1, .listAt 3 [.symAt 3 "def", .symAt 3 "b", .int 2]]]
    (.span 3 3)

/-- The machine of a new host, standing where a compilation begins. -/
def freshMachine : Machine Unit :=
  { namespaces := .initial, context := { ns := some defaultNamespace }, outside := () }

/-- The machine after the first form. -/
def enteredMachine : Machine Unit :=
  (Compile.compileForm Setting.unobserved declarationForm freshMachine).2

/-- The machine after the second form. -/
def helpedMachine : Machine Unit :=
  (Compile.compileForm Setting.unobserved helperForm enteredMachine).2

theorem expand_declarationForm : declarationForm.expand = .ok .unchanged := by cbv

/-- The first form enters its namespace. -/
theorem enteredMachine_spec :
    (Compile.compileForm Setting.unobserved declarationForm freshMachine).1.isOk ∧
      enteredMachine.context.namespaceName = "lib.core" := by
  unfold enteredMachine
  rw [Compile.compileForm_run, expand_declarationForm]
  exact ⟨rfl, rfl⟩

/-- The second form compiles, and the thread stays in that namespace. -/
theorem helpedMachine_spec :
    (Compile.compileForm Setting.unobserved helperForm enteredMachine).1.isOk ∧
      helpedMachine.context.namespaceName = "lib.core" := by
  have hexpand : helperForm.expand = .ok (.changed helperExpanded) := by cbv
  have hsome : (Reached.mk helperExpanded
      (Compile.expanded Setting.unobserved helperForm enteredMachine)).concluded?.isSome := by
    unfold enteredMachine
    rw [Compile.compileForm_run, expand_declarationForm]
    rfl
  obtain ⟨⟨d, refs⟩, hconcluded⟩ := Option.isSome_iff_exists.mp hsome
  obtain ⟨hok, hstays⟩ := Compile.compileForm_of_single hexpand rfl hconcluded
  exact ⟨by rw [hok]; rfl, hstays.trans enteredMachine_spec.2⟩

/-- The source writes two definitions, in the namespace that it enters. -/
theorem written_nested :
    installed.1.namespaces.written
        "(ns lib.core)\n(defn helper [x] (inc x))\n[[(def a 1)] (when 1 (def b 2))]" =
      [⟨.function, "lib.core", "helper", helperForm⟩, ⟨.value, "lib.core", "a", enclosedForm⟩] := by
  have hread : readAll "(ns lib.core)\n(defn helper [x] (inc x))\n[[(def a 1)] (when 1 (def b 2))]" =
      .ok [declarationForm, helperForm, nestedForm] := rfl
  have hdeclaration : declarationForm.written defaultNamespace = [] := by cbv
  have hhelper : helperForm.written "lib.core" =
      [⟨.function, "lib.core", "helper", helperForm⟩] := by cbv
  have hnested : nestedForm.written "lib.core" =
      [⟨.value, "lib.core", "a", enclosedForm⟩] := by cbv
  unfold Namespaces.written
  rw [hread]
  calc Compile.writtenBy [declarationForm, helperForm, nestedForm] freshMachine
      = declarationForm.written defaultNamespace ++
          Compile.writtenBy [helperForm, nestedForm] enteredMachine :=
        Compile.writtenBy_cons_of_isOk enteredMachine_spec.1 _
    _ = declarationForm.written defaultNamespace ++
          (helperForm.written "lib.core" ++ Compile.writtenBy [nestedForm] helpedMachine) := by
        rw [Compile.writtenBy_cons_of_isOk helpedMachine_spec.1, enteredMachine_spec.2]
        rfl
    _ = _ := by
        rw [Compile.writtenBy_singleton, helpedMachine_spec.2, hdeclaration, hhelper, hnested]
        rfl

/-- The function is captured as it was written and as it was expanded; the definition inside of
vectors is no other form when it is expanded, and the one inside of a list is not captured. -/
theorem get?_forms_compile_installed :
    let source := "(ns lib.core)\n(defn helper [x] (inc x))\n[[(def a 1)] (when 1 (def b 2))]"
    let forms := (installed.1.compile Instrumentation.observer CaptureState.note source {}
      installed.2).2.2.session.forms
    (∀ p, installed.1.observer? p = some {}) ∧ installed.1.faults = {} ∧
      installed.2.depth = 0 ∧ installed.2.session.forms = {} ∧
      forms.get? ⟨"lib.core", "helper", .raw⟩ =
        some ⟨.raw, .function, "lib.core", "helper", some 2, some 2, helperForm⟩ ∧
      forms.get? ⟨"lib.core", "helper", .expanded⟩ =
        some ⟨.expanded, .function, "lib.core", "helper", some 2, some 2, helperExpanded⟩ ∧
      forms.get? ⟨"lib.core", "a", .raw⟩ =
        some ⟨.raw, .value, "lib.core", "a", some 3, some 3, enclosedForm⟩ ∧
      forms.get? ⟨"lib.core", "a", .expanded⟩ = none ∧ forms.get? ⟨"lib.core", "b", .raw⟩ = none := by
  intro source forms
  have hexpanded : (Written.mk .function "lib.core" "helper" helperForm).expanded? =
      some ⟨.expanded, .function, "lib.core", "helper", some 2, some 2, helperExpanded⟩ := by cbv
  have hsame : (Written.mk .value "lib.core" "a" enclosedForm).expanded? = none := by cbv
  have hforms := get?_forms_compile installed.1 {} observer?_installed rfl source {} installed.2 rfl rfl
  refine ⟨observer?_installed, rfl, rfl, rfl, ?_, ?_, ?_, ?_, ?_⟩
  · rw [(hforms "lib.core" "helper").1, written_nested]
    rfl
  · rw [(hforms "lib.core" "helper").2, written_nested]
    show ([⟨.function, "lib.core", "helper", helperForm⟩].filterMap Written.expanded?).getLast? = _
    rw [List.filterMap_cons_some hexpanded]
    rfl
  · rw [(hforms "lib.core" "a").1, written_nested]
    rfl
  · rw [(hforms "lib.core" "a").2, written_nested]
    show ([⟨.value, "lib.core", "a", enclosedForm⟩].filterMap Written.expanded?).getLast? = _
    rw [List.filterMap_cons_none hsame]
    rfl
  · rw [(hforms "lib.core" "b").1, written_nested]
    rfl

end Host

end CompileWatch
