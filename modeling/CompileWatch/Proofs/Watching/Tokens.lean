import Mathlib.Logic.Function.Basic
import CompileWatch.Proofs.Watching.FormCapture

/-!
# Tokens of a thread

On one thread, any number of observers are told that the transform routine is entered, and
are handed back their tokens in any order, or never. The thread counts, and its count is that
of the lists whose tokens are out: so a definition is captured when no list is under way,
whatever happened before, and its expansion only when its own token comes back.

- `Thread`, `Action`: what observers of a thread work on, and what can happen there.
- `Instrumentation.rawEvent?`, `FormEvent.expandedTo`: what is captured of a definition.
- `Thread.counts_step`: the count stays right.
- `Watched`: a thread, and the raw captures that were made on it.
- `Watched.exact_run`: when captures are made, after anything that happened.
-/

namespace CompileWatch

/-! ### Events -/

namespace FormEvent

/-- What is carried from the entry of the routine to its exit. -/
def pending (e : FormEvent) : PendingCapture := ⟨e.kind, e.ns, e.name, e.line, e.endLine⟩

/-- The event of another form that took the place of this one. -/
def expandedTo (e : FormEvent) (g : Form) : FormEvent :=
  let (line, endLine) := g.position e.line
  ⟨.expanded, e.kind, e.ns, e.name, line, endLine.or e.endLine, g⟩

end FormEvent

namespace Instrumentation

variable (o : Instrumentation)

/-- The raw event of a definition, as long as the host is there: a list whose operator is a
defining one and whose second element is a symbol. -/
def rawEvent? (view? : Option HostView) (f : Form) : Option FormEvent := do
  let kind ← f.defKind?
  let name ← f.definedName?
  let view ← view?
  let (line, endLine) := f.position (o.lineOf view).value
  return ⟨.raw, kind, (o.namespaceOf view).value, name, line, endLine, f⟩

theorem value_beginCapture_eq (view? : Option HostView) (f : Form) (s : Session) :
    (o.beginCapture view? f s).value =
      match o.rawEvent? view? f with
      | none => (none, s)
      | some e => (some e.pending, (s.captureForm e).value) := by
  unfold beginCapture rawEvent?
  cases f.defKind? with
  | none => rfl
  | some kind =>
    cases f.definedName? with
    | none => rfl
    | some name => cases view? <;> rfl

/-- Only lists are definitions. -/
theorem isList_of_rawEvent? {view? : Option HostView} {f : Form} {e : FormEvent}
    (h : o.rawEvent? view? f = some e) : f.isList := by
  cases f with
  | list items m => rfl
  | _ => cases h

/-- A definition that is entered with no list under way is captured, if the buffer takes its
event. -/
theorem enter_of_rawEvent? {view? : Option HostView} {f : Form} {e : FormEvent} {s : CaptureState}
    (hdepth : s.depth = 0) (hon : s.session.forms.enabled) (h : o.rawEvent? view? f = some e) :
    (o.enter view? f s).1 = .capturing e.pending ∧
      (o.enter view? f s).2.session = (s.session.captureForm e).value := by
  have hcapture := o.value_beginCapture_eq view? f s.session
  rw [h] at hcapture
  unfold enter
  rw [if_neg (by simp [o.isList_of_rawEvent? h]), if_neg (by simp [hdepth, hon])]
  dsimp only
  rw [hcapture]
  exact ⟨rfl, rfl⟩

/-- Nothing is captured while lists are under way, with the buffer switched off, or of a form
that has no raw event. -/
theorem enter_of_not {view? : Option HostView} {f : Form} {s : CaptureState}
    (h : ¬ (s.depth = 0 ∧ s.session.forms.enabled ∧ (o.rawEvent? view? f).isSome)) :
    (∀ p, (o.enter view? f s).1 ≠ .capturing p) ∧ (o.enter view? f s).2.session = s.session := by
  unfold enter
  split
  · exact ⟨nofun, rfl⟩
  split
  · exact ⟨nofun, rfl⟩
  next hopen =>
    simp only [Bool.or_eq_true, decide_eq_true_eq, Bool.not_eq_true', not_or,
      Bool.not_eq_false] at hopen
    have hnone : o.rawEvent? view? f = none :=
      Option.not_isSome_iff_eq_none.mp fun hsome =>
        h ⟨Nat.eq_zero_of_not_pos hopen.1, hopen.2, hsome⟩
    have hcapture := o.value_beginCapture_eq view? f s.session
    rw [hnone] at hcapture
    dsimp only
    rw [hcapture]
    exact ⟨nofun, rfl⟩

/-- Leaving captures the expansion of a definition, if the buffer takes its event. -/
theorem session_exit_changed (e : FormEvent) (g : Form) (s : CaptureState) :
    (o.exit (.capturing e.pending) (.changed g) s).session =
      (s.session.captureForm (e.expandedTo g)).value := rfl

/-- Leaving captures nothing of a form that came back as it was. -/
theorem session_exit_unchanged (token : EnterToken) (s : CaptureState) :
    (o.exit token .unchanged s).session = s.session := by
  unfold exit CaptureState.release
  cases token <;> rfl

end Instrumentation

/-- An event that the buffer does not take leaves the session as it is. -/
theorem Session.captureForm_of_not_accepts {s : Session} {e : FormEvent}
    (h : ¬ s.forms.accepts e) : (s.captureForm e).value = s := by
  unfold captureForm FormBuffer.capture
  rw [if_neg h, if_neg h]
  rfl

/-! ### Threads -/

/-- A token that is out. -/
structure LiveToken where
  number : Nat
  token : EnterToken

/-- Whether an entry was counted whose token is out. -/
def LiveToken.isTracked (x : LiveToken) : Bool := x.token.isTracked

/-- A thread on which observers are called. Each of them writes into a session, and several may
write into one. -/
structure Thread where
  sessions : Nat → Session
  depth : Nat := 0
  /-- The tokens that were handed out and have not come back. -/
  tokens : List LiveToken := []
  /-- How many tokens were handed out. -/
  issued : Nat := 0

/-- What happens on a thread. -/
inductive Action where
  /-- An observer is told that the transform routine is entered, perhaps when its host is gone
  already. -/
  | enter (session : Nat) (o : Instrumentation) (view? : Option HostView) (f : Form)
  /-- The routine is entered, and no observer sees it. -/
  | unseen
  /-- An observer, perhaps another one, is handed a token back. -/
  | exit (session : Nat) (o : Instrumentation) (number : Nat) (result : Expansion)
  /-- A token is lost, since the routine was left otherwise. -/
  | drop (number : Nat)
  /-- Something else is done to a session: a buffer is switched on or off, or emptied. -/
  | between (session : Nat) (change : Session → Session)

namespace Thread

/-- A thread on which nothing has happened. -/
def start (sessions : Nat → Session) : Thread := { sessions }

variable (t : Thread)

/-- The token of a number, if it is out. -/
def token? (number : Nat) : Option EnterToken :=
  (t.tokens.find? (·.number = number)).map (·.token)

/-- What an observer works on that writes into a session. -/
def stateOf (session : Nat) : CaptureState := { session := t.sessions session, depth := t.depth }

/-- What an observer leaves that wrote into a session. -/
def leave (session : Nat) (s : CaptureState) : Thread :=
  { t with
    sessions := Function.update t.sessions session s.session
    depth := s.depth }

/-- Hand a token out. -/
def issue (token : EnterToken) : Thread :=
  { t with tokens := ⟨t.issued, token⟩ :: t.tokens, issued := t.issued + 1 }

/-- Take a token back. -/
def retire (number : Nat) : Thread :=
  { t with tokens := t.tokens.eraseP (·.number = number) }

/-- What becomes of a thread. A token that is not out cannot come back. -/
def step : Action → Thread
  | .enter session o view? f =>
    let r := o.enter view? f (t.stateOf session)
    (t.leave session r.2).issue r.1
  | .unseen => t.issue .untracked
  | .exit session o number result =>
    match t.token? number with
    | some token => (t.leave session (o.exit token result (t.stateOf session))).retire number
    | none => t
  | .drop number =>
    match t.token? number with
    | some token =>
      -- giving a token back concerns no session, so any will do
      { t.retire number with depth := ((t.stateOf 0).release token).depth }
    | none => t
  | .between session change =>
    { t with sessions := Function.update t.sessions session (change (t.sessions session)) }

/-- No list is under way: no token of one is out. -/
def Outermost : Prop := ∀ x ∈ t.tokens, x.isTracked = false

instance : Decidable t.Outermost := inferInstanceAs (Decidable (∀ x ∈ t.tokens, _))

/-- An event was captured in a session, and nothing else was done to any session. -/
structure Captures (session : Nat) (e : FormEvent) (t' : Thread) : Prop where
  accepted : (t.sessions session).forms.accepts e
  sessions : t'.sessions =
    Function.update t.sessions session ((t.sessions session).captureForm e).value

/-! ### The count -/

variable {t}

/-- The thread counts the lists whose tokens are out. -/
def Counts (t : Thread) : Prop := t.depth = t.tokens.countP LiveToken.isTracked

/-- With the count right, it is zero when no list is under way. -/
theorem Counts.depth_eq_zero_iff (h : t.Counts) : t.depth = 0 ↔ t.Outermost := by
  rw [h, List.countP_eq_zero]
  simp [Outermost]

theorem mem_of_token? {number : Nat} {token : EnterToken} (h : t.token? number = some token) :
    ⟨number, token⟩ ∈ t.tokens := by
  obtain ⟨⟨number', token'⟩, hx, rfl⟩ := Option.map_eq_some_iff.mp h
  obtain rfl : number' = number := by simpa using List.find?_some hx
  exact List.mem_of_find?_eq_some hx

/-- A token that was taken back is counted no longer. -/
theorem countP_retire {number : Nat} {token : EnterToken} (h : t.token? number = some token) :
    (t.retire number).tokens.countP LiveToken.isTracked =
      t.tokens.countP LiveToken.isTracked - if token.isTracked then 1 else 0 := by
  obtain ⟨x, hx, rfl⟩ := Option.map_eq_some_iff.mp h
  obtain ⟨hnumber, before, after, htokens, hbefore⟩ := List.find?_eq_some_iff_append.mp hx
  have herase : t.tokens.eraseP (·.number = number) = before ++ after := by
    rw [htokens, List.eraseP_append_right _ (by simpa using hbefore)]
    exact congrArg _ (List.eraseP_cons_of_pos hnumber)
  show (t.tokens.eraseP _).countP _ = _
  rw [herase, htokens, List.countP_append, List.countP_append, List.countP_cons]
  show _ = _ + (_ + if x.token.isTracked then 1 else 0) - _
  omega

theorem depth_release (s : CaptureState) (token : EnterToken) :
    (s.release token).depth = s.depth - if token.isTracked then 1 else 0 := by
  unfold CaptureState.release
  split <;> rfl

/-- Whatever happens, the count stays right. -/
theorem counts_step (h : t.Counts) (a : Action) : (t.step a).Counts := by
  unfold Counts at h ⊢
  cases a with
  | enter session o view? f =>
    show (o.enter view? f _).2.depth = List.countP _ (⟨_, (o.enter view? f _).1⟩ :: t.tokens)
    rw [List.countP_cons]
    by_cases hf : f.isList
    · obtain ⟨hdepth, htracked⟩ :=
        Instrumentation.depth_enter (o := o) hf view? (t.stateOf session)
      rw [hdepth, LiveToken.isTracked, if_pos htracked]
      exact congrArg (· + 1) h
    · rw [Instrumentation.enter_other hf]
      exact h
  | unseen => exact h.trans (List.countP_cons_of_neg Bool.false_ne_true).symm
  | exit session o number result =>
    dsimp only [step]
    cases htoken : t.token? number with
    | none => exact h
    | some token =>
      show (o.exit token result (t.stateOf session)).depth = (t.retire number).tokens.countP _
      rw [Instrumentation.depth_exit, depth_release, countP_retire htoken, ← h]
      rfl
  | drop number =>
    dsimp only [step]
    cases htoken : t.token? number with
    | none => exact h
    | some token =>
      show ((t.stateOf 0).release token).depth = (t.retire number).tokens.countP _
      rw [depth_release, countP_retire htoken, ← h]
      rfl
  | between session change => exact h

end Thread

/-! ### Captures -/

/-- A thread, and the raw captures that were made on it, each with the number of the token that
was handed out for it. -/
structure Watched where
  thread : Thread
  made : List (Nat × FormEvent) := []

/-- The raw event to be captured when a form is entered: no list is under way, the forms of the
session are captured, the form is a definition and its host is there, and the symbol that it
defines has a text. -/
def Thread.raw? (t : Thread) (session : Nat) (o : Instrumentation) (view? : Option HostView)
    (f : Form) : Option FormEvent :=
  if t.Outermost ∧ (t.sessions session).forms.enabled then
    (o.rawEvent? view? f).filter (·.name ≠ "")
  else none

namespace Thread

variable {t : Thread} {session : Nat} {o : Instrumentation} {view? : Option HostView} {f : Form}

theorem raw?_eq_some_iff {e : FormEvent} :
    t.raw? session o view? f = some e ↔
      (t.Outermost ∧ (t.sessions session).forms.enabled) ∧
        o.rawEvent? view? f = some e ∧ e.name ≠ "" := by
  unfold raw?
  split <;> simp_all [Option.filter_eq_some_iff]

/-- Entering captures the raw form that is due. -/
theorem captures_enter (ht : t.Counts) {e : FormEvent} (h : t.raw? session o view? f = some e) :
    (o.enter view? f (t.stateOf session)).1 = .capturing e.pending ∧
      t.Captures session e (t.step (.enter session o view? f)) := by
  obtain ⟨⟨houter, hon⟩, hevent, hname⟩ := raw?_eq_some_iff.mp h
  obtain ⟨htoken, hsession⟩ := o.enter_of_rawEvent? (s := t.stateOf session)
    (ht.depth_eq_zero_iff.mpr houter) hon hevent
  refine ⟨htoken, by simp [FormBuffer.accepts, hon, hname], ?_⟩
  show Function.update t.sessions session (o.enter view? f (t.stateOf session)).2.session = _
  rw [hsession]
  rfl

/-- Entering captures nothing when nothing is due. A definition without a name is looked at, and
its event is not taken. -/
theorem sessions_enter (ht : t.Counts) (h : t.raw? session o view? f = none) :
    (∀ p, (o.enter view? f (t.stateOf session)).1 = .capturing p → p.name = "") ∧
      (t.step (.enter session o view? f)).sessions = t.sessions := by
  have hkept : (∀ p, (o.enter view? f (t.stateOf session)).1 = .capturing p → p.name = "") ∧
      (o.enter view? f (t.stateOf session)).2.session = t.sessions session := by
    by_cases hlooks : (t.stateOf session).depth = 0 ∧ (t.sessions session).forms.enabled ∧
        (o.rawEvent? view? f).isSome
    · obtain ⟨hdepth, hon, hsome⟩ := hlooks
      obtain ⟨e, hevent⟩ := Option.isSome_iff_exists.mp hsome
      have hname : e.name = "" := by
        by_contra hname
        have hraw : t.raw? session o view? f = some e :=
          raw?_eq_some_iff.mpr ⟨⟨ht.depth_eq_zero_iff.mp hdepth, hon⟩, hevent, hname⟩
        rw [h] at hraw
        cases hraw
      obtain ⟨htoken, hsession⟩ := o.enter_of_rawEvent? hdepth hon hevent
      constructor
      · intro p hp
        rw [htoken] at hp
        cases hp
        exact hname
      · rw [hsession]
        exact Session.captureForm_of_not_accepts (by simp [FormBuffer.accepts, hname])
    · obtain ⟨hnot, hsession⟩ := o.enter_of_not hlooks
      exact ⟨fun p hp => absurd hp (hnot p), hsession⟩
  refine ⟨hkept.1, ?_⟩
  show Function.update t.sessions session (o.enter view? f (t.stateOf session)).2.session = _
  rw [hkept.2]
  exact Function.update_eq_self _ _

/-- A token that is handed back changes the session of the observer at most. -/
theorem sessions_exit {number : Nat} {token : EnterToken} (h : t.token? number = some token)
    (result : Expansion) :
    (t.step (.exit session o number result)).sessions =
      Function.update t.sessions session (o.exit token result (t.stateOf session)).session := by
  dsimp only [step]
  rw [h]
  rfl

theorem sessions_exit_of_not_out {number : Nat} (h : t.token? number = none) (result : Expansion) :
    (t.step (.exit session o number result)).sessions = t.sessions := by
  dsimp only [step]
  rw [h]

theorem sessions_drop (number : Nat) : (t.step (.drop number)).sessions = t.sessions := by
  dsimp only [step]
  split <;> rfl

theorem tokens_retire_subset (t : Thread) (number : Nat) : (t.retire number).tokens ⊆ t.tokens :=
  List.eraseP_subset

end Thread

namespace Watched

variable (w : Watched)

/-- The raw event to be captured when something happens. -/
def due? : Action → Option FormEvent
  | .enter session o view? f => w.thread.raw? session o view? f
  | _ => none

/-- Something happens on a thread. -/
def step (a : Action) : Watched where
  thread := w.thread.step a
  made := ((w.due? a).map fun e => (w.thread.issued, e)).toList ++ w.made

/-- What becomes of a thread while one thing happens after the other. -/
def run (w : Watched) (as : List Action) : Watched := as.foldl step w

/-- Captures are made when they are due, and no others. -/
structure Exact : Prop where
  /-- The thread counts the lists whose tokens are out. -/
  depth : w.thread.depth = w.thread.tokens.countP LiveToken.isTracked
  /-- It is back at zero once all tokens have been given back or are lost. -/
  zero : w.thread.tokens = [] → w.thread.depth = 0
  /-- A raw form is captured when it is due. -/
  raw : ∀ session o view? f e, w.thread.raw? session o view? f = some e →
    w.thread.Captures session e (w.thread.step (.enter session o view? f))
  /-- Nothing else is captured when a form is entered. -/
  noRaw : ∀ session o view? f, w.thread.raw? session o view? f = none →
    (w.thread.step (.enter session o view? f)).sessions = w.thread.sessions
  /-- When the token of a raw capture is handed back with another form, that form is captured,
  as long as forms are. -/
  expanded : ∀ session o number e g, (number, e) ∈ w.made → (w.thread.token? number).isSome →
    (w.thread.sessions session).forms.enabled →
    w.thread.Captures session (e.expandedTo g) (w.thread.step (.exit session o number (.changed g)))
  /-- Nothing else is captured when a token is handed back. -/
  noExpanded : ∀ session o number result,
    ¬ (∃ e g, (number, e) ∈ w.made ∧ (w.thread.token? number).isSome ∧ result = .changed g ∧
      (w.thread.sessions session).forms.enabled) →
    (w.thread.step (.exit session o number result)).sessions = w.thread.sessions
  /-- Nothing is captured when a token is lost. -/
  dropped : ∀ number, (w.thread.step (.drop number)).sessions = w.thread.sessions

/-- What is kept while anything happens: the tokens of raw captures that can be found in a
buffer are those of the raw captures that were made. -/
structure Sound : Prop where
  counts : w.thread.Counts
  issued_tokens : ∀ x ∈ w.thread.tokens, x.number < w.thread.issued
  issued_made : ∀ c ∈ w.made, c.1 < w.thread.issued ∧ c.2.name ≠ ""
  capturing : ∀ x ∈ w.thread.tokens, ∀ e, (x.number, e) ∈ w.made → x.token = .capturing e.pending
  made : ∀ x ∈ w.thread.tokens, ∀ p, x.token = .capturing p → p.name ≠ "" →
    ∃ e, (x.number, e) ∈ w.made ∧ p = e.pending

variable {w}

/-- Tokens may go, and anything may happen to the sessions. -/
theorem Sound.of_subset (h : w.Sound) {t : Thread} (ht : t.Counts)
    (hissued : t.issued = w.thread.issued) (htokens : t.tokens ⊆ w.thread.tokens) :
    Sound ⟨t, w.made⟩ where
  counts := ht
  issued_tokens x hx := hissued ▸ h.issued_tokens x (htokens hx)
  issued_made c hc := hissued ▸ h.issued_made c hc
  capturing x hx := h.capturing x (htokens hx)
  made x hx := h.made x (htokens hx)

/-- A token may be handed out, with its raw capture if there is one. -/
theorem Sound.issue (h : w.Sound) {t : Thread} {token : EnterToken} (e? : Option FormEvent)
    (ht : t.Counts) (hissued : t.issued = w.thread.issued + 1)
    (htokens : t.tokens = ⟨w.thread.issued, token⟩ :: w.thread.tokens)
    (hraw : ∀ e ∈ e?, token = .capturing e.pending ∧ e.name ≠ "")
    (hcapturing : ∀ p, token = .capturing p → p.name ≠ "" → ∃ e ∈ e?, p = e.pending) :
    Sound ⟨t, (e?.map fun e => (w.thread.issued, e)).toList ++ w.made⟩ where
  counts := ht
  issued_tokens x hx := by
    rw [hissued]
    rcases List.mem_cons.mp (htokens ▸ hx) with rfl | hx
    · exact Nat.lt_succ_self _
    · exact Nat.lt_succ_of_lt (h.issued_tokens x hx)
  issued_made c hc := by
    rw [hissued]
    rcases List.mem_append.mp hc with hc | hc
    · obtain ⟨e, he, rfl⟩ := Option.map_eq_some_iff.mp (Option.mem_toList.mp hc)
      exact ⟨Nat.lt_succ_self _, (hraw e he).2⟩
    · exact ⟨Nat.lt_succ_of_lt (h.issued_made c hc).1, (h.issued_made c hc).2⟩
  capturing x hx e he := by
    -- a number that is handed out now was not handed out before
    rcases List.mem_cons.mp (htokens ▸ hx) with rfl | hx <;>
      rcases List.mem_append.mp he with he | he
    · obtain ⟨e', he', heq⟩ := Option.map_eq_some_iff.mp (Option.mem_toList.mp he)
      obtain rfl : e' = e := congrArg Prod.snd heq
      exact (hraw e' he').1
    · exact absurd (h.issued_made _ he).1 (Nat.lt_irrefl _)
    · obtain ⟨e', he', heq⟩ := Option.map_eq_some_iff.mp (Option.mem_toList.mp he)
      have hnumber : w.thread.issued = x.number := congrArg Prod.fst heq
      exact absurd (h.issued_tokens x hx) (hnumber ▸ Nat.lt_irrefl _)
    · exact h.capturing x hx e he
  made x hx p hp hname := by
    rcases List.mem_cons.mp (htokens ▸ hx) with rfl | hx
    · obtain ⟨e, he, rfl⟩ := hcapturing p hp hname
      exact ⟨e, List.mem_append_left _ (Option.mem_toList.mpr (Option.map_eq_some_iff.mpr
        ⟨e, he, rfl⟩)), rfl⟩
    · obtain ⟨e, he, rfl⟩ := h.made x hx p hp hname
      exact ⟨e, List.mem_append_right _ he, rfl⟩

/-- Whatever happens, the tokens stay those of the captures. -/
theorem sound_step (h : w.Sound) (a : Action) : (w.step a).Sound := by
  have hcounts := Thread.counts_step h.counts a
  cases a with
  | enter session o view? f =>
    refine h.issue (w.thread.raw? session o view? f) hcounts rfl rfl ?_ ?_
    · intro e he
      exact ⟨(Thread.captures_enter h.counts he).1, (Thread.raw?_eq_some_iff.mp he).2.2⟩
    · intro p hp hname
      cases hraw : w.thread.raw? session o view? f with
      | none => exact absurd ((Thread.sessions_enter h.counts hraw).1 p hp) hname
      | some e =>
        rw [(Thread.captures_enter h.counts hraw).1] at hp
        cases hp
        exact ⟨e, rfl, rfl⟩
  | unseen => exact h.issue none hcounts rfl rfl nofun nofun
  | exit session o number result =>
    refine h.of_subset hcounts ?_ ?_ <;> dsimp only [Thread.step] <;> split
    · rfl
    · rfl
    · exact w.thread.tokens_retire_subset number
    · exact List.Subset.refl _
  | drop number =>
    refine h.of_subset hcounts ?_ ?_ <;> dsimp only [Thread.step] <;> split
    · rfl
    · rfl
    · exact w.thread.tokens_retire_subset number
    · exact List.Subset.refl _
  | between session change => exact h.of_subset hcounts rfl (List.Subset.refl _)

/-- Handing back the token of a raw capture captures the other form that came of it. -/
theorem Sound.captures_exit (h : w.Sound) {session number : Nat} {e : FormEvent}
    (hmade : (number, e) ∈ w.made) (hout : (w.thread.token? number).isSome)
    (hon : (w.thread.sessions session).forms.enabled) (o : Instrumentation) (g : Form) :
    w.thread.Captures session (e.expandedTo g)
      (w.thread.step (.exit session o number (.changed g))) := by
  obtain ⟨token, htoken⟩ := Option.isSome_iff_exists.mp hout
  obtain rfl : token = .capturing e.pending :=
    h.capturing _ (Thread.mem_of_token? htoken) e hmade
  have hname : (e.expandedTo g).name ≠ "" := (h.issued_made _ hmade).2
  constructor
  · simp [FormBuffer.accepts, hon, hname]
  · rw [Thread.sessions_exit htoken, Instrumentation.session_exit_changed]
    rfl

/-- Handing back a token captures nothing otherwise. -/
theorem Sound.sessions_exit (h : w.Sound) {session number : Nat} {result : Expansion}
    (hnot : ¬ ∃ e g, (number, e) ∈ w.made ∧ (w.thread.token? number).isSome ∧
      result = .changed g ∧ (w.thread.sessions session).forms.enabled) (o : Instrumentation) :
    (w.thread.step (.exit session o number result)).sessions = w.thread.sessions := by
  cases htoken : w.thread.token? number with
  | none => exact Thread.sessions_exit_of_not_out htoken result
  | some token =>
    have hkept : (o.exit token result (w.thread.stateOf session)).session =
        w.thread.sessions session := by
      cases result with
      | unchanged => exact o.session_exit_unchanged token _
      | changed g =>
        cases token with
        | untracked => rfl
        | nested => rfl
        | capturing p =>
          refine Session.captureForm_of_not_accepts fun haccepts => ?_
          obtain ⟨hon, hname⟩ : (w.thread.sessions session).forms.enabled ∧ p.name ≠ "" := by
            have htaken : (w.thread.sessions session).forms.enabled && !p.name.isEmpty := haccepts
            simpa using htaken
          obtain ⟨e, hmade, -⟩ := h.made _ (Thread.mem_of_token? htoken) p rfl hname
          exact hnot ⟨e, g, hmade, by rw [htoken]; rfl, rfl, hon⟩
    rw [Thread.sessions_exit htoken, hkept]
    exact Function.update_eq_self _ _

theorem Sound.exact (h : w.Sound) : w.Exact where
  depth := h.counts
  zero htokens := by
    rw [h.counts, htokens]
    rfl
  raw session o view? f e he := (Thread.captures_enter h.counts he).2
  noRaw session o view? f hnone := (Thread.sessions_enter h.counts hnone).2
  expanded session o number e g hmade hout hon := h.captures_exit hmade hout hon o g
  noExpanded session o number result hnot := h.sessions_exit hnot o
  dropped number := Thread.sessions_drop number

theorem sound_start (sessions : Nat → Session) : Sound ⟨Thread.start sessions, []⟩ where
  counts := rfl
  issued_tokens x hx := by cases hx
  issued_made c hc := by cases hc
  capturing x hx := by cases hx
  made x hx := by cases hx

theorem sound_run (h : w.Sound) (as : List Action) : (w.run as).Sound := by
  induction as generalizing w with
  | nil => exact h
  | cons a rest ih => exact ih (sound_step h a)

/-- Whatever happened on a thread, in whatever order its tokens came back or were lost, its count
is that of the lists whose tokens are out, and captures are made exactly when they are due. -/
theorem exact_run (sessions : Nat → Session) (as : List Action) :
    (run ⟨Thread.start sessions, []⟩ as).Exact :=
  (sound_run (sound_start sessions) as).exact

/-- A definition of a symbol without a text. No source has any, but a host may hand one over. -/
def unnamedForm : Form := .list [.symbol { name := "def" }, .symbol { name := "" }, .int 1] {}

/-- Being a definition is not enough: one that names nothing is not captured. -/
theorem not_captured_unnamed :
    let t := Thread.start fun _ => {}
    let view := hostView {} Namespaces.initial {}
    t.Outermost ∧ (t.sessions 0).forms.enabled ∧ unnamedForm.defKind? = some .value ∧
      unnamedForm.definedName? = some "" ∧
      ((t.step (.enter 0 {} (some view) unnamedForm)).sessions 0).forms.size = 0 := by
  decide

end Watched

end CompileWatch
