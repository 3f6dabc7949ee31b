import Mathlib.Logic.Function.Basic
import CompileWatch.Proofs.Watching.Tokens

/-!
# Hosts and installers that share a session

Any number of installers install into any number of hosts, and share one session. Whatever else is
done to the hosts and to the session in between, an installer installs once, and the hosts are tested
once: the first time decides on what is reported from then on.

- `Instrumentation.Kept`: what every call of a capturing observer keeps, and so every compilation.
- `Host.value_install_of_none`, `Host.value_install_of_some`: an installation, and one that comes
  too late.
- `Fleet`, `Fleet.Action`: hosts and installers that share a session, and what can happen to them.
- `Fleet.report_step_of_some`, `Fleet.selfTest_step_of_some`: what was reported stays.
- `Fleet.installs_once`: any number of actions.
-/

namespace CompileWatch

/-! ### What observers keep -/

/-- Every call of a capturing observer keeps a property of what observers work on. -/
structure Instrumentation.Kept (P : CaptureState → Prop) : Prop where
  enter : ∀ (o : Instrumentation) view f s, P s → P (o.enter view f s).2
  exit : ∀ (o : Instrumentation) token e s, P s → P (o.exit token e s)
  reference : ∀ (o : Instrumentation) view callee s, P s → P (o.reference view callee s)
  symbol : ∀ (o : Instrumentation) view y s, P s → P (o.symbol view y s)
  unit : ∀ (o : Instrumentation) name bytes s, P s → P (o.unit name bytes s)
  note : ∀ r (s : CaptureState), P s → P (s.note r)

namespace Setting.Capturing

variable {t : Setting CaptureState EnterToken} {P : CaptureState → Prop}

/-- What the capturing observer keeps at its hooks, it keeps as a watcher. -/
theorem keeps_watch (ht : t.Capturing) (hP : Instrumentation.Kept P) (view : HostView) :
    (t.watch view).Keeps P := by
  cases ho : t.observer? .transform with
  | none =>
    constructor
    · intro f s hs
      unfold watch
      rw [ho]
      exact hs
    · intro token f e s hs
      unfold watch
      rw [ho]
      exact hs
  | some o =>
    obtain ⟨i, rfl⟩ := ht.observer _ _ ho
    constructor
    · intro f s hs
      unfold watch
      rw [ho]
      exact hP.enter i (some view) f s hs
    · intro token f e s hs
      unfold watch
      rw [ho]
      cases token with
      | none => exact hs
      | some token => exact hP.exit i token e s hs

/-- What captures keep is kept whatever is told. -/
theorem keeps_hear (ht : t.Capturing) (hP : Instrumentation.Kept P) {s : CaptureState} (hs : P s)
    (x : Occasion) : P (t.hear s x) := by
  obtain ⟨n, c, news⟩ := x
  cases news with
  | expansion f => exact (ht.keeps_watch hP _).snd_transform f hs
  | symbol y =>
    unfold hear
    dsimp only
    cases ho : t.observer? .constantResolution with
    | none => exact hs
    | some o =>
      obtain ⟨i, rfl⟩ := ht.observer _ _ ho
      exact hP.symbol i (some (hostView t.faults n c)) y s hs
  | reference q =>
    unfold hear
    dsimp only
    cases ho : t.observer? .referenceConstruction with
    | none => exact hs
    | some o =>
      obtain ⟨i, rfl⟩ := ht.observer _ _ ho
      exact hP.reference i (some (hostView t.faults n c)) q s hs
  | unit name bytes =>
    unfold hear
    dsimp only
    cases ho : t.observer? .unitDefinition with
    | none => exact hs
    | some o =>
      obtain ⟨i, rfl⟩ := ht.observer _ _ ho
      exact hP.unit i name bytes s hs
  | note r =>
    show P (t.note r s)
    rw [ht.note]
    exact hP.note r s hs

/-- What captures keep is kept over all that is told. -/
theorem keeps_hearAll (ht : t.Capturing) (hP : Instrumentation.Kept P) {s : CaptureState} (hs : P s)
    (l : List Occasion) : P (t.hearAll s l) := by
  induction l generalizing s with
  | nil => exact hs
  | cons x rest ih => exact ih (ht.keeps_hear hP hs x)

end Setting.Capturing

/-- What every call keeps is kept by a compilation. -/
theorem Host.keeps_compile {P : CaptureState → Prop} (hP : Instrumentation.Kept P)
    (h : Host Instrumentation) (source : String) (c : Context) {s : CaptureState} (hs : P s) :
    P (h.compile Instrumentation.observer CaptureState.note source c s).2.2 := by
  rw [outside_compile]
  exact h.capturing_setting.keeps_hearAll hP hs _

namespace Session

/-- Capturing a form does not touch the self-test. -/
theorem selfTest_captureForm (s : Session) (e : FormEvent) :
    (s.captureForm e).value.selfTest = s.selfTest := by rw [value_captureForm]

theorem selfTest_captureReference (s : Session) (e : Edge) :
    (s.captureReference e).value.selfTest = s.selfTest := by rw [value_captureReference]

theorem selfTest_captureUnit (s : Session) (name : String) (bytes : Bytes) :
    (s.captureUnit name bytes).value.selfTest = s.selfTest := by rw [value_captureUnit]

end Session

namespace Instrumentation

variable (o : Instrumentation) (s : CaptureState)

/-- Entering a form does not touch the self-test. -/
theorem selfTest_enter (view? : Option HostView) (f : Form) :
    (o.enter view? f s).2.session.selfTest = s.session.selfTest := by
  unfold enter
  split
  · rfl
  split
  · rfl
  have hcapture : (o.beginCapture view? f s.session).value.2.selfTest = s.session.selfTest := by
    rw [value_beginCapture_eq]
    split
    · rfl
    · exact Session.selfTest_captureForm _ _
  dsimp only
  split <;> exact hcapture

theorem selfTest_exit (token : EnterToken) (e : Expansion) :
    (o.exit token e s).session.selfTest = s.session.selfTest := by
  have hrelease : (s.release token).session = s.session := by
    unfold CaptureState.release
    split <;> rfl
  unfold exit
  dsimp only
  split
  · show (captureExpanded _ _ (s.release _).session).value.selfTest = _
    rw [hrelease]
    exact Session.selfTest_captureForm _ _
  · rw [hrelease]

theorem selfTest_reference (view? : Option HostView) (callee : QualifiedName) :
    (o.reference view? callee s).session.selfTest = s.session.selfTest := by
  unfold reference
  split
  · rfl
  · cases view? with
    | none => rfl
    | some view => exact Session.selfTest_captureReference _ _

theorem selfTest_symbol (view? : Option HostView) (y : Symbol) :
    (o.symbol view? y s).session.selfTest = s.session.selfTest := by
  unfold symbol
  split
  · rfl
  · cases view? with
    | none => rfl
    | some view =>
      simp only [CaptureState.keep, Logged.value_bind]
      split
      · exact Session.selfTest_captureReference _ _
      · rfl

theorem selfTest_unit (name : String) (bytes : Bytes) :
    (o.unit name bytes s).session.selfTest = s.session.selfTest := by
  unfold unit
  split
  · rfl
  · exact Session.selfTest_captureUnit _ _ _

/-- No observer tests a host. -/
theorem kept_selfTest (t? : Option SelfTest) : Kept fun s => s.session.selfTest = t? where
  enter o view f s hs := (o.selfTest_enter s view f).trans hs
  exit o token e s hs := (o.selfTest_exit s token e).trans hs
  reference o view callee s hs := (o.selfTest_reference s view callee).trans hs
  symbol o view y s hs := (o.selfTest_symbol s view y).trans hs
  unit o name bytes s hs := (o.selfTest_unit s name bytes).trans hs
  note _ _ hs := hs

end Instrumentation

/-! ### One installation -/

/-- The bindings that do not work, in the order of the probes. -/
def Faults.failing (f : Faults) : List Capability :=
  Capability.all.filter fun c => c ∈ f.broken ∨ c ∈ f.crashing

/-- The self-test of a host finds the bindings that do not work, and no others. -/
theorem SelfTest.failures_probeAll (f : Faults) (n : Namespaces) (c : Context) :
    (SelfTest.probeAll (hostView f n c)).failures.map (·.capability) = f.failing := by
  have hfails (x : Capability) : (probeError? (hostView f n c) x).isSome =
      decide (x ∈ f.broken ∨ x ∈ f.crashing) := by
    have hprobe : (hostView f n c).probe x = f.check x := rfl
    rw [probeError?, hprobe, Faults.check]
    by_cases hcrashing : x ∈ f.crashing
    · simp [hcrashing]
    · by_cases hbroken : x ∈ f.broken <;> simp [hcrashing, hbroken]
  have hprobes (l : List Capability) :
      (l.filterMap fun x => (probeError? (hostView f n c) x).map (ProbeFailure.mk x)).map
        (·.capability) = l.filter fun x => x ∈ f.broken ∨ x ∈ f.crashing := by
    induction l with
    | nil => rfl
    | cons x rest ih =>
      cases hx : probeError? (hostView f n c) x with
      | none =>
        rw [List.filterMap_cons_none (by rw [hx]; rfl), ih,
          List.filter_cons_of_neg (by simp [← hfails, hx])]
      | some e =>
        rw [List.filterMap_cons_some (b := ⟨x, e⟩) (by rw [hx]; rfl), List.map_cons, ih,
          List.filter_cons_of_pos (by simp [← hfails, hx])]
  exact hprobes Capability.all

namespace Host

variable {ω : Type} (h : Host ω)

/-- What is reported of an installation in this host. -/
def reportOf (healthy : Bool) : InstallReport where
  attached := Point.all.filter (· ∉ h.refused)
  refused := (Point.all.filter (· ∈ h.refused)).map fun p =>
    (p, .attachRefused p.text "routine signature not recognized")
  healthy

/-- The points that the host admits are attached, and the others are skipped. -/
theorem value_attachPoints (c : Config) (healthy : Bool) (points : List Point)
    (r : InstallReport) :
    (Installer.attachPoints c h.admits healthy points r).value = .answer
      { attached := r.attached ++ points.filter (· ∉ h.refused)
        refused := r.refused ++ (points.filter (· ∈ h.refused)).map fun p =>
          (p, .attachRefused p.text "routine signature not recognized")
        healthy } := by
  induction points generalizing r with
  | nil => simp [Installer.attachPoints]
  | cons p rest ih =>
    by_cases hp : p ∈ h.refused
    · have hadmits : h.admits p =
          .refusal (.attachRefused p.text "routine signature not recognized") := by
        rw [admits, if_pos (by simpa using hp)]
      simp only [Installer.attachPoints, hadmits, Logged.value_bind, ih]
      simp [hp]
    · have hadmits : h.admits p = .answer () := by
        rw [admits, if_neg (by simpa using hp)]
      simp only [Installer.attachPoints, hadmits, Logged.value_bind, ih]
      simp [hp]

/-- The first time, an installer asks for every point, with the outcome of the self-test. -/
theorem value_install_of_none (o : ω) {i : Installer} (hi : i.report = none) (c : Context)
    (s : Session) :
    let t := (SelfTest.ensure s.selfTest (h.view c)).value
    (h.install o i c s).value =
      (⟨.answer (h.reportOf t.passed), { i with report := some (h.reportOf t.passed) },
        i.config.apply { s with selfTest := some t }, true⟩,
        (h.reportOf t.passed).attached.foldl (·.observe o) h) := by
  intro t
  have hattach : (Installer.attachPoints i.config h.admits t.passed Point.all ⟨[], [], true⟩).value =
      .answer (h.reportOf t.passed) := by
    rw [value_attachPoints]
    rfl
  have hall : (Installer.attachAll i.config (h.view c) h.admits s).value =
      (.answer (h.reportOf t.passed), i.config.apply { s with selfTest := some t }) := by
    have htested : (s.ensureTested (h.view c)).value = (t, { s with selfTest := some t }) := rfl
    simp only [Installer.attachAll, Logged.value_bind, htested, hattach]
    rfl
  simp only [install, Installer.install, hi, Logged.value_bind, hall]
  rfl

/-- From then on, it repeats what it reported, and changes nothing. -/
theorem value_install_of_some (o : ω) {i : Installer} {report : InstallReport}
    (hi : i.report = some report) (c : Context) (s : Session) :
    (h.install o i c s).value = (⟨.answer report, i, s, false⟩, h) := by
  simp only [install, Installer.install, hi, Logged.value_bind]
  rfl

/-- An observer is at the points where it was attached, and others are as before. -/
theorem observer?_foldl_observe (o : ω) (points : List Point) (p : Point) :
    (points.foldl (·.observe o) h).observer? p = if p ∈ points then some o else h.observer? p := by
  induction points generalizing h with
  | nil => rfl
  | cons q rest ih =>
    rw [List.foldl_cons, ih]
    by_cases hrest : p ∈ rest
    · simp [hrest]
    · by_cases hq : p = q <;> simp [hrest, hq, observe]

end Host

/-! ### Hosts and installers in use -/

/-- Hosts and installers by number, and the session that all of them share. -/
structure Fleet where
  hosts : Nat → Host Instrumentation
  installers : Nat → Installer
  session : Session := {}

namespace Fleet

/-- What can happen to a fleet. -/
inductive Action where
  /-- An installer is asked to install into a host. -/
  | install (installer host : Nat) (c : Context)
  /-- The unused definitions of some namespaces of a host are searched. -/
  | findUnused (host : Nat) (c : Context) (namespaces : List String)
  | breakCapability (host : Nat) (capability : Capability)
  | crashCapability (host : Nat) (capability : Capability)
  | refuse (host : Nat) (p : Point)
  /-- A buffer of the session is switched on or off. -/
  | enable (category : Category) (on : Bool)
  /-- A source is compiled in a host, by a thread that is inside so many lists. -/
  | compile (host : Nat) (source : String) (c : Context) (depth : Nat)

namespace Action

/-- The installer that is asked to install. -/
def installer? : Action → Option Nat
  | .install i _ _ => some i
  | _ => none

/-- The host that is tested, if none was tested before. -/
def tested? : Action → Option Nat
  | .install _ k _ => some k
  | .findUnused k _ _ => some k
  | _ => none

theorem installer?_of_tested? {a : Action} (h : a.tested? = none) : a.installer? = none := by
  cases a with
  | install i k c => cases h
  | _ => rfl

end Action

variable (w : Fleet)

/-- The observer that an installer lets in. -/
def observer (i : Nat) : Instrumentation := ⟨(w.installers i).config.debug⟩

/-- What comes of asking an installer to install into a host. -/
def installing (i k : Nat) (c : Context) : Installer.Installed × Host Instrumentation :=
  ((w.hosts k).install (w.observer i) (w.installers i) c w.session).value

/-- What an installer answers when it is asked to install into a host. -/
def reply (i k : Nat) (c : Context) : Reply InstallReport := (w.installing i k c).1.reply

/-- The fleet with another host in the place of one. -/
def setHost (k : Nat) (h : Host Instrumentation) : Fleet :=
  { w with hosts := Function.update w.hosts k h }

/-- What becomes of a fleet. -/
def step : Action → Fleet
  | .install i k c =>
    let r := w.installing i k c
    { hosts := Function.update w.hosts k r.2
      installers := Function.update w.installers i r.1.installer
      session := r.1.session }
  | .findUnused k c namespaces =>
    { w with session := (w.session.findUnused ((w.hosts k).view c) namespaces).value.2 }
  | .breakCapability k x => w.setHost k ((w.hosts k).breakCapability x)
  | .crashCapability k x => w.setHost k ((w.hosts k).crashCapability x)
  | .refuse k p => w.setHost k ((w.hosts k).refuse p)
  | .enable category on => { w with session := w.session.enable on category }
  | .compile k source c depth =>
    let r := ((w.hosts k).compile Instrumentation.observer CaptureState.note source c
      { session := w.session, depth }).2
    { w.setHost k r.1 with session := r.2.session }

/-- What becomes of a fleet after actions in a row. -/
def after (actions : List Action) : Fleet := actions.foldl step w

/-- Actions are done one after the other. -/
theorem after_append (before later : List Action) :
    w.after (before ++ later) = (w.after before).after later := List.foldl_append

/-- An installation into a host, from one fleet to the next, and what is reported of it. -/
structure Installs (i k : Nat) (report : InstallReport) (w' : Fleet) : Prop where
  attached : report.attached = Point.all.filter (· ∉ (w.hosts k).refused)
  refused : report.refused.map (·.1) = Point.all.filter (· ∈ (w.hosts k).refused)
  healthy : report.healthy = w'.session.isHealthy
  observers : ∀ p, (w'.hosts k).observer? p =
    if p ∈ report.attached then some (w.observer i) else (w.hosts k).observer? p
  others : ∀ k', k' ≠ k → w'.hosts k' = w.hosts k'
  session : w'.session =
    (w.installers i).config.apply { w.session with selfTest := w'.session.selfTest }

/-! ### One action -/

variable {w}

section

variable {i : Nat} {report : InstallReport} {t : SelfTest}

/-- An installer that has installed changes nothing any more. -/
theorem step_install_of_some (hi : (w.installers i).report = some report) (k : Nat) (c : Context) :
    w.reply i k c = .answer report ∧ w.step (.install i k c) = w := by
  have hinstalling : w.installing i k c =
      (⟨.answer report, w.installers i, w.session, false⟩, w.hosts k) :=
    (w.hosts k).value_install_of_some (w.observer i) hi c w.session
  constructor
  · rw [reply, hinstalling]
  · rw [step, hinstalling]
    simp

/-- The self-test that is valid after a host was tested now, unless one was before. -/
def tests (w : Fleet) (k : Nat) (c : Context) : SelfTest :=
  (SelfTest.ensure w.session.selfTest ((w.hosts k).view c)).value

/-- An installer that has not yet installed does so now. -/
theorem step_install_of_none (hi : (w.installers i).report = none) (k : Nat) (c : Context) :
    ∃ report, w.Installs i k report (w.step (.install i k c)) ∧ w.reply i k c = .answer report ∧
      ((w.step (.install i k c)).installers i).report = some report ∧
      (w.step (.install i k c)).session.selfTest = some (w.tests k c) := by
  let report := (w.hosts k).reportOf (w.tests k c).passed
  have hinstalling : w.installing i k c =
      (⟨.answer report, { w.installers i with report := some report },
        (w.installers i).config.apply { w.session with selfTest := some (w.tests k c) }, true⟩,
        report.attached.foldl (·.observe (w.observer i)) (w.hosts k)) :=
    (w.hosts k).value_install_of_none (w.observer i) hi c w.session
  have hstep : w.step (.install i k c) =
      { hosts := Function.update w.hosts k
          (report.attached.foldl (·.observe (w.observer i)) (w.hosts k))
        installers := Function.update w.installers i { w.installers i with report := some report }
        session := (w.installers i).config.apply
          { w.session with selfTest := some (w.tests k c) } } := by
    rw [step, hinstalling]
  rw [hstep]
  refine ⟨report, ⟨rfl, ?_, rfl, ?_, ?_, rfl⟩, ?_, ?_, rfl⟩
  · simp [report, Host.reportOf, Function.comp_def]
  · intro p
    dsimp only
    rw [Function.update_self, Host.observer?_foldl_observe]
  · intro k' hk
    exact Function.update_of_ne hk _ _
  · rw [reply, hinstalling]
  · dsimp only
    rw [Function.update_self]

/-- Only an action that asks an installer to install changes it. -/
theorem installers_step {a : Action} (ha : a.installer? ≠ some i) :
    (w.step a).installers i = w.installers i := by
  cases a with
  | install i' k c =>
    have hne : i ≠ i' := fun h => ha (congrArg some h.symm)
    exact Function.update_of_ne hne _ _
  | _ => rfl

/-- What an installer reported, it reports after any action. -/
theorem report_step_of_some (hi : (w.installers i).report = some report) (a : Action) :
    ((w.step a).installers i).report = some report := by
  by_cases ha : a.installer? = some i
  · cases a with
    | install i' k c =>
      obtain rfl : i' = i := Option.some.inj ha
      rw [(step_install_of_some hi k c).2]
      exact hi
    | _ => cases ha
  · rw [installers_step ha]
    exact hi

/-- Only an action that tests a host changes what the self-test found. -/
theorem selfTest_step {a : Action} (ha : a.tested? = none) :
    (w.step a).session.selfTest = w.session.selfTest := by
  cases a with
  | install i k c => cases ha
  | findUnused k c namespaces => cases ha
  | enable category on => cases category <;> rfl
  | compile k source c depth =>
    -- whatever is compiled, observers only note and count
    exact Host.keeps_compile (Instrumentation.kept_selfTest _) _ source c rfl
  | _ => rfl

/-- What the self-test found, it has found after any action. -/
theorem selfTest_step_of_some (ht : w.session.selfTest = some t) (a : Action) :
    (w.step a).session.selfTest = some t := by
  have htests (k : Nat) (c : Context) : w.tests k c = t := by
    rw [tests, ht]
    rfl
  cases a with
  | install i k c =>
    cases hi : (w.installers i).report with
    | some report =>
      rw [(step_install_of_some hi k c).2]
      exact ht
    | none =>
      obtain ⟨-, -, -, -, hfound⟩ := step_install_of_none hi k c
      rw [hfound, htests]
  | findUnused k c namespaces =>
    show some (w.tests k c) = some t
    rw [htests]
  | _ => exact (selfTest_step rfl).trans ht

/-- The first action that tests a host finds the bindings that do not work. -/
theorem selfTest_step_of_none (ht : w.session.selfTest = none) {a : Action} {k : Nat}
    (ha : a.tested? = some k) (hi : ∀ i, (w.installers i).report = none) :
    ∃ t, t.failures.map (·.capability) = (w.hosts k).faults.failing ∧
      (w.step a).session.selfTest = some t := by
  have htests (c : Context) :
      (w.tests k c).failures.map (·.capability) = (w.hosts k).faults.failing := by
    rw [tests, ht]
    exact SelfTest.failures_probeAll _ _ _
  cases a with
  | install i k' c =>
    obtain rfl : k' = k := Option.some.inj ha
    obtain ⟨-, -, -, -, hfound⟩ := step_install_of_none (hi i) k' c
    exact ⟨w.tests k' c, htests c, hfound⟩
  | findUnused k' c namespaces =>
    obtain rfl : k' = k := Option.some.inj ha
    exact ⟨w.tests k' c, htests c, rfl⟩
  | _ => cases ha

/-! ### Actions in a row -/

/-- A report that is there stays, whatever is done. -/
theorem report_after_of_some (hi : (w.installers i).report = some report) (actions : List Action) :
    ((w.after actions).installers i).report = some report := by
  induction actions generalizing w with
  | nil => exact hi
  | cons a rest ih => exact ih (report_step_of_some hi a)

/-- An installer that is left alone stays as it is. -/
theorem installers_after {actions : List Action} (ha : ∀ a ∈ actions, a.installer? ≠ some i) :
    (w.after actions).installers i = w.installers i := by
  induction actions generalizing w with
  | nil => rfl
  | cons a rest ih =>
    obtain ⟨hfirst, hrest⟩ := List.forall_mem_cons.mp ha
    exact (ih hrest).trans (installers_step hfirst)

/-- The result of a self-test stays, whatever is done. -/
theorem selfTest_after_of_some (ht : w.session.selfTest = some t) (actions : List Action) :
    (w.after actions).session.selfTest = some t := by
  induction actions generalizing w with
  | nil => exact ht
  | cons a rest ih => exact ih (selfTest_step_of_some ht a)

/-- Without a test the result of the self-test is what it was. -/
theorem selfTest_after {actions : List Action} (ha : ∀ a ∈ actions, a.tested? = none) :
    (w.after actions).session.selfTest = w.session.selfTest := by
  induction actions generalizing w with
  | nil => rfl
  | cons a rest ih =>
    obtain ⟨hfirst, hrest⟩ := List.forall_mem_cons.mp ha
    exact (ih hrest).trans (selfTest_step hfirst)

end

/-- Where no installer has installed and no host was tested, whatever is done: an installer installs
when it is first asked to, at the points that the host does not refuse at that moment, and from then
on it repeats its report and changes nothing. And the first installation or search tests its host
for the bindings that do not work at that moment; the session is healthy until then, and from then
on says what was found. -/
theorem installs_once (w : Fleet) (hreports : ∀ i, (w.installers i).report = none)
    (htest : w.session.selfTest = none) :
    (∀ i before, (∀ a ∈ before, a.installer? ≠ some i) →
      ((w.after before).installers i).report = none ∧
      ∀ k c, ∃ report,
        (w.after before).Installs i k report (w.after (before ++ [.install i k c])) ∧
        (w.after before).reply i k c = .answer report ∧
        ∀ later,
          let w' := w.after (before ++ .install i k c :: later)
          (w'.installers i).report = some report ∧
            ∀ k' c', w'.reply i k' c' = .answer report ∧ w'.step (.install i k' c') = w') ∧
    ∀ before, (∀ a ∈ before, a.tested? = none) →
      (w.after before).session.selfTest = none ∧ (w.after before).session.isHealthy ∧
      ∀ a k, a.tested? = some k → ∃ t,
        t.failures.map (·.capability) = ((w.after before).hosts k).faults.failing ∧
        ∀ later,
          let w' := w.after (before ++ a :: later)
          w'.session.selfTest = some t ∧ w'.session.isHealthy = t.passed := by
  constructor
  · intro i before hbefore
    have hnone : ((w.after before).installers i).report = none := by
      rw [installers_after hbefore]
      exact hreports i
    refine ⟨hnone, fun k c => ?_⟩
    obtain ⟨report, hinstalls, hreply, hreport, -⟩ := step_install_of_none hnone k c
    refine ⟨report, ?_, hreply, fun later => ?_⟩
    · rw [after_append]
      exact hinstalls
    · intro w'
      have hlater : (w'.installers i).report = some report := by
        show ((w.after (before ++ .install i k c :: later)).installers i).report = some report
        rw [after_append]
        exact report_after_of_some hreport later
      exact ⟨hlater, fun k' c' => step_install_of_some hlater k' c'⟩
  · intro before hbefore
    have hnone : (w.after before).session.selfTest = none := (selfTest_after hbefore).trans htest
    -- to install is to test, and so none has installed
    have hinstallers (i : Nat) : ((w.after before).installers i).report = none := by
      rw [installers_after fun a ha => by simp [Action.installer?_of_tested? (hbefore a ha)]]
      exact hreports i
    refine ⟨hnone, ?_, fun a k ha => ?_⟩
    · rw [Session.isHealthy, hnone]
      rfl
    · obtain ⟨t, hfailures, hfound⟩ := selfTest_step_of_none hnone ha hinstallers
      refine ⟨t, hfailures, fun later => ?_⟩
      intro w'
      have hlater : w'.session.selfTest = some t := by
        show (w.after (before ++ a :: later)).session.selfTest = some t
        rw [after_append]
        exact selfTest_after_of_some hfound later
      refine ⟨hlater, ?_⟩
      rw [Session.isHealthy, hlater]
      rfl

/-- Hosts and installers of which nothing was asked. -/
def unused : Fleet where
  hosts _ := {}
  installers _ := { config := {} }

/-- What is done to a host before an installer is asked to install into it. -/
def prepared : List Action :=
  [.crashCapability 1 .compilerLine, .breakCapability 1 .varSymbol, .refuse 1 .transform]

/-- What is done after that. -/
def followed : List Action :=
  [.breakCapability 1 .varNamespace, .install 1 0 {}, .enable .forms false,
    .compile 1 "(def a 1)" {} 0, .findUnused 0 {} ["user"]]

/-- A host without observers is asked to install twice. -/
theorem installs_once_unused :
    let w' := unused.after (prepared ++ .install 0 1 {} :: followed)
    (∀ i, (unused.installers i).report = none) ∧ unused.session.selfTest = none ∧
      (∃ report, report.attached = [.referenceConstruction, .constantResolution, .unitDefinition] ∧
        report.refused.map (·.1) = [.transform] ∧ (w'.installers 0).report = some report ∧
        w'.step (.install 0 0 {}) = w') ∧
      ∃ t, t.failures.map (·.capability) = [.varSymbol, .compilerLine] ∧
        w'.session.selfTest = some t ∧ w'.session.isHealthy = t.passed := by
  intro w'
  obtain ⟨hinstallers, htests⟩ := installs_once unused (fun _ => rfl) rfl
  refine ⟨fun _ => rfl, rfl, ?_, ?_⟩
  · obtain ⟨report, hinstalls, -, hlater⟩ := (hinstallers 0 prepared (by decide)).2 1 {}
    obtain ⟨hreport, hagain⟩ := hlater followed
    exact ⟨report, hinstalls.attached, hinstalls.refused, hreport, (hagain 0 {}).2⟩
  · obtain ⟨t, hfailures, hlater⟩ := (htests prepared (by decide)).2.2 (.install 0 1 {}) 1 rfl
    exact ⟨t, hfailures, hlater followed⟩

end Fleet

end CompileWatch
