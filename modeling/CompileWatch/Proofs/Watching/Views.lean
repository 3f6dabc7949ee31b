import CompileWatch.Proofs.Capture.Recorded
import CompileWatch.Proofs.ClassFile.Room
import CompileWatch.Proofs.Compiler.Evaluated
import CompileWatch.Proofs.Watching.ReferenceCapture

/-!
# Two views of a function

What a function refers to is captured twice: as references, while its body is analyzed, and
in its unit, which names what it calls. Where every name is defined once, the two views say
the same of it: its unit names the units of the functions that it is known to refer to, and
has a field for each definition that it is known to refer to and that is no constant.

- `Namespaces.DefinesOnce`: a source that defines every name once.
- `Namespaces.DefinesOnce.mem_references_iff`: the references of a function are those that
  were captured.
- `UnitRecord.Shows`: a record shows of a function what the captured references do.
- `Host.shows_compile`: that this is so for every function whose unit fits the format.
-/

namespace CompileWatch

/-! ### Names of units -/

namespace QualifiedName

/-- The dotted name of the unit of a function. -/
def dottedUnit (q : QualifiedName) : String := dottedName q.unitName

/-- The unit of a definition has a name. -/
theorem unitName_ne_empty (q : QualifiedName) : q.unitName ≠ "" := by
  intro h
  have hlist := congrArg String.toList h
  simp [unitName] at hlist

/-- Dots and slashes apart, the dotted name has the characters of the name. -/
theorem mem_dottedName {name : String} {c : Char} (hc : c ≠ '/') (hc' : c ≠ '.') :
    c ∈ (dottedName name).toList ↔ c ∈ name.toList := by
  unfold dottedName replaceChar
  rw [String.toList_map, List.mem_map]
  constructor
  · rintro ⟨c', hmem, rfl⟩
    by_cases hslash : c' = '/'
    · rw [if_pos hslash] at hc'
      exact absurd rfl hc'
    · rwa [if_neg hslash]
  · intro hmem
    exact ⟨c, hmem, if_neg hc⟩

/-- No class of the runtime is the unit of a function, whose name has a dollar sign. -/
theorem dottedUnit_not_mem_runtimeUnits (q : QualifiedName) : q.dottedUnit ∉ Emit.runtimeUnits := by
  intro h
  obtain ⟨c, hc, hname⟩ := List.mem_map.mp h
  have hruntime : ∀ c ∈ [Emit.functionClass, Emit.runtimeClass, Emit.varClass], '$' ∉ c.toList := by
    decide
  have hdollar : '$' ∈ q.unitName.toList := by simp [unitName]
  refine hruntime c hc ((mem_dottedName (by decide) (by decide)).mp ?_)
  rw [hname]
  exact (mem_dottedName (by decide) (by decide)).mpr hdollar

end QualifiedName

/-! ### Names that are defined once -/

/-- A source defines every name once, changes nothing that was known before, and leaves no
namespace with a slash in its name. -/
structure Namespaces.DefinesOnce (n : Namespaces) (source : String) : Prop where
  nodup : ((n.evaluated source).filterMap fun r => r.defining?.map Defining.name).Nodup
  kept : ∀ q info, n.find? q.name q.ns = some (q, info) →
    (n.after source).find? q.name q.ns = some (q, info)
  slash : ∀ ns, (n.after source).contains ns → '/' ∉ ns.toList

namespace Namespaces.DefinesOnce

variable {n : Namespaces} {source : String} {s s' : Session} {r : Reached} {d : Defining}

/-- A definition is known to refer to another when a symbol of its value names that one. -/
theorem calls_iff (h : n.DefinesOnce source) (captured : s.RefersBy (n.occurrences source) s')
    (hr : r ∈ n.evaluated source) (hd : r.defining? = some d) {g : QualifiedName}
    (hg : (n.after source).contains g.ns) :
    s'.references.callers.Calls g.text d.name.text ↔
      ∃ x ∈ r.occurrences, ∃ info, x.found? = some (g, info) := by
  have hleads := n.leads_evaluated source
  rw [captured.callers]
  constructor
  · rintro ⟨x, hx, q, info, p, hq, hqg, hp, hpd⟩
    obtain ⟨r', hr', hx⟩ := List.mem_flatMap.mp hx
    obtain rfl := QualifiedName.text_inj (h.slash _ (hleads.contains_of_found? hr' hx hq))
      (h.slash _ hg) hqg
    -- the symbol stands in a definition, which can only be this one
    rw [(r'.eq_of_mem_occurrences hx).2] at hp
    unfold Reached.inside at hp
    cases hd' : r'.defining? with
    | none =>
      rw [hd'] at hp
      have houtside := (atTopLevel_of_mem_evaluated hr').2.outside
      rw [Option.elim_none, houtside] at hp
      cases hp
    | some d' =>
      rw [hd'] at hp
      obtain rfl : d'.name = p := Option.some.inj hp
      have hname := QualifiedName.text_inj (h.slash _ (hleads.contains_of_defining? hr' hd'))
        (h.slash _ (hleads.contains_of_defining? hr hd)) hpd
      obtain rfl := eq_of_defining? h.nodup hr' hr hd' hd hname
      exact ⟨x, hx, info, hq⟩
  · rintro ⟨x, hx, info, hq⟩
    refine ⟨x, List.mem_flatMap.mpr ⟨r, hr, hx⟩, g, info, d.name, hq, rfl, ?_, rfl⟩
    rw [(r.eq_of_mem_occurrences hx).2, Reached.inside, hd]
    rfl

/-- The references of a definition are to those that it is known to refer to, with what is known
of them in the end. -/
theorem mem_references_iff (h : n.DefinesOnce source)
    (captured : s.RefersBy (n.occurrences source) s') (hr : r ∈ n.evaluated source)
    {refs : List Reference} (hc : r.concluded? = some (d, refs)) (g : QualifiedName)
    (info : VarInfo) :
    ⟨g, info.constant, info.function⟩ ∈ refs ↔
      (n.after source).find? g.name g.ns = some (g, info) ∧
        s'.references.callers.Calls g.text d.name.text := by
  have hleads := n.leads_evaluated source
  obtain ⟨hd, -⟩ := Reached.concluded?_eq_some_iff.mp hc
  have hfound {x : Occurrence} (hx : x ∈ r.occurrences) {info : VarInfo}
      (hq : x.found? = some (g, info)) : (n.after source).find? g.name g.ns = some (g, info) :=
    hleads.find?_found h.nodup h.kept hr hx hq
  rw [← Reached.references_of_concluded? hc, List.mem_filterMap]
  constructor
  · rintro ⟨x, hx, href⟩
    obtain ⟨⟨q, info'⟩, hq, href⟩ := Option.map_eq_some_iff.mp href
    obtain ⟨rfl, hconstant, hfunction⟩ := (Reference.mk.injEq ..).mp href
    obtain rfl : info' = info := (VarInfo.mk.injEq ..).mpr ⟨hconstant, hfunction⟩
    exact ⟨hfound hx hq, (h.calls_iff captured hr hd
      (hleads.contains_of_found? hr hx hq)).mpr ⟨x, hx, info', hq⟩⟩
  · rintro ⟨hfind, hcalls⟩
    have hg : (n.after source).contains g.ns := contains_of_find? _ hfind
    obtain ⟨x, hx, info', hq⟩ := (h.calls_iff captured hr hd hg).mp hcalls
    obtain rfl : info' = info := by
      have hsame := (hfound hx hq).symm.trans hfind
      exact congrArg Prod.snd (Option.some.inj hsame)
    exact ⟨x, hx, by rw [Occurrence.reference?, hq]; rfl⟩

end Namespaces.DefinesOnce

/-! ### Two views -/

-- what is read off the bytes of a unit is said by `Emit.has_references` and `Emit.fieldCount`
attribute [local irreducible] Metrics.ofBytes emitFunction

namespace Emission

variable (e : Emission)

/-- The unit of a function fits the format. -/
def HasRoom : Prop := Emit.HasRoom e.name e.arity e.references e.line

/-- What is recorded of the unit of a function. -/
def record : UnitRecord := .ofUnit e.unit

/-- The unit is emitted under the name of its definition. -/
theorem fst_unit : e.unit.1 = e.name.unitName := by
  rw [unit, Emit.emitFunction_eq]

/-- A record keeps the references of the unit, but not to itself. -/
theorem has_references_record (u : String) :
    e.record.references.has u ↔
      (Metrics.ofBytes (emitFunction e.name e.arity e.references e.line).2).1.references.has u ∧
        u ≠ e.name.dottedUnit := by
  rw [record, UnitRecord.references_ofUnit, fst_unit]
  exact SortedSet.has_remove _ _ _

theorem fieldCount_record :
    e.record.fieldCount =
      (Metrics.ofBytes (emitFunction e.name e.arity e.references e.line).2).1.fieldCount := by
  rw [record, UnitRecord.fieldCount_ofUnit, unit]

end Emission

/-- A function is known to refer to a definition that is no constant. -/
structure CallerMap.CallsVar (m : CallerMap) (n : Namespaces) (f g : QualifiedName)
    (info : VarInfo) : Prop where
  known : n.find? g.name g.ns = some (g, info)
  kept : info.constant = false
  calls : m.Calls g.text f.text

/-- The record of a unit shows of its function what is known of references. -/
structure UnitRecord.Shows (record : UnitRecord) (n : Namespaces) (callers : CallerMap)
    (f : QualifiedName) : Prop where
  /-- Beside the runtime, the unit refers to the units of the functions that its function is known
  to refer to, except for itself. -/
  references : ∀ u, (record.references.has u ∧ u ∉ Emit.runtimeUnits) ↔
    (∃ g info, callers.CallsVar n f g info ∧ info.function ∧ g.dottedUnit = u) ∧ u ≠ f.dottedUnit
  /-- The unit has a field for each definition that its function is known to refer to. -/
  fields : ∃ callees : List QualifiedName, callees.Nodup ∧
    (∀ g, g ∈ callees ↔ ∃ info, callers.CallsVar n f g info) ∧ record.fieldCount = callees.length

namespace Namespaces.DefinesOnce

variable {n : Namespaces} {source : String} {s s' : Session} {r : Reached} {d : Defining}
  {refs : List Reference}

/-- The references that are no constants are those that are known. -/
theorem exists_reference_iff (h : n.DefinesOnce source)
    (captured : s.RefersBy (n.occurrences source) s') (hr : r ∈ n.evaluated source)
    (hc : r.concluded? = some (d, refs)) (g : QualifiedName) (P : Bool → Prop) :
    (∃ ref ∈ refs, ref.constant = false ∧ P ref.function ∧ ref.name = g) ↔
      ∃ info, s'.references.callers.CallsVar (n.after source) d.name g info ∧ P info.function := by
  constructor
  · rintro ⟨⟨q, constant, function⟩, hmem, hconstant, hfunction, rfl⟩
    obtain ⟨hfind, hcalls⟩ := (h.mem_references_iff captured hr hc q ⟨constant, function⟩).mp hmem
    exact ⟨⟨constant, function⟩, ⟨hfind, hconstant, hcalls⟩, hfunction⟩
  · rintro ⟨info, hcalls, hfunction⟩
    have hmem := (h.mem_references_iff captured hr hc g info).mpr ⟨hcalls.known, hcalls.calls⟩
    exact ⟨_, hmem, hcalls.kept, hfunction, rfl⟩

/-- The record of a unit that fits the format shows what is known of its function. -/
theorem shows_record (h : n.DefinesOnce source) (hn : n.Legible)
    (captured : s.RefersBy (n.occurrences source) s') {e : Emission}
    (he : e ∈ n.emissions source) (hroom : e.HasRoom) :
    e.record.Shows (n.after source) s'.references.callers e.name := by
  obtain ⟨r, hr, he⟩ := List.mem_filterMap.mp he
  obtain ⟨d, refs, hc, he⟩ := Reached.emission?_eq_some_iff.mp he
  obtain ⟨arity, harity, rfl⟩ := Option.map_eq_some_iff.mp he
  obtain ⟨hd, -⟩ := Reached.concluded?_eq_some_iff.mp hc
  have hleads := n.leads_evaluated source
  have hlegible : (n.after source).Legible :=
    hleads.legible (fun r hr => atTopLevel_of_mem_evaluated hr) hn
  have hname : '[' ∉ d.name.ns.toList := hlegible _ (hleads.contains_of_defining? hr hd)
  have hrefs : ∀ ref ∈ refs, '[' ∉ ref.name.ns.toList := by
    rintro ⟨q, constant, function⟩ hmem
    have hfind := ((h.mem_references_iff captured hr hc q ⟨constant, function⟩).mp hmem).1
    exact hlegible _ (contains_of_find? _ hfind)
  have hfits : Emit.HasRoom d.name arity refs d.line := hroom
  constructor
  · intro u
    rw [Emission.has_references_record]
    constructor
    · rintro ⟨⟨hhas, hself⟩, hu⟩
      obtain ⟨-, ref, hmem, hconstant, hfunction, hname⟩ :=
        (Emit.has_references hfits hname hrefs hu).mp hhas
      obtain ⟨info, hcalls, hfunction⟩ := (h.exists_reference_iff captured hr hc ref.name
        (· = true)).mp ⟨ref, hmem, hconstant, hfunction, rfl⟩
      exact ⟨⟨ref.name, info, hcalls, hfunction, hname⟩, hself⟩
    · rintro ⟨⟨g, info, hcalls, hfunction, rfl⟩, hself⟩
      have hu := g.dottedUnit_not_mem_runtimeUnits
      obtain ⟨ref, hmem, hconstant, hfunction, rfl⟩ := (h.exists_reference_iff captured hr hc g
        (· = true)).mpr ⟨info, hcalls, hfunction⟩
      exact ⟨⟨(Emit.has_references hfits hname hrefs hu).mpr
        ⟨hself, ref, hmem, hconstant, hfunction, rfl⟩, hself⟩, hu⟩
  · rw [Emission.fieldCount_record]
    refine ⟨Emit.heldVars refs, Emit.nodup_heldVars, fun g => ?_, Emit.fieldCount hfits⟩
    rw [Emit.mem_heldVars]
    have hiff := h.exists_reference_iff captured hr hc g fun _ => True
    simpa using hiff

end Namespaces.DefinesOnce

namespace Host

/-- The two views of a function agree: its unit and the references that were captured. -/
theorem shows_compile (h : Host Instrumentation) (o : Instrumentation)
    (hobserver : ∀ p, h.observer? p = some o) (hfaults : h.faults = {})
    (hfresh : h.namespaces = .initial) (source : String) (c : Context) (s : CaptureState)
    (hreferences : s.session.references = {}) (hunits : s.session.units.enabled)
    (summary : CompileSummary) :
    let compiled := h.compile Instrumentation.observer CaptureState.note source c s
    let n := compiled.2.1.namespaces
    let session := compiled.2.2.session
    compiled.1 = .ok summary → summary.definitions.Nodup →
    (∀ q info, h.namespaces.find? q.name q.ns = some (q, info) →
      n.find? q.name q.ns = some (q, info)) →
    (∀ ns, n.contains ns → '/' ∉ ns.toList) → summary.units.Nodup →
    ∀ f ∈ h.namespaces.emissions source, f.HasRoom →
      ∃ record, session.units.get? f.name.unitName = some record ∧
        record.Shows n session.references.callers f.name := by
  intro compiled n session hok hdefinitions hkept hslash hnames f hf hroom
  have hsums := h.sums_compile hok
  have hn : n = h.namespaces.after source := h.namespaces_compile source c s
  have honce : h.namespaces.DefinesOnce source :=
    ⟨hsums.definitions ▸ hdefinitions, hn ▸ hkept, hn ▸ hslash⟩
  have htakes := h.takes_compile source c s
  rw [filterMap_edgeOf?_of_works hobserver hfaults] at htakes
  have hlegible : h.namespaces.Legible := hfresh ▸ Namespaces.legible_initial
  -- every unit that is emitted is taken, and none replaces another
  have htaken : session.units =
      ((h.namespaces.emissions source).map Emission.unit).foldl UnitBuffer.take s.session.units :=
    h.units_compile (by rw [hobserver]; rfl) source c s
  have hrecord : session.units.get? f.name.unitName = some f.record := by
    rw [htaken, UnitBuffer.get?, ← f.fst_unit]
    refine UnitBuffer.get?_foldl_take hunits ?_ ?_ (List.mem_map_of_mem hf)
    · intro u hu
      obtain ⟨e, -, rfl⟩ := List.mem_map.mp hu
      rw [e.fst_unit]
      exact e.name.unitName_ne_empty
    · rw [List.map_map]
      exact hsums.units ▸ hnames
  refine ⟨_, hrecord, ?_⟩
  rw [hn]
  exact honce.shows_record hlegible (htakes.refersBy hreferences) hf hroom

/-- A function that refers to itself and to another one, as it is read. -/
def callingForm : Form :=
  .list [.symbol { name := "def", metadata := .atLine 1 },
    .symbol { name := "f", metadata := .atLine 1 },
    .list [.symbol { name := "fn", metadata := .atLine 1 },
      .vector [.symbol { name := "x", metadata := .atLine 1 }] (.span 1 1),
      .list [.symbol { name := "f", metadata := .atLine 1 },
        .list [.symbol { name := "inc", metadata := .atLine 1 },
          .symbol { name := "x", metadata := .atLine 1 }] (.span 1 1)] (.span 1 1)] (.span 1 1)]
    (.span 1 1)

/-- The source is one definition. -/
theorem isAll_callingForm : callingForm.IsAll "(def f (fn [x] (f (inc x))))" :=
  ⟨by rfl, by cbv, by rfl⟩

/-- What is emitted for it. -/
def callingEmission : Emission :=
  ⟨⟨"user", "f"⟩, 1, [⟨⟨"user", "f"⟩, false, true⟩, ⟨⟨"clojure.core", "inc"⟩, false, true⟩], some 1⟩

/-- A function that calls itself and a function of the core. -/
theorem shows_compile_installed :
    let source := "(def f (fn [x] (f (inc x))))"
    let f := callingEmission.name
    let compiled :=
      installed.1.compile Instrumentation.observer CaptureState.note source {} installed.2
    compiled.1 = .ok ⟨[f], [f.dottedUnit]⟩ ∧
      callingEmission ∈ installed.1.namespaces.emissions source ∧ callingEmission.HasRoom ∧
      ∃ record, compiled.2.2.session.units.get? f.unitName = some record ∧
        record.Shows compiled.2.1.namespaces compiled.2.2.session.references.callers f := by
  intro source f compiled
  let d : Defining := ⟨f, ⟨false, true⟩, callingForm.nth? 2, some 1, some 1⟩
  have hconcluded : (Reached.first .initial callingForm).concluded? =
      some (d, callingEmission.references) := rfl
  have hok : compiled.1 = .ok ⟨[f], [f.dottedUnit]⟩ := by
    rw [(installed.1.compile_unobserved source {} installed.2).1]
    refine (isAll_callingForm.fst_compile .initial hconcluded).trans ?_
    show Except.ok (CompileSummary.mk [f] [dottedName callingEmission.unit.1]) = _
    rw [Emission.fst_unit]
    rfl
  have hemitted : callingEmission ∈ installed.1.namespaces.emissions source := by
    show callingEmission ∈ (Namespaces.evaluated .initial source).filterMap Reached.emission?
    rw [isAll_callingForm.evaluated, List.filterMap_cons, Reached.emission?, hconcluded]
    exact List.mem_singleton_self _
  have hroom : callingEmission.HasRoom :=
    Emit.hasRoom_of_fits (by decide) (by decide) ⟨by decide +kernel, by decide +kernel⟩
  have hafter : compiled.2.1.namespaces = d.known .initial := by
    rw [installed.1.namespaces_compile source {} installed.2]
    refine (isAll_callingForm.after .initial).trans ?_
    rw [Reached.leaves_of_defining? _ (Reached.concluded?_eq_some_iff.mp hconcluded).1]
    rfl
  have hkept : ∀ q info, Namespaces.initial.find? q.name q.ns = some (q, info) →
      compiled.2.1.namespaces.find? q.name q.ns = some (q, info) := by
    intro q info hq
    have hnew : Namespaces.initial.find? f.name f.ns = none := by decide +kernel
    rw [hafter, Defining.known, Namespaces.find?_intern, if_neg, hq]
    intro hname
    rw [show f = q from hname, hq] at hnew
    cases hnew
  have hslash : ∀ ns, compiled.2.1.namespaces.contains ns → '/' ∉ ns.toList := by
    have hkeys : ∀ ns ∈ (d.known .initial).keys, '/' ∉ ns.toList := by decide +kernel
    intro ns hns
    rw [hafter] at hns
    exact hkeys ns (SortedMap.mem_keys.mpr hns)
  exact ⟨hok, hemitted, hroom, shows_compile installed.1 {} observer?_installed rfl rfl source {}
    installed.2 rfl rfl _ hok (List.pairwise_singleton _ _) hkept hslash (List.pairwise_singleton _ _)
    callingEmission hemitted hroom⟩

end Host

end CompileWatch
