import CompileWatch.Compiler.Host
import CompileWatch.Proofs.Compiler.Agreement
import CompileWatch.Watching.Observation

/-!
# Transparency

Observers that offer no bytes of their own leave no trace in what a host compiles. The
capturing observer is one of them, so a host may be instrumented at any of its points, or
at none: the result of a compilation, the units and the definitions are the same.

- `Compile.compile_congr`: two settings that differ in what observes them only.
- `Host.offersNothing_setting`: a host that capturing observers were let into.
- `Host.run_eq_detached`: instrumentation is transparent.
-/

namespace CompileWatch

variable {σ σ' τ τ' : Type}

/-! ### Observers that offer nothing -/

/-- An observer offers no bytes in place of those of a unit. -/
def Observer.OffersNothing (o : Observer σ τ) : Prop :=
  ∀ view name bytes s, (o.unit view name bytes s).1 = none

/-- A setting offers nothing when the observer of the unit definition routine does not. -/
theorem Setting.offersNothing_of_observer {t : Setting σ τ}
    (h : ∀ o, t.observer? .unitDefinition = some o → o.OffersNothing) : t.OffersNothing := by
  intro name bytes m
  unfold Setting.offer
  cases ho : t.observer? .unitDefinition with
  | none => rfl
  | some o => exact h o ho _ _ _ _

/-- Two settings that offer nothing compile a source alike on machines that differ in the
state of the observers only. -/
theorem Compile.compile_congr {t : Setting σ τ} {t' : Setting σ' τ'} (ht : t.OffersNothing)
    (ht' : t'.OffersNothing) (source : String) (m : Machine σ) (m' : Machine σ')
    (hm : m.bare = m'.bare) :
    (compile t source m).1 = (compile t' source m').1 ∧
      (compile t source m).2.bare = (compile t' source m').2.bare := by
  have h := (agrees_compile ht source).same m trivial
  rw [hm, (agrees_compile ht' source).same m' trivial] at h
  exact ⟨(congrArg Prod.fst h).symm, (congrArg Prod.snd h).symm⟩

/-! ### Capturing observers -/

/-- Capturing offers nothing for a unit, whatever comes of the capture. -/
theorem Instrumentation.offersNothing_observer (o : Instrumentation) :
    o.observer.OffersNothing := fun _ _ _ _ => rfl

namespace Host

theorem offersNothing_setting (h : Host Instrumentation)
    (note : LogRecord → CaptureState → CaptureState) :
    (h.setting Instrumentation.observer note).OffersNothing := by
  refine Setting.offersNothing_of_observer fun o ho => ?_
  obtain ⟨i, -, rfl⟩ := Option.map_eq_some_iff.mp ho
  exact i.offersNothing_observer

/-- Whatever capturing observers a host let in, at whatever points, with whatever faults of
its own, and whatever they have captured or are in the middle of: a compilation ends
alike, defines the same units with the same bytes, and leaves the same definitions and
the thread at the same place, as in the host without them. -/
theorem run_eq_detached (h : Host Instrumentation) (source : String) (c : Context)
    (s : CaptureState) :
    let observed := h.run Instrumentation.observer CaptureState.note source c s
    let alone := h.detached.run Instrumentation.observer CaptureState.note source c s
    observed.1 = alone.1 ∧ observed.2.units = alone.2.units ∧
      observed.2.namespaces = alone.2.namespaces ∧ observed.2.context = alone.2.context := by
  intro observed alone
  -- the two machines differ in nothing at all; only the settings do
  obtain ⟨hr, hm⟩ := Compile.compile_congr (h.offersNothing_setting CaptureState.note)
    (h.detached.offersNothing_setting CaptureState.note) source
    (h.machine c s) (h.detached.machine c s) rfl
  obtain ⟨hn, hc, hu⟩ := Machine.bare_eq_bare_iff.mp hm
  exact ⟨hr, hu, hn, hc⟩

end Host

end CompileWatch
