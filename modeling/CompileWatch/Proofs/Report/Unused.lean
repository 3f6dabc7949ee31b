import CompileWatch.Proofs.Compiler.Steps
import CompileWatch.Report.Unused

/-!
# Which definitions are reported as unused

In a host that works, the search lists every namespace that exists, and so reports exactly
the definitions that are not referred to.

- `Namespaces.mem_definedSymbols`: the definitions that a host lists.
- `has_detectUnused`: the definitions that a search reports.
-/

namespace CompileWatch

namespace Namespaces

variable {n : Namespaces}

/-- A host lists the namespaces that exist. -/
theorem exists_definedSymbols {ns : String} (h : n.contains ns) :
    ∃ defined, n.definedSymbols ns = .answer defined := by
  obtain ⟨found, hfound⟩ := Option.isSome_iff_exists.mp h
  unfold definedSymbols
  rw [hfound]
  exact ⟨_, rfl⟩

/-- A host lists the definitions of a namespace. -/
theorem mem_definedSymbols {ns : String} {defined : List QualifiedName}
    (h : n.definedSymbols ns = .answer defined) (q : QualifiedName) :
    q ∈ defined ↔ q.ns = ns ∧ (n.find? q.name q.ns).isSome := by
  unfold definedSymbols at h
  cases hn : n.get? ns with
  | none =>
    rw [hn] at h
    cases h
  | some found =>
    rw [hn] at h
    cases h
    rw [List.mem_map]
    constructor
    · rintro ⟨name, hname, rfl⟩
      refine ⟨rfl, ?_⟩
      rw [find?, hn, Option.bind_some, Option.isSome_map]
      exact SortedMap.mem_keys.mp hname
    · rintro ⟨rfl, hq⟩
      rw [find?, hn, Option.bind_some, Option.isSome_map] at hq
      exact ⟨q.name, SortedMap.mem_keys.mpr hq, rfl⟩

end Namespaces

/-- What a search reports in a host that works: the definitions of the namespaces that are
not referred to. -/
theorem has_detectUnused {n : Namespaces} (c : Context) (referenced : String → Bool)
    {namespaces : List String} (hexist : ∀ ns ∈ namespaces, n.contains ns)
    (unused : SortedSet String) :
    ∃ found, (detectUnused (hostView {} n c) referenced namespaces unused).value =
        .answer (.ok found) ∧
      ∀ name, found.has name ↔ unused.has name ∨ ∃ q : QualifiedName, q.ns ∈ namespaces ∧
        (n.find? q.name q.ns).isSome ∧ referenced q.text = false ∧ q.text = name := by
  induction namespaces generalizing unused with
  | nil => exact ⟨unused, rfl, by simp⟩
  | cons ns rest ih =>
    obtain ⟨hns, hrest⟩ := List.forall_mem_cons.mp hexist
    obtain ⟨defined, hdefined⟩ := Namespaces.exists_definedSymbols hns
    have hlisted : (hostView {} n c).definedSymbols ns = .answer defined := hdefined
    let next := unused.addAll (unreferenced (defined.map QualifiedName.text) referenced)
    obtain ⟨found, hfound, hhas⟩ := ih hrest next
    refine ⟨found, ?_, fun name => ?_⟩
    · rw [detectUnused, hlisted]
      simp only [Logged.value_bind]
      exact hfound
    · rw [hhas, SortedSet.has_addAll, unreferenced, List.mem_filter, List.mem_map]
      simp only [Namespaces.mem_definedSymbols hdefined, List.mem_cons]
      constructor
      · rintro ((⟨⟨q, ⟨hq, hfind⟩, rfl⟩, hr⟩ | hold) | ⟨q, hq, hfind, hr, hname⟩)
        · exact .inr ⟨q, .inl hq, hfind, by simpa using hr, rfl⟩
        · exact .inl hold
        · exact .inr ⟨q, .inr hq, hfind, hr, hname⟩
      · rintro (hold | ⟨q, hq | hq, hfind, hr, rfl⟩)
        · exact .inl (.inr hold)
        · exact .inl (.inl ⟨⟨q, ⟨hq, hfind⟩, rfl⟩, by simpa using hr⟩)
        · exact .inr ⟨q, hq, hfind, hr, rfl⟩

end CompileWatch
