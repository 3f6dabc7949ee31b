import CompileWatch.Proofs.Compiler.Evaluated
import CompileWatch.Proofs.Expansion.Names
import CompileWatch.Proofs.Reading.Extent

/-!
# How large the functions of a source can be

No function that is emitted for a source has a longer name, more parameters or more references than
the source has characters, apart from the names that are known before.

- `Form.Within`: a bound on the symbols of a form and on its vectors.
- `Form.within_of_readAll`, `Compile.confines_within`: the forms of a source have it, whatever
  expansion makes of them.
- `Emission.Within`: a bound on a function.
- `Namespaces.within_of_mem_emissions`: the functions of a source have it.
-/

namespace CompileWatch

theorem Symbol.length_name_le (s : Symbol) : s.name.length ≤ s.text.length := by
  unfold text
  cases s.ns with
  | none => exact Nat.le_refl _
  | some ns =>
    show _ ≤ (ns ++ "/" ++ s.name).length
    rw [String.length_append]
    exact Nat.le_add_left _ _

/-! ### Forms -/

namespace Form

variable {limit : Nat} {f : Form}

/-- A symbol is no longer than the bound, and a vector has no more items. -/
def IsShort (limit : Nat) : Form → Prop
  | .symbol s => s.text.length ≤ limit
  | .vector items _ => items.length ≤ limit
  | _ => True

/-- No symbol and no vector in a form is beyond the bound, and no more symbols in it can name
definitions. -/
structure Within (limit : Nat) (f : Form) : Prop where
  short : f.Everywhere (IsShort limit)
  few : f.names.length ≤ limit

theorem length_namesAll_le {l : List Form} (h : ∀ f ∈ l, f.names.length ≤ f.extent) :
    (namesAll l).length ≤ extentAll l := by
  induction l with
  | nil => exact Nat.le_refl 0
  | cons f rest ih =>
    obtain ⟨hf, hrest⟩ := List.forall_mem_cons.mp h
    rw [length_namesAll_cons, extentAll]
    exact Nat.add_le_add hf (ih hrest)

theorem length_names_le (f : Form) : f.names.length ≤ f.extent := by
  induction f using induction_on_children with
  | step f ih =>
    cases f with
    | symbol s => exact Nat.le_trans (length_names_symbol_le s) (one_le_extent _)
    | list items m | vector items m | map items | set items =>
      exact Nat.le_trans (length_namesAll_le ih) (Nat.le_max_right 1 _)
    | _ => exact Nat.zero_le _

/-- A form that takes few characters is small. -/
theorem within_of_extent (hlimit : 5 ≤ limit) (h : f.extent ≤ limit) : f.Within limit := by
  refine ⟨fun g hg => ?_, Nat.le_trans f.length_names_le h⟩
  have hextent := Nat.le_trans hg.extent_le h
  cases g with
  | symbol s => exact Nat.le_trans (length_text_le s) (Nat.max_le.mpr ⟨hlimit, hextent⟩)
  | vector items m =>
    exact Nat.le_trans (length_le_extentAll items)
      (Nat.le_trans (extentAll_children_le (.vector items m)) hextent)
  | _ => trivial

/-- The forms of a short source. -/
theorem within_of_readAll {source : String} {forms : List Form} (h : readAll source = .ok forms)
    (hlimit : 5 ≤ limit) (hsource : source.length ≤ limit) : ∀ f ∈ forms, f.Within limit :=
  fun _ hf => within_of_extent hlimit
    (Nat.le_trans (extent_le_extentAll hf) (Nat.le_trans (extentAll_of_readAll h) hsource))

theorem inherited_isShort (hlimit : 5 ≤ limit) : Inherited (IsShort limit) where
  nil := trivial
  operator := by
    have hall : ∀ name ∈ Shorthand.operators, name.length ≤ 5 := by decide
    exact fun name hname => Nat.le_trans (hall name hname) hlimit
  flagged flag h := by cases flag <;> exact h
  bare {s} h := show s.name.length ≤ limit from Nat.le_trans s.length_name_le h
  list _ _ := trivial
  vector _ hlength h := Nat.le_trans (Nat.le_of_eq hlength) h

end Form

/-- Small forms lead to no namespace with a long name. -/
theorem Compile.confines_within {limit : Nat} (hlimit : 5 ≤ limit) :
    Confines (Form.Within limit) fun c => c.namespaceName.length ≤ limit where
  steps h he hg := by
    have hpart := Form.part_of_mem_steps hg
    have hexpand := Form.length_names_expand _ _ he
    exact ⟨((Form.inherited_isShort hlimit).expand h.short _ he).part hpart,
      Nat.le_trans hpart.sublist_names.length_le (Nat.le_trans hexpand h.few)⟩
  declared h hname _ _ := h.short _ (Form.part_of_nth?_symbol hname)
  line _ hc := hc

/-! ### References -/

namespace Namespaces

variable (n : Namespaces) (c : Context)

/-- What a symbol names has its name. -/
theorem name_of_lookup? {s : Symbol} {q : QualifiedName} {info : VarInfo}
    (h : n.lookup? c s = some (q, info)) : q.name = s.name := by
  unfold lookup? at h
  cases hs : s.ns with
  | some ns =>
    rw [hs] at h
    rw [n.name_of_find? h]
  | none =>
    rw [hs] at h
    obtain ⟨ns, -, h⟩ := List.exists_of_findSome?_eq_some h
    rw [n.name_of_find? h]

/-- The symbols that are analyzed are some of those in a row. -/
theorem sublist_analyzed (l : List Symbol) :
    ((n.analyzed c l).map Occurrence.symbol).Sublist l := by
  induction l with
  | nil => exact List.Sublist.refl []
  | cons s rest ih =>
    rw [analyzed, List.map_cons]
    refine List.Sublist.cons_cons s ?_
    split
    · exact ih
    · exact List.nil_sublist rest

end Namespaces

/-- The symbols that are analyzed for a definition stand in its form. -/
theorem Reached.sublist_occurrences {r : Reached} {d : Defining} (h : r.defining? = some d) :
    (r.occurrences.map Occurrence.symbol).Sublist r.form.names := by
  rw [occurrences_of_defining? h, Defining.occurrences]
  rw [defining?_of_define (head_of_defining? h)] at h
  obtain ⟨name, -, rfl⟩ := Option.map_eq_some_iff.mp h
  cases hinit : r.form.nth? 2 with
  | none => exact List.nil_sublist _
  | some init =>
    have hpart := (Form.part_of_nth? hinit).sublist_names
    exact ((Namespaces.sublist_analyzed _ _ _).trans (Form.sublist_mentions [] init)).trans hpart

/-! ### Functions -/

/-- The names in a function, its parameters and its references are within a bound. -/
structure Emission.Within (limit : Nat) (e : Emission) : Prop where
  ns : e.name.ns.length ≤ limit
  name : e.name.name.length ≤ limit
  arity : e.arity ≤ limit
  references : e.references.length ≤ limit
  names : ∀ ref ∈ e.references, ref.name.ns.length ≤ limit ∧ ref.name.name.length ≤ limit

namespace Compile

/-- A function has no more parameters than one of its vectors has items. -/
theorem arity_le {limit : Nat} {f : Form} (h : f.Everywhere (Form.IsShort limit)) :
    arity f ≤ limit := by
  have hcount (params : List Form) (m : Metadata) (hpart : Form.Part (.vector params m) f) :
      parameterCount params ≤ limit :=
    Nat.le_trans (List.takeWhile_sublist _).length_le (h _ hpart)
  unfold arity
  split
  next params m hfirst => exact hcount params m (Form.part_of_nth? hfirst)
  next params m _ hsecond => exact hcount params m (Form.part_of_nth? hsecond)
  next => exact Nat.zero_le _

theorem functionArity?_le {limit : Nat} {f : Form} (h : f.Everywhere (Form.IsShort limit)) {n : Nat}
    {arity : Nat} (harity : functionArity? (f.nth? n) = some arity) : arity ≤ limit := by
  obtain ⟨init, hinit, rfl⟩ := Option.map_eq_some_iff.mp harity
  exact arity_le (h.part (Form.part_of_nth? (Option.filter_eq_some_iff.mp hinit).1))

end Compile

/-- The functions of a short source. -/
theorem Namespaces.within_of_mem_emissions {n : Namespaces} {source : String} {limit : Nat}
    (hn : n.AllNames fun ns => ns.length ≤ limit) (hlimit : 5 ≤ limit)
    (hsource : source.length ≤ limit) {e : Emission} (he : e ∈ n.emissions source) :
    e.Within limit := by
  have hevaluated : ∀ r ∈ n.evaluated source,
      r.form.Within limit ∧ r.machine.context.namespaceName.length ≤ limit := fun r hr =>
    (Compile.confines_within hlimit).of_mem_source
      (fun hread => Form.within_of_readAll hread hlimit hsource)
      (Nat.le_trans (by decide : defaultNamespace.length ≤ 5) hlimit) hr
  have hafter : (n.after source).AllNames fun ns => ns.length ≤ limit :=
    (n.leads_evaluated source).allNames
      (fun r hr => ⟨fun _ hname => (hevaluated r hr).1.short _ (Form.part_of_nth?_symbol hname),
        (hevaluated r hr).2⟩) hn
  obtain ⟨r, hr, he⟩ := List.mem_filterMap.mp he
  obtain ⟨d, refs, hc, he⟩ := Reached.emission?_eq_some_iff.mp he
  obtain ⟨arity, harity, rfl⟩ := Option.map_eq_some_iff.mp he
  obtain ⟨hd, -⟩ := Reached.concluded?_eq_some_iff.mp hc
  obtain ⟨hform, -⟩ := hevaluated r hr
  have hleads := n.leads_evaluated source
  have hsymbols := Reached.sublist_occurrences hd
  have hdefining := hd
  rw [Reached.defining?_of_define (Reached.head_of_defining? hd)] at hdefining
  obtain ⟨name, hname, rfl⟩ := Option.map_eq_some_iff.mp hdefining
  refine ⟨hafter _ (hleads.contains_of_defining? hr hd), ?_, ?_, ?_, fun ref href => ?_⟩
  · exact Nat.le_trans name.length_name_le (hform.short _ (Form.part_of_nth?_symbol hname))
  · exact Compile.functionArity?_le hform.short harity
  · have hcount := hsymbols.length_le
    rw [List.length_map] at hcount
    rw [← Reached.references_of_concluded? hc]
    exact Nat.le_trans (List.length_filterMap_le _ _) (Nat.le_trans hcount hform.few)
  · rw [← Reached.references_of_concluded? hc] at href
    obtain ⟨x, hx, href⟩ := List.mem_filterMap.mp href
    obtain ⟨⟨q, info⟩, hq, rfl⟩ := Option.map_eq_some_iff.mp href
    refine ⟨hafter _ (hleads.contains_of_found? hr hx hq), ?_⟩
    have hpart := Form.part_of_mem_names (hsymbols.subset (List.mem_map_of_mem hx))
    show q.name.length ≤ limit
    rw [Namespaces.name_of_lookup? _ _ hq]
    exact Nat.le_trans x.symbol.length_name_le (hform.short _ hpart)

end CompileWatch
