import Mathlib.Data.List.Perm.Subperm
import Mathlib.Order.Compare
import CompileWatch.Files.Path

/-!
# Paths in order

Paths are ordered by what they mean, so that paths with one meaning stand next to each other
once they are sorted, and dropping neighbours leaves each meaning once.

- `Path.orderComponents` as a lawful order of meanings.
- `Path.Before`: the strict order.
- `Path.pairwise_sorted`, `mem_of_mem_sorted`, `exists_mem_sorted`: what sorting leaves.
- `Path.map_components_sorted_eq`: the order in which paths are given is of no account.
-/

namespace CompileWatch

/-! ### The order of meanings -/

namespace Component

/-- The name of a component that is one. -/
def label : Component → String
  | .name s => s
  | _ => ""

/-- Components are ordered by their rank, and those of one rank by their text. -/
theorem order_eq : order = compareLex (compareOn rank) (compareOn label) := by
  funext a b
  cases a <;> cases b <;> rfl

instance : Std.TransCmp order := by
  rw [order_eq]
  infer_instance

instance : Std.LawfulEqCmp order where
  eq_of_compare {a b} h := by
    cases a <;> cases b <;> simp_all [order, rank]

end Component

namespace Path

/-- Paths are ordered as rows of components. -/
theorem orderComponents_eq : orderComponents = List.compareLex Component.order := by
  funext as bs
  induction as generalizing bs with
  | nil => cases bs <;> rfl
  | cons a as ih =>
    cases bs with
    | nil => rfl
    | cons b bs => rw [orderComponents, ih, List.compareLex_cons_cons]

instance : Std.TransCmp orderComponents := by
  rw [orderComponents_eq]
  infer_instance

instance : Std.LawfulEqCmp orderComponents := by
  rw [orderComponents_eq]
  infer_instance

theorem orderComponents_self (cs : List Component) : orderComponents cs cs = .eq :=
  Std.ReflCmp.compare_self

/-- Two paths are the same if their components are. -/
theorem sameAs_iff {p q : Path} : p.sameAs q ↔ p.components = q.components := decide_eq_true_iff

/-- The order of paths is transitive. -/
theorem precedes_trans {p q r : Path} (hpq : p.precedes q) (hqr : q.precedes r) : p.precedes r :=
  Std.TransCmp.isLE_trans hpq hqr

/-- Of two paths, one precedes the other. -/
theorem precedes_total (p q : Path) : p.precedes q || q.precedes p := by
  have hswap : orderComponents q.components p.components =
      (orderComponents p.components q.components).swap := Std.OrientedCmp.eq_swap
  rw [precedes, precedes, hswap]
  cases orderComponents p.components q.components <;> rfl

/-- Whether one path comes before another and means something else. -/
def Before (p q : Path) : Prop := orderComponents p.components q.components = .lt

theorem Before.components_ne {p q : Path} (h : p.Before q) : p.components ≠ q.components := by
  intro heq
  rw [Before, heq, orderComponents_self] at h
  cases h

/-- One path is before another if it precedes it and has other components. -/
theorem before_iff {p q : Path} : p.Before q ↔ p.precedes q ∧ p.components ≠ q.components := by
  constructor
  · intro h
    exact ⟨by rw [precedes, h]; rfl, h.components_ne⟩
  · rintro ⟨hle, hne⟩
    cases horder : orderComponents p.components q.components with
    | lt => exact horder
    | eq => exact absurd (Std.LawfulEqCmp.eq_of_compare horder) hne
    | gt => rw [precedes, horder] at hle; cases hle

/-! ### Each meaning once -/

/-- Nothing is listed that was not there before repetitions were dropped. -/
theorem mem_of_mem_dropRepeated {p : Path} {paths : List Path} (h : p ∈ dropRepeated paths) :
    p ∈ paths := by
  fun_induction dropRepeated paths with
  | case1 q r rest hsame ih =>
    obtain rfl | h := List.mem_cons.mp (ih h)
    · exact List.mem_cons_self
    · exact List.mem_cons_of_mem _ (List.mem_cons_of_mem _ h)
  | case2 q r rest hsame ih =>
    obtain rfl | h := List.mem_cons.mp h
    · exact List.mem_cons_self
    · exact List.mem_cons_of_mem _ (ih h)
  | case3 paths => exact h

/-- A path that is dropped is still listed, in another spelling perhaps. -/
theorem exists_mem_dropRepeated {p : Path} {paths : List Path} (h : p ∈ paths) :
    ∃ q ∈ dropRepeated paths, q.components = p.components := by
  fun_induction dropRepeated paths generalizing p with
  | case1 q r rest hsame ih =>
    -- the one that goes has its meaning kept by the one in front
    obtain rfl | h := List.mem_cons.mp h
    · exact ih List.mem_cons_self
    · obtain rfl | h := List.mem_cons.mp h
      · obtain ⟨s, hs, heq⟩ := ih List.mem_cons_self
        exact ⟨s, hs, heq.trans (sameAs_iff.mp hsame)⟩
      · exact ih (List.mem_cons_of_mem _ h)
  | case2 q r rest hsame ih =>
    obtain rfl | h := List.mem_cons.mp h
    · exact ⟨p, List.mem_cons_self, rfl⟩
    · obtain ⟨s, hs, heq⟩ := ih h
      exact ⟨s, List.mem_cons_of_mem _ hs, heq⟩
  | case3 paths => exact ⟨p, h, rfl⟩

/-- Neighbours that are dropped leave paths in strict order. -/
theorem pairwise_dropRepeated {paths : List Path} (h : paths.Pairwise fun p q => p.precedes q) :
    (dropRepeated paths).Pairwise Before := by
  fun_induction dropRepeated paths with
  | case1 p q rest hsame ih =>
    obtain ⟨hp, hrest⟩ := List.pairwise_cons.mp h
    refine ih (List.pairwise_cons.mpr ⟨fun r hr => hp r (List.mem_cons_of_mem _ hr), ?_⟩)
    exact (List.pairwise_cons.mp hrest).2
  | case2 p q rest hdiffers ih =>
    obtain ⟨hp, hrest⟩ := List.pairwise_cons.mp h
    refine List.pairwise_cons.mpr ⟨fun r hr => ?_, ih hrest⟩
    have hpq : p.Before q :=
      before_iff.mpr ⟨hp q List.mem_cons_self, fun heq => hdiffers (sameAs_iff.mpr heq)⟩
    obtain rfl | hr := List.mem_cons.mp (mem_of_mem_dropRepeated hr)
    · exact hpq
    · have hqr : q.precedes r := (List.pairwise_cons.mp hrest).1 r hr
      exact Std.TransCmp.lt_of_lt_of_isLE hpq hqr
  | case3 paths hshort =>
    match paths with
    | [] => exact List.Pairwise.nil
    | [p] => exact List.pairwise_singleton _ _
    | p :: q :: rest => exact (hshort p q rest rfl).elim

/-! ### Sorting -/

@[simp] theorem sorted_nil : sorted [] = [] := by
  simp [sorted, dropRepeated]

/-- A sorted list is strictly in order, so no path is in it twice. -/
theorem pairwise_sorted (paths : List Path) : (sorted paths).Pairwise Before := by
  have hordered : (paths.mergeSort precedes).Pairwise fun p q => p.precedes q := by
    apply List.pairwise_mergeSort
    · intro p q r
      exact precedes_trans
    · exact precedes_total
  rw [sorted]
  exact pairwise_dropRepeated hordered

/-- Sorting adds no path. -/
theorem mem_of_mem_sorted {p : Path} {paths : List Path} (h : p ∈ sorted paths) : p ∈ paths :=
  List.mem_mergeSort.mp (mem_of_mem_dropRepeated h)

/-- Sorting loses no path, though it may keep another spelling. -/
theorem exists_mem_sorted {p : Path} {paths : List Path} (h : p ∈ paths) :
    ∃ q ∈ sorted paths, q.components = p.components :=
  exists_mem_dropRepeated (List.mem_mergeSort.mpr h)

/-- Of paths in strict order nothing is left open but how they are written. -/
theorem map_components_eq {paths paths' : List Path} (h : paths.Pairwise Before)
    (h' : paths'.Pairwise Before)
    (hmem : ∀ c, c ∈ paths.map components ↔ c ∈ paths'.map components) :
    paths.map components = paths'.map components := by
  have hordered : ∀ {l : List Path}, l.Pairwise Before →
      (l.map components).Pairwise fun a b => orderComponents a b = .lt := fun hl =>
    List.pairwise_map.mpr hl
  have hnodup : ∀ {l : List Path}, l.Pairwise Before → (l.map components).Nodup := fun hl =>
    List.pairwise_map.mpr (hl.imp Before.components_ne)
  -- a strict order repeats nothing, so that to have the same members is to be a permutation
  have hperm : (paths.map components).Perm (paths'.map components) :=
    (List.perm_ext_iff_of_nodup (hnodup h) (hnodup h')).mpr hmem
  refine hperm.eq_of_pairwise ?_ (hordered h) (hordered h')
  intro a b _ _ hab hba
  have := Std.TransCmp.lt_trans hab hba
  rw [orderComponents_self] at this
  cases this

/-- Paths that are sorted mean the same, in whatever order and however often they are given. -/
theorem map_components_sorted_eq {paths paths' : List Path} (h : ∀ p, p ∈ paths' ↔ p ∈ paths) :
    (sorted paths').map components = (sorted paths).map components := by
  have hmem : ∀ (l : List Path) c, c ∈ (sorted l).map components ↔ c ∈ l.map components := by
    intro l c
    simp only [List.mem_map]
    constructor
    · rintro ⟨p, hp, rfl⟩
      exact ⟨p, mem_of_mem_sorted hp, rfl⟩
    · rintro ⟨p, hp, rfl⟩
      exact exists_mem_sorted hp
  refine map_components_eq (pairwise_sorted _) (pairwise_sorted _) fun c => ?_
  simp only [hmem, List.mem_map, h]

end Path

end CompileWatch
