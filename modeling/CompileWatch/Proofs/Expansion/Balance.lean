import Mathlib.Algebra.Group.Defs
import Mathlib.Algebra.BigOperators.Group.List.Defs
import Mathlib.Tactic.Abel
import CompileWatch.Proofs.Expansion.Rewritten
import CompileWatch.Proofs.Outcome

/-!
# What rewrites add and take away

Whatever is counted over the tree of a form, an expansion changes only by its rewrites: what the
rewritten calls lose and gain, added up, is what the form loses and gains.

- `Form.Tally`: something to count, and how much of it a rewrite adds and takes away.
- `Form.Tally.expand`: the balance of an expansion.
-/

namespace CompileWatch

namespace Form

/-! ### Tallies -/

/-- A count over the tree of a form. A list and a vector count as what they hold, and as much as
any other on top of it; a rewrite changes the count of a call by what it adds and what it drops. -/
structure Tally (M : Type) [AddCommMonoid M] where
  count : Form → M
  countAll : List Form → M
  node : M
  added : Form → M
  dropped : Form → M
  nil : countAll [] = 0
  cons : ∀ f rest, countAll (f :: rest) = count f + countAll rest
  list : ∀ items m, count (.list items m) = node + countAll items
  vector : ∀ items m, count (.vector items m) = node + countAll items
  rewrite : ∀ {f g}, f.rewrite? = .ok (some g) → count g + dropped f = count f + added f

namespace Tally

variable {M : Type} [AddCommMonoid M] (t : Tally M)

/-- The counts before and after differ by what the calls gain and lose that are rewritten. -/
def Balanced (before after : M) (calls : List Form) : Prop :=
  after + (calls.map t.dropped).sum = before + (calls.map t.added).sum

variable {t} {a b c d : M} {calls calls' : List Form}

/-- Where nothing is rewritten, both sides are the same. -/
theorem Balanced.refl (a : M) : t.Balanced a a [] := rfl

/-- What stays as it is can be added to both sides. -/
theorem Balanced.add_left (h : t.Balanced a b calls) (c : M) :
    t.Balanced (c + a) (c + b) calls := by
  unfold Balanced at h ⊢
  rw [add_assoc, h, add_assoc]

/-- Two counts in a row. -/
theorem Balanced.add (h : t.Balanced a b calls) (h' : t.Balanced c d calls') :
    t.Balanced (a + c) (b + d) (calls' ++ calls) := by
  unfold Balanced at h h' ⊢
  rw [List.map_append, List.map_append, List.sum_append, List.sum_append]
  calc b + d + ((calls'.map t.dropped).sum + (calls.map t.dropped).sum)
      = (b + (calls.map t.dropped).sum) + (d + (calls'.map t.dropped).sum) := by abel
    _ = (a + (calls.map t.added).sum) + (c + (calls'.map t.added).sum) := by rw [h, h']
    _ = a + c + ((calls'.map t.added).sum + (calls.map t.added).sum) := by abel

/-- What a call stands for is counted in its place. -/
theorem Balanced.of_rewrite {f g : Form} (hr : f.rewrite? = .ok (some g))
    (h : t.Balanced (t.count g) a calls) : t.Balanced (t.count f) a (calls ++ [f]) := by
  unfold Balanced at h ⊢
  simp only [List.map_append, List.sum_append, List.map_singleton, List.sum_singleton]
  calc a + ((calls.map t.dropped).sum + t.dropped f)
      = (t.count g + (calls.map t.added).sum) + t.dropped f := by rw [← add_assoc, h]
    _ = (t.count g + t.dropped f) + (calls.map t.added).sum := by abel
    _ = (t.count f + t.added f) + (calls.map t.added).sum := by rw [t.rewrite hr]
    _ = t.count f + ((calls.map t.added).sum + t.added f) := by abel

/-- The first item and the others are counted apart. -/
theorem countAll_consItems (t : Tally M) (f : Form) (rest : List Form) (e : Expansion)
    (others : Option (List Form)) :
    t.countAll ((Expansion.consItems f rest e others).getD (f :: rest)) =
      t.count (e.form f) + t.countAll (others.getD rest) := by
  cases e <;> cases others <;> exact t.cons _ _

/-- A collection is handed back with its items expanded. -/
theorem form_rebuild (build : List Form → Form) (items : List Form) (items' : Option (List Form)) :
    (Expansion.rebuild build items').form (build items) = build (items'.getD items) := by
  cases items' <;> rfl

/-- By every step of the routine, what is counted before and after is balanced by the calls. -/
theorem rewritings (t : Tally M) :
    Rewritings
      (fun f r calls => Gives (fun e => t.Balanced (t.count f) (t.count (e.form f)) calls) r)
      (fun l r calls =>
        Gives (fun l' => t.Balanced (t.countAll l) (t.countAll (l'.getD l)) calls) r) where
  quoted items m hq := gives_ok (.refl _)
  malformed items m e hq hr := gives_error e
  rewritten items m g r calls hq hr ih := gives_map ih fun e he => he.of_rewrite hr
  kept items m r calls hq hr ih := by
    refine gives_map ih fun items' h => ?_
    rw [form_rebuild, t.list, t.list]
    exact h.add_left t.node
  vector items m r calls ih := by
    refine gives_map ih fun items' h => ?_
    rw [form_rebuild, t.vector, t.vector]
    exact h.add_left t.node
  other f hl hv := gives_ok (.refl _)
  nil := gives_ok (.refl _)
  failed f rest e calls ih := gives_error e
  cons f rest e calls r calls' ihf ihr := by
    refine gives_map ihr fun others hothers => ?_
    rw [countAll_consItems, t.cons]
    exact (ihf e rfl).add hothers

/-- An expanded form counts as the form does, but for what the rewritten calls gain and lose. -/
theorem expand (t : Tally M) {f : Form} {e : Expansion} (h : f.expand = .ok e) :
    t.count (e.form f) + (f.rewritten.map t.dropped).sum =
      t.count f + (f.rewritten.map t.added).sum :=
  t.rewritings.expand f e h

end Tally

end Form

end CompileWatch
