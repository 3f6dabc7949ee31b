import Mathlib.Algebra.Group.Int.Defs
import CompileWatch.Form.Size
import CompileWatch.Proofs.Expansion.Balance

/-!
# How much larger expansion makes a form

Every rewrite of a call adds some nodes to a form or takes some away, and nothing else changes the
number of nodes: an expanded form is larger than the form by what all the rewrites add. Only two
shorthands can make a form smaller: a thread with fewer than two steps that become calls of their
own, and a chain of tests without any.

- `Shorthand.growth`: how many nodes a rewrite adds.
- `Shorthand.expressions_rewrite`: that it does, shorthand by shorthand.
- `Form.Shrinks`: the calls that become smaller.
- `Form.expressions_expand`: the balance of an expansion.
-/

namespace CompileWatch

open Form (expressions expressionsAll)

namespace Shorthand

/-! ### One rewrite -/

/-- Whether a step of a thread takes the value as one more argument; any other step becomes a call
of its own. -/
def takesValue : Form → Bool
  | .list (_ :: _) _ => true
  | _ => false

/-- How many nodes more the form has that a call with these arguments stands for. -/
def growth : Shorthand → List Form → Int
  | .function _, _ :: .str _ :: _ => 2
  | .function _, _ => 3
  | .when _, _ => 3
  | .thread, args => args.tail.countP (fun step => !takesValue step) - 2
  | .cond, [] => -1
  | .cond, [_, _] => 1
  | .cond, _ => 2

variable {args : List Form} {g : Form}

/-- A call has two expressions more than its arguments: itself and its operator. -/
theorem expressions_call (name : String) (args : List Form) :
    (Form.call (.sym name :: args)).expressions = 2 + expressionsAll args := by
  show 1 + (1 + expressionsAll args) = _
  omega

theorem expressions_sym (name : String) : (Form.sym name).expressions = 1 := rfl

/-- What stands for the definition of a function is larger than the call by its `growth`. -/
theorem expressions_rewriteFunction {flag : Option String} (h : rewriteFunction flag args = .ok g) :
    (g.expressions : Int) = 2 + expressionsAll args + growth (.function flag) args := by
  unfold rewriteFunction at h
  split at h
  · cases h
  next name rest =>
    split at h
    next params m body hbody =>
      cases h
      -- the name is written twice, and the documentation is not kept
      rcases dropDoc_cases rest with hrest | ⟨doc, hrest⟩
      · rw [hbody] at hrest
        subst hrest
        simp only [expressions_call, expressions_sym, expressionsAll, expressions, growth]
        omega
      · rw [hbody] at hrest
        subst hrest
        simp only [expressions_call, expressions_sym, expressionsAll, expressions, growth]
        omega
    · cases h
  · cases h

theorem expressions_rewriteWhen {negated : Bool} (h : rewriteWhen negated args = .ok g) :
    (g.expressions : Int) = 2 + expressionsAll args + growth (.when negated) args := by
  cases args with
  | nil => cases h
  | cons test body =>
    cases negated with
    | true =>
      cases h
      rw [if_pos rfl]
      simp only [expressions_call, expressionsAll, expressions, growth]
      omega
    | false =>
      cases h
      rw [if_neg Bool.false_ne_true]
      simp only [expressions_call, expressionsAll, expressions, growth]
      omega

/-- A step that is no call is wrapped into one, which is one expression more. -/
theorem expressions_threadStep (value step : Form) :
    (threadStep value step).expressions =
      value.expressions + step.expressions + if takesValue step then 0 else 1 := by
  unfold threadStep
  split
  · simp only [Form.call, expressions, expressionsAll, takesValue, if_true]
    omega
  next hother =>
    have hkept : takesValue step = false := by
      unfold takesValue
      split
      next head args m => exact absurd rfl (hother head args m)
      · rfl
    rw [hkept]
    simp only [Form.call, expressions, expressionsAll]
    simp
    omega

/-- Threading has one expression more for each step that is wrapped. -/
theorem expressions_foldl_threadStep (steps : List Form) (value : Form) :
    (steps.foldl threadStep value).expressions =
      value.expressions + expressionsAll steps + steps.countP (fun step => !takesValue step) := by
  induction steps generalizing value with
  | nil => rfl
  | cons step rest ih =>
    rw [List.foldl_cons, ih, expressions_threadStep, expressionsAll, List.countP_cons]
    cases takesValue step <;> simp <;> omega

/-- What stands for a threaded call is larger or smaller by its `growth`. -/
theorem expressions_rewriteThread (h : rewriteThread args = .ok g) :
    (g.expressions : Int) = 2 + expressionsAll args + growth .thread args := by
  cases args with
  | nil => cases h
  | cons start steps =>
    cases h
    rw [expressions_foldl_threadStep, expressionsAll, growth, List.tail_cons]
    omega

theorem expressions_rewriteCond (h : rewriteCond args = .ok g) :
    (g.expressions : Int) = 2 + expressionsAll args + growth .cond args := by
  unfold rewriteCond at h
  split at h
  · cases h
    rfl
  · cases h
  next test value =>
    cases h
    rw [expressions_call]
    simp only [expressionsAll, growth, expressions]
    omega
  next test value rest hrest =>
    cases h
    cases rest with
    | nil => exact absurd rfl hrest
    | cons f rest =>
      simp only [expressions_call, expressionsAll, growth]
      omega

/-- A rewrite adds as many nodes as it says. -/
theorem expressions_rewrite {s : Shorthand} (h : s.rewrite args = .ok g) :
    (g.expressions : Int) = 2 + expressionsAll args + s.growth args := by
  cases s with
  | function flag => exact expressions_rewriteFunction h
  | when negated => exact expressions_rewriteWhen h
  | thread => exact expressions_rewriteThread h
  | cond => exact expressions_rewriteCond h

/-- Only two shorthands can take nodes away. -/
theorem growth_neg_iff {s : Shorthand} {args : List Form} :
    s.growth args < 0 ↔
      (s = .thread ∧ args.tail.countP (fun step => !takesValue step) < 2) ∨ (s = .cond ∧ args = []) := by
  cases s with
  | thread =>
    simp only [growth, true_and, reduceCtorEq, false_and, or_false]
    omega
  | _ => unfold growth; split <;> simp_all

end Shorthand

/-! ### Full expansion -/

namespace Form

/-- How many nodes more the form has that a call of a shorthand stands for. -/
def growth : Form → Int
  | .list items _ => (shorthand? items).elim 0 (·.growth items.tail)
  | _ => 0

/-- A call whose rewrite takes nodes away: a thread with fewer than two steps that become calls of
their own, or a chain of tests without any. -/
def Shrinks : Form → Prop
  | .list items _ =>
    (shorthand? items = some .thread ∧
      items.tail.tail.countP (fun step => !Shorthand.takesValue step) < 2) ∨
    (shorthand? items = some .cond ∧ items.tail = [])
  | _ => False

/-- A call shrinks exactly when its growth is negative. -/
theorem growth_neg_iff {f : Form} : f.growth < 0 ↔ f.Shrinks := by
  cases f with
  | list items m =>
    simp only [growth, Shrinks]
    cases shorthand? items with
    | none => simp
    | some s => simp [Shorthand.growth_neg_iff]
  | _ => exact iff_of_false (Int.lt_irrefl 0) id

/-- How many nodes more the forms have together that some calls stand for. -/
def growthAll : List Form → Int
  | [] => 0
  | call :: rest => growth call + growthAll rest

/-- Where no call shrinks, the calls together do not. -/
theorem growthAll_nonneg {calls : List Form} (h : ∀ call ∈ calls, ¬ call.Shrinks) :
    0 ≤ growthAll calls := by
  induction calls with
  | nil => exact Int.le_refl 0
  | cons call rest ih =>
    obtain ⟨hcall, hrest⟩ := List.forall_mem_cons.mp h
    have hsum := ih hrest
    rw [← growth_neg_iff] at hcall
    rw [growthAll]
    omega

/-- A form that takes the place of another has as many expressions more as the growth says. -/
theorem expressions_rewrite? {f g : Form} (h : f.rewrite? = .ok (some g)) :
    (g.expressions : Int) = f.expressions + f.growth := by
  obtain ⟨items, m, s, rfl, hs, hr⟩ := exists_of_rewrite? h
  obtain ⟨operator, args, rfl⟩ := exists_of_shorthand? hs
  rw [Shorthand.expressions_rewrite hr, growth, hs]
  simp only [expressions, expressionsAll, List.tail_cons, Option.elim_some]
  omega

/-- The nodes of a form: what a rewrite adds can be negative, so nothing is taken away. -/
def nodes : Tally Int where
  count f := f.expressions
  countAll l := expressionsAll l
  node := 1
  added := growth
  dropped _ := 0
  nil := rfl
  cons f rest := by rw [expressionsAll, Int.natCast_add]
  list items m := by rw [expressions, Int.natCast_add]; rfl
  vector items m := by rw [expressions, Int.natCast_add]; rfl
  rewrite h := by rw [expressions_rewrite? h, Int.add_zero]

theorem growthAll_eq_sum (calls : List Form) : growthAll calls = (calls.map growth).sum := by
  induction calls with
  | nil => rfl
  | cons call rest ih => rw [growthAll, ih, List.map_cons, List.sum_cons]

/-- An expanded form is larger than the form by what the rewrites of its calls add. -/
theorem expressions_expand {f : Form} {e : Expansion} (h : f.expand = .ok e) :
    ((e.form f).expressions : Int) = f.expressions + growthAll f.rewritten := by
  have hbalance : ((e.form f).expressions : Int) + (f.rewritten.map fun _ => (0 : Int)).sum =
      f.expressions + (f.rewritten.map growth).sum := nodes.expand h
  have hnone : (f.rewritten.map fun _ => (0 : Int)).sum = 0 := List.sum_map_zero
  rw [growthAll_eq_sum]
  omega

end Form

end CompileWatch
