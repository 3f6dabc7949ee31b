import CompileWatch.Expansion.Shorthand

/-!
# Why expansion ends

A weight that every rewrite lowers. An operator weighs more where it is called, and
the arguments of a thread and of a chain of tests weigh one more each, because a
rewrite moves them into new calls.

- `Form.weight`: the weight of a form, as an operator or elsewhere.
- `Form.cost`: such a weight with other prices; `Form.Lowers` says which prices will do.
- `Form.cost_rewrite?_le`: by how much a rewrite lowers the cost.
- `Form.weight_rewrite?_lt`: a rewrite lowers the weight.
- `Form.weightAll_le_weight_list`: the items of a list together weigh no more than it.
-/

namespace CompileWatch

/-- The weight of a symbol in the place of an operator. -/
def Symbol.operatorWeight (s : Symbol) : Nat :=
  if s.isQualified then 1
  else if (Shorthand.ofName? s.name).isSome then 4 else 1

namespace Form

/-- Whether the arguments of a call weigh as operators: a thread makes operators of
its steps. -/
def threads (items : List Form) : Bool := decide (shorthand? items = some .thread)

/-- What each argument of a call weighs on top of itself. -/
def surcharge (items : List Form) : Nat :=
  if shorthand? items = some .thread ∨ shorthand? items = some .cond then 1 else 0

mutual

/-- The weight of a form, in the place of an operator or elsewhere. -/
def weight (operator : Bool) : Form → Nat
  | .symbol s => if operator then s.operatorWeight else 1
  | .list [] _ => 1
  | .list (head :: args) _ =>
    weight true head + weightAll (threads [head]) (surcharge [head]) args
  | .vector items _ => 1 + weightAll false 0 items
  | _ => 1

/-- The weight of a list of forms, each with a surcharge. -/
def weightAll (operator : Bool) (extra : Nat) : List Form → Nat
  | [] => 0
  | f :: rest => weight operator f + extra + weightAll operator extra rest

end

/-! ### Costs -/

mutual

/-- The cost of a form, in the place of an operator or elsewhere: the name of a shorthand costs
`call` in the place of an operator, and any other node costs `node`. -/
def cost (node call : Nat) (operator : Bool) : Form → Nat
  | .symbol s => if operator && (shorthand? [.symbol s]).isSome then call else node
  | .list [] _ => node
  | .list (head :: args) _ =>
    cost node call true head + costAll node call (threads [head]) (surcharge [head]) args
  | .vector items _ => node + costAll node call false 0 items
  | _ => node

/-- The cost of a list of forms, each with a surcharge. -/
def costAll (node call : Nat) (operator : Bool) (extra : Nat) : List Form → Nat
  | [] => 0
  | f :: rest => cost node call operator f + extra + costAll node call operator extra rest

end

/-- Prices at which every rewrite lowers the cost by `drop`: a rewritten call pays for three new
nodes at most, and a clause of a chain of tests, with its two surcharges, for one. -/
structure Lowers (node call drop : Nat) : Prop where
  call : 3 * node + drop ≤ call := by decide
  clause : node + drop ≤ 2 := by decide

theorem surcharge_le (items : List Form) : surcharge items ≤ 1 := by
  unfold surcharge
  split <;> decide

section

variable {node call drop : Nat} (prices : Lowers node call drop)

include prices

/-! ### Bounds -/

/-- A form costs most in the place of an operator. -/
theorem cost_le_cost_true (operator : Bool) (f : Form) :
    cost node call operator f ≤ cost node call true f := by
  cases operator with
  | true => exact Nat.le_refl _
  | false =>
    cases f with
    | symbol s =>
      have := prices.call
      simp only [cost, Bool.false_and, Bool.false_eq_true, if_false, Bool.true_and]
      split <;> omega
    | list items m => cases items <;> simp [cost]
    | _ => simp [cost]

theorem cost_false_le (operator : Bool) (f : Form) :
    cost node call false f ≤ cost node call operator f := by
  cases operator with
  | true => exact cost_le_cost_true prices false f
  | false => exact Nat.le_refl _

theorem costAll_false_le (operator : Bool) (extra : Nat) (l : List Form) :
    costAll node call false 0 l ≤ costAll node call operator extra l := by
  induction l with
  | nil => exact Nat.le_refl _
  | cons f rest ih =>
    have := cost_false_le prices operator f
    simp only [costAll]
    omega

/-- The items of a list together cost no more than it. -/
theorem costAll_le_cost_list (items : List Form) (m : Metadata) :
    costAll node call false 0 items ≤ cost node call false (.list items m) := by
  cases items with
  | nil => simp [costAll]
  | cons head args =>
    have := cost_false_le prices true head
    have := costAll_false_le prices (threads [head]) (surcharge [head]) args
    simp only [cost, costAll]
    omega

/-! ### Rewrites lower the cost -/

omit prices in
/-- A call whose operator is no shorthand costs one node more than its arguments. -/
theorem cost_call_sym {name : String} (h : Shorthand.ofName? name = none) (operator : Bool)
    (args : List Form) :
    cost node call operator (.call (.sym name :: args)) = node + costAll node call false 0 args := by
  simp [Form.call, sym, cost, Symbol.isQualified, threads, surcharge, shorthand?, headOf, h]

/-- One step of a thread adds no more than the cost of the step and its surcharge. -/
theorem cost_threadStep_le (value step : Form) :
    cost node call true (Shorthand.threadStep value step) ≤
      cost node call true value + (cost node call true step + 1) := by
  have hv (o : Bool) : cost node call o value ≤ cost node call true value :=
    cost_le_cost_true prices o value
  have hs (l : List Form) : surcharge l ≤ 1 := surcharge_le l
  unfold Shorthand.threadStep
  split
  next head args _ =>
    have h₁ := hv (threads [head])
    have h₂ := hs [head]
    simp only [Form.call, cost, costAll]
    omega
  next =>
    have h₁ := hv (threads [step])
    have h₂ := hs [step]
    simp only [Form.call, cost, costAll]
    omega

theorem cost_foldl_threadStep_le (steps : List Form) (value : Form) :
    cost node call true (steps.foldl Shorthand.threadStep value) ≤
      cost node call true value + costAll node call true 1 steps := by
  induction steps generalizing value with
  | nil => simp [costAll]
  | cons step rest ih =>
    have h₁ := ih (Shorthand.threadStep value step)
    have h₂ := cost_threadStep_le prices value step
    simp only [List.foldl_cons, costAll]
    omega

omit prices in
theorem costAll_dropDoc_le (node call : Nat) (l : List Form) :
    costAll node call false 0 (Shorthand.dropDoc l) ≤ costAll node call false 0 l := by
  unfold Shorthand.dropDoc
  split
  · simp [costAll]
  · exact Nat.le_refl _

/-- What a function definition stands for costs less than the call. -/
theorem cost_rewriteFunction_le {flag : Option String} {args : List Form} {g : Form}
    (h : Shorthand.rewriteFunction flag args = .ok g) :
    cost node call false g + drop ≤ call + costAll node call false 0 args := by
  have hcall := prices.call
  unfold Shorthand.rewriteFunction at h
  split at h
  · simp at h
  next name rest =>
    have hd := costAll_dropDoc_le node call rest
    split at h
    next params m body heq =>
      injection h with h
      rw [heq] at hd
      rw [← h, cost_call_sym rfl]
      simp only [costAll]
      rw [cost_call_sym rfl]
      simp only [cost, costAll, sym, Bool.false_and] at hd ⊢
      simp only [Bool.false_eq_true, if_false]
      omega
    next => simp at h
  next => simp at h

/-- What a one-sided conditional stands for costs less than the call. -/
theorem cost_rewriteWhen_le {negated : Bool} {args : List Form} {g : Form}
    (h : Shorthand.rewriteWhen negated args = .ok g) :
    cost node call false g + drop ≤ call + costAll node call false 0 args := by
  have hcall := prices.call
  unfold Shorthand.rewriteWhen at h
  split at h
  · simp at h
  next test body =>
    injection h with h
    rw [← h]
    have hrun : cost node call false (.call (.sym "do" :: body)) =
        node + costAll node call false 0 body := cost_call_sym rfl false body
    cases negated <;> simp only [Bool.false_eq_true, if_false, if_true] <;>
      rw [cost_call_sym rfl] <;> simp only [costAll, hrun] <;> simp only [cost] <;> omega

/-- What a thread stands for costs less than the call. -/
theorem cost_rewriteThread_le {args : List Form} {g : Form}
    (h : Shorthand.rewriteThread args = .ok g) :
    cost node call false g + drop ≤ call + costAll node call true 1 args := by
  have hcall := prices.call
  unfold Shorthand.rewriteThread at h
  split at h
  · simp at h
  next start steps =>
    injection h with h
    have h₁ := cost_foldl_threadStep_le prices steps start
    have h₂ := cost_le_cost_true prices false g
    rw [h] at h₁
    simp only [costAll]
    omega

/-- What a chain of tests stands for costs less than the call. -/
theorem cost_rewriteCond_le {args : List Form} {g : Form}
    (h : Shorthand.rewriteCond args = .ok g) :
    cost node call false g + drop ≤ call + costAll node call false 1 args := by
  have hcall := prices.call
  have hclause := prices.clause
  unfold Shorthand.rewriteCond at h
  split at h
  · injection h with h
    rw [← h]
    simp only [cost]
    omega
  · simp at h
  next test value =>
    injection h with h
    rw [← h, cost_call_sym rfl]
    simp only [costAll, cost]
    omega
  next test value rest _ =>
    injection h with h
    rw [← h, cost_call_sym rfl]
    have hc : cost node call false (.call (.sym "cond" :: rest)) =
        call + costAll node call false 1 rest := rfl
    simp only [costAll, hc]
    omega

omit prices in
/-- A list that calls a shorthand costs its operator and its arguments. -/
theorem cost_of_shorthand? {items : List Form} {m : Metadata} {s : Shorthand}
    (h : shorthand? items = some s) :
    cost node call false (.list items m) =
      call + costAll node call (threads items) (surcharge items) items.tail := by
  cases items with
  | nil => cases h
  | cons head args =>
    cases head with
    | symbol operator =>
      have hhead : shorthand? [.symbol operator] = some s := h
      simp only [cost, hhead, Option.isSome_some, Bool.and_self, if_true, List.tail_cons]
      rfl
    | _ => cases h

/-- A rewrite lowers the cost. -/
theorem cost_rewrite?_le {f g : Form} (h : f.rewrite? = .ok (some g)) :
    cost node call false g + drop ≤ cost node call false f := by
  obtain ⟨items, m, s, rfl, hs, hr⟩ := exists_of_rewrite? h
  rw [cost_of_shorthand? hs]
  cases s with
  | function flag => simpa [threads, surcharge, hs] using cost_rewriteFunction_le prices hr
  | when negated => simpa [threads, surcharge, hs] using cost_rewriteWhen_le prices hr
  | thread => simpa [threads, surcharge, hs] using cost_rewriteThread_le prices hr
  | cond => simpa [threads, surcharge, hs] using cost_rewriteCond_le prices hr

end

/-! ### The weight -/

/-- The weight is the cost at these prices. -/
theorem lowers_weight : Lowers 1 4 1 where

mutual

theorem weight_eq_cost (operator : Bool) (f : Form) : weight operator f = cost 1 4 operator f := by
  match f with
  | .symbol s =>
    cases operator with
    | false => rfl
    | true =>
      by_cases hq : s.isQualified <;>
        simp [weight, cost, Symbol.operatorWeight, shorthand?, headOf, hq]
  | .list [] m => rfl
  | .list (head :: args) m => rw [weight, cost, weight_eq_cost true head, weightAll_eq_costAll _ _ args]
  | .vector items m => rw [weight, cost, weightAll_eq_costAll _ _ items]
  | .nil | .bool _ | .int _ | .float _ | .char _ | .str _ | .keyword _ | .map _ | .set _ =>
    rfl

theorem weightAll_eq_costAll (operator : Bool) (extra : Nat) (l : List Form) :
    weightAll operator extra l = costAll 1 4 operator extra l := by
  match l with
  | [] => rfl
  | f :: rest => rw [weightAll, costAll, weight_eq_cost operator f, weightAll_eq_costAll _ _ rest]

end

theorem weightAll_false_le (operator : Bool) (extra : Nat) (l : List Form) :
    weightAll false 0 l ≤ weightAll operator extra l := by
  rw [weightAll_eq_costAll, weightAll_eq_costAll]
  exact costAll_false_le lowers_weight operator extra l

/-- The items of a list together weigh no more than it. -/
theorem weightAll_le_weight_list (items : List Form) (m : Metadata) :
    weightAll false 0 items ≤ weight false (.list items m) := by
  rw [weightAll_eq_costAll, weight_eq_cost]
  exact costAll_le_cost_list lowers_weight items m

/-- The items of a vector together weigh no more than it. -/
theorem weightAll_le_weight_vector (items : List Form) (m : Metadata) :
    weightAll false 0 items ≤ weight false (.vector items m) := by
  simp only [weight]
  omega

/-- A rewrite lowers the weight. -/
theorem weight_rewrite?_lt {f g : Form} (h : f.rewrite? = .ok (some g)) :
    weight false g < weight false f := by
  rw [weight_eq_cost, weight_eq_cost]
  exact cost_rewrite?_le lowers_weight h

end Form

end CompileWatch
