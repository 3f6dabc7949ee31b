import CompileWatch.Form.Size
import CompileWatch.Proofs.Expansion.Rewritten

/-!
# How expansion ends

The transform routine by its rules, which do not say that it ever ends. It does, for every form and
in one way only, and it rewrites no more calls than twice the number of nodes: a rewrite is paid for
by the operator of the call, or by a clause of a chain of tests.

- `Form.Ends`: a call of the routine that ends, with its result and the number of rewrites.
- `Form.endsOnce_expand`: every call ends in one way, with the expansion of the form.
- `Form.two_mul_length_rewritten_le`: what all rewrites together cost.
- `Form.ends_expand`: a call of the routine ends within its bound.
-/

namespace CompileWatch

namespace Form

/-! ### The rules -/

mutual

/-- A call of the transform routine ends with a result, after some rewrites. -/
inductive Ends : Form → Except SyntaxError Expansion → Nat → Prop where
  | quoted {items : List Form} {m : Metadata} (hq : headOf items = some "quote") :
    Ends (.list items m) (.ok .unchanged) 0
  | malformed {items : List Form} {m : Metadata} {e : SyntaxError}
    (hq : headOf items ≠ some "quote") (hr : rewrite? (.list items m) = .error e) :
    Ends (.list items m) (.error e) 0
  /-- What a call stands for is transformed in its place. -/
  | rewritten {items : List Form} {m : Metadata} {g : Form} {r : Except SyntaxError Expansion}
    {n : Nat} (hq : headOf items ≠ some "quote") (hr : rewrite? (.list items m) = .ok (some g))
    (h : Ends g r n) : Ends (.list items m) (r.map fun e => .changed (e.form g)) (n + 1)
  | list {items : List Form} {m : Metadata} {r : Except SyntaxError (Option (List Form))} {n : Nat}
    (hq : headOf items ≠ some "quote") (hr : rewrite? (.list items m) = .ok none)
    (h : AllEnd items r n) :
    Ends (.list items m) (r.map (Expansion.rebuild fun items => .list items m)) n
  | vector {items : List Form} {m : Metadata} {r : Except SyntaxError (Option (List Form))}
    {n : Nat} (h : AllEnd items r n) :
    Ends (.vector items m) (r.map (Expansion.rebuild fun items => .vector items m)) n
  | other {f : Form} (hl : ∀ items m, f ≠ .list items m) (hv : ∀ items m, f ≠ .vector items m) :
    Ends f (.ok .unchanged) 0

/-- So do the calls for some items in a row, up to the first that fails. -/
inductive AllEnd : List Form → Except SyntaxError (Option (List Form)) → Nat → Prop where
  | nil : AllEnd [] (.ok none) 0
  | failed {f : Form} {rest : List Form} {e : SyntaxError} {n : Nat} (h : Ends f (.error e) n) :
    AllEnd (f :: rest) (.error e) n
  | cons {f : Form} {rest : List Form} {e : Expansion} {r : Except SyntaxError (Option (List Form))}
    {n n' : Nat} (hf : Ends f (.ok e) n) (hrest : AllEnd rest r n') :
    AllEnd (f :: rest) (r.map (Expansion.consItems f rest e)) (n + n')

end

/-- There is one way to end. -/
structure EndsOnce {α : Type} (P : α → Nat → Prop) (a : α) (n : Nat) : Prop where
  ends : P a n
  unique : ∀ a' n', P a' n' → a' = a ∧ n' = n

/-- What is neither a list nor a vector ends at once. -/
theorem endsOnce_other {f : Form} (hl : ∀ items m, f ≠ .list items m)
    (hv : ∀ items m, f ≠ .vector items m) : EndsOnce f.Ends (.ok .unchanged) 0 := by
  refine ⟨.other hl hv, fun r n h => ?_⟩
  cases h with
  | other => exact ⟨rfl, rfl⟩
  | quoted | malformed | rewritten | list => exact absurd rfl (hl _ _)
  | vector => exact absurd rfl (hv _ _)

theorem endsOnce_quoted {items : List Form} (m : Metadata) (hq : headOf items = some "quote") :
    EndsOnce (Form.list items m).Ends (.ok .unchanged) 0 := by
  refine ⟨.quoted hq, fun r n h => ?_⟩
  cases h with
  | quoted => exact ⟨rfl, rfl⟩
  | malformed hq' | rewritten hq' | list hq' => exact absurd hq hq'
  | other hl => exact absurd rfl (hl items m)

theorem endsOnce_malformed {items : List Form} {m : Metadata} {e : SyntaxError}
    (hq : headOf items ≠ some "quote") (hr : rewrite? (.list items m) = .error e) :
    EndsOnce (Form.list items m).Ends (.error e) 0 := by
  refine ⟨.malformed hq hr, fun r n h => ?_⟩
  cases h with
  | quoted hq' => exact absurd hq' hq
  | malformed _ hr' =>
    rw [hr] at hr'
    cases hr'
    exact ⟨rfl, rfl⟩
  | rewritten _ hr' | list _ hr' =>
    rw [hr] at hr'
    cases hr'
  | other hl => exact absurd rfl (hl items m)

/-- A call that is rewritten ends as what takes its place, one rewrite later. -/
theorem endsOnce_rewritten {items : List Form} {m : Metadata} {g : Form}
    (hq : headOf items ≠ some "quote") (hr : rewrite? (.list items m) = .ok (some g))
    {r : Except SyntaxError Expansion} {n : Nat} (hg : EndsOnce g.Ends r n) :
    EndsOnce (Form.list items m).Ends (r.map fun e => .changed (e.form g)) (n + 1) := by
  refine ⟨.rewritten hq hr hg.ends, fun r' n' h => ?_⟩
  cases h with
  | quoted hq' => exact absurd hq' hq
  | malformed _ hr' | list _ hr' =>
    rw [hr] at hr'
    cases hr'
  | rewritten _ hr' h =>
    rw [hr] at hr'
    cases hr'
    obtain ⟨rfl, rfl⟩ := hg.unique _ _ h
    exact ⟨rfl, rfl⟩
  | other hl => exact absurd rfl (hl items m)

/-- A list that is kept ends when its items do. -/
theorem endsOnce_list {items : List Form} {m : Metadata} (hq : headOf items ≠ some "quote")
    (hr : rewrite? (.list items m) = .ok none) {r : Except SyntaxError (Option (List Form))}
    {n : Nat} (hitems : EndsOnce (AllEnd items) r n) :
    EndsOnce (Form.list items m).Ends (r.map (Expansion.rebuild fun items => .list items m)) n := by
  refine ⟨.list hq hr hitems.ends, fun r' n' h => ?_⟩
  cases h with
  | quoted hq' => exact absurd hq' hq
  | malformed _ hr' | rewritten _ hr' =>
    rw [hr] at hr'
    cases hr'
  | list _ _ h =>
    obtain ⟨rfl, rfl⟩ := hitems.unique _ _ h
    exact ⟨rfl, rfl⟩
  | other hl => exact absurd rfl (hl items m)

theorem endsOnce_vector {items : List Form} (m : Metadata)
    {r : Except SyntaxError (Option (List Form))} {n : Nat}
    (hitems : EndsOnce (AllEnd items) r n) :
    EndsOnce (Form.vector items m).Ends (r.map (Expansion.rebuild fun items => .vector items m))
      n := by
  refine ⟨.vector hitems.ends, fun r' n' h => ?_⟩
  cases h with
  | vector h =>
    obtain ⟨rfl, rfl⟩ := hitems.unique _ _ h
    exact ⟨rfl, rfl⟩
  | other _ hv => exact absurd rfl (hv items m)

theorem endsOnce_nil : EndsOnce (AllEnd []) (.ok none) 0 := by
  refine ⟨.nil, fun r n h => ?_⟩
  cases h
  exact ⟨rfl, rfl⟩

/-- Items end with the first of them that fails. -/
theorem endsOnce_failed {f : Form} {e : SyntaxError} {n : Nat}
    (hf : EndsOnce f.Ends (.error e) n) (rest : List Form) :
    EndsOnce (AllEnd (f :: rest)) (.error e) n := by
  refine ⟨.failed hf.ends, fun r n' h => ?_⟩
  cases h with
  | failed h =>
    obtain ⟨he, rfl⟩ := hf.unique _ _ h
    cases he
    exact ⟨rfl, rfl⟩
  | cons h =>
    obtain ⟨he, -⟩ := hf.unique _ _ h
    cases he

/-- Items end one after the other, and their rewrites add up. -/
theorem endsOnce_cons {f : Form} {rest : List Form} {e : Expansion} {n n' : Nat}
    {r : Except SyntaxError (Option (List Form))} (hf : EndsOnce f.Ends (.ok e) n)
    (hrest : EndsOnce (AllEnd rest) r n') :
    EndsOnce (AllEnd (f :: rest)) (r.map (Expansion.consItems f rest e)) (n + n') := by
  refine ⟨.cons hf.ends hrest.ends, fun r' n'' h => ?_⟩
  cases h with
  | failed h =>
    obtain ⟨he, -⟩ := hf.unique _ _ h
    cases he
  | cons h h' =>
    obtain ⟨he, rfl⟩ := hf.unique _ _ h
    obtain ⟨rfl, rfl⟩ := hrest.unique _ _ h'
    cases he
    exact ⟨rfl, rfl⟩

/-! ### Every call ends -/

/-- What the routine does ends once, with as many rewrites as calls are noted. -/
theorem rewritings_ends :
    Rewritings (fun f r calls => EndsOnce f.Ends r calls.length)
      (fun l r calls => EndsOnce (AllEnd l) r calls.length) where
  quoted items m hq := endsOnce_quoted m hq
  malformed items m e hq hr := endsOnce_malformed hq hr
  rewritten items m g r calls hq hr ih := by
    rw [List.length_append, List.length_singleton]
    exact endsOnce_rewritten hq hr ih
  kept items m r calls hq hr ih := endsOnce_list hq hr ih
  vector items m r calls ih := endsOnce_vector m ih
  other f hl hv := endsOnce_other hl hv
  nil := endsOnce_nil
  failed f rest e calls ih := endsOnce_failed ih rest
  cons f rest e calls r calls' ihf ihr := by
    rw [List.length_append, Nat.add_comm]
    exact endsOnce_cons ihf ihr

/-- A call of the routine ends in one way: with the expansion of the form. -/
theorem endsOnce_expand (f : Form) : EndsOnce f.Ends f.expand f.rewritten.length :=
  rewritings_ends.expand f

/-! ### The bound -/

/-- What is paid for the rewrites of a form: two for the name of a shorthand in the place of an
operator, and the surcharges. -/
theorem lowers_rewrites : Lowers 0 2 2 where

/-- Two are paid for each rewrite. -/
theorem rewritings_pay :
    Rewritings (fun f _ calls => 2 * calls.length ≤ cost 0 2 false f)
      (fun l _ calls => 2 * calls.length ≤ costAll 0 2 false 0 l) where
  quoted items m hq := Nat.zero_le _
  malformed items m e hq hr := Nat.zero_le _
  rewritten items m g r calls hq hr ih := by
    have hdrop := cost_rewrite?_le lowers_rewrites hr
    rw [List.length_append, List.length_singleton]
    omega
  kept items m r calls hq hr ih :=
    Nat.le_trans ih (costAll_le_cost_list lowers_rewrites items m)
  vector items m r calls ih := by
    rw [cost, Nat.zero_add]
    exact ih
  other f hl hv := Nat.zero_le _
  nil := Nat.zero_le _
  failed f rest e calls ih := by
    rw [costAll]
    omega
  cons f rest e calls r calls' ihf ihr := by
    rw [costAll, List.length_append]
    omega

mutual

/-- A form costs less than three for each of its nodes, even in the place of an operator and with
a surcharge. -/
theorem cost_lt (operator : Bool) (f : Form) : cost 0 2 operator f < 3 * f.expressions := by
  match f with
  | .symbol s =>
    simp only [cost, expressions]
    split <;> decide
  | .list [] m =>
    simp only [cost, expressions]
    omega
  | .list (head :: args) m =>
    have hhead := cost_lt true head
    have hargs := costAll_le (threads [head]) (surcharge_le [head]) args
    simp only [cost, expressions, expressionsAll]
    omega
  | .vector items m =>
    have hitems := costAll_le false (Nat.zero_le 1) items
    simp only [cost, expressions]
    omega
  | .nil | .bool _ | .int _ | .float _ | .char _ | .str _ | .keyword _ | .map _ | .set _ =>
    simp only [cost, expressions]
    omega

/-- Forms in a row cost three times their expressions at most. -/
theorem costAll_le (operator : Bool) {extra : Nat} (hextra : extra ≤ 1) (l : List Form) :
    costAll 0 2 operator extra l ≤ 3 * expressionsAll l := by
  match l with
  | [] => exact Nat.le_refl 0
  | f :: rest =>
    have hf := cost_lt operator f
    have hrest := costAll_le operator hextra rest
    simp only [costAll, expressionsAll]
    omega

end

/-- An expansion makes at most three rewrites for every two nodes. -/
theorem two_mul_length_rewritten_le (f : Form) : 2 * f.rewritten.length ≤ 3 * f.expressions := by
  have hpays := rewritings_pay.expand f
  have hcost := cost_lt false f
  omega

/-- A call of the transform routine ends, for every form, and before it has rewritten more calls
than twice the number of nodes. -/
theorem ends_expand (f : Form) :
    ∃ n, f.Ends f.expand n ∧ n ≤ 2 * f.expressions ∧
      ∀ r n', f.Ends r n' → r = f.expand ∧ n' = n := by
  have hends := endsOnce_expand f
  have hbound := two_mul_length_rewritten_le f
  exact ⟨f.rewritten.length, hends.ends, by omega, hends.unique⟩

end Form

end CompileWatch
