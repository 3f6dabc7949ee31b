import CompileWatch.Form.SyntaxError

/-!
# Built-in shorthands

A shorthand is an operator that stands for other forms. One rewrite replaces a call
by what it stands for; the result and its parts may hold further calls.

- `Shorthand.ofName?`: the operators.
- `Shorthand.rewrite`: what a call stands for.
- `Form.rewrite?`: one rewrite of a form, if its operator is a shorthand.
-/

namespace CompileWatch

/-- The built-in shorthands. -/
inductive Shorthand where
  /-- A named function; the name gets a flag, if one is given. -/
  | function (flag : Option String)
  /-- A one-sided conditional, on the test or on its negation. -/
  | when (negated : Bool)
  /-- A value threaded through calls as their first argument. -/
  | thread
  /-- A chain of tests. -/
  | cond
deriving DecidableEq, Repr

namespace Shorthand

/-- The shorthand of an operator. -/
def ofName? (name : String) : Option Shorthand :=
  if name = "defn" then some (.function none)
  else if name = "defn-" then some (.function (some "private"))
  else if name = "defmacro" then some (.function (some "macro"))
  else if name = "when" then some (.when false)
  else if name = "when-not" then some (.when true)
  else if name = "->" then some .thread
  else if name = "cond" then some .cond
  else none

/-! ### The rewrites -/

/-- The forms after a leading documentation string. -/
def dropDoc : List Form → List Form
  | .str _ :: rest => rest
  | rest => rest

/-- Nothing is dropped but a documentation string. -/
theorem dropDoc_cases (l : List Form) : dropDoc l = l ∨ ∃ doc, l = .str doc :: dropDoc l := by
  unfold dropDoc
  split
  · exact .inr ⟨_, rfl⟩
  · exact .inl rfl

theorem mem_of_mem_dropDoc {f : Form} {l : List Form} (h : f ∈ dropDoc l) : f ∈ l := by
  rcases dropDoc_cases l with hl | ⟨doc, hl⟩
  · rwa [hl] at h
  · rw [hl]
    exact .tail _ h

/-- The symbol of a definition with one more flag, if one is given. -/
def flagged (name : Symbol) : Option String → Symbol
  | some flag => { name with metadata := name.metadata.addFlags [flag] }
  | none => name

/-- `(defn name doc? [params] body*)` stands for `(def name (fn name [params] body*))`.
The name keeps its position; the call's own span is lost. -/
def rewriteFunction (flag : Option String) : List Form → Except SyntaxError Form
  | [] => .error .functionWithoutName
  | .symbol name :: rest =>
    match dropDoc rest with
    | .vector params m :: body =>
      .ok (.call [.sym "def", .symbol (flagged name flag),
        .call (.sym "fn" :: .sym name.name :: .vector params m :: body)])
    | _ => .error (.functionParameters name)
  | found :: _ => .error (.functionName found)

/-- `(when test body*)` stands for `(if test (do body*) nil)`; negated, the branches
change places. -/
def rewriteWhen (negated : Bool) : List Form → Except SyntaxError Form
  | [] => .error .whenWithoutTest
  | test :: body =>
    let run := Form.call (.sym "do" :: body)
    .ok (if negated then .call [.sym "if", test, .nil, run] else .call [.sym "if", test, run, .nil])

/-- One step of a thread: the value so far becomes the first argument of the step. -/
def threadStep (value : Form) : Form → Form
  | .list (head :: args) _ => .call (head :: value :: args)
  | step => .call [step, value]

/-- `(-> x (f a) g)` stands for `(g (f x a))`. -/
def rewriteThread : List Form → Except SyntaxError Form
  | [] => .error .threadWithoutStart
  | start :: steps => .ok (steps.foldl threadStep start)

/-- `(cond t₁ e₁ t₂ e₂)` stands for `(if t₁ e₁ (cond t₂ e₂))`. -/
def rewriteCond : List Form → Except SyntaxError Form
  | [] => .ok .nil
  | [_] => .error .oddClauses
  | [test, value] => .ok (.call [.sym "if", test, value, .nil])
  | test :: value :: rest => .ok (.call [.sym "if", test, value, .call (.sym "cond" :: rest)])

/-- What a call with the given arguments stands for. -/
def rewrite : Shorthand → List Form → Except SyntaxError Form
  | .function flag, args => rewriteFunction flag args
  | .when negated, args => rewriteWhen negated args
  | .thread, args => rewriteThread args
  | .cond, args => rewriteCond args

end Shorthand

namespace Form

/-- The shorthand that a list calls. -/
def shorthand? (items : List Form) : Option Shorthand := (headOf items).bind Shorthand.ofName?

/-- One rewrite of a form: nothing when it is no call of a shorthand. -/
def rewrite? : Form → Except SyntaxError (Option Form)
  | .list items _ =>
    match shorthand? items with
    | some s => (s.rewrite items.tail).map some
    | none => .ok none
  | _ => .ok none

/-- What is rewritten is a call of a shorthand. -/
theorem exists_of_rewrite? {f g : Form} (h : f.rewrite? = .ok (some g)) :
    ∃ items m s, f = .list items m ∧ shorthand? items = some s ∧ s.rewrite items.tail = .ok g := by
  cases f with
  | list items m =>
    cases hs : shorthand? items with
    | none =>
      simp only [rewrite?, hs] at h
      cases h
    | some s =>
      simp only [rewrite?, hs] at h
      cases hr : s.rewrite items.tail with
      | error e =>
        rw [hr] at h
        cases h
      | ok g' =>
        rw [hr] at h
        cases h
        exact ⟨items, m, s, rfl, hs, hr⟩
  | _ => cases h

end Form

end CompileWatch
