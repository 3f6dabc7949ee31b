import Mathlib.Data.List.Forall2
import CompileWatch.Proofs.Expansion.Objects
import CompileWatch.Proofs.Form.Parts
import CompileWatch.Proofs.Outcome

/-!
# The identity of an expanded form

An object is made after the objects that it holds, so it has a greater number than they have, and
none of them is the object itself. So what a rewritten call becomes, which is made of new objects
and of what the call holds, is another object than the call; and the routine can tell by the
identity of an object whether a call of a shorthand was found in it.

- `Object.Made`: an object as it can be in memory.
- `Object.exists_made`: every form is the form of such an object.
- `Object.HandedOn.expand`: what expansion hands on from old objects to new ones.
- `Object.Shares`: an object shares with another one all that no call of a shorthand was found in.
- `Object.expand_shares`: the expansion of an object.
-/

namespace CompileWatch

namespace Object

/-! ### Objects in memory -/

/-- An object can be in memory when `n` objects have been made: what it holds was made before. -/
inductive Made : Nat → Object → Prop where
  | leaf {n k : Nat} {f : Form} {h : f.IsLeaf} (hk : k < n) : Made n (.leaf k f h)
  | collection {kind : Kind} {n k : Nat} {items : List Object} {m : Metadata} (hk : k < n)
    (h : ∀ o ∈ items, Made k o) : Made n (.collection kind k items m)

/-- An object is not the one with a given number, and does not hold it. -/
inductive Avoids (k : Nat) : Object → Prop where
  | leaf {j : Nat} {f : Form} {h : f.IsLeaf} (hj : j ≠ k) : Avoids k (.leaf j f h)
  | collection {kind : Kind} {j : Nat} {items : List Object} {m : Metadata} (hj : j ≠ k)
    (h : ∀ o ∈ items, Avoids k o) : Avoids k (.collection kind j items m)

/-- What is in memory stays there when more is made. -/
theorem Made.mono {n n' : Nat} {o : Object} (hn : n ≤ n') (h : o.Made n) : o.Made n' := by
  cases h with
  | leaf hk => exact .leaf (Nat.lt_of_lt_of_le hk hn)
  | collection hk h => exact .collection (Nat.lt_of_lt_of_le hk hn) h

/-- What is in memory already avoids the objects that are made later. -/
theorem Made.avoids {n k : Nat} {o : Object} (h : o.Made n) (hk : n ≤ k) : o.Avoids k := by
  induction h with
  | leaf hj => exact .leaf (Nat.ne_of_lt (Nat.lt_of_lt_of_le hj hk))
  | collection hj _ ih =>
    have hjk := Nat.lt_of_lt_of_le hj hk
    exact .collection (Nat.ne_of_lt hjk) fun o ho => ih o ho (Nat.le_of_lt hjk)

/-- An object that avoids a number has another one. -/
theorem Avoids.number_ne {k : Nat} {o : Object} (h : o.Avoids k) : o.number ≠ k := by
  cases h with
  | leaf hj => exact hj
  | collection hj => exact hj

/-- Forms in a row can be made as objects in a row. -/
theorem exists_made_all {l : List Form} (h : ∀ f ∈ l, ∃ n o, Made n o ∧ o.form = f) :
    ∃ n items, (∀ o ∈ items, Made n o) ∧ forms items = l := by
  induction l with
  | nil => exact ⟨0, [], fun o ho => absurd ho List.not_mem_nil, rfl⟩
  | cons f rest ih =>
    obtain ⟨⟨n, o, ho, rfl⟩, hrest⟩ := List.forall_mem_cons.mp h
    obtain ⟨n', items, hitems, rfl⟩ := ih hrest
    refine ⟨max n n', o :: items, List.forall_mem_cons.mpr ⟨ho.mono (Nat.le_max_left _ _), ?_⟩, rfl⟩
    exact fun c hc => (hitems c hc).mono (Nat.le_max_right _ _)

theorem exists_made_leaf {f : Form} (h : f.IsLeaf) : ∃ n o, Made n o ∧ o.form = f :=
  ⟨1, .leaf 0 f h, .leaf Nat.zero_lt_one, rfl⟩

/-- Every form can be in memory. -/
theorem exists_made (f : Form) : ∃ n o, Made n o ∧ o.form = f := by
  induction f using Form.induction_on_children with
  | step f ih =>
    match f with
    | .list l m =>
      obtain ⟨n, items, hitems, rfl⟩ := exists_made_all ih
      exact ⟨n + 1, .collection .list n items m, .collection (Nat.lt_succ_self n) hitems, rfl⟩
    | .vector l m =>
      obtain ⟨n, items, hitems, rfl⟩ := exists_made_all ih
      exact ⟨n + 1, .collection .vector n items m, .collection (Nat.lt_succ_self n) hitems, rfl⟩
    | .nil | .bool _ | .int _ | .float _ | .char _ | .str _ | .keyword _ | .symbol _ | .map _
    | .set _ => exact exists_made_leaf trivial

/-! ### What is handed on -/

/-- A property of objects, when some number of them have been made. Objects with numbers from
`start` on have it when all that they hold has it. -/
structure HandedOn (start : Nat) (p : Nat → Object → Prop) : Prop where
  mono : ∀ {n n' : Nat} {o : Object}, n ≤ n' → p n o → p n' o
  leaf : ∀ {n : Nat} {f : Form} {h : f.IsLeaf}, start ≤ n → p (n + 1) (.leaf n f h)
  collection : ∀ {n : Nat} {items : List Object} (kind : Kind) (m : Metadata), start ≤ n →
    (∀ o ∈ items, p n o) → p (n + 1) (.collection kind n items m)
  items : ∀ {n k : Nat} {kind : Kind} {items : List Object} {m : Metadata},
    p n (.collection kind k items m) → ∀ o ∈ items, p n o

/-- That its objects are in memory is handed on from a form to what stands for it. -/
theorem handedOn_made : HandedOn 0 Made where
  mono := Made.mono
  leaf _ := .leaf (Nat.lt_succ_self _)
  collection _ _ _ h := .collection (Nat.lt_succ_self _) h
  items h o ho := by
    cases h with
    | collection hk h => exact (h o ho).mono (Nat.le_of_lt hk)

theorem handedOn_avoids (k : Nat) : HandedOn (k + 1) fun _ o => o.Avoids k where
  mono _ h := h
  leaf hk := .leaf (Nat.ne_of_gt hk)
  collection _ _ hk h := .collection (Nat.ne_of_gt hk) h
  items h o ho := by
    cases h with
    | collection _ h => exact h o ho

/-- No number is taken back, and what is made has the property. -/
def Makes (p : Nat → Object → Prop) (n : Nat) (made : Object × Nat) : Prop :=
  n ≤ made.2 ∧ p made.2 made.1

namespace HandedOn

variable {start n : Nat} {p : Nat → Object → Prop} {args : List Object}

/-- A leaf that is made has the property. -/
theorem newLeaf (hp : HandedOn start p) {k : Nat} {f : Form} {h : f.IsLeaf} (hk : start ≤ k)
    (hn : k < n) : p n (.leaf k f h) :=
  hp.mono hn (hp.leaf hk)

theorem newCall (hp : HandedOn start p) {k : Nat} (hk : start ≤ k) (hn : k < n)
    (h : ∀ o ∈ args, p k o) : p n (newCall k args) :=
  hp.mono hn (hp.collection .list {} hk h)

theorem mem_of_mem_dropDoc {o : Object} {l : List Object} (h : o ∈ dropDoc l) : o ∈ l := by
  unfold dropDoc at h
  split at h
  · exact .tail _ h
  · exact h

/-- What stands for the definition of a function has the property that is handed on. -/
theorem rewriteFunction (hp : HandedOn start p) (hn : start ≤ n) (h : ∀ o ∈ args, p n o)
    (flag : Option String) : Gives (Makes p n) (rewriteFunction flag n args) := by
  unfold Object.rewriteFunction
  split
  · exact gives_error _
  next name _ rest =>
    split
    next k params m body hbody =>
      have hkept : ∀ o ∈ .collection .vector k params m :: body, p (n + 4) o := fun o ho =>
        hp.mono (by omega) (h o (.tail _ (mem_of_mem_dropDoc (hbody ▸ ho))))
      have hfn : p (n + 4) (newSym n "fn") := hp.newLeaf hn (by omega)
      have hself : p (n + 4) (newSym (n + 1) name.name) := hp.newLeaf (by omega) (by omega)
      have hfunction := hp.newCall (n := n + 5) (k := n + 4) (by omega) (by omega)
        (List.forall_mem_cons.mpr ⟨hfn, List.forall_mem_cons.mpr ⟨hself, hkept⟩⟩)
      have hdef : p (n + 5) (newSym (n + 2) "def") := hp.newLeaf (by omega) (by omega)
      have hname : p (n + 5) (.leaf (n + 3) (.symbol (Shorthand.flagged name flag)) trivial) :=
        hp.newLeaf (by omega) (by omega)
      refine gives_ok ⟨Nat.le_add_right _ _, hp.newCall (by omega) (by omega) ?_⟩
      simpa using ⟨hdef, hname, hfunction⟩
    · exact gives_error _
  · exact gives_error _

theorem rewriteWhen (hp : HandedOn start p) (hn : start ≤ n) (h : ∀ o ∈ args, p n o)
    (negated : Bool) : Gives (Makes p n) (rewriteWhen negated n args) := by
  cases args with
  | nil => exact gives_error _
  | cons test body =>
    obtain ⟨htest, hbody⟩ := List.forall_mem_cons.mp h
    have hdo : p (n + 1) (newSym n "do") := hp.newLeaf hn (by omega)
    have hrun := hp.newCall (n := n + 4) (k := n + 1) (by omega) (by omega)
      (List.forall_mem_cons.mpr ⟨hdo, fun o ho => hp.mono (by omega) (hbody o ho)⟩)
    have hnil : p (n + 4) (.leaf (n + 2) .nil trivial) := hp.newLeaf (by omega) (by omega)
    have hif : p (n + 4) (newSym (n + 3) "if") := hp.newLeaf (by omega) (by omega)
    have htest' : p (n + 4) test := hp.mono (by omega) htest
    refine gives_ok ⟨by omega, hp.newCall (by omega) (by omega) ?_⟩
    cases negated with
    | true => simpa using ⟨hif, htest', hnil, hrun⟩
    | false => simpa using ⟨hif, htest', hrun, hnil⟩

theorem threadStep (hp : HandedOn start p) (hn : start ≤ n) {value : Object × Nat}
    (hvalue : Makes p n value) {step : Object} (hstep : p n step) :
    Makes p n (threadStep value step) := by
  obtain ⟨hle, hv⟩ := hvalue
  unfold Object.threadStep
  split
  next k head args m =>
    obtain ⟨hhead, hargs⟩ := List.forall_mem_cons.mp (hp.items (hp.mono hle hstep))
    refine ⟨by simp only; omega, hp.newCall (by omega) (by simp) ?_⟩
    exact List.forall_mem_cons.mpr ⟨hhead, List.forall_mem_cons.mpr ⟨hv, hargs⟩⟩
  next =>
    refine ⟨by simp only; omega, hp.newCall (by omega) (by simp) ?_⟩
    exact List.forall_mem_cons.mpr ⟨hp.mono hle hstep, List.forall_mem_singleton.mpr hv⟩

theorem rewriteThread (hp : HandedOn start p) (hn : start ≤ n) (h : ∀ o ∈ args, p n o) :
    Gives (Makes p n) (rewriteThread n args) := by
  cases args with
  | nil => exact gives_error _
  | cons first steps =>
    obtain ⟨hfirst, hsteps⟩ := List.forall_mem_cons.mp h
    have hstart : Makes p n (first, n) := ⟨Nat.le_refl n, hfirst⟩
    refine gives_ok (List.foldlRecOn steps Object.threadStep hstart fun value hv step hstep => ?_)
    exact hp.threadStep hn hv (hsteps step hstep)

theorem rewriteCond (hp : HandedOn start p) (hn : start ≤ n) (h : ∀ o ∈ args, p n o) :
    Gives (Makes p n) (rewriteCond n args) := by
  unfold Object.rewriteCond
  split
  · exact gives_ok ⟨by simp, hp.leaf hn⟩
  · exact gives_error _
  next test value =>
    have hif : p (n + 2) (newSym (n + 1) "if") := hp.newLeaf (by omega) (by omega)
    have hnil : p (n + 2) (.leaf n .nil trivial) := hp.newLeaf hn (by omega)
    have hclause : ∀ o ∈ [test, value], p (n + 2) o := fun o ho => hp.mono (by omega) (h o ho)
    refine gives_ok ⟨by simp, hp.newCall (by omega) (by simp) ?_⟩
    simpa [hif, hnil] using hclause
  next test value rest _ =>
    obtain ⟨htest, h⟩ := List.forall_mem_cons.mp h
    obtain ⟨hvalue, hrest⟩ := List.forall_mem_cons.mp h
    have hcond : p (n + 1) (newSym n "cond") := hp.newLeaf hn (by omega)
    have hothers := hp.newCall (n := n + 3) (k := n + 1) (by omega) (by omega)
      (List.forall_mem_cons.mpr ⟨hcond, fun o ho => hp.mono (by omega) (hrest o ho)⟩)
    have hif : p (n + 3) (newSym (n + 2) "if") := hp.newLeaf (by omega) (by omega)
    have htest' : p (n + 3) test := hp.mono (by omega) htest
    have hvalue' : p (n + 3) value := hp.mono (by omega) hvalue
    refine gives_ok ⟨by simp, hp.newCall (by omega) (by simp) ?_⟩
    simpa using ⟨hif, htest', hvalue', hothers⟩

/-- What a call holds hands the property on to what the call stands for. -/
theorem rewrite (hp : HandedOn start p) (hn : start ≤ n) (h : ∀ o ∈ args, p n o)
    (s : Shorthand) : Gives (Makes p n) (rewrite s n args) := by
  cases s with
  | function flag => exact hp.rewriteFunction hn h flag
  | when negated => exact hp.rewriteWhen hn h negated
  | thread => exact hp.rewriteThread hn h
  | cond => exact hp.rewriteCond hn h

/-- An object that takes the place of others has the property that is handed on. -/
theorem rewrite? (hp : HandedOn start p) (hn : start ≤ n) {items : List Object}
    (h : ∀ o ∈ items, p n o) {o : Object} {n' : Nat}
    (hr : rewrite? n items = .ok (some (o, n'))) : Makes p n (o, n') := by
  unfold Object.rewrite? at hr
  split at hr
  next s _ =>
    have hone := hp.rewrite hn (fun o ho => h o (List.mem_of_mem_tail ho)) s
    cases hs : Object.rewrite s n items.tail with
    | error e =>
      rw [hs] at hr
      cases hr
    | ok made =>
      rw [hs] at hr
      cases hr
      exact hone _ hs
  · cases hr

/-- The same of objects in a row. -/
def AllMakes (p : Nat → Object → Prop) (n : Nat) (made : List Object × Nat) : Prop :=
  n ≤ made.2 ∧ ∀ o ∈ made.1, p made.2 o

theorem rebuilt (hp : HandedOn start p) (hn : start ≤ n) {kind : Kind} {k : Nat}
    {items : List Object} {m : Metadata} (ho : p n (.collection kind k items m))
    {expanded : List Object × Nat} (h : AllMakes p n expanded) :
    Makes p n (rebuilt kind k items m expanded) := by
  obtain ⟨hle, hitems⟩ := h
  unfold Object.rebuilt
  split
  · exact ⟨hle, hp.mono hle ho⟩
  · exact ⟨Nat.le_succ_of_le hle, hp.collection kind m (Nat.le_trans hn hle) hitems⟩

/-- Expansion hands the property on, and gives away numbers that follow each other. -/
theorem outcomes (hp : HandedOn start p) :
    Outcomes (fun n o r => start ≤ n → p n o → Gives (Makes p n) r)
      (fun n l r => start ≤ n → (∀ o ∈ l, p n o) → Gives (AllMakes p n) r) where
  leaf n k f h hn ho := gives_ok ⟨Nat.le_refl n, ho⟩
  quoted n k items m hq hn ho := gives_ok ⟨Nat.le_refl n, ho⟩
  malformed n k items m e hq hr hn ho := gives_error e
  rewritten n k items m o n' hq hr ih hn ho := by
    intro made hexpand
    obtain ⟨hle, hmade⟩ := hp.rewrite? hn (hp.items ho) hr
    obtain ⟨hle', hresult⟩ := ih (Nat.le_trans hn hle) hmade made hexpand
    exact ⟨Nat.le_trans hle hle', hresult⟩
  kept n k items m r hq hr ih hn ho :=
    gives_map (ih hn (hp.items ho)) fun expanded h => hp.rebuilt hn ho h
  vector n k items m r ih hn ho :=
    gives_map (ih hn (hp.items ho)) fun expanded h => hp.rebuilt hn ho h
  nil n hn _ := gives_ok ⟨Nat.le_refl n, fun o ho => absurd ho List.not_mem_nil⟩
  failed n o rest e ih hn h := gives_error e
  cons n o rest o' n' r ih ihr hn h := by
    obtain ⟨ho, hrest⟩ := List.forall_mem_cons.mp h
    obtain ⟨hle, hfirst⟩ := ih hn ho (o', n') rfl
    refine gives_map (ihr (Nat.le_trans hn hle) fun o ho => hp.mono hle (hrest o ho)) ?_
    rintro others ⟨hle', hothers⟩
    exact ⟨Nat.le_trans hle hle', List.forall_mem_cons.mpr ⟨hp.mono hle' hfirst, hothers⟩⟩

/-- What an object hands on to its expansion. -/
theorem expand (hp : HandedOn start p) (hn : start ≤ n) {o : Object} (ho : p n o) :
    Gives (Makes p n) (expand n o) :=
  hp.outcomes.expand n o hn ho

end HandedOn

/-! ### What is shared -/

/-- An object takes another one's place, and shares with it what no call of a shorthand was found
in: it is the very same object, or a new list or vector around such items, unless the other one is
such a call itself. -/
inductive Shares : Object → Object → Prop where
  | same (o : Object) : Shares o o
  | called {o r : Object} (h : o.form.CallsShorthand) : Shares o r
  | rebuilt {kind : Kind} {k k' : Nat} {items items' : List Object} {m : Metadata}
    (h : ¬ (kind.form (forms items) m).Expanded) (hitems : List.Forall₂ Shares items items') :
    Shares (.collection kind k items m) (.collection kind k' items' m)

/-- Where no call of a shorthand was found, the object is the same. -/
theorem Shares.eq_of_expanded {o r : Object} (h : o.Shares r) (ho : o.form.Expanded) : r = o := by
  cases h with
  | same => rfl
  | called h => exact absurd h ho.self
  | rebuilt h => exact absurd ho h

/-! ### What the routine tells -/

/-- The object that takes the place of another one is the expansion of its form, and is the same
object when no call of a shorthand was found. -/
structure Becomes (o : Object) (e : Expansion) (r : Object) : Prop where
  form : r.form = e.form o.form
  unchanged : e = .unchanged ↔ o.form.Expanded
  same : r.number = o.number ↔ o.form.Expanded
  shares : o.Shares r

/-- So are the objects in a row. -/
structure AllBecome (l : List Object) (l? : Option (List Form)) (l' : List Object) : Prop where
  row : forms l' = l?.getD (forms l)
  unchanged : l? = none ↔ ∀ f ∈ forms l, f.Expanded
  same : l'.map number = l.map number ↔ ∀ f ∈ forms l, f.Expanded
  shares : List.Forall₂ Shares l l'

/-- Both routines fail, or both end well, and no number is taken back. -/
inductive Agree {α β : Type} (P : β → α → Prop) (n : Nat) :
    Except SyntaxError (α × Nat) → Except SyntaxError β → Prop where
  | error (e : SyntaxError) : Agree P n (.error e) (.error e)
  | ok {a : α} {n' : Nat} {b : β} (hn : n ≤ n') (h : P b a) : Agree P n (.ok (a, n')) (.ok b)

section

variable {α β γ α' : Type} {P : β → α → Prop} {Q : γ → α' → Prop} {n : Nat}
  {y : Except SyntaxError (α × Nat)} {x : Except SyntaxError β}

/-- Where one side fails, the other fails alike. -/
theorem Agree.eq_error {e : SyntaxError} (h : Agree P n (.error e) x) : x = .error e := by
  cases h
  rfl

/-- Where one side gives an object, the other gives a form that fits it. -/
theorem Agree.exists_of_ok {a : α} {n' : Nat} (h : Agree P n (.ok (a, n')) x) :
    ∃ b, x = .ok b ∧ n ≤ n' ∧ P b a := by
  cases h with
  | ok hn h => exact ⟨_, rfl, hn, h⟩

/-- What is done with both results. -/
theorem Agree.map (h : Agree P n y x) {g : α × Nat → α' × Nat} {f : β → γ} {start : Nat}
    (hgf : ∀ a n' b, y = .ok (a, n') → n ≤ n' → P b a →
      Agree Q start (.ok (g (a, n'))) (.ok (f b))) : Agree Q start (y.map g) (x.map f) := by
  cases h with
  | error e => exact .error e
  | ok hn h => exact hgf _ _ _ rfl hn h

end

/-- An object whose form is expanded is handed back as it is. -/
theorem Becomes.refl {o : Object} (h : o.form.Expanded) : Becomes o .unchanged o where
  form := rfl
  unchanged := iff_of_true rfl h
  same := iff_of_true rfl h
  shares := .same o

/-- A call that was rewritten is another object. -/
theorem Becomes.of_called {o g r : Object} {e : Expansion} (h : Becomes g e r)
    (hcall : o.form.CallsShorthand) (hne : r.number ≠ o.number) :
    Becomes o (.changed (e.form g.form)) r where
  form := h.form
  unchanged := iff_of_false nofun fun ho => ho.self hcall
  same := iff_of_false hne fun ho => ho.self hcall
  shares := .called hcall

/-- A collection becomes another object when one of its items does. -/
theorem AllBecome.rebuilt {k n n' : Nat} {items items' : List Object} {m : Metadata}
    {l? : Option (List Form)} (h : AllBecome items l? items') (kind : Kind)
    (hitems : (kind.form (forms items) m).Expanded ↔ ∀ f ∈ forms items, f.Expanded)
    (hk : k < n) (hn : n ≤ n') :
    Agree (Becomes (.collection kind k items m)) n
      (.ok (Object.rebuilt kind k items m (items', n')))
      (.ok (Expansion.rebuild (fun items => kind.form items m) l?)) := by
  by_cases hall : ∀ f ∈ forms items, f.Expanded
  · obtain rfl := h.unchanged.mpr hall
    rw [Object.rebuilt, if_pos (h.same.mpr hall)]
    exact .ok hn (.refl (hitems.mpr hall))
  · obtain ⟨l, rfl⟩ := Option.ne_none_iff_exists'.mp (mt h.unchanged.mp hall)
    rw [Object.rebuilt, if_neg (mt h.same.mp hall)]
    have hnot := mt hitems.mp hall
    refine .ok (Nat.le_succ_of_le hn) ⟨?_, iff_of_false nofun hnot, iff_of_false ?_ hnot, ?_⟩
    · exact congrArg (kind.form · m) h.row
    · exact Nat.ne_of_gt (Nat.lt_of_lt_of_le hk hn)
    · exact .rebuilt hnot h.shares

theorem AllBecome.nil : AllBecome [] none [] :=
  ⟨rfl, by simp [forms], by simp [forms], .nil⟩

/-- The first item and the others are handed back each in their own way. -/
theorem Becomes.cons {o o' : Object} {e : Expansion} {rest rest' : List Object}
    {rest? : Option (List Form)} (ho : Becomes o e o') (hrest : AllBecome rest rest? rest') :
    AllBecome (o :: rest) (Expansion.consItems o.form (forms rest) e rest?) (o' :: rest') where
  row := by
    rw [forms, ho.form, hrest.row]
    cases e <;> cases rest? <;> rfl
  unchanged := by
    rw [forms, List.forall_mem_cons, ← ho.unchanged, ← hrest.unchanged]
    cases e <;> cases rest? <;> simp [Expansion.consItems]
  same := by
    rw [forms, List.forall_mem_cons, ← ho.same, ← hrest.same, List.map_cons, List.map_cons,
      List.cons.injEq]
  shares := .cons ho.shares hrest.shares

/-- A leaf has nothing to expand. -/
theorem expanded_leaf {f : Form} (h : f.IsLeaf) : f.Expanded := by
  have hclosed : ¬ f.OpenToExpansion := by
    cases f <;> first | exact h.elim | exact fun hopen => hopen
  refine Form.at_of_closed hclosed ?_
  cases f <;> first | exact h.elim | simp [Form.CallsShorthand, Form.head?, Form.items?]

theorem expand_form_leaf {f : Form} (h : f.IsLeaf) : f.expand = .ok .unchanged :=
  Form.expand_of_expanded (expanded_leaf h)

theorem expanded_quoted {items : List Form} {m : Metadata}
    (hq : Form.headOf items = some "quote") : (Form.list items m).Expanded :=
  Form.at_of_closed (fun hopen => hopen hq)
    (Form.not_callsShorthand_list.mpr (Form.shorthand?_of_quoted hq))

/-- A list that is kept is expanded if its items are. -/
theorem expanded_kept {items : List Form} {m : Metadata} (hq : Form.headOf items ≠ some "quote")
    (hr : Form.rewrite? (.list items m) = .ok none) :
    (Form.list items m).Expanded ↔ ∀ f ∈ items, f.Expanded := by
  have hnone : ¬ (Form.list items m).CallsShorthand :=
    Form.not_callsShorthand_list.mpr (Form.rewrite?_eq_none_iff.mp hr)
  exact Form.at_list.trans ((and_iff_right hnone).trans (forall_prop_of_true hq))

theorem expanded_vector {items : List Form} {m : Metadata} :
    (Form.vector items m).Expanded ↔ ∀ f ∈ items, f.Expanded :=
  Form.at_vector.trans (and_iff_right (by simp [Form.CallsShorthand, Form.head?, Form.items?]))

/-- What is rewritten calls a shorthand. -/
theorem callsShorthand_of_rewrite? {f g : Form} (h : f.rewrite? = .ok (some g)) :
    f.CallsShorthand := by
  obtain ⟨items, m, s, rfl, hs, -⟩ := Form.exists_of_rewrite? h
  exact Option.isSome_of_eq_some hs

/-- What a call stands for holds nothing but objects that were made before the call and objects that
are made for it, and so does its expansion. -/
theorem number_ne_of_rewritten {kind : Kind} {n n' n'' k : Nat} {items : List Object} {m : Metadata}
    {o r : Object} (hmade : Made n (.collection kind k items m))
    (hr : rewrite? n items = .ok (some (o, n'))) (hexpand : expand n' o = .ok (r, n'')) :
    r.number ≠ k := by
  cases hmade with
  | collection hk hitems =>
    -- the call is none of its items: they were made before it
    have hparts : ∀ c ∈ items, c.Avoids k := fun c hc => (hitems c hc).avoids (Nat.le_refl k)
    obtain ⟨hle, ho⟩ := (handedOn_avoids k).rewrite? hk hparts hr
    have hresult := (handedOn_avoids k).expand (Nat.le_trans hk hle) ho (r, n'') hexpand
    exact hresult.2.number_ne

/-- The expansion of an object agrees with that of its form, case by case. -/
theorem outcomes_agree :
    Outcomes (fun n o r => o.Made n → Agree (Becomes o) n r o.form.expand)
      (fun n l r => (∀ o ∈ l, o.Made n) → Agree (AllBecome l) n r (Form.expandEach (forms l))) where
  leaf n k f h hmade := by
    rw [form, expand_form_leaf h]
    exact .ok (Nat.le_refl n) (.refl (expanded_leaf h))
  quoted n k items m hq hmade := by
    rw [form, Kind.form, Form.expand_quoted m hq]
    exact .ok (Nat.le_refl n) (.refl (expanded_quoted hq))
  malformed n k items m e hq hr hmade := by
    have hform := form_rewrite? n items m
    rw [hr] at hform
    rw [form, Kind.form, Form.expand_malformed hq hform.symm]
    exact .error e
  rewritten n k items m o n' hq hr ih hmade := by
    have hform := form_of_rewrite? hr m
    obtain ⟨hle, hmade'⟩ := handedOn_made.rewrite? (Nat.zero_le n) (handedOn_made.items hmade) hr
    have hself : (expand n' o).map id = expand n' o := congrFun Except.map_id _
    rw [form, Kind.form, Form.expand_rewritten hq hform, ← hself]
    refine (ih hmade').map fun r n'' e hexpand hle' hr' => .ok (Nat.le_trans hle hle') ?_
    have hne := number_ne_of_rewritten hmade hr hexpand
    exact hr'.of_called (callsShorthand_of_rewrite? hform) hne
  kept n k items m r hq hr ih hmade := by
    have hform : Form.rewrite? (.list (forms items) m) = .ok none := by
      rw [← form_rewrite? n, hr]
      rfl
    cases hmade with
    | collection hk hitems =>
      rw [form, Kind.form, Form.expand_kept hq hform]
      refine (ih fun o ho => (hitems o ho).mono (Nat.le_of_lt hk)).map fun l n' l? _ hle h => ?_
      exact h.rebuilt .list (expanded_kept hq hform) hk hle
  vector n k items m r ih hmade := by
    cases hmade with
    | collection hk hitems =>
      rw [form, Kind.form, Form.expand_vector]
      refine (ih fun o ho => (hitems o ho).mono (Nat.le_of_lt hk)).map fun l n' l? _ hle h => ?_
      exact h.rebuilt .vector expanded_vector hk hle
  nil n _ := by
    rw [forms, Form.expandEach_nil]
    exact .ok (Nat.le_refl n) .nil
  failed n o rest e ih h := by
    have ho := (ih (h o List.mem_cons_self)).eq_error
    rw [forms, Form.expandEach_cons_error ho]
    exact .error e
  cons n o rest o' n' r ih ihr h := by
    obtain ⟨hmade, hrest⟩ := List.forall_mem_cons.mp h
    obtain ⟨e, he, hle, ho⟩ := (ih hmade).exists_of_ok
    rw [forms, Form.expandEach_cons_ok he]
    refine (ihr fun o ho => (hrest o ho).mono hle).map fun rest' n'' rest? _ hle' hothers => ?_
    exact .ok (Nat.le_trans hle hle') (ho.cons hothers)

/-- The transform routine hands back the very same object exactly when it finds no call of a
shorthand in it, and so it does with every part that it looks at; what it hands back is the
expansion of the form. -/
theorem expand_shares {o : Object} {n : Nat} {e : Expansion} (hmade : o.Made n)
    (h : o.form.expand = .ok e) :
    ∃ r n', o.expand n = .ok (r, n') ∧ r.form = e.form o.form ∧
      (r.number = o.number ↔ o.form.Expanded) ∧ (r = o ↔ o.form.Expanded) ∧
      (e = .unchanged ↔ o.form.Expanded) ∧ o.Shares r := by
  have hagree := outcomes_agree.expand n o hmade
  rw [h] at hagree
  generalize expand n o = result at hagree ⊢
  cases hagree with
  | ok hn hbecomes =>
    next r n' =>
    have heq : r = o ↔ o.form.Expanded := by
      refine ⟨fun hro => hbecomes.same.mp (congrArg number hro), fun hexpanded => ?_⟩
      exact hbecomes.shares.eq_of_expanded hexpanded
    exact ⟨r, n', rfl, hbecomes.form, hbecomes.same, heq, hbecomes.unchanged, hbecomes.shares⟩

/-- `[(f a) (-> x)]` -/
def pairObject : Object :=
  .collection .vector 6
    [newCall 2 [newSym 0 "f", newSym 1 "a"], newCall 5 [newSym 3 "->", newSym 4 "x"]] {}

/-- The first call is in both vectors, and the second one has become what it holds. -/
theorem expand_shares_pairObject :
    pairObject.Made 7 ∧ ∃ r n', pairObject.expand 7 = .ok (r, n') ∧
      r.form = .vector [Form.call [Form.sym "f", Form.sym "a"], Form.sym "x"] {} ∧
      r ≠ pairObject ∧ r.number ≠ pairObject.number ∧ pairObject.Shares r := by
  have hmade : pairObject.Made 7 := by
    have hfirst : Made 6 (newCall 2 [newSym 0 "f", newSym 1 "a"]) :=
      .collection (by decide) (by simpa using ⟨.leaf (by decide), .leaf (by decide)⟩)
    have hsecond : Made 6 (newCall 5 [newSym 3 "->", newSym 4 "x"]) :=
      .collection (by decide) (by simpa using ⟨.leaf (by decide), .leaf (by decide)⟩)
    exact .collection (by decide) (by simpa using ⟨hfirst, hsecond⟩)
  have hexpand : pairObject.form.expand =
      .ok (.changed (.vector [Form.call [Form.sym "f", Form.sym "a"], Form.sym "x"] {})) := by cbv
  obtain ⟨r, n', hr, hform, hsame, heq, hunchanged, hshares⟩ := expand_shares hmade hexpand
  have hnot := mt hunchanged.mpr (by simp)
  exact ⟨hmade, r, n', hr, hform, mt heq.mp hnot, mt hsame.mp hnot, hshares⟩

end Object

end CompileWatch
