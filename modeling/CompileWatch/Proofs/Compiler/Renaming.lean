import CompileWatch.Compiler.Compile
import CompileWatch.Proofs.Form.Parts

/-!
# Local names under other names

A local name may be any name. What a form says does not depend on which one it is, as long as the
occurrences that a binding binds change with it, and none that it does not bind.

- `Form.renameFree`: another name for the occurrences of a local name that are not bound anew.
- `Form.Renames`: another name for one binding, anywhere in a form, and for what it binds.
- `Form.Lacks`: a name that a form does not use.
- `Form.mentions_of_agree`: walks within scopes that differ in a name that the form lacks.
- `Form.mentions_renameFree`: walks within scopes that have one name in the place of the other.
-/

namespace CompileWatch

/-- The symbol with another name, when it is unqualified and has this one. -/
def Symbol.rename (old new : String) (s : Symbol) : Symbol :=
  if s.isQualified = false ∧ s.name = old then { s with name := new } else s

/-- A symbol with the old name gets the new one. -/
theorem Symbol.name_rename {old new : String} {s : Symbol}
    (hs : s.isQualified = false ∧ s.name = old) : (s.rename old new).name = new := by
  rw [rename, if_pos hs]

namespace Form

/-! ### Renaming -/

/-- A place where a name can be bound, with another name in it. -/
def renameBinding (old new : String) : Form → Form
  | .symbol s => .symbol (s.rename old new)
  | f => f

mutual

/-- A form in which the occurrences of a local name have another one. What is quoted is no
occurrence, nor is what a binding inside the form binds anew, nor the binding itself. Where a
function or a binding form is malformed nothing is bound. -/
def renameFree (old new : String) : Form → Form
  | .symbol s => .symbol (s.rename old new)
  | .list items m => .list (renameCall old new items) m
  | .vector items m => .vector (renameAll old new items) m
  | .map items => .map (renameAll old new items)
  | .set items => .set (renameAll old new items)
  | f => f

/-- The same for forms in a row. -/
def renameAll (old new : String) : List Form → List Form
  | [] => []
  | f :: rest => renameFree old new f :: renameAll old new rest

/-- The same for the items of a list. -/
def renameCall (old new : String) : List Form → List Form
  | [] => []
  | f :: rest =>
    match special? f with
    | some .quotation => f :: rest
    | some .function => f :: renameFunction old new rest
    | some .binding => f :: renameLet old new rest
    | _ => renameFree old new f :: renameAll old new rest

/-- The same for `name? [params] body*`. -/
def renameFunction (old new : String) : List Form → List Form
  | .symbol name :: .vector params m :: body =>
    .symbol name :: .vector params m ::
      (if old ∈ bindParameters [name.name] params then body else renameAll old new body)
  | .vector params m :: body =>
    .vector params m ::
      (if old ∈ bindParameters [] params then body else renameAll old new body)
  | f :: rest => renameFree old new f :: renameAll old new rest
  | [] => []

/-- The same for `[name value ...] body*`. -/
def renameLet (old new : String) : List Form → List Form
  | .vector bindings m :: body =>
    if bindings.length % 2 = 0 then
      .vector (renameValues old new bindings) m ::
        (if old ∈ bindPairs [] bindings then body else renameAll old new body)
    else .vector (renameAll old new bindings) m :: renameAll old new body
  | f :: rest => renameFree old new f :: renameAll old new rest
  | [] => []

/-- The same for the values among names and values in turn, up to where the name is bound anew. -/
def renameValues (old new : String) : List Form → List Form
  | name :: value :: rest =>
    name :: renameFree old new value ::
      (if old ∈ bindName [] name then rest else renameValues old new rest)
  | rest => rest

end

/-- One form comes from another by a new name for one binding, and for the occurrences that it
binds. -/
inductive Renames (old new : String) : Form → Form → Prop where
  /-- The name of a function, which is bound anew by a parameter of that name. -/
  | functionName {head : Form} {name : Symbol} {params body : List Form} {pm m : Metadata}
      (hhead : special? head = some .function)
      (hname : name.isQualified = false ∧ name.name = old) :
      Renames old new
        (.list (head :: .symbol name :: .vector params pm :: body) m)
        (.list (head :: .symbol (name.rename old new) :: .vector params pm ::
          (if old ∈ bindParameters [] params then body else renameAll old new body)) m)
  /-- All parameters of one name. -/
  | parameter {head : Form} {name : Option Symbol} {params body : List Form} {pm m : Metadata}
      (hhead : special? head = some .function)
      (hparam : ∃ s, .symbol s ∈ params ∧ s.isQualified = false ∧ s.name = old) :
      Renames old new
        (.list (head :: (name.toList.map .symbol ++ .vector params pm :: body)) m)
        (.list (head :: (name.toList.map .symbol ++
          .vector (params.map (renameBinding old new)) pm :: renameAll old new body)) m)
  /-- A name among names and values in turn, which is local to the later values and to the body. -/
  | letName {head : Form} {before after body : List Form} {name : Symbol} {value : Form}
      {bm m : Metadata} (hhead : special? head = some .binding) (hbefore : before.length % 2 = 0)
      (hname : name.isQualified = false ∧ name.name = old) :
      Renames old new
        (.list (head :: .vector (before ++ .symbol name :: value :: after) bm :: body) m)
        (.list (head :: .vector (before ++ .symbol (name.rename old new) :: value ::
            renameValues old new after) bm ::
          (if old ∈ bindPairs [] after then body else renameAll old new body)) m)
  /-- A binding inside an item of a list. -/
  | list {before after : List Form} {f g : Form} {m : Metadata} (h : Renames old new f g) :
      Renames old new (.list (before ++ f :: after) m) (.list (before ++ g :: after) m)
  /-- A binding inside an item of a vector. -/
  | vector {before after : List Form} {f g : Form} {m : Metadata} (h : Renames old new f g) :
      Renames old new (.vector (before ++ f :: after) m) (.vector (before ++ g :: after) m)
  /-- A binding inside a key or a value of a map. -/
  | map {before after : List Form} {f g : Form} (h : Renames old new f g) :
      Renames old new (.map (before ++ f :: after)) (.map (before ++ g :: after))
  /-- A binding inside an item of a set. -/
  | set {before after : List Form} {f g : Form} (h : Renames old new f g) :
      Renames old new (.set (before ++ f :: after)) (.set (before ++ g :: after))

/-- No unqualified symbol anywhere in a form has this name. -/
def Lacks (name : String) (f : Form) : Prop :=
  f.Everywhere fun g => ∀ s, g = .symbol s → s.isQualified = false → s.name ≠ name

/-- A symbol lacks a name unless it is that name, without a namespace. -/
theorem lacks_symbol {name : String} {s : Symbol} :
    (Form.symbol s).Lacks name ↔ (s.isQualified = false → s.name ≠ name) := by
  refine ⟨fun h => h.self s rfl, fun h => everywhere_of_leaf rfl fun t ht => ?_⟩
  cases ht
  exact h

/-- A list lacks a name if its items do. -/
theorem lacks_list {name : String} {items : List Form} {m : Metadata} :
    (Form.list items m).Lacks name ↔ ∀ f ∈ items, f.Lacks name :=
  everywhere_list.trans (and_iff_right fun _ h => nomatch h)

theorem lacks_vector {name : String} {items : List Form} {m : Metadata} :
    (Form.vector items m).Lacks name ↔ ∀ f ∈ items, f.Lacks name :=
  everywhere_vector.trans (and_iff_right fun _ h => nomatch h)

/-- The parts of a form lack what the form lacks. -/
theorem Lacks.children {name : String} {f : Form} (h : f.Lacks name) :
    ∀ c ∈ f.children, c.Lacks name := (everywhere_iff.mp h).2

/-! ### Scopes -/

/-- Two scopes that differ in one name at most. -/
def AgreeBut (name : String) (S T : List String) : Prop := ∀ n, n ≠ name → (n ∈ S ↔ n ∈ T)

/-- Two scopes of which the second has a new name where the first has an old one. Neither name is
that of a special operator, which would be no local name in the first place of a list. -/
structure RenamesScope (old new : String) (S T : List String) : Prop where
  old_ordinary : SpecialForm.ofName? old = none
  new_ordinary : SpecialForm.ofName? new = none
  old_mem : old ∈ S
  new_mem : new ∈ T
  others : ∀ n, n ≠ old → n ≠ new → (n ∈ S ↔ n ∈ T)

section

variable {old new : String} {S T : List String}

/-- Scopes that agree do so after further bindings. -/
theorem AgreeBut.append (h : AgreeBut new S T) (B : List String) :
    AgreeBut new (B ++ S) (B ++ T) := by
  intro n hn
  rw [List.mem_append, List.mem_append, h n hn]

/-- Scopes of which one renames the other do so after further bindings, if these are the same. -/
theorem RenamesScope.append (h : RenamesScope old new S T) (B : List String) :
    RenamesScope old new (B ++ S) (B ++ T) where
  old_ordinary := h.old_ordinary
  new_ordinary := h.new_ordinary
  old_mem := List.mem_append_right B h.old_mem
  new_mem := List.mem_append_right B h.new_mem
  others n ho hn := by rw [List.mem_append, List.mem_append, h.others n ho hn]

/-- What is bound anew is bound in both. -/
theorem RenamesScope.agree_append (h : RenamesScope old new S T) {B : List String} (hB : old ∈ B) :
    AgreeBut new (B ++ S) (B ++ T) := by
  intro n hn
  by_cases ho : n = old
  · subst ho
    exact ⟨fun _ => List.mem_append_left T hB, fun _ => List.mem_append_left S hB⟩
  · exact (h.append B).others n ho hn

/-- What a form binds goes in front of what was bound before. -/
theorem bindName_append (B S : List String) (f : Form) :
    bindName (B ++ S) f = bindName B f ++ S := by
  cases f <;> rfl

theorem bindParameters_append (B S : List String) (params : List Form) :
    bindParameters (B ++ S) params = bindParameters B params ++ S := by
  unfold bindParameters
  induction params generalizing B with
  | nil => rfl
  | cons f rest ih => rw [List.foldl_cons, List.foldl_cons, bindName_append, ih]

/-- The names that a let binds go in front of what was bound before. -/
theorem bindPairs_append (B S : List String) (bindings : List Form) :
    bindPairs (B ++ S) bindings = bindPairs B bindings ++ S := by
  fun_induction bindPairs B bindings with
  | case1 B name value rest ih => rw [bindPairs, bindName_append, ih]
  | case2 B l hshort =>
    rw [bindPairs]
    exact hshort

/-- What a binding adds to a scope. -/
theorem bindName_eq (S : List String) (f : Form) : bindName S f = bindName [] f ++ S :=
  bindName_append [] S f

theorem bindParameters_eq (S : List String) (params : List Form) :
    bindParameters S params = bindParameters [] params ++ S := bindParameters_append [] S params

theorem bindPairs_eq (S : List String) (bindings : List Form) :
    bindPairs S bindings = bindPairs [] bindings ++ S := bindPairs_append [] S bindings


/-! ### Walks within two scopes -/

/-- A symbol that is not the new name is local in both scopes or in neither. -/
theorem isLocal_of_agree (h : AgreeBut new S T) {s : Symbol}
    (hs : s.isQualified = false → s.name ≠ new) : isLocal S s = isLocal T s := by
  unfold isLocal
  cases hq : s.isQualified with
  | true => rfl
  | false =>
    have hmem : S.contains s.name = T.contains s.name := by
      rw [Bool.eq_iff_iff, List.contains_iff_mem, List.contains_iff_mem]
      exact h s.name (hs hq)
    rw [hmem]

mutual

/-- A walk over a form that lacks a name does not depend on whether the name is local. -/
theorem mentions_of_agree {S T : List String} (h : AgreeBut new S T) (f : Form)
    (hf : f.Lacks new) : f.mentions S = f.mentions T := by
  have hparts := hf.children
  cases f with
  | symbol s => rw [mentions, mentions, isLocal_of_agree h (lacks_symbol.mp hf)]
  | list items m => exact mentionsCall_of_agree h items hparts
  | vector items m => exact mentionsAll_of_agree h items hparts
  | map items => exact mentionsAll_of_agree h items hparts
  | set items => exact mentionsAll_of_agree h items hparts
  | _ => rfl

/-- Forms in a row without the new name mention the same under scopes that agree but for it. -/
theorem mentionsAll_of_agree {S T : List String} (h : AgreeBut new S T) (l : List Form)
    (hl : ∀ f ∈ l, f.Lacks new) : mentionsAll S l = mentionsAll T l := by
  cases l with
  | nil => rfl
  | cons f rest =>
    obtain ⟨hf, hrest⟩ := List.forall_mem_cons.mp hl
    rw [mentionsAll, mentionsAll, mentions_of_agree h f hf, mentionsAll_of_agree h rest hrest]

theorem mentionsCall_of_agree {S T : List String} (h : AgreeBut new S T) (items : List Form)
    (hl : ∀ f ∈ items, f.Lacks new) : mentionsCall S items = mentionsCall T items := by
  cases items with
  | nil => rfl
  | cons f rest =>
    obtain ⟨hf, hrest⟩ := List.forall_mem_cons.mp hl
    rw [mentionsCall, mentionsCall, mentionsFunction_of_agree h rest hrest,
      mentionsLet_of_agree h rest hrest, mentions_of_agree h f hf,
      mentionsAll_of_agree h rest hrest]

theorem mentionsFunction_of_agree {S T : List String} (h : AgreeBut new S T) (items : List Form)
    (hl : ∀ f ∈ items, f.Lacks new) : mentionsFunction S items = mentionsFunction T items := by
  unfold mentionsFunction
  split
  next name params m body =>
    have hbody : ∀ f ∈ body, f.Lacks new := fun f hf => hl f (by simp [hf])
    rw [bindParameters_eq, bindParameters_eq (name.name :: T)]
    exact mentionsAll_of_agree ((h.append [name.name]).append _) body hbody
  next params m body =>
    have hbody : ∀ f ∈ body, f.Lacks new := fun f hf => hl f (by simp [hf])
    rw [bindParameters_eq, bindParameters_eq T]
    exact mentionsAll_of_agree (h.append _) body hbody
  next => rfl

theorem mentionsLet_of_agree {S T : List String} (h : AgreeBut new S T) (items : List Form)
    (hl : ∀ f ∈ items, f.Lacks new) : mentionsLet S items = mentionsLet T items := by
  unfold mentionsLet
  split
  next bindings m body =>
    obtain ⟨hvector, hbody⟩ := List.forall_mem_cons.mp hl
    rw [mentionsBindings_of_agree h bindings hvector.children, bindPairs_eq, bindPairs_eq T,
      mentionsAll_of_agree (h.append _) body hbody]
  next => rfl

theorem mentionsBindings_of_agree {S T : List String} (h : AgreeBut new S T) (bindings : List Form)
    (hl : ∀ f ∈ bindings, f.Lacks new) :
    mentionsBindings S bindings = mentionsBindings T bindings := by
  unfold mentionsBindings
  split
  next name value rest =>
    have hvalue : value.Lacks new := hl value (by simp)
    have hrest : ∀ f ∈ rest, f.Lacks new := fun f hf => hl f (by simp [hf])
    rw [mentions_of_agree h value hvalue, bindName_eq, bindName_eq T,
      mentionsBindings_of_agree (h.append _) rest hrest]
  next => rfl

end

/-! ### The walk over a form with another name in it -/

/-- A symbol without a namespace is a special form by its name. -/
theorem special?_symbol {s : Symbol} (hs : s.isQualified = false) :
    special? (.symbol s) = SpecialForm.ofName? s.name := by
  have hhead : headOf [.symbol s] = some s.name := if_neg (Bool.not_eq_true _ ▸ hs)
  rw [special?, hhead, Option.bind_some]

/-- Renaming a local name makes no special form and unmakes none. -/
theorem special?_renameFree (h : RenamesScope old new S T) (f : Form) :
    special? (renameFree old new f) = special? f := by
  cases f with
  | symbol s =>
    unfold renameFree Symbol.rename
    split
    next hs =>
      obtain ⟨hq, rfl⟩ := hs
      have hren : ({ s with name := new } : Symbol).isQualified = false := hq
      rw [special?_symbol hren, special?_symbol hq, h.new_ordinary, h.old_ordinary]
    next => rfl
  | _ => rfl

/-- An occurrence is local under either name, and another symbol is the same in both scopes. -/
theorem mentions_rename (h : RenamesScope old new S T) {s : Symbol}
    (hs : s.isQualified = false → s.name ≠ new) :
    mentions T (.symbol (s.rename old new)) = mentions S (.symbol s) := by
  by_cases hren : s.isQualified = false ∧ s.name = old
  · have hS : isLocal S s = true := by simp [isLocal, hren, h.old_mem]
    have hT : isLocal T { s with name := new } = true := by
      have hq : ({ s with name := new } : Symbol).isQualified = false := hren.1
      simp [isLocal, hq, h.new_mem]
    rw [Symbol.rename, if_pos hren, mentions, mentions, if_pos hS, if_pos hT]
  · rw [Symbol.rename, if_neg hren, mentions, mentions]
    cases hq : s.isQualified with
    | true => simp [isLocal, hq]
    | false =>
      have hold : s.name ≠ old := fun he => hren ⟨hq, he⟩
      have hmem : T.contains s.name = S.contains s.name := by
        rw [Bool.eq_iff_iff, List.contains_iff_mem, List.contains_iff_mem]
        exact (h.others s.name hold (hs hq)).symm
      unfold isLocal
      rw [hmem]

theorem length_renameAll (l : List Form) : (renameAll old new l).length = l.length := by
  induction l with
  | nil => rfl
  | cons f rest ih => rw [renameAll, List.length_cons, List.length_cons, ih]

theorem length_renameValues (l : List Form) : (renameValues old new l).length = l.length := by
  match l with
  | [] => rfl
  | [name] => rfl
  | name :: value :: rest =>
    rw [renameValues]
    split
    next => rfl
    next => simp only [List.length_cons, length_renameValues rest]

/-- The names among names and values in turn stay as they are. -/
theorem bindPairs_renameValues (S : List String) (l : List Form) :
    bindPairs S (renameValues old new l) = bindPairs S l := by
  match l with
  | [] => rfl
  | [name] => rfl
  | name :: value :: rest =>
    rw [renameValues]
    split
    next => rfl
    next => rw [bindPairs, bindPairs, bindPairs_renameValues _ rest]

/-- The body of a function or of a binding form, where the name is bound anew or has another one. -/
theorem mentionsAll_body (h : RenamesScope old new S T) (B : List String) {body : List Form}
    (hbody : ∀ f ∈ body, f.Lacks new)
    (hrenamed : ∀ {S T}, RenamesScope old new S T →
      mentionsAll T (renameAll old new body) = mentionsAll S body) :
    mentionsAll (B ++ T) (if old ∈ B then body else renameAll old new body) =
      mentionsAll (B ++ S) body := by
  split
  next hB => exact (mentionsAll_of_agree (h.agree_append hB) body hbody).symm
  next => exact hrenamed (h.append B)

/-- A function without a parameter vector still has none. -/
theorem mentionsFunction_renameFree {f : Form} {rest : List Form}
    (hnamed : ∀ name params m body, f = .symbol name → rest = .vector params m :: body → False)
    (hplain : ∀ params m, f = .vector params m → False) :
    mentionsFunction T (renameFree old new f :: renameAll old new rest) =
      mentionsFunction S (f :: rest) := by
  cases f with
  | symbol name =>
    cases rest with
    | nil => rfl
    | cons g body =>
      cases g with
      | vector params m => exact (hnamed name params m body rfl rfl).elim
      | _ => rfl
  | vector params m => exact (hplain params m rfl).elim
  | _ => rfl

mutual

/-- The walk over a form with another name for a local one, where that is the local one. -/
theorem mentions_renameFree {S T : List String} (h : RenamesScope old new S T) (f : Form)
    (hf : f.Lacks new) : mentions T (renameFree old new f) = mentions S f := by
  have hparts := hf.children
  cases f with
  | symbol s => exact mentions_rename h (lacks_symbol.mp hf)
  | list items m => exact mentionsCall_renameCall h items hparts
  | vector items m => exact mentionsAll_renameAll h items hparts
  | map items => exact mentionsAll_renameAll h items hparts
  | set items => exact mentionsAll_renameAll h items hparts
  | _ => rfl

/-- Forms in a row mention the same after their free names were renamed along with the scope. -/
theorem mentionsAll_renameAll {S T : List String} (h : RenamesScope old new S T) (l : List Form)
    (hl : ∀ f ∈ l, f.Lacks new) : mentionsAll T (renameAll old new l) = mentionsAll S l := by
  cases l with
  | nil => rfl
  | cons f rest =>
    obtain ⟨hf, hrest⟩ := List.forall_mem_cons.mp hl
    rw [renameAll, mentionsAll, mentionsAll, mentions_renameFree h f hf,
      mentionsAll_renameAll h rest hrest]

theorem mentionsCall_renameCall {S T : List String} (h : RenamesScope old new S T)
    (items : List Form) (hl : ∀ f ∈ items, f.Lacks new) :
    mentionsCall T (renameCall old new items) = mentionsCall S items := by
  cases items with
  | nil => rfl
  | cons f rest =>
    obtain ⟨hf, hrest⟩ := List.forall_mem_cons.mp hl
    unfold renameCall
    split
    next hop => rw [mentionsCall, mentionsCall, hop]
    next hop =>
      rw [mentionsCall, mentionsCall, hop]
      exact mentionsFunction_renameFunction h rest hrest
    next hop =>
      rw [mentionsCall, mentionsCall, hop]
      exact mentionsLet_renameLet h rest hrest
    next hfunction hbinding hquotation =>
      rw [mentionsCall, mentionsCall, special?_renameFree h, mentions_renameFree h f hf,
        mentionsAll_renameAll h rest hrest]
      split <;> first | rfl | contradiction

theorem mentionsFunction_renameFunction {S T : List String} (h : RenamesScope old new S T)
    (items : List Form) (hl : ∀ f ∈ items, f.Lacks new) :
    mentionsFunction T (renameFunction old new items) = mentionsFunction S items := by
  unfold renameFunction
  split
  next name params m body =>
    have hbody : ∀ f ∈ body, f.Lacks new := fun f hf => hl f (by simp [hf])
    have hscope (U : List String) : bindParameters (name.name :: U) params =
        bindParameters [name.name] params ++ U := bindParameters_append [name.name] U params
    rw [mentionsFunction, mentionsFunction, hscope T, hscope S]
    exact mentionsAll_body h _ hbody fun h => mentionsAll_renameAll h body hbody
  next params m body =>
    have hbody : ∀ f ∈ body, f.Lacks new := fun f hf => hl f (by simp [hf])
    rw [mentionsFunction, mentionsFunction, bindParameters_eq T, bindParameters_eq S]
    exact mentionsAll_body h _ hbody fun h => mentionsAll_renameAll h body hbody
  next f rest hnamed hplain =>
    exact mentionsFunction_renameFree hnamed hplain
  next => rfl

theorem mentionsLet_renameLet {S T : List String} (h : RenamesScope old new S T)
    (items : List Form) (hl : ∀ f ∈ items, f.Lacks new) :
    mentionsLet T (renameLet old new items) = mentionsLet S items := by
  unfold renameLet
  split
  next bindings m body =>
    obtain ⟨hvector, hbody⟩ := List.forall_mem_cons.mp hl
    split
    next heven =>
      rw [mentionsLet, mentionsLet, length_renameValues, if_pos heven, if_pos heven,
        mentionsBindings_renameValues h bindings hvector.children, bindPairs_renameValues,
        bindPairs_eq T, bindPairs_eq S,
        mentionsAll_body h _ hbody fun h => mentionsAll_renameAll h body hbody]
    next hodd => rw [mentionsLet, mentionsLet, length_renameAll, if_neg hodd, if_neg hodd]
  next f rest hplain =>
    cases f with
    | vector bindings m => exact (hplain bindings m rfl).elim
    | _ => rfl
  next => rfl

/-- Bindings mention the same names once their values are renamed. -/
theorem mentionsBindings_renameValues {S T : List String} (h : RenamesScope old new S T)
    (bindings : List Form) (hl : ∀ f ∈ bindings, f.Lacks new) :
    mentionsBindings T (renameValues old new bindings) = mentionsBindings S bindings := by
  unfold renameValues
  split
  next name value rest =>
    have hvalue : value.Lacks new := hl value (by simp)
    have hrest : ∀ f ∈ rest, f.Lacks new := fun f hf => hl f (by simp [hf])
    rw [mentionsBindings, mentionsBindings, mentions_renameFree h value hvalue, bindName_eq T,
      bindName_eq S]
    split
    next hbound => rw [mentionsBindings_of_agree (h.agree_append hbound) rest hrest]
    next => rw [mentionsBindings_renameValues (h.append _) rest hrest]
  next l hshort =>
    unfold mentionsBindings
    split
    next => exact (hshort _ _ _ rfl).elim
    next => rfl

end

end

end Form

end CompileWatch
