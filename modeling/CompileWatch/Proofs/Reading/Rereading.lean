import CompileWatch.Proofs.Reading.Atoms

/-!
# Forms read back

What was read from a source, and is written on one line with single spaces between the forms, is
read again as the same forms, as long as no float is among them and every string is plain. Metadata
is not written, so it is not the same. A string that is not plain is never read as another one:
reading fails at the escape.

- `Form.erase`: a form apart from its metadata.
- `Rereads`, `Fails`: characters that are read as a form, and those that are read as none, in front
  of whatever can follow; `RereadsAll`, `FailsAll` for forms in a row.
- `rereadsAll_cons`, `rereads_bracket`: forms one after another, and in a bracket.
- `Form.rereads_chars`, `Form.fails_chars`: what is written of a form, by induction on its parts.
- `readAll_texts`: the forms of a source.
-/

namespace CompileWatch

namespace Form

/-! ### Metadata -/

mutual

/-- A form with all metadata in it left out. -/
def erase : Form → Form
  | .symbol s => .symbol { s with metadata := {} }
  | .list items _ => .list (eraseAll items) {}
  | .vector items _ => .vector (eraseAll items) {}
  | .map items => .map (eraseAll items)
  | .set items => .set (eraseAll items)
  | f => f

/-- Forms with all metadata in them left out. -/
def eraseAll : List Form → List Form
  | [] => []
  | f :: rest => erase f :: eraseAll rest

end

/-- Lines are erased form by form. -/
theorem eraseAll_eq_map (l : List Form) : eraseAll l = l.map erase := by
  induction l with
  | nil => rfl
  | cons f rest ih => rw [eraseAll, List.map_cons, ih]

/-- Forms that are equal but for their lines are equally many. -/
theorem length_eq_of_eraseAll {l l' : List Form} (h : eraseAll l = eraseAll l') :
    l.length = l'.length := by
  simpa [eraseAll_eq_map] using congrArg List.length h

end Form

/-! ### One form, and forms in a row -/

/-- A pile that puts a form to those that it has. -/
def Pile.Gathers (pile : List Form → Pile) : Prop :=
  ∀ f acc, (pile acc).push (.atom f) = .ok (pile (f :: acc))

/-- These characters are read as a form, apart from its metadata, in front of whatever can
follow it. -/
def Rereads (cs : List Char) (f : Form) : Prop :=
  ∀ line pile rest, EndsName rest → ∃ line' g, g.erase = f.erase ∧
    (Reader.mk line .idle pile).readRest (cs ++ rest) = Reader.readAfter line' pile g rest

/-- These characters are read as a row of forms. -/
def RereadsAll (cs : List Char) (fs : List Form) : Prop :=
  ∀ pile, Pile.Gathers pile → ∀ line acc rest, EndsName rest →
    ∃ line' gs, Form.eraseAll gs = Form.eraseAll fs ∧
      (Reader.mk line .idle (pile acc)).readRest (cs ++ rest) =
        (Reader.mk line' .idle (pile (gs.reverse ++ acc))).readRest rest

/-- In these characters there is a token that is no form. -/
def Fails (cs : List Char) : Prop :=
  ∀ line pile rest, EndsName rest →
    IsInvalid ((Reader.mk line .idle pile).readRest (cs ++ rest))

/-- In these characters of a row of forms there is a token that is no form. -/
def FailsAll (cs : List Char) : Prop :=
  ∀ pile, Pile.Gathers pile → ∀ line acc rest, EndsName rest →
    IsInvalid ((Reader.mk line .idle (pile acc)).readRest (cs ++ rest))

section

variable {cs ds : List Char} {f : Form} {fs : List Form}

/-- A space ends a name. -/
theorem endsName_space (rest : List Char) : EndsName (' ' :: rest) := by
  rintro _ ⟨⟩
  decide

/-- The form goes to the others. -/
theorem readAfter_of_gathers {pile : List Form → Pile} (hpile : Pile.Gathers pile) (line : Nat)
    (f : Form) (acc : List Form) (rest : List Char) :
    Reader.readAfter line (pile acc) f rest =
      (Reader.mk line .idle (pile (f :: acc))).readRest rest := by
  rw [Reader.readAfter, hpile]
  rfl

theorem readRest_space (line : Nat) (pile : Pile) (rest : List Char) :
    (Reader.mk line .idle pile).readRest (' ' :: rest) =
      (Reader.mk line .idle pile).readRest rest := rfl

theorem rereadsAll_nil : RereadsAll [] [] := fun _ _ line _ _ _ => ⟨line, [], rfl, rfl⟩

/-- One form is a row of forms. -/
theorem rereadsAll_singleton (h : Rereads cs f) : RereadsAll cs [f] := by
  intro pile hpile line acc rest hrest
  obtain ⟨line', g, hg, hread⟩ := h line (pile acc) rest hrest
  refine ⟨line', [g], congrArg (fun g => [g]) hg, ?_⟩
  rw [hread, readAfter_of_gathers hpile]
  rfl

/-- Forms are read one after another when there is a space between them. -/
theorem rereadsAll_cons (h : Rereads cs f) (hrest : RereadsAll ds fs) :
    RereadsAll (cs ++ ' ' :: ds) (f :: fs) := by
  intro pile hpile line acc rest hends
  obtain ⟨between, g, hg, hread⟩ := h line (pile acc) (' ' :: (ds ++ rest)) (endsName_space _)
  obtain ⟨line', gs, hgs, hreadRest⟩ := hrest pile hpile between (g :: acc) rest hends
  refine ⟨line', g :: gs, by rw [Form.eraseAll, hg, hgs, Form.eraseAll], ?_⟩
  rw [List.append_assoc, List.cons_append, hread, readAfter_of_gathers hpile, readRest_space,
    hreadRest, List.reverse_cons, List.append_assoc]
  rfl

theorem failsAll_singleton (h : Fails cs) : FailsAll cs :=
  fun pile _ line acc rest hrest => h line (pile acc) rest hrest

/-- What fails at its first form fails. -/
theorem failsAll_head (h : Fails cs) (ds : List Char) : FailsAll (cs ++ ' ' :: ds) := by
  intro pile _ line acc rest _
  rw [List.append_assoc]
  exact h line (pile acc) _ (endsName_space _)

/-- What fails behind a form that is read fails too. -/
theorem failsAll_tail (h : Rereads cs f) (hrest : FailsAll ds) : FailsAll (cs ++ ' ' :: ds) := by
  intro pile hpile line acc rest hends
  obtain ⟨between, g, hg, hread⟩ := h line (pile acc) (' ' :: (ds ++ rest)) (endsName_space _)
  rw [List.append_assoc, List.cons_append, hread, readAfter_of_gathers hpile, readRest_space]
  exact hrest pile hpile between (g :: acc) rest hends

end

/-! ### Brackets -/

/-- The characters that open a bracket. -/
def Bracket.opener : Bracket → List Char
  | .round => ['(']
  | .square => ['[']
  | .curly => ['\x7b']
  | .hashCurly => ['#', '\x7b']

/-- An open bracket gathers the forms that are delivered. -/
theorem gathers_bracket (b : Bracket) (start : Nat) (frames : List Frame) (forms : List Form) :
    Pile.Gathers fun acc => ⟨.bracket b start acc :: frames, forms⟩ := fun _ _ => rfl

theorem run_opener (b : Bracket) (line : Nat) (pile : Pile) :
    (Reader.mk line .idle pile).run b.opener =
      .ok ⟨line, .idle, ⟨.bracket b line [] :: pile.frames, pile.forms⟩⟩ := by
  cases b <;> rfl

theorem endsName_closer (b : Bracket) (rest : List Char) : EndsName (b.closer :: rest) := by
  rintro _ ⟨⟩
  cases b <;> decide

/-- A closed bracket is a finished form. -/
theorem readRest_closer (b : Bracket) {start line : Nat} {acc : List Form} {f : Form}
    (hf : Frame.close b start line acc.reverse = .ok f) (frames : List Frame) (forms : List Form)
    (rest : List Char) :
    (Reader.mk line .idle ⟨.bracket b start acc :: frames, forms⟩).readRest (b.closer :: rest) =
      Reader.readAfter line ⟨frames, forms⟩ f rest := by
  have hscanner : Scanner.idle.step line b.closer = .ok ([.closing b.closer line], .idle) := by
    cases b <;> rfl
  have hline : b.closer ≠ '\n' := by cases b <;> decide
  have hpush : Pile.push ⟨.bracket b start acc :: frames, forms⟩ (.closing b.closer line) =
      Pile.push ⟨frames, forms⟩ (.atom f) := by
    simp only [Pile.push, if_true, hf]
    rfl
  simp only [Reader.readRest_cons, Reader.step, hscanner]
  show [Token.closing b.closer line].foldlM Pile.push _ >>= _ >>= _ = _
  rw [List.foldlM_cons, hpush, if_neg hline, bind_assoc, bind_assoc]
  rfl

section

variable {b : Bracket} {cs : List Char} {f : Form} {items : List Form}

/-- What stands in brackets is read back if its items are. -/
theorem rereads_bracket (h : RereadsAll cs items)
    (hclose : ∀ start line gs, Form.eraseAll gs = Form.eraseAll items →
      ∃ g, g.erase = f.erase ∧ Frame.close b start line gs = .ok g) :
    Rereads (b.opener ++ cs ++ [b.closer]) f := by
  intro line pile rest hrest
  obtain ⟨line', gs, hgs, hread⟩ := h _ (gathers_bracket b line pile.frames pile.forms) line []
    (b.closer :: rest) (endsName_closer b rest)
  obtain ⟨g, hg, hclosed⟩ := hclose line line' gs hgs
  refine ⟨line', g, hg, ?_⟩
  rw [List.append_assoc, List.append_assoc, Reader.readRest_append (run_opener b line pile)]
  show Reader.readRest _ (cs ++ b.closer :: rest) = _
  rw [hread, List.append_nil]
  exact readRest_closer b (by rwa [List.reverse_reverse]) pile.frames pile.forms rest

/-- What stands in brackets fails if its items do. -/
theorem fails_bracket (h : FailsAll cs) : Fails (b.opener ++ cs ++ [b.closer]) := by
  intro line pile rest hrest
  rw [List.append_assoc, List.append_assoc, Reader.readRest_append (run_opener b line pile)]
  exact h _ (gathers_bracket b line pile.frames pile.forms) line [] (b.closer :: rest)
    (endsName_closer b rest)

end

/-! ### Forms -/

namespace Form

/-- A legible form that is no float. -/
def IsExact (f : Form) : Prop := f.IsLegible ∧ ∀ x, f ≠ .float x

/-- A string all of whose characters are read back, or no string. -/
def IsPlain : Form → Prop
  | .str s => ∀ c ∈ s.toList, Quoted.IsPlain c
  | _ => True

/-- A word is read back as the atom that it spells. -/
theorem rereads_word {cs : List Char} {f : Form} (hword : IsWord cs)
    (hf : ∀ line, ∃ g, g.erase = f.erase ∧ atomOfWord cs line = .ok g) : Rereads cs f := by
  intro line pile rest hrest
  obtain ⟨g, hg, hatom⟩ := hf line
  refine ⟨line, g, hg, ?_⟩
  rw [Reader.readRest_word hword hrest, hatom]
  rfl

/-- An atom is read back. -/
theorem rereads_atom {f : Form} (hatom : f.isCollection = false) (hf : f.IsExact)
    (hp : f.IsPlain) : Rereads f.chars f := by
  cases f with
  | nil => exact rereads_word (isWord_of_all rfl) fun _ => ⟨.nil, rfl, rfl⟩
  | bool b =>
    have hword : IsWord (chars (.bool b)) := isWord_of_all (by cases b <;> rfl)
    exact rereads_word hword fun _ => ⟨.bool b, rfl, by cases b <;> rfl⟩
  | int n =>
    exact rereads_word (isWord_intChars n) fun line => ⟨_, rfl, atomOfWord_intChars hf.1 line⟩
  | float x => exact absurd rfl (hf.2 x)
  | char c => exact fun line pile rest hrest => ⟨_, _, rfl, Reader.readRest_char c hrest⟩
  | str s => exact fun line pile rest _ => ⟨_, _, rfl, Reader.readRest_quoted hp⟩
  | keyword name =>
    refine fun line pile rest hrest => ⟨_, _, ?_, Reader.readRest_keyword hf.1 hrest⟩
    rw [String.ofList_toList]
  | symbol s =>
    exact rereads_word hf.1.1 fun line =>
      ⟨.symbol { s with metadata := .atLine line }, rfl, hf.1.2 line⟩
  | _ => cases hatom

/-- A collection is written as a bracket around its parts, and a bracket around the same parts is
the same collection. -/
theorem exists_bracket {f : Form} (hcollection : f.isCollection = true) (hf : f.IsLegible) :
    ∃ b : Bracket, f.chars = b.opener ++ joined f.children ++ [b.closer] ∧
      ∀ start line gs, eraseAll gs = eraseAll f.children →
        ∃ g, g.erase = f.erase ∧ Frame.close b start line gs = .ok g := by
  cases f with
  | list items m =>
    exact ⟨.round, rfl, fun start line gs hgs =>
      ⟨.list gs (.span start line), congrArg (list · {}) hgs, rfl⟩⟩
  | vector items m =>
    exact ⟨.square, rfl, fun start line gs hgs =>
      ⟨.vector gs (.span start line), congrArg (vector · {}) hgs, rfl⟩⟩
  | map items =>
    refine ⟨.curly, rfl, fun _ _ gs hgs => ⟨.map gs, congrArg map hgs, ?_⟩⟩
    have heven : gs.length % 2 = 0 := by
      rw [length_eq_of_eraseAll hgs]
      exact hf
    rw [Frame.close, if_pos heven]
  | set items => exact ⟨.hashCurly, rfl, fun _ _ gs hgs => ⟨.set gs, congrArg set hgs, rfl⟩⟩
  | _ => cases hcollection

/-- Forms with spaces between them are read back one after the other. -/
theorem rereadsAll_joined : ∀ {items : List Form}, (∀ f ∈ items, Rereads f.chars f) →
    RereadsAll (joined items) items
  | [], _ => rereadsAll_nil
  | [f], h => rereadsAll_singleton (h f List.mem_cons_self)
  | f :: _ :: _, h =>
    rereadsAll_cons (h f List.mem_cons_self)
      (rereadsAll_joined fun g hg => h g (List.mem_cons_of_mem f hg))

/-- What is written of a form is read as the form. -/
theorem rereads_chars (f : Form) (hf : f.Everywhere IsExact) (hp : f.Everywhere IsPlain) :
    Rereads f.chars f := by
  induction f using induction_on_children with
  | step f ih =>
    cases hcollection : f.isCollection with
    | false => exact rereads_atom hcollection hf.self hp.self
    | true =>
      -- the parts in a row, and the bracket around them
      have hparts := rereadsAll_joined fun c hc =>
        ih c hc ((everywhere_iff.mp hf).2 c hc) ((everywhere_iff.mp hp).2 c hc)
      obtain ⟨b, hchars, hclose⟩ := exists_bracket hcollection hf.self.1
      rw [hchars]
      exact rereads_bracket hparts hclose

/-- Forms in a row fail when one of them does, whatever is read of those before it. -/
theorem failsAll_joined : ∀ {items : List Form}, (∀ f ∈ items, f.Everywhere IsExact) →
    (∀ f ∈ items, ¬ f.Everywhere IsPlain → Fails f.chars) →
    (¬ ∀ f ∈ items, f.Everywhere IsPlain) → FailsAll (joined items)
  | [], _, _, hp => absurd (by simp) hp
  | [f], _, h, hp => failsAll_singleton (h f List.mem_cons_self (by simpa using hp))
  | f :: g :: rest, hf, h, hp => by
    -- the first form that is not plain fails, and those before it were read by then
    by_cases hfirst : f.Everywhere IsPlain
    · refine failsAll_tail (rereads_chars f (hf f List.mem_cons_self) hfirst) ?_
      refine failsAll_joined (fun c hc => hf c (List.mem_cons_of_mem f hc))
        (fun c hc => h c (List.mem_cons_of_mem f hc)) fun hrest => ?_
      exact hp (List.forall_mem_cons.mpr ⟨hfirst, hrest⟩)
    · exact failsAll_head (h f List.mem_cons_self hfirst) _

/-- What is written of a form that holds a string that is not plain is not read. -/
theorem fails_chars (f : Form) (hf : f.Everywhere IsExact) (hp : ¬ f.Everywhere IsPlain) :
    Fails f.chars := by
  induction f using induction_on_children with
  | step f ih =>
    have hparts := (everywhere_iff.mp hf).2
    cases hcollection : f.isCollection with
    | false =>
      cases f with
      | str s =>
        refine fun line pile rest _ => Reader.readRest_quoted_invalid fun hs => ?_
        exact hp (everywhere_of_leaf rfl hs)
      | list _ _ | vector _ _ | map _ | set _ => cases hcollection
      | _ => exact absurd (everywhere_of_leaf rfl trivial) hp
    | true =>
      have hself : f.IsPlain := by
        cases f with
        | str s => cases hcollection
        | _ => trivial
      have hone : ¬ ∀ c ∈ f.children, c.Everywhere IsPlain :=
        fun h => hp (everywhere_iff.mpr ⟨hself, h⟩)
      obtain ⟨b, hchars, -⟩ := exists_bracket hcollection hf.self.1
      rw [hchars]
      exact fails_bracket (failsAll_joined hparts (fun c hc => ih c hc (hparts c hc)) hone)

/-- Texts with single spaces between them are the characters of the forms in a row. -/
theorem toList_intercalate_text (l : List Form) :
    (" ".intercalate (l.map text)).toList = joined l := by
  match l with
  | [] => rfl
  | [f] => simp [text, joined]
  | f :: g :: rest =>
    have hrest := toList_intercalate_text (g :: rest)
    rw [List.map_cons] at hrest
    rw [List.map_cons, List.map_cons, String.intercalate_cons_cons, String.toList_append,
      String.toList_append, hrest, text, String.toList_ofList, joined, List.append_assoc]
    rfl

/-- A form is plain everywhere if every string in it is. -/
theorem everywhere_isPlain_iff {f : Form} :
    f.Everywhere IsPlain ↔ ∀ s, Part (.str s) f → ∀ c ∈ s.toList, Quoted.IsPlain c := by
  constructor
  · exact fun h s hs => h _ hs
  · intro h g hg
    cases g with
    | str s => exact h s hg
    | _ => trivial

end Form

/-! ### Sources -/

/-- What was read from a source, with no float in it, and is written with single spaces between the
forms, is read again exactly if every character of a string is written as itself or with an escape
that the scanner knows: a quote, a backslash, a newline or a tab. Then the same forms are read,
apart from their metadata; and otherwise there is a token that is no form. -/
theorem readAll_texts {source : String} {forms : List Form} (hread : readAll source = .ok forms)
    (hfloat : ∀ f ∈ forms, ∀ x, ¬ Form.Part (.float x) f) :
    let again := readAll (" ".intercalate (forms.map Form.text))
    ((∃ fs, again = .ok fs) ↔
      ∀ f ∈ forms, ∀ s, Form.Part (.str s) f → ∀ c ∈ s.toList,
        Quoted.encodeChar c = [c] ∨ c = '"' ∨ c = '\\' ∨ c = '\n' ∨ c = '\t') ∧
    (∀ fs, again = .ok fs → fs.map Form.erase = forms.map Form.erase) ∧
    (∀ e, again = .error e → ∃ token line, e = .invalidToken token line) := by
  intro again
  have hexact : ∀ f ∈ forms, f.Everywhere Form.IsExact := fun f hf g hg =>
    ⟨readCases_isLegible.everywhere_of_readAll hread f hf g hg,
      fun x hx => hfloat f hf x (hx ▸ hg)⟩
  have hagain : again = (Reader.mk 1 .idle ⟨[], []⟩).readRest (Form.joined forms ++ []) := by
    rw [List.append_nil, ← Form.toList_intercalate_text]
    rfl
  have htop : Pile.Gathers fun acc => ⟨[], acc⟩ := fun _ _ => rfl
  have hend : EndsName [] := nofun
  have hplain : (∀ f ∈ forms, f.Everywhere Form.IsPlain) ↔
      ∀ f ∈ forms, ∀ s, Form.Part (.str s) f → ∀ c ∈ s.toList, Quoted.IsPlain c :=
    forall₂_congr fun f _ => Form.everywhere_isPlain_iff
  by_cases hp : ∀ f ∈ forms, f.Everywhere Form.IsPlain
  · obtain ⟨line, gs, hgs, hrest⟩ := Form.rereadsAll_joined
      (fun f hf => Form.rereads_chars f (hexact f hf) (hp f hf)) _ htop 1 [] [] hend
    have hok : again = .ok gs := by
      rw [hagain, hrest, List.append_nil, Reader.readRest_nil]
      exact congrArg Except.ok (List.reverse_reverse gs)
    refine ⟨iff_of_true ⟨gs, hok⟩ (hplain.mp hp), fun fs hfs => ?_, fun e he => ?_⟩
    · rw [Except.ok.inj (hfs.symm.trans hok), ← Form.eraseAll_eq_map, ← Form.eraseAll_eq_map, hgs]
    · cases he.symm.trans hok
  · obtain ⟨token, line, herror⟩ := Form.failsAll_joined hexact
      (fun f hf => Form.fails_chars f (hexact f hf)) hp _ htop 1 [] [] hend
    have hagainError : again = .error (.invalidToken token line) := hagain.trans herror
    refine ⟨iff_of_false (fun h => ?_) fun h => hp (hplain.mpr h), fun fs hfs => ?_, fun e he => ?_⟩
    · obtain ⟨fs, hfs⟩ := h
      cases hfs.symm.trans hagainError
    · cases hfs.symm.trans hagainError
    · exact ⟨token, line, Except.error.inj (he.symm.trans hagainError)⟩

/-- A call is read back that holds a string with a tab in it, and a closing bracket as a
character before one that closes. -/
theorem readAll_texts_call :
    let f : Symbol := { name := "f", metadata := .atLine 1 }
    let held : Form := .set [.str "a\tb", .char ')']
    let call : Form := .list [.symbol f, held] (.span 1 1)
    readAll "(f #\x7b\"a\\tb\", \\)\x7d)" = .ok [call] ∧
      ∃ fs, readAll (" ".intercalate ([call].map Form.text)) = .ok fs ∧
        fs.map Form.erase = [call].map Form.erase := by
  intro f held call
  have hread : readAll "(f #\x7b\"a\\tb\", \\)\x7d)" = .ok [call] := rfl
  have hparts {P : Form → Prop} (hcall : P call) (hf : P (.symbol f)) (hheld : P held)
      (hs : P (.str "a\tb")) (hc : P (.char ')')) : ∀ g ∈ [call], g.Everywhere P := by
    have hitems : ∀ c ∈ held.children, c.Everywhere P :=
      List.forall_mem_cons.mpr ⟨Form.everywhere_of_leaf rfl hs,
        List.forall_mem_singleton.mpr (Form.everywhere_of_leaf rfl hc)⟩
    refine List.forall_mem_singleton.mpr (Form.everywhere_list.mpr ⟨hcall, ?_⟩)
    exact List.forall_mem_cons.mpr ⟨Form.everywhere_of_leaf rfl hf,
      List.forall_mem_singleton.mpr (Form.everywhere_iff.mpr ⟨hheld, hitems⟩)⟩
  have hfloat : ∀ g ∈ [call], ∀ x, ¬ Form.Part (.float x) g := fun g hg x hx =>
    hparts (P := fun g => ∀ x, g ≠ .float x) nofun nofun nofun nofun nofun g hg _ hx x rfl
  have htab : ∀ c ∈ "a\tb".toList, Quoted.IsPlain c :=
    List.forall_mem_cons.mpr ⟨.inl rfl, List.forall_mem_cons.mpr
      ⟨.inr (.inr (.inr (.inr rfl))), List.forall_mem_singleton.mpr (.inl rfl)⟩⟩
  have hplain : ∀ g ∈ [call], g.Everywhere Form.IsPlain :=
    hparts trivial trivial trivial htab trivial
  obtain ⟨hiff, herase, -⟩ := readAll_texts hread hfloat
  obtain ⟨fs, hfs⟩ := hiff.mpr fun g hg => Form.everywhere_isPlain_iff.mp (hplain g hg)
  exact ⟨hread, fs, hfs, herase fs hfs⟩

/-- A carriage return is written with an escape that the scanner does not know. -/
example : readAll (Form.str "\r").text = .error (.invalidToken "\\r" 1) := rfl

end CompileWatch
