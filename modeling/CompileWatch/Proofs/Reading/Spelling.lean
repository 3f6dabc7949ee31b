import CompileWatch.Proofs.Reading.Rereading

/-!
# How a source spells its forms

What a row of characters spells is said by a grammar that knows nothing of scanners and piles:
words, strings and brackets in a row, with blanks and comments between them, and marks that act on
the forms behind them. A list or a vector has the line of the bracket that opens it and the line of
the one that closes it, a symbol the line of its first character, and a line is one more than the
newlines before it. What is spelled is read.

- `lineAfter`: the line on which the next character stands.
- `Spells`: the grammar, for characters behind others.
- `Spelled`: what a whole source spells.
- `Reader.readRest_blank`, `readRest_comment`, `readRest_opener`, `readRest_closing` and so on: what
  stands between atoms.
- `Pile.pushAll`: forms that reach a pile in a row.
- `Spells.readsAs`: what is spelled is read, in front of whatever can follow.
-/

namespace CompileWatch

/-! ### The grammar -/

/-- The line on which the next character stands: one more than the newlines before it. -/
def lineAfter (before : List Char) : Nat := 1 + before.count '\n'

/-- The characters `text`, which stand behind the characters `before`, spell some forms. -/
inductive Spells : (before text : List Char) → (forms : List Form) → Prop where
  | done {before : List Char} : Spells before [] []
  | blank {before text : List Char} {forms : List Form} {c : Char}
      (hc : isBlank c = true ∨ c = ',') (h : Spells (before ++ [c]) text forms) :
      Spells before (c :: text) forms
  | comment {before text line : List Char} {forms : List Form} (hline : '\n' ∉ line)
      (h : Spells (before ++ (';' :: line ++ ['\n'])) text forms) :
      Spells before (';' :: line ++ '\n' :: text) forms
  | word {before text word : List Char} {f : Form} {forms : List Form} (hword : IsWord word)
      (hf : atomOfWord word (lineAfter before) = .ok f) (hends : EndsName text)
      (h : Spells (before ++ word) text forms) : Spells before (word ++ text) (f :: forms)
  | keyword {before text name : List Char} {forms : List Form} (hname : IsName name)
      (hends : EndsName text) (h : Spells (before ++ ':' :: name) text forms) :
      Spells before (':' :: name ++ text) (.keyword (String.ofList name) :: forms)
  /-- A backslash and a character, or the name of one. -/
  | character {before text more : List Char} {c : Char} {f : Form} {forms : List Form}
      (hmore : ∀ d ∈ more, isDelimiter d = false)
      (hf : characterOfName (c :: more) (lineAfter before) = .ok f) (hends : EndsName text)
      (h : Spells (before ++ '\\' :: c :: more) text forms) :
      Spells before ('\\' :: c :: more ++ text) (f :: forms)
  | string {before text written value : List Char} {forms : List Form}
      (hwritten : Quoted.Spells written value)
      (h : Spells (before ++ ('"' :: written ++ ['"'])) text forms) :
      Spells before ('"' :: written ++ '"' :: text) (.str (String.ofList value) :: forms)
  /-- A list or a vector, or a map or a set, between the lines of its two brackets. -/
  | bracket {before inner text : List Char} {b : Bracket} {f : Form} {items forms : List Form}
      (hitems : Spells (before ++ b.opener) inner items)
      (hf : Frame.close b (lineAfter before) (lineAfter (before ++ (b.opener ++ inner))) items =
        .ok f)
      (h : Spells (before ++ (b.opener ++ inner ++ [b.closer])) text forms) :
      Spells before (b.opener ++ inner ++ b.closer :: text) (f :: forms)
  | quote {before text : List Char} {f : Form} {forms : List Form}
      (h : Spells (before ++ ['\x27']) text (f :: forms)) :
      Spells before ('\x27' :: text) (.call [.sym "quote", f] :: forms)
  /-- Metadata, and the form that it is put on. -/
  | metadata {before text : List Char} {m f g : Form} {flags : List String} {forms : List Form}
      (hflags : Frame.flagsOf? m = some flags) (hg : Frame.addFlags? flags f = some g)
      (h : Spells (before ++ ['^']) text (m :: f :: forms)) :
      Spells before ('^' :: text) (g :: forms)
  /-- A form that is dropped, in front of another one. -/
  | discard {before text : List Char} {dropped f : Form} {forms : List Form}
      (h : Spells (before ++ ['#', '_']) text (dropped :: f :: forms)) :
      Spells before ('#' :: '_' :: text) (f :: forms)

/-- A comment that the source ends in, or nothing. -/
def IsLastComment (tail : List Char) : Prop := ∀ c ∈ tail.head?, c = ';' ∧ '\n' ∉ tail

/-- A source spells some forms: a comment in its last line may have no end. -/
def Spelled (source : String) (forms : List Form) : Prop :=
  ∃ text tail, source.toList = text ++ tail ∧ Spells [] text forms ∧ IsLastComment tail

/-! ### Lines -/

/-- Behind a text the line is higher by the newlines in it. -/
theorem lineAfter_append (before text : List Char) :
    lineAfter (before ++ text) = lineAfter before + text.count '\n' := by
  rw [lineAfter, List.count_append, ← Nat.add_assoc, lineAfter]

/-- The line does not depend on the order of two texts. -/
theorem lineAfter_append_comm (before text : List Char) :
    lineAfter (before ++ text) = lineAfter (text ++ before) := by
  rw [lineAfter, lineAfter, List.count_append, List.count_append, Nat.add_comm (before.count '\n')]

/-- Characters in one line. -/
theorem lineAfter_append_of_notMem (before : List Char) {text : List Char} (h : '\n' ∉ text) :
    lineAfter (before ++ text) = lineAfter before := by
  rw [lineAfter_append, List.count_eq_zero.mpr h, Nat.add_zero]

/-- A newline ends a line, and no other character does. -/
theorem lineAfter_concat (before : List Char) (c : Char) :
    lineAfter (before ++ [c]) = if c = '\n' then lineAfter before + 1 else lineAfter before := by
  rw [lineAfter_append, List.count_singleton]
  split <;> simp_all

/-- A name stands in one line. -/
theorem newline_notMem_of_name {name : List Char} (h : ∀ c ∈ name, isDelimiter c = false) :
    '\n' ∉ name := fun hmem => Reader.ne_newline (h '\n' hmem) rfl

/-- A character that is spelled out may be a newline. -/
theorem lineAfter_character (before : List Char) (c : Char) {more : List Char}
    (hmore : ∀ d ∈ more, isDelimiter d = false) :
    lineAfter (before ++ '\\' :: c :: more) =
      if c = '\n' then lineAfter before + 1 else lineAfter before := by
  rw [← lineAfter_concat, lineAfter_append, lineAfter_append]
  simp [List.count_eq_zero.mpr (newline_notMem_of_name hmore), List.count_cons]

/-- Two texts end a name if both of them do. -/
theorem endsName_append {text rest : List Char} (htext : EndsName text) (hrest : EndsName rest) :
    EndsName (text ++ rest) := by
  cases text with
  | nil => exact hrest
  | cons c text => exact htext

/-- A text ends a name if it does so with another one behind it. -/
theorem EndsName.left {text rest : List Char} (h : EndsName (text ++ rest)) : EndsName text := by
  cases text with
  | nil => nofun
  | cons c text => exact h

/-! ### Gaps and marks -/

/-- The characters that close a bracket. -/
def IsCloser (c : Char) : Prop := c = ')' ∨ c = ']' ∨ c = '\x7d'

instance (c : Char) : Decidable (IsCloser c) := inferInstanceAs (Decidable (_ ∨ _))

theorem isCloser_closer (b : Bracket) : IsCloser b.closer := by cases b <;> decide

namespace Reader

variable {line : Nat} {pile : Pile}

/-- Reading goes on after the first character. -/
theorem readRest_of_step {r r' : Reader} {c : Char} (h : r.step c = .ok r') (cs : List Char) :
    r.readRest (c :: cs) = r'.readRest cs := by
  rw [readRest_cons, h]
  rfl

/-- Blanks and commas between forms are skipped. -/
theorem readRest_blank {c : Char} (hc : isBlank c = true ∨ c = ',') (cs : List Char) :
    (Reader.mk line .idle pile).readRest (c :: cs) =
      (Reader.mk (if c = '\n' then line + 1 else line) .idle pile).readRest cs := by
  have hscanner : Scanner.idle.step line c = .ok ([], .idle) := by
    have hgap : (isBlank c || decide (c = ',')) = true := by simpa using hc
    rw [Scanner.step, Scanner.stepIdle, if_pos hgap]
  refine readRest_of_step ?_ cs
  rw [step, hscanner]
  rfl

/-- The characters of a comment. -/
theorem run_comment {cs : List Char} (hcs : '\n' ∉ cs) :
    (Reader.mk line .comment pile).run cs = .ok ⟨line, .comment, pile⟩ := by
  induction cs with
  | nil => rfl
  | cons c rest ih =>
    obtain ⟨hc, hrest⟩ := not_or.mp (mt List.mem_cons.mpr hcs)
    have hstep : (Reader.mk line .comment pile).step c = .ok ⟨line, .comment, pile⟩ :=
      step_of_silent (Ne.symm hc) (by rw [Scanner.step, if_neg (Ne.symm hc)])
    rw [run_cons hstep, ih hrest]

/-- A semicolon begins a comment. -/
theorem step_semicolon (line : Nat) (pile : Pile) :
    (Reader.mk line .idle pile).step ';' = .ok ⟨line, .comment, pile⟩ :=
  step_of_silent (by decide) rfl

/-- A comment is skipped with the newline at its end. -/
theorem readRest_comment {cs : List Char} (hcs : '\n' ∉ cs) (rest : List Char) :
    (Reader.mk line .idle pile).readRest (';' :: cs ++ '\n' :: rest) =
      (Reader.mk (line + 1) .idle pile).readRest rest := by
  rw [List.cons_append, readRest_of_step (step_semicolon line pile),
    readRest_append (run_comment hcs)]
  exact readRest_of_step rfl rest

/-- A comment in the last line is no part of the source. -/
theorem readRest_lastComment {tail : List Char} (htail : IsLastComment tail) :
    (Reader.mk line .idle pile).readRest tail = (Reader.mk line .idle pile).readRest [] := by
  cases tail with
  | nil => rfl
  | cons c cs =>
    obtain ⟨rfl, hcs⟩ := htail c rfl
    have hrest : '\n' ∉ cs := fun h => hcs (List.mem_cons_of_mem _ h)
    rw [readRest_of_step (step_semicolon line pile), ← List.append_nil cs,
      readRest_append (run_comment hrest)]
    rfl

theorem step_hash (line : Nat) (pile : Pile) :
    (Reader.mk line .idle pile).step '#' = .ok ⟨line, .hash line, pile⟩ :=
  step_of_silent (by decide) rfl

/-- A quote mark opens a frame that waits for one form. -/
theorem readRest_quoteMark (cs : List Char) :
    (Reader.mk line .idle pile).readRest ('\x27' :: cs) =
      (Reader.mk line .idle ⟨.quote :: pile.frames, pile.forms⟩).readRest cs :=
  readRest_of_step rfl cs

theorem readRest_metadataMark (cs : List Char) :
    (Reader.mk line .idle pile).readRest ('^' :: cs) =
      (Reader.mk line .idle ⟨.metadata line :: pile.frames, pile.forms⟩).readRest cs :=
  readRest_of_step rfl cs

theorem readRest_discardMark (cs : List Char) :
    (Reader.mk line .idle pile).readRest ('#' :: '_' :: cs) =
      (Reader.mk line .idle ⟨.discard :: pile.frames, pile.forms⟩).readRest cs := by
  rw [readRest_of_step (step_hash line pile)]
  exact readRest_of_step rfl cs

/-- A bracket opens a frame for any number of forms. -/
theorem readRest_opener (b : Bracket) (cs : List Char) :
    (Reader.mk line .idle pile).readRest (b.opener ++ cs) =
      (Reader.mk line .idle ⟨.bracket b line [] :: pile.frames, pile.forms⟩).readRest cs :=
  readRest_append (run_opener b line pile) cs

/-- A closing character is a token by itself. -/
theorem readRest_closing {c : Char} (hc : IsCloser c) (cs : List Char) :
    (Reader.mk line .idle pile).readRest (c :: cs) =
      pile.push (.closing c line) >>= fun pile' => (Reader.mk line .idle pile').readRest cs := by
  have hscanner : Scanner.idle.step line c = .ok ([.closing c line], .idle) := by
    rcases hc with rfl | rfl | rfl <;> rfl
  have hline : c ≠ '\n' := by rcases hc with rfl | rfl | rfl <;> decide
  simp only [readRest_cons, step, hscanner]
  show [Token.closing c line].foldlM Pile.push pile >>= _ >>= _ = _
  rw [List.foldlM_cons, if_neg hline, bind_assoc, bind_assoc]
  rfl

end Reader

/-! ### Forms that are delivered in a row -/

namespace Pile

/-- Finished forms reach a pile, one after another. -/
def pushAll (p : Pile) (forms : List Form) : Except ReadError Pile :=
  forms.foldlM (fun p f => p.push (.atom f)) p

/-- Forms in a row are delivered one after the other. -/
theorem pushAll_cons (p : Pile) (f : Form) (forms : List Form) :
    p.pushAll (f :: forms) = p.push (.atom f) >>= fun p' => p'.pushAll forms := by
  rw [pushAll, List.foldlM_cons]
  rfl

/-- An open bracket takes them all. -/
theorem pushAll_bracket (b : Bracket) (line : Nat) (acc : List Form) (frames : List Frame)
    (forms items : List Form) :
    pushAll ⟨.bracket b line acc :: frames, forms⟩ items =
      .ok ⟨.bracket b line (items.reverse ++ acc) :: frames, forms⟩ := by
  induction items generalizing acc with
  | nil => rfl
  | cons f rest ih =>
    rw [pushAll_cons, List.reverse_cons, List.append_assoc]
    exact ih (f :: acc)

/-- Outside of every bracket they are forms of the source. -/
theorem pushAll_top (forms items : List Form) :
    pushAll ⟨[], forms⟩ items = .ok ⟨[], items.reverse ++ forms⟩ := by
  induction items generalizing forms with
  | nil => rfl
  | cons f rest ih =>
    rw [pushAll_cons, List.reverse_cons, List.append_assoc]
    exact ih (f :: forms)

end Pile

/-! ### What is spelled is read -/

/-- The characters `text`, behind the characters `before`, are read as some forms in front of
whatever can follow. -/
def ReadsAs (before text : List Char) (forms : List Form) : Prop :=
  ∀ (pile : Pile) {rest : List Char}, EndsName rest →
    (Reader.mk (lineAfter before) .idle pile).readRest (text ++ rest) =
      pile.pushAll forms >>= fun pile' =>
        (Reader.mk (lineAfter (before ++ text)) .idle pile').readRest rest

namespace ReadsAs

variable {before here text : List Char} {forms : List Form}

/-- A finished form in front of others. -/
theorem readAfter_eq (h : ReadsAs here text forms) (f : Form) (pile : Pile) {rest : List Char}
    (hrest : EndsName rest) :
    Reader.readAfter (lineAfter here) pile f (text ++ rest) =
      pile.pushAll (f :: forms) >>= fun pile' =>
        (Reader.mk (lineAfter (here ++ text)) .idle pile').readRest rest := by
  rw [Pile.pushAll_cons, bind_assoc, Reader.readAfter]
  exact bind_congr fun pile' => h pile' hrest

/-- An atom, which is finished when what follows it begins. -/
theorem atom {atom : List Char} {f : Form} (h : ReadsAs (before ++ atom) text forms)
    (hends : EndsName text)
    (hatom : ∀ (pile : Pile) {rest : List Char}, EndsName rest →
      (Reader.mk (lineAfter before) .idle pile).readRest (atom ++ rest) =
        Reader.readAfter (lineAfter (before ++ atom)) pile f rest) :
    ReadsAs before (atom ++ text) (f :: forms) := by
  intro pile rest hrest
  rw [List.append_assoc, hatom pile (endsName_append hends hrest), h.readAfter_eq f pile hrest,
    List.append_assoc]

end ReadsAs

open Reader in
/-- What is spelled is read, and reaches the pile. -/
theorem Spells.readsAs {before text : List Char} {forms : List Form}
    (h : Spells before text forms) : ReadsAs before text forms := by
  induction h with
  | @done before =>
    intro pile rest hrest
    rw [List.append_nil]
    rfl
  | @blank before text forms c hc h ih =>
    intro pile rest hrest
    rw [List.cons_append, readRest_blank hc, ← lineAfter_concat, ih pile hrest, List.append_assoc]
    rfl
  | @comment before text line forms hline h ih =>
    intro pile rest hrest
    have hnext : lineAfter (before ++ (';' :: line ++ ['\n'])) = lineAfter before + 1 := by
      rw [← List.append_assoc, lineAfter_concat, if_pos rfl, lineAfter_append_of_notMem]
      simpa using hline
    have hchars : ';' :: line ++ '\n' :: text ++ rest = ';' :: line ++ '\n' :: (text ++ rest) := by
      simp
    have hbefore : before ++ (';' :: line ++ '\n' :: text) =
        before ++ (';' :: line ++ ['\n']) ++ text := by simp
    rw [hchars, readRest_comment hline, ← hnext, ih pile hrest, hbefore]
  | @word before text word f forms hword hf hends h ih =>
    refine ih.atom hends fun pile rest hrest => ?_
    rw [readRest_word hword hrest, hf,
      lineAfter_append_of_notMem before (newline_notMem_of_name hword.1.2)]
    rfl
  | @keyword before text name forms hname hends h ih =>
    refine ih.atom hends fun pile rest hrest => ?_
    have hline : '\n' ∉ ':' :: name := by
      simpa using newline_notMem_of_name hname.2
    rw [readRest_keyword hname hrest, lineAfter_append_of_notMem before hline]
  | @character before text more c f forms hmore hf hends h ih =>
    refine ih.atom hends fun pile rest hrest => ?_
    rw [readRest_character c hmore hrest, hf, lineAfter_character before c hmore]
    rfl
  | @string before text written value forms hwritten h ih =>
    intro pile rest hrest
    have hline : lineAfter (before ++ ('"' :: written ++ ['"'])) =
        lineAfter before + written.count '\n' := by
      rw [lineAfter_append]
      simp
    have hchars : '"' :: written ++ '"' :: text ++ rest =
        '"' :: written ++ '"' :: (text ++ rest) := by
      simp
    have hbefore : before ++ ('"' :: written ++ '"' :: text) =
        before ++ ('"' :: written ++ ['"']) ++ text := by simp
    rw [hchars, readRest_string hwritten, ← hline, ih.readAfter_eq _ pile hrest, hbefore]
  | @bracket before inner text b f items forms hitems hf h ihItems ih =>
    intro pile rest hrest
    have hopener : lineAfter (before ++ b.opener) = lineAfter before :=
      lineAfter_append_of_notMem before (by cases b <;> decide)
    have hcloser : lineAfter (before ++ (b.opener ++ inner ++ [b.closer])) =
        lineAfter (before ++ (b.opener ++ inner)) := by
      rw [← List.append_assoc before]
      exact lineAfter_append_of_notMem _ (by cases b <;> decide)
    have hchars : b.opener ++ inner ++ b.closer :: text ++ rest =
        b.opener ++ (inner ++ b.closer :: (text ++ rest)) := by simp
    have hbefore : before ++ (b.opener ++ inner ++ b.closer :: text) =
        before ++ (b.opener ++ inner ++ [b.closer]) ++ text := by simp
    rw [hchars, readRest_opener, ← hopener, ihItems _ (endsName_closer b _), Pile.pushAll_bracket,
      List.append_nil, List.append_assoc before]
    refine (readRest_closer b (f := f) ?_ pile.frames pile.forms _).trans ?_
    · rw [List.reverse_reverse, hopener, hf]
    · rw [← hcloser, ih.readAfter_eq f pile hrest, hbefore]
  | @quote before text f forms h ih =>
    intro pile rest hrest
    have hline : lineAfter (before ++ ['\x27']) = lineAfter before :=
      lineAfter_append_of_notMem before (by decide)
    rw [List.cons_append, readRest_quoteMark, ← hline, ih _ hrest, List.append_assoc]
    rfl
  | @metadata before text m f g flags forms hflags hg h ih =>
    intro pile rest hrest
    have hline : lineAfter (before ++ ['^']) = lineAfter before :=
      lineAfter_append_of_notMem before (by decide)
    have hpush : Pile.pushAll ⟨.metadata (lineAfter before) :: pile.frames, pile.forms⟩
        (m :: f :: forms) = pile.pushAll (g :: forms) := by
      simp only [Pile.pushAll_cons, Pile.push, Pile.deliver, hflags]
      show Pile.deliver f pile.forms (.flags _ flags :: pile.frames) >>= _ = _
      rw [Pile.deliver, hg]
    rw [List.cons_append, readRest_metadataMark, ← hline, ih _ hrest, List.append_assoc, hline,
      hpush]
    rfl
  | @discard before text dropped f forms h ih =>
    intro pile rest hrest
    have hline : lineAfter (before ++ ['#', '_']) = lineAfter before :=
      lineAfter_append_of_notMem before (by decide)
    rw [List.cons_append, List.cons_append, readRest_discardMark, ← hline, ih _ hrest,
      List.append_assoc]
    rfl

end CompileWatch
