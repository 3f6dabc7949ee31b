import CompileWatch.Proofs.Reading.Relocation

/-!
# Discarded forms

A form behind a discard mark is dropped, but the mark then reads another form, which must be there.
So a line with a discarded form can be put between any two tokens of a source exactly where a form
follows: then the same forms are read, further down. In front of a closing bracket, or at the end,
the source is no longer accepted.

- `Pauses`: a place between tokens.
- `next?`: the first character behind blanks and comments.
- `Reader.readRest_discarded`: a line with a discarded form.
- `readAll_discard`: what comes of a source with such a line in it.
- `not_transparent_discard`: one in front of a closing bracket, and one at the end.
-/

namespace CompileWatch

/-! ### Places between tokens -/

/-- A scanner is in the middle of nothing that these characters go on with. -/
def Scanner.Pauses (rest : List Char) : Scanner → Prop
  | .idle => True
  | .comment => ∀ c ∈ rest.head?, c = '\n'
  | .word .. | .character .. | .keyword .. => EndsName rest
  | _ => False

/-- The place between two parts of a source is in no token, and in no comment that goes on. -/
def Pauses (a b : String) : Prop :=
  ∃ r, Reader.run {} a.toList = .ok r ∧ r.scanner.Pauses b.toList

/-- The first character behind blanks and comments, where a comment may have begun. -/
def next? (inComment : Bool) : List Char → Option Char
  | [] => none
  | c :: rest =>
    if inComment then next? (c != '\n') rest
    else if isBlank c || c == ',' then next? false rest
    else if c == ';' then next? true rest
    else some c

theorem endsName_newline (rest : List Char) : EndsName ('\n' :: rest) := by
  rintro _ ⟨⟩
  decide

/-- What pauses does so before a newline too. -/
theorem Scanner.Pauses.newline {s : Scanner} {rest : List Char} (h : s.Pauses rest)
    (more : List Char) : s.Pauses ('\n' :: more) := by
  cases s with
  | idle => trivial
  | comment =>
    rintro _ ⟨⟩
    rfl
  | word _ _ | character _ _ | keyword _ => exact endsName_newline more
  | _ => exact h.elim

/-- At such a place the scanner completes what it has, and begins anew. -/
theorem Scanner.Pauses.readRest {s : Scanner} {rest : List Char} (h : s.Pauses rest) (line : Nat)
    (pile : Pile) :
    (Reader.mk line s pile).readRest rest =
      s.flush >>= fun tokens => tokens.foldlM Pile.push pile >>= fun pile' =>
        (Reader.mk line .idle pile').readRest rest := by
  cases s with
  | idle => rfl
  | comment =>
    cases rest with
    | nil => rfl
    | cons c rest =>
      obtain rfl : c = '\n' := h c rfl
      rfl
  | word _ _ => exact Reader.readRest_flush (Scanner.collects_word _ _) h
  | character _ _ => exact Reader.readRest_flush (Scanner.collects_character _ _) h
  | keyword _ => exact Reader.readRest_flush (Scanner.collects_keyword _) h
  | _ => exact h.elim

/-! ### What follows a place -/

/-- A blank comes before what is next. -/
theorem next?_blank {c : Char} (hc : isBlank c = true ∨ c = ',') (rest : List Char) :
    next? false (c :: rest) = next? false rest := by
  have hgap : (isBlank c || c == ',') = true := by simpa using hc
  rw [next?, if_neg Bool.false_ne_true, if_pos hgap]

/-- Nothing in a comment is next. -/
theorem next?_inComment {line : List Char} (hline : '\n' ∉ line) (rest : List Char) :
    next? true (line ++ '\n' :: rest) = next? false rest := by
  induction line with
  | nil => rfl
  | cons c line ih =>
    obtain ⟨hc, hline⟩ := not_or.mp (mt List.mem_cons.mpr hline)
    have hmore : (c != '\n') = true := bne_iff_ne.mpr (Ne.symm hc)
    rw [List.cons_append, next?, if_pos rfl, hmore]
    exact ih hline

/-- The last line may end in a comment. -/
theorem next?_inLastComment {line : List Char} (hline : '\n' ∉ line) : next? true line = none := by
  induction line with
  | nil => rfl
  | cons c line ih =>
    obtain ⟨hc, hline⟩ := not_or.mp (mt List.mem_cons.mpr hline)
    have hmore : (c != '\n') = true := bne_iff_ne.mpr (Ne.symm hc)
    rw [next?, if_pos rfl, hmore]
    exact ih hline

/-- Nothing comes behind the last comment. -/
theorem next?_of_isLastComment {tail : List Char} (h : IsLastComment tail) :
    next? false tail = none := by
  cases tail with
  | nil => rfl
  | cons c line =>
    obtain ⟨rfl, hline⟩ := h c rfl
    exact next?_inLastComment fun hmem => hline (List.mem_cons_of_mem _ hmem)

/-- A character that begins something is what comes next. -/
theorem next?_cons {c : Char} (hc : (isBlank c || c == ',' || c == ';') = false)
    (rest : List Char) : next? false (c :: rest) = some c := by
  obtain ⟨hblank, hcomment⟩ := Bool.or_eq_false_iff.mp hc
  rw [next?, if_neg Bool.false_ne_true, if_neg (ne_true_of_eq_false hblank),
    if_neg (ne_true_of_eq_false hcomment)]

theorem next?_closer (b : Bracket) (rest : List Char) :
    next? false (b.closer :: rest) = some b.closer :=
  next?_cons (by cases b <;> decide) rest

/-- What comes next begins the first form that is spelled; where none is spelled there are only
blanks and comments. -/
theorem Spells.next? {before text : List Char} {forms : List Form} (h : Spells before text forms)
    (rest : List Char) :
    (forms = [] ∧ next? false (text ++ rest) = next? false rest) ∨
      (forms ≠ [] ∧ ∃ c, next? false (text ++ rest) = some c ∧ ¬ IsCloser c) := by
  have hbegins {c : Char} (hc : (isBlank c || c == ',' || c == ';') = false)
      (hcloser : ¬ IsCloser c) (rest : List Char) :
      ∃ d, CompileWatch.next? false (c :: rest) = some d ∧ ¬ IsCloser d :=
    ⟨c, next?_cons hc rest, hcloser⟩
  induction h with
  | done => exact .inl ⟨rfl, rfl⟩
  | blank hc h ih =>
    rw [List.cons_append, next?_blank hc]
    exact ih
  | @comment before text line forms hline h ih =>
    have hcomment : CompileWatch.next? false (';' :: line ++ '\n' :: text ++ rest) =
        CompileWatch.next? false (text ++ rest) := by
      rw [List.append_assoc]
      exact next?_inComment hline (text ++ rest)
    rw [hcomment]
    exact ih
  | @word before text word f forms hword hf hends h ih =>
    obtain ⟨c, more, rfl⟩ := List.exists_cons_of_ne_nil hword.1.1
    have hc : beginsWord c = true := hword.2 c rfl
    have hdelimiter := isDelimiter_of_beginsWord hc
    refine .inr ⟨List.cons_ne_nil _ _, hbegins ?_ ?_ _⟩
    · simp only [isDelimiter, Bool.or_eq_false_iff] at hdelimiter
      simp [hdelimiter]
    · rintro (rfl | rfl | rfl) <;> exact absurd hdelimiter (by decide)
  | @bracket before inner text b f items forms hitems hf h ihItems ih =>
    refine .inr ⟨List.cons_ne_nil _ _, ?_⟩
    cases b <;> exact hbegins (by decide) (by decide) _
  | _ => exact .inr ⟨List.cons_ne_nil _ _, hbegins (by decide) (by decide) _⟩

/-! ### A line with a discarded form -/

/-- A source of one form is read as that form. -/
theorem readAll_of_readOne {d : String} {f : Form} (h : readOne d = .ok f) :
    readAll d = .ok [f] := by
  obtain ⟨forms, hread, hone⟩ := exists_of_bind_eq_ok h
  rw [hread]
  split at hone
  next => rw [Except.ok.inj hone]
  next => cases hone
  next => cases hone

namespace Reader

/-- A comment in the last line ends with a line that follows. -/
theorem readRest_lastComment_newline {tail : List Char} (htail : IsLastComment tail) (line : Nat)
    (pile : Pile) (rest : List Char) :
    (Reader.mk line .idle pile).readRest (tail ++ '\n' :: rest) =
      (Reader.mk (line + 1) .idle pile).readRest rest := by
  cases tail with
  | nil => exact readRest_blank (.inl rfl) rest
  | cons c cs =>
    obtain ⟨rfl, hcs⟩ := htail c rfl
    exact readRest_comment (fun h => hcs (List.mem_cons_of_mem _ h)) rest

/-- A form that is discarded leaves a mark that waits for another one. -/
theorem readRest_discarded {d : String} {f : Form} (hd : readOne d = .ok f) (before : List Char)
    (pile : Pile) (rest : List Char) :
    (Reader.mk (lineAfter before) .idle pile).readRest
        ('\n' :: '#' :: '_' :: (d.toList ++ '\n' :: rest)) =
      (Reader.mk (lineAfter (before ++ ('\n' :: d.toList ++ ['\n']))) .idle
        ⟨.afterDiscard :: pile.frames, pile.forms⟩).readRest rest := by
  obtain ⟨text, tail, hchars, hspells, htail⟩ := readAll_eq_ok_iff.mp (readAll_of_readOne hd)
  have hmoved := hspells.moveDown (before ++ ['\n'])
  have hends : EndsName (tail ++ '\n' :: rest) :=
    endsName_append htail.endsName (endsName_newline rest)
  have hlast : '\n' ∉ tail := by
    cases tail with
    | nil => exact List.not_mem_nil
    | cons c cs => exact (htail c rfl).2
  have hline : lineAfter (before ++ ['\n'] ++ [] ++ text) + 1 =
      lineAfter (before ++ ('\n' :: d.toList ++ ['\n'])) := by
    rw [hchars]
    simp [lineAfter, List.count_append, List.count_eq_zero.mpr hlast]
    omega
  rw [readRest_blank (.inl rfl), ← lineAfter_concat, readRest_discardMark, hchars,
    List.append_assoc, ← List.append_nil (before ++ ['\n']), hmoved.readsAs _ hends]
  show (Reader.mk (lineAfter (before ++ ['\n'] ++ [] ++ text)) .idle
    ⟨.afterDiscard :: pile.frames, pile.forms⟩).readRest (tail ++ '\n' :: rest) = _
  rw [readRest_lastComment_newline htail, hline, ← hchars]

/-- What comes of the rest of a source behind a discarded form, by what comes next: no form, so that
the source ends or a bracket is closed too early, or a form, which is read as if nothing were
discarded. -/
theorem readRest_afterDiscard {before rest : List Char} {pile : Pile} {result : List Form}
    (h : (Reader.mk (lineAfter before) .idle pile).readRest rest = .ok result) (above : List Char) :
    let behind := (Reader.mk (lineAfter (above ++ before)) .idle
      ⟨.afterDiscard :: pile.frames, pile.forms⟩).readRest rest
    (next? false rest = none ∧ ∃ line, behind = .error (.unexpectedEnd line)) ∨
      (∃ c, next? false rest = some c ∧ IsCloser c ∧ ∃ line, behind = .error (.unbalanced c line)) ∨
      ∃ c result', next? false rest = some c ∧ ¬ IsCloser c ∧ behind = .ok result' ∧
        result'.map Form.unplaced = result.map Form.unplaced := by
  intro behind
  obtain ⟨text, tail, forms, pile', rfl, hspells, hall, hsettles⟩ :=
    spelledOut_of_readRest rest before pile result h
  have hends : EndsName tail := by
    cases hsettles with
    | ended htail => exact htail.endsName
    | closed _ _ => exact endsName_closer _ _
  have hbehind := (hspells.moveDown above).readsAs ⟨.afterDiscard :: pile.frames, pile.forms⟩ hends
  rcases hspells.next? tail with ⟨rfl, hnext⟩ | ⟨hforms, c, hnext, hcloser⟩
  · -- the mark still waits for a form
    obtain rfl := Except.ok.inj hall
    rw [hnext]
    cases hsettles with
    | ended htail =>
      refine .inl ⟨next?_of_isLastComment htail, lineAfter (above ++ before ++ text), ?_⟩
      exact hbehind.trans (readRest_lastComment htail)
    | @closed b start acc forms frames f rest result hf hrest =>
      refine .inr (.inl ⟨b.closer, next?_closer b rest, isCloser_closer b,
        lineAfter (above ++ before ++ text), ?_⟩)
      exact hbehind.trans (readRest_closing (isCloser_closer b) rest)
  · obtain ⟨f, forms, rfl⟩ := List.exists_cons_of_ne_nil hforms
    -- the mark hands on the first form
    have hpassed : behind =
        (Reader.mk (lineAfter (above ++ before)) .idle pile).readRest (text ++ tail) :=
      hbehind.trans ((hspells.moveDown above).readsAs pile hends).symm
    obtain ⟨result', hread, hresult⟩ :=
      exists_readRest (text ++ tail) before above h (q := pile) rfl
    exact .inr (.inr ⟨c, result', hnext, hcloser, hpassed.trans hread, hresult⟩)

end Reader

/-- **Discarded forms.** A line with a discarded form is put between two tokens of a source that is
read. When a form comes next, the source is read as the same forms but for their lines; when a
bracket is closed next, or the source ends, it is no longer accepted. -/
theorem readAll_discard {a b d : String} {forms : List Form} {f : Form}
    (h : readAll (a ++ b) = .ok forms) (hpauses : Pauses a b) (hd : readOne d = .ok f) :
    let source := a ++ "\n#_" ++ d ++ "\n" ++ b
    (∀ c, next? false b.toList = some c → ¬ IsCloser c →
      ∃ forms', readAll source = .ok forms' ∧
        forms'.map Form.unplaced = forms.map Form.unplaced) ∧
    (∀ c, next? false b.toList = some c → IsCloser c →
      ∃ line, readAll source = .error (.unbalanced c line)) ∧
    (next? false b.toList = none → ∃ line, readAll source = .error (.unexpectedEnd line)) := by
  intro source
  obtain ⟨r, hrun, hpauses⟩ := hpauses
  have hline : r.line = lineAfter a.toList := Reader.line_run {} a.toList r hrun
  -- what was collected before the place is completed there, with the new line and without it
  have hrest : r.readRest b.toList = .ok forms := by
    rw [← h, readAll, String.toList_append, ← Reader.readRest_append hrun]
    rfl
  rw [hpauses.readRest] at hrest
  obtain ⟨tokens, hflush, hrest⟩ := exists_of_bind_eq_ok hrest
  obtain ⟨pile, hpile, hrest⟩ := exists_of_bind_eq_ok hrest
  rw [hline] at hrest
  have hchars : source.toList =
      a.toList ++ '\n' :: '#' :: '_' :: (d.toList ++ '\n' :: b.toList) := by
    simp [source]
  have hsource : readAll source =
      (Reader.mk (lineAfter (('\n' :: d.toList ++ ['\n']) ++ a.toList)) .idle
        ⟨.afterDiscard :: pile.frames, pile.forms⟩).readRest b.toList := by
    calc readAll source
        = r.readRest ('\n' :: '#' :: '_' :: (d.toList ++ '\n' :: b.toList)) := by
          rw [readAll, hchars, ← Reader.readRest_append hrun]
          rfl
      _ = (Reader.mk (lineAfter a.toList) .idle pile).readRest
            ('\n' :: '#' :: '_' :: (d.toList ++ '\n' :: b.toList)) := by
          rw [(hpauses.newline _).readRest, hflush, hline]
          show tokens.foldlM Pile.push r.pile >>= _ = _
          rw [hpile]
          rfl
      _ = _ := by rw [Reader.readRest_discarded hd, lineAfter_append_comm]
  rw [hsource]
  rcases Reader.readRest_afterDiscard hrest ('\n' :: d.toList ++ ['\n']) with
    ⟨hnext, herror⟩ | ⟨c, hnext, hcloser, herror⟩ | ⟨c, forms', hnext, hcloser, hread⟩
  · refine ⟨fun c hc => ?_, fun c hc => ?_, fun _ => herror⟩
    · cases hnext.symm.trans hc
    · cases hnext.symm.trans hc
  · refine ⟨fun d hd hother => ?_, fun d hd _ => ?_, fun hnone => ?_⟩
    · exact (hother (Option.some.inj (hnext.symm.trans hd) ▸ hcloser)).elim
    · rwa [← Option.some.inj (hnext.symm.trans hd)]
    · cases hnext.symm.trans hnone
  · refine ⟨fun _ _ _ => ⟨forms', hread⟩, fun d hd hother => ?_, fun hnone => ?_⟩
    · exact (hcloser (Option.some.inj (hnext.symm.trans hd) ▸ hother)).elim
    · cases hnext.symm.trans hnone

/-- A vector that is discarded below a comment, in front of the second item of a list. -/
theorem readAll_discard_list :
    let a : Form := .symbol { name := "a", metadata := .atLine 1 }
    let b : Form := .symbol { name := "b", metadata := .atLine 1 }
    let c : Form := .symbol { name := "c", metadata := .atLine 2 }
    readAll ("(a ; b" ++ "\nc)") = .ok [.list [a, c] (.span 1 2)] ∧ Pauses "(a ; b" "\nc)" ∧
      readOne "[b] ; (" = .ok (.vector [b] (.span 1 1)) ∧ next? false "\nc)".toList = some 'c' ∧
      ∃ forms, readAll ("(a ; b" ++ "\n#_" ++ "[b] ; (" ++ "\n" ++ "\nc)") = .ok forms ∧
        forms.map Form.unplaced = [.call [.sym "a", .sym "c"]] := by
  intro a b c
  have hread : readAll ("(a ; b" ++ "\nc)") = .ok [.list [a, c] (.span 1 2)] := rfl
  have hpauses : Pauses "(a ; b" "\nc)" := by
    refine ⟨_, rfl, ?_⟩
    rintro _ ⟨⟩
    rfl
  have hone : readOne "[b] ; (" = .ok (.vector [b] (.span 1 1)) := rfl
  obtain ⟨hsame, -, -⟩ := readAll_discard hread hpauses hone
  exact ⟨hread, hpauses, hone, rfl, hsame 'c' rfl (by decide)⟩

/-- In front of a closing bracket, and at the end, a discarded form is not as if it were not there.
-/
theorem not_transparent_discard :
    (readAll ("(a" ++ ")")).isOk ∧ (readOne "b").isOk ∧
      readAll ("(a" ++ "\n#_" ++ "b" ++ "\n" ++ ")") = .error (.unbalanced ')' 3) ∧
      readAll ("(a)" ++ "\n#_" ++ "b" ++ "\n" ++ "") = .error (.unexpectedEnd 3) :=
  ⟨rfl, rfl, rfl, rfl⟩

end CompileWatch
