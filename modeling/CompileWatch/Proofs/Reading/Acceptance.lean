import CompileWatch.Proofs.Reading.Spelling

/-!
# Which sources are accepted

Reading accepts the sources that spell something, and gives what they spell: what is read from a
place on is spelled up to the end of the source or to a bracket that closes, by induction on how
much there is to read.

- `Settles`: where no form begins.
- `SpelledOut`: what is spelled from a place on, and what it does to the pile.
- `spelledOut_word`, `spelledOut_bracket` and so on: one lemma for each way to begin.
- `spelledOut_of_readRest`: they are all.
- `readAll_eq_ok_iff`: a whole source.
-/

namespace CompileWatch

/-! ### What is read is spelled -/

/-- How reading goes on where no form begins: the source ends outside of every bracket, or the
innermost bracket is closed. -/
inductive Settles (line : Nat) : Pile → List Char → List Form → Prop where
  | ended {tail : List Char} {forms : List Form} (htail : IsLastComment tail) :
      Settles line ⟨[], forms⟩ tail forms.reverse
  | closed {b : Bracket} {start : Nat} {acc forms : List Form} {frames : List Frame} {f : Form}
      {rest : List Char} {result : List Form} (hf : Frame.close b start line acc.reverse = .ok f)
      (hrest : Reader.readAfter line ⟨frames, forms⟩ f rest = .ok result) :
      Settles line ⟨.bracket b start acc :: frames, forms⟩ (b.closer :: rest) result

/-- Characters behind others spell forms up to a place where no form begins, and these forms reach
the pile. -/
def SpelledOut (before : List Char) (pile : Pile) (cs : List Char) (result : List Form) : Prop :=
  ∃ text tail forms pile', cs = text ++ tail ∧ Spells before text forms ∧
    pile.pushAll forms = .ok pile' ∧ Settles (lineAfter (before ++ text)) pile' tail result

/-- Every source of fewer characters is understood, wherever it stands. -/
def Understands (n : Nat) : Prop :=
  ∀ cs : List Char, cs.length < n → ∀ (before : List Char) (pile : Pile) (result : List Form),
    (Reader.mk (lineAfter before) .idle pile).readRest cs = .ok result →
      SpelledOut before pile cs result

section

/-- What follows a text that is not empty is shorter than both together. -/
theorem length_lt_append {here rest : List Char} (h : here ≠ []) :
    rest.length < (here ++ rest).length := by
  rw [List.length_append]
  exact Nat.lt_add_of_pos_left (List.length_pos_iff.mpr h)

variable {before cs rest : List Char} {pile : Pile} {result : List Form}

/-- What is written here is part of no form, and forms are spelled behind it. -/
theorem Understands.skipped (ih : Understands cs.length) {here : List Char}
    (hcs : cs = here ++ rest) (hhere : here ≠ [])
    (h : (Reader.mk (lineAfter (before ++ here)) .idle pile).readRest rest = .ok result)
    (hskips : ∀ text forms, Spells (before ++ here) text forms →
      Spells before (here ++ text) forms) :
    SpelledOut before pile cs result := by
  subst hcs
  obtain ⟨text, tail, forms, pile', rfl, hspells, hall, hsettles⟩ :=
    ih rest (length_lt_append hhere) _ _ _ h
  rw [List.append_assoc] at hsettles
  exact ⟨here ++ text, tail, forms, pile', (List.append_assoc ..).symm, hskips text forms hspells,
    hall, hsettles⟩

/-- A form is written here, and others are spelled behind it. -/
theorem Understands.finished (ih : Understands cs.length) {here : List Char} {f : Form}
    (hcs : cs = here ++ rest) (hhere : here ≠ [])
    (h : Reader.readAfter (lineAfter (before ++ here)) pile f rest = .ok result)
    (hwrites : ∀ text tail forms, rest = text ++ tail → Spells (before ++ here) text forms →
      Spells before (here ++ text) (f :: forms)) :
    SpelledOut before pile cs result := by
  subst hcs
  obtain ⟨pushed, hpush, hread⟩ := exists_of_bind_eq_ok h
  obtain ⟨text, tail, forms, pile', hrest, hspells, hall, hsettles⟩ :=
    ih rest (length_lt_append hhere) _ _ _ hread
  rw [List.append_assoc] at hsettles
  refine ⟨here ++ text, tail, f :: forms, pile', by rw [hrest, List.append_assoc],
    hwrites text tail forms hrest hspells, ?_, hsettles⟩
  rw [Pile.pushAll_cons, hpush]
  exact hall

/-- The source ends in its last line, or goes on with the next one. -/
theorem exists_line (cs : List Char) :
    '\n' ∉ cs ∨ ∃ line rest, cs = line ++ '\n' :: rest ∧ '\n' ∉ line := by
  by_cases h : '\n' ∈ cs
  · obtain ⟨line, rest, hcs, hline⟩ := List.eq_append_cons_of_mem h
    exact .inr ⟨line, rest, hcs, hline⟩
  · exact .inl h

/-- A name and what follows it. -/
theorem exists_name (cs : List Char) :
    ∃ name rest, cs = name ++ rest ∧ (∀ c ∈ name, isDelimiter c = false) ∧ EndsName rest := by
  refine ⟨cs.takeWhile (!isDelimiter ·), cs.dropWhile (!isDelimiter ·),
    (List.takeWhile_append_dropWhile).symm, fun c hc => ?_, fun c hc => ?_⟩
  · simpa using List.all_eq_true.mp List.all_takeWhile c hc
  · have hhead := List.head?_dropWhile_not (!isDelimiter ·) cs
    rw [Option.mem_def.mp hc] at hhead
    simpa using hhead

/-- Nothing is left to spell at the end of a source. -/
theorem spelledOut_nil (h : (Reader.mk (lineAfter before) .idle pile).readRest [] = .ok result) :
    SpelledOut before pile [] result := by
  obtain ⟨frames, forms⟩ := pile
  cases frames with
  | nil =>
    obtain rfl : forms.reverse = result := Except.ok.inj h
    exact ⟨[], [], [], _, rfl, .done, rfl, .ended nofun⟩
  | cons frame frames => cases h

/-- A blank stands between forms. -/
theorem spelledOut_blank {c : Char} (hc : isBlank c = true ∨ c = ',')
    (ih : Understands (c :: rest).length)
    (h : (Reader.mk (lineAfter before) .idle pile).readRest (c :: rest) = .ok result) :
    SpelledOut before pile (c :: rest) result := by
  rw [Reader.readRest_blank hc, ← lineAfter_concat] at h
  exact ih.skipped rfl (List.cons_ne_nil c []) h fun _ _ hspells => .blank hc hspells

theorem spelledOut_comment (ih : Understands (';' :: rest).length)
    (h : (Reader.mk (lineAfter before) .idle pile).readRest (';' :: rest) = .ok result) :
    SpelledOut before pile (';' :: rest) result := by
  rcases exists_line rest with hlast | ⟨line, rest, rfl, hline⟩
  · have htail : IsLastComment (';' :: rest) := by
      rintro c hc
      obtain rfl := Option.some.inj hc
      exact ⟨rfl, by simpa using hlast⟩
    rw [Reader.readRest_lastComment htail] at h
    obtain ⟨text, tail, forms, pile', hnil, hspells, hall, hsettles⟩ := spelledOut_nil h
    obtain ⟨rfl, rfl⟩ := List.append_eq_nil_iff.mp hnil.symm
    cases hsettles with
    | ended _ => exact ⟨[], _, forms, _, rfl, hspells, hall, .ended htail⟩
  · have hnext : lineAfter (before ++ (';' :: line ++ ['\n'])) = lineAfter before + 1 := by
      rw [← List.append_assoc, lineAfter_concat, if_pos rfl, lineAfter_append_of_notMem]
      simpa using hline
    rw [← List.cons_append, Reader.readRest_comment hline, ← hnext] at h
    exact ih.skipped (by simp) (by simp) h fun _ _ hspells => by
      simpa using Spells.comment hline hspells

/-- A word spells a form of its own. -/
theorem spelledOut_word {c : Char} (hc : beginsWord c = true) (ih : Understands (c :: cs).length)
    (h : (Reader.mk (lineAfter before) .idle pile).readRest (c :: cs) = .ok result) :
    SpelledOut before pile (c :: cs) result := by
  obtain ⟨more, rest, rfl, hmore, hrest⟩ := exists_name cs
  have hword : IsWord (c :: more) :=
    ⟨⟨List.cons_ne_nil c more, List.forall_mem_cons.mpr ⟨isDelimiter_of_beginsWord hc, hmore⟩⟩,
      fun _ hd => Option.some.inj hd ▸ hc⟩
  rw [← List.cons_append, Reader.readRest_word hword hrest] at h
  obtain ⟨f, hf, h⟩ := exists_of_bind_eq_ok h
  rw [← lineAfter_append_of_notMem before (newline_notMem_of_name hword.1.2)] at h
  refine ih.finished rfl hword.1.1 h ?_
  rintro text tail forms rfl hspells
  exact .word hword hf hrest.left hspells

theorem spelledOut_keyword (ih : Understands (':' :: cs).length)
    (h : (Reader.mk (lineAfter before) .idle pile).readRest (':' :: cs) = .ok result) :
    SpelledOut before pile (':' :: cs) result := by
  have hcolon : (Reader.mk (lineAfter before) .idle pile).step ':' =
      .ok ⟨lineAfter before, .colon (lineAfter before), pile⟩ :=
    Reader.step_of_silent (by decide) rfl
  obtain ⟨name, rest, rfl, hname, hrest⟩ := exists_name cs
  cases name with
  | nil =>
    -- nothing follows the colon
    rw [Reader.readRest_of_step hcolon] at h
    cases rest with
    | nil => cases h
    | cons d rest =>
      have hstep : (Scanner.colon (lineAfter before)).step (lineAfter before) d =
          .error (.invalidToken ":" (lineAfter before)) := if_pos (hrest d rfl)
      rw [List.nil_append, Reader.readRest_cons, Reader.step, hstep] at h
      cases h
  | cons d more =>
    have hname : IsName (d :: more) := ⟨List.cons_ne_nil d more, hname⟩
    have hline : '\n' ∉ ':' :: d :: more := by
      simpa using newline_notMem_of_name hname.2
    rw [← List.cons_append, Reader.readRest_keyword hname hrest,
      ← lineAfter_append_of_notMem before hline] at h
    refine ih.finished rfl (List.cons_ne_nil _ _) h ?_
    rintro text tail forms rfl hspells
    exact .keyword hname hrest.left hspells

theorem spelledOut_character (ih : Understands ('\\' :: cs).length)
    (h : (Reader.mk (lineAfter before) .idle pile).readRest ('\\' :: cs) = .ok result) :
    SpelledOut before pile ('\\' :: cs) result := by
  cases cs with
  | nil => cases h
  | cons c cs =>
    obtain ⟨more, rest, rfl, hmore, hrest⟩ := exists_name cs
    rw [← List.cons_append, ← List.cons_append, Reader.readRest_character c hmore hrest] at h
    obtain ⟨f, hf, h⟩ := exists_of_bind_eq_ok h
    rw [← lineAfter_character before c hmore] at h
    refine ih.finished rfl (List.cons_ne_nil _ _) h ?_
    rintro text tail forms rfl hspells
    exact .character hmore hf hrest.left hspells

/-- A string that is read has an end. -/
theorem exists_spells_of_readRest {line start : Nat} {read : List Char} (cs : List Char)
    (h : (Reader.mk line (.text start read) pile).readRest cs = .ok result) :
    ∃ written text rest, cs = written ++ '"' :: rest ∧ Quoted.Spells written text := by
  match cs with
  | [] => cases h
  | c :: rest =>
    by_cases hquote : c = '"'
    · exact ⟨[], [], rest, by rw [hquote]; rfl, .nil⟩
    by_cases hescape : c = '\\'
    · subst hescape
      rw [Reader.readRest_of_step (Reader.step_backslash line pile)] at h
      match rest with
      | [] => cases h
      | e :: rest =>
        by_cases hn : e = 'n'
        · subst hn
          have hstep : (Reader.mk line (.escape start read) pile).step 'n' =
              .ok ⟨line, .text start ('\n' :: read), pile⟩ := rfl
          rw [Reader.readRest_of_step hstep] at h
          obtain ⟨written, text, rest, rfl, hspells⟩ := exists_spells_of_readRest rest h
          exact ⟨'\\' :: 'n' :: written, '\n' :: text, rest, rfl, .newline hspells⟩
        by_cases ht : e = 't'
        · subst ht
          have hstep : (Reader.mk line (.escape start read) pile).step 't' =
              .ok ⟨line, .text start ('\t' :: read), pile⟩ := rfl
          rw [Reader.readRest_of_step hstep] at h
          obtain ⟨written, text, rest, rfl, hspells⟩ := exists_spells_of_readRest rest h
          exact ⟨'\\' :: 't' :: written, '\t' :: text, rest, rfl, .tab hspells⟩
        by_cases hself : e = '"' ∨ e = '\\'
        · have hstep : (Reader.mk line (.escape start read) pile).step e =
              .ok ⟨line, .text start (e :: read), pile⟩ := by
            rcases hself with rfl | rfl <;> rfl
          rw [Reader.readRest_of_step hstep] at h
          obtain ⟨written, text, rest, rfl, hspells⟩ := exists_spells_of_readRest rest h
          exact ⟨'\\' :: e :: written, e :: text, rest, rfl, .escaped hself hspells⟩
        · -- no other escape is known
          have hunknown : ¬ (decide (e = '"') || decide (e = '\\')) = true := by simpa using hself
          rw [Reader.readRest_cons, Reader.step, Scanner.step, if_neg hn, if_neg ht,
            if_neg hunknown] at h
          cases h
    · rw [Reader.readRest_of_step (Reader.step_plain hquote hescape)] at h
      obtain ⟨written, text, rest, rfl, hspells⟩ := exists_spells_of_readRest rest h
      exact ⟨c :: written, c :: text, rest, rfl, .plain hquote hescape hspells⟩

theorem spelledOut_string (ih : Understands ('"' :: cs).length)
    (h : (Reader.mk (lineAfter before) .idle pile).readRest ('"' :: cs) = .ok result) :
    SpelledOut before pile ('"' :: cs) result := by
  obtain ⟨written, value, rest, rfl, hwritten⟩ := exists_spells_of_readRest cs
    ((Reader.readRest_of_step (Reader.step_quote _ pile) cs).symm.trans h)
  have hline : lineAfter (before ++ ('"' :: written ++ ['"'])) =
      lineAfter before + written.count '\n' := by
    rw [lineAfter_append]
    simp
  rw [← List.cons_append, Reader.readRest_string hwritten, ← hline] at h
  exact ih.finished (by simp) (by simp) h fun _ _ _ _ hspells => by
    simpa using Spells.string hwritten hspells

/-- An opening bracket begins a form that ends with the closing one. -/
theorem spelledOut_bracket (b : Bracket) (ih : Understands (b.opener ++ cs).length)
    (h : (Reader.mk (lineAfter before) .idle pile).readRest (b.opener ++ cs) = .ok result) :
    SpelledOut before pile (b.opener ++ cs) result := by
  have hopener : lineAfter (before ++ b.opener) = lineAfter before :=
    lineAfter_append_of_notMem before (by cases b <;> decide)
  have hlength : cs.length < (b.opener ++ cs).length := by
    have hopens : 0 < b.opener.length := by cases b <;> decide
    rw [List.length_append]
    omega
  rw [Reader.readRest_opener, ← hopener] at h
  obtain ⟨inner, tail, items, inside, rfl, hitems, hall, hsettles⟩ := ih cs hlength _ _ _ h
  rw [Pile.pushAll_bracket, List.append_nil] at hall
  obtain rfl := Except.ok.inj hall
  cases hsettles with
  | @closed _ _ _ _ _ f rest _ hf hrest =>
    have hcloser : lineAfter (before ++ (b.opener ++ inner ++ [b.closer])) =
        lineAfter (before ++ b.opener ++ inner) := by
      rw [← List.append_assoc before, ← List.append_assoc before]
      exact lineAfter_append_of_notMem _ (by cases b <;> decide)
    rw [List.reverse_reverse, hopener, List.append_assoc] at hf
    rw [← hcloser] at hrest
    exact ih.finished (by simp) (by simp) hrest fun _ _ _ _ hspells => by
      simpa using Spells.bracket hitems hf hspells

/-! A mark waits for as many forms as it needs, so that neither the end nor a bracket that closes
can follow it. -/

/-- A quote mark stands before a form. -/
theorem spelledOut_quote (ih : Understands ('\x27' :: cs).length)
    (h : (Reader.mk (lineAfter before) .idle pile).readRest ('\x27' :: cs) = .ok result) :
    SpelledOut before pile ('\x27' :: cs) result := by
  have hline : lineAfter (before ++ ['\x27']) = lineAfter before :=
    lineAfter_append_of_notMem before (by decide)
  rw [Reader.readRest_quoteMark, ← hline] at h
  obtain ⟨text, tail, forms, pile', rfl, hspells, hall, hsettles⟩ :=
    ih cs (Nat.lt_succ_self _) _ _ _ h
  rw [List.append_assoc] at hsettles
  cases forms with
  | nil =>
    obtain rfl := Except.ok.inj hall
    cases hsettles
  | cons f forms => exact ⟨'\x27' :: text, tail, _, pile', rfl, .quote hspells, hall, hsettles⟩

/-- A mark of metadata stands before two forms. -/
theorem spelledOut_metadata (ih : Understands ('^' :: cs).length)
    (h : (Reader.mk (lineAfter before) .idle pile).readRest ('^' :: cs) = .ok result) :
    SpelledOut before pile ('^' :: cs) result := by
  have hline : lineAfter (before ++ ['^']) = lineAfter before :=
    lineAfter_append_of_notMem before (by decide)
  rw [Reader.readRest_metadataMark, ← hline] at h
  obtain ⟨text, tail, forms, pile', rfl, hspells, hall, hsettles⟩ :=
    ih cs (Nat.lt_succ_self _) _ _ _ h
  rw [List.append_assoc] at hsettles
  cases forms with
  | nil =>
    obtain rfl := Except.ok.inj hall
    cases hsettles
  | cons m forms =>
    rw [Pile.pushAll_cons, Pile.push, Pile.deliver] at hall
    split at hall
    next flags hflags =>
      cases forms with
      | nil =>
        obtain rfl := Except.ok.inj hall
        cases hsettles
      | cons f forms =>
        change Pile.pushAll ⟨.flags _ flags :: pile.frames, pile.forms⟩ (f :: forms) = _ at hall
        rw [Pile.pushAll_cons, Pile.push, Pile.deliver] at hall
        split at hall
        next g hg =>
          refine ⟨'^' :: text, tail, g :: forms, pile', rfl, .metadata hflags hg hspells, ?_,
            hsettles⟩
          rw [Pile.pushAll_cons]
          exact hall
        next => cases hall
    next => cases hall

/-- A mark that discards stands before a form, and another one follows. -/
theorem spelledOut_discard (ih : Understands ('#' :: '_' :: cs).length)
    (h : (Reader.mk (lineAfter before) .idle pile).readRest ('#' :: '_' :: cs) = .ok result) :
    SpelledOut before pile ('#' :: '_' :: cs) result := by
  have hline : lineAfter (before ++ ['#', '_']) = lineAfter before :=
    lineAfter_append_of_notMem before (by decide)
  rw [Reader.readRest_discardMark, ← hline] at h
  obtain ⟨text, tail, forms, pile', rfl, hspells, hall, hsettles⟩ :=
    ih cs (Nat.lt_add_of_pos_right Nat.two_pos) _ _ _ h
  rw [List.append_assoc] at hsettles
  match forms with
  | [] =>
    obtain rfl := Except.ok.inj hall
    cases hsettles
  | [dropped] =>
    obtain rfl := Except.ok.inj hall
    cases hsettles
  | dropped :: f :: forms =>
    exact ⟨'#' :: '_' :: text, tail, _, pile', rfl, .discard hspells, hall, hsettles⟩

/-- A hash mark begins a set, or drops a form. -/
theorem spelledOut_hash (ih : Understands ('#' :: cs).length)
    (h : (Reader.mk (lineAfter before) .idle pile).readRest ('#' :: cs) = .ok result) :
    SpelledOut before pile ('#' :: cs) result := by
  cases cs with
  | nil => cases h
  | cons c cs =>
    by_cases hset : c = '\x7b'
    · subst hset
      exact spelledOut_bracket .hashCurly ih h
    by_cases hdiscard : c = '_'
    · subst hdiscard
      exact spelledOut_discard ih h
    · rw [Reader.readRest_of_step (Reader.step_hash _ pile), Reader.readRest_cons, Reader.step,
        Scanner.step, if_neg hset, if_neg hdiscard] at h
      cases h

/-- A closing bracket is accepted only if the innermost frame is a bracket of its kind. -/
theorem exists_bracket_of_push_closing {c : Char} {line : Nat} {pile' : Pile}
    (h : pile.push (.closing c line) = .ok pile') :
    ∃ b start acc frames f, pile.frames = .bracket b start acc :: frames ∧ b.closer = c ∧
      Frame.close b start line acc.reverse = .ok f := by
  rw [Pile.push] at h
  split at h
  next b start acc frames hframes =>
    split at h
    next hcloser =>
      obtain ⟨f, hf, -⟩ := exists_of_bind_eq_ok h
      exact ⟨b, start, acc, frames, f, hframes, hcloser, hf⟩
    next => cases h
  next => cases h

/-- A closing bracket closes the innermost one. -/
theorem spelledOut_closer {c : Char} (hc : IsCloser c)
    (h : (Reader.mk (lineAfter before) .idle pile).readRest (c :: rest) = .ok result) :
    SpelledOut before pile (c :: rest) result := by
  have hread := h
  rw [Reader.readRest_closing hc] at h
  obtain ⟨closed, hpush, -⟩ := exists_of_bind_eq_ok h
  obtain ⟨b, start, acc, frames, f, hframes, rfl, hf⟩ := exists_bracket_of_push_closing hpush
  obtain ⟨_, forms⟩ := pile
  obtain rfl : _ = Frame.bracket b start acc :: frames := hframes
  rw [readRest_closer b hf] at hread
  exact ⟨[], b.closer :: rest, [], _, rfl, .done, rfl, .closed (by rwa [List.append_nil])
    (by rwa [List.append_nil])⟩

/-- What a character does where nothing is begun. -/
theorem starts_cases (c : Char) :
    (isBlank c = true ∨ c = ',') ∨ c = ';' ∨ IsCloser c ∨
      (∃ b : Bracket, b.opener = [c]) ∨ c = '"' ∨ c = '\x27' ∨ c = '^' ∨ c = '#' ∨ c = '\\' ∨
      c = ':' ∨ beginsWord c = true := by
  by_cases hround : c = '('
  · exact .inr (.inr (.inr (.inl ⟨.round, hround ▸ rfl⟩)))
  by_cases hsquare : c = '['
  · exact .inr (.inr (.inr (.inl ⟨.square, hsquare ▸ rfl⟩)))
  by_cases hcurly : c = '\x7b'
  · exact .inr (.inr (.inr (.inl ⟨.curly, hcurly ▸ rfl⟩)))
  cases hword : beginsWord c with
  | true => simp
  | false =>
    simp only [beginsWord, isDelimiter, Bool.not_eq_false', Bool.or_eq_true, beq_iff_eq] at hword
    simp only [IsCloser]
    grind

/-- What is read is spelled, up to the end of the source or to a bracket that closes. -/
theorem spelledOut_of_readRest (cs before : List Char) (pile : Pile) (result : List Form)
    (h : (Reader.mk (lineAfter before) .idle pile).readRest cs = .ok result) :
    SpelledOut before pile cs result := by
  have ih : Understands cs.length := fun shorter hshorter before pile result h =>
    spelledOut_of_readRest shorter before pile result h
  cases cs with
  | nil => exact spelledOut_nil h
  | cons c cs =>
    rcases starts_cases c with hblank | rfl | hcloser | ⟨b, hb⟩ | rfl | rfl | rfl | rfl | rfl |
      rfl | hword
    · exact spelledOut_blank hblank ih h
    · exact spelledOut_comment ih h
    · exact spelledOut_closer hcloser h
    · have hopener : c :: cs = b.opener ++ cs := by rw [hb]; rfl
      rw [hopener] at h ih ⊢
      exact spelledOut_bracket b ih h
    · exact spelledOut_string ih h
    · exact spelledOut_quote ih h
    · exact spelledOut_metadata ih h
    · exact spelledOut_hash ih h
    · exact spelledOut_character ih h
    · exact spelledOut_keyword ih h
    · exact spelledOut_word hword ih h
termination_by cs.length

end

/-! ### Sources -/

theorem IsLastComment.endsName {tail : List Char} (h : IsLastComment tail) : EndsName tail := by
  intro c hc
  rw [(h c hc).1]
  decide

/-- Reading accepts the sources that spell something, and gives what they spell. -/
theorem readAll_eq_ok_iff {source : String} {forms : List Form} :
    readAll source = .ok forms ↔ Spelled source forms := by
  constructor
  · intro h
    obtain ⟨text, tail, read, pile', hchars, hspells, hall, hsettles⟩ :=
      spelledOut_of_readRest source.toList [] {} forms h
    rw [Pile.pushAll_top, List.append_nil] at hall
    obtain rfl := Except.ok.inj hall
    cases hsettles with
    | ended htail =>
      rw [List.reverse_reverse]
      exact ⟨text, tail, hchars, hspells, htail⟩
  · rintro ⟨text, tail, hchars, hspells, htail⟩
    have hread : readAll source = (Reader.mk (lineAfter []) .idle {}).readRest source.toList := rfl
    rw [hread, hchars, hspells.readsAs {} htail.endsName, Pile.pushAll_top, List.append_nil]
    refine (Reader.readRest_lastComment htail).trans ?_
    exact congrArg Except.ok (List.reverse_reverse forms)

end CompileWatch
