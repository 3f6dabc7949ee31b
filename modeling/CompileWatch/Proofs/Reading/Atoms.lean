import CompileWatch.Proofs.Reading.Legible

/-!
# Atoms read back

The characters of an atom are read as the atom, in front of whatever can follow it: a delimiter or
the end of the source, and after a string anything at all. A string is read back as long as its
characters are plain; one that is not is written with an escape that the scanner does not know.

- `Reader.readRest`, `Reader.readAfter`: what is left of a source, and what is left of it once a
  form is finished.
- `EndsName`, `Scanner.Collects`: how names end.
- `Reader.readRest_word`, `readRest_keyword`, `readRest_character`: the atoms that end like names.
- `Quoted.Spells`, `Reader.readRest_string`: what is written between quotes, and strings.
- `Reader.readRest_quoted`: a string as it is written.
- `Reader.readRest_quoted_invalid`: a string that is not plain.
-/

namespace CompileWatch

/-! ### The rest of a source -/

namespace Reader

/-- Read what is left of a source. -/
def readRest (r : Reader) (cs : List Char) : Except ReadError (List Form) := r.run cs >>= finish

/-- Read what follows a form that is finished. -/
def readAfter (line : Nat) (pile : Pile) (f : Form) (rest : List Char) :
    Except ReadError (List Form) :=
  pile.push (.atom f) >>= fun pile' => (Reader.mk line .idle pile').readRest rest

variable {line : Nat} {pile : Pile}

/-- Reading goes on from where the reader stands. -/
theorem readRest_append {r r' : Reader} {as : List Char} (h : r.run as = .ok r') (bs : List Char) :
    r.readRest (as ++ bs) = r'.readRest bs := by
  rw [readRest, run_append, h]
  rfl

theorem readRest_nil (r : Reader) : r.readRest [] = r.finish := rfl

/-- The rest of a source is read character by character. -/
theorem readRest_cons (r : Reader) (c : Char) (cs : List Char) :
    r.readRest (c :: cs) = r.step c >>= fun r' => r'.readRest cs := by
  rw [readRest, run, List.foldlM_cons, bind_assoc]
  rfl

theorem run_cons {r r' : Reader} {c : Char} (h : r.step c = .ok r') (cs : List Char) :
    r.run (c :: cs) = r'.run cs := by
  rw [run, List.foldlM_cons, h]
  rfl

/-- A line ends a name. -/
theorem ne_newline {c : Char} (h : isDelimiter c = false) : c ≠ '\n' := by
  rintro rfl
  exact absurd h (by decide)

/-- A character that the scanner keeps to itself. -/
theorem step_of_silent {scanner next : Scanner} {c : Char} (hc : c ≠ '\n')
    (h : scanner.step line c = .ok ([], next)) :
    (Reader.mk line scanner pile).step c = .ok ⟨line, next, pile⟩ := by
  simp only [step, h]
  show Except.ok (Reader.mk (if c = '\n' then line + 1 else line) next pile) = _
  rw [if_neg hc]

end Reader

/-- What can follow a name: nothing, or a delimiter. -/
def EndsName (rest : List Char) : Prop := ∀ c ∈ rest.head?, isDelimiter c = true

/-- A scanner that has collected a name, which a delimiter or the end of the source completes. -/
structure Scanner.Collects (s : Scanner) : Prop where
  finish_eq : s.finish = s.flush
  step_delimiter (line : Nat) {c : Char} (hc : isDelimiter c = true) :
    s.step line c = s.stepDelimiter line c

namespace Scanner

/-- Within a word, characters are collected. -/
theorem collects_word (start : Nat) (read : List Char) : (Scanner.word start read).Collects :=
  ⟨rfl, fun _ _ hc => if_pos hc⟩

theorem collects_character (start : Nat) (read : List Char) :
    (Scanner.character start read).Collects :=
  ⟨rfl, fun _ _ hc => if_pos hc⟩

theorem collects_keyword (read : List Char) : (Scanner.keyword read).Collects :=
  ⟨rfl, fun _ _ hc => if_pos hc⟩

end Scanner

namespace Reader

variable {line : Nat} {pile : Pile} {rest : List Char}

/-- A name that ends is completed, and what follows it is read with nothing begun. -/
theorem readRest_flush {s : Scanner} (hs : s.Collects) (hrest : EndsName rest) :
    (Reader.mk line s pile).readRest rest =
      s.flush >>= fun tokens => tokens.foldlM Pile.push pile >>= fun pile' =>
        (Reader.mk line .idle pile').readRest rest := by
  cases rest with
  | nil =>
    rw [readRest_nil, finish, hs.finish_eq]
    rfl
  | cons c rest =>
    have hc : isDelimiter c = true := hrest c rfl
    have hstep : (Reader.mk line s pile).step c =
        s.flush >>= fun tokens => tokens.foldlM Pile.push pile >>= fun pile' =>
          (Reader.mk line .idle pile').step c := by
      simp only [step, hs.step_delimiter line hc, Scanner.stepDelimiter, bind_assoc, pure_bind,
        List.foldlM_append]
      rfl
    rw [readRest_cons, hstep]
    simp only [bind_assoc, readRest_cons]

/-- What follows a name is read as what follows the form that it stands for, if it stands for one.
-/
theorem readRest_of_collects {s : Scanner} (hs : s.Collects) {r : Except ReadError Form}
    (hr : s.flush = r.map fun f => [.atom f]) (hrest : EndsName rest) :
    (Reader.mk line s pile).readRest rest = r >>= fun f => readAfter line pile f rest := by
  rw [readRest_flush hs hrest, hr]
  cases r with
  | error e => rfl
  | ok f =>
    show [Token.atom f].foldlM Pile.push pile >>= _ = _
    rw [List.foldlM_cons, bind_assoc]
    rfl

/-- Characters that a scanner collects, none of them a delimiter. -/
theorem run_collected (collected : List Char → Scanner)
    (hcollected : ∀ read line c, isDelimiter c = false →
      (collected read).step line c = .ok ([], collected (c :: read)))
    {cs : List Char} (hcs : ∀ c ∈ cs, isDelimiter c = false) (read : List Char) :
    (Reader.mk line (collected read) pile).run cs =
      .ok ⟨line, collected (cs.reverse ++ read), pile⟩ := by
  induction cs generalizing read with
  | nil => rfl
  | cons c rest ih =>
    obtain ⟨hc, hrest⟩ := List.forall_mem_cons.mp hcs
    rw [run, List.foldlM_cons, step_of_silent (ne_newline hc) (hcollected read line c hc),
      List.reverse_cons, List.append_assoc]
    exact ih hrest (c :: read)

/-! ### Atoms -/

/-- A word, in front of what can follow it. -/
theorem readRest_word {word : List Char} (hword : IsWord word) (hrest : EndsName rest) :
    (Reader.mk line .idle pile).readRest (word ++ rest) =
      atomOfWord word line >>= fun f => readAfter line pile f rest := by
  obtain ⟨first, more, rfl⟩ := List.exists_cons_of_ne_nil hword.1.1
  obtain ⟨hfirst, hmore⟩ := List.forall_mem_cons.mp hword.1.2
  have hstep : (Reader.mk line .idle pile).step first = .ok ⟨line, .word line [first], pile⟩ :=
    step_of_silent (ne_newline hfirst)
      (congrArg Except.ok (stepIdle_of_beginsWord (hword.2 first rfl) line))
  have hrun : (Reader.mk line .idle pile).run (first :: more) =
      .ok ⟨line, .word line (more.reverse ++ [first]), pile⟩ := by
    rw [run_cons hstep]
    exact run_collected (.word line) (fun _ _ _ hc => if_neg (ne_true_of_eq_false hc)) hmore [first]
  rw [readRest_append hrun]
  refine readRest_of_collects (Scanner.collects_word _ _) ?_ hrest
  rw [Scanner.flush, List.reverse_append, List.reverse_reverse]
  rfl

/-- A keyword is read from its name, up to what ends it. -/
theorem readRest_keyword {name : List Char} (hname : IsName name) (hrest : EndsName rest) :
    (Reader.mk line .idle pile).readRest (':' :: name ++ rest) =
      readAfter line pile (.keyword (String.ofList name)) rest := by
  obtain ⟨first, more, rfl⟩ := List.exists_cons_of_ne_nil hname.1
  obtain ⟨hfirst, hmore⟩ := List.forall_mem_cons.mp hname.2
  have hcolon : (Reader.mk line .idle pile).step ':' = .ok ⟨line, .colon line, pile⟩ :=
    step_of_silent (by decide) rfl
  have hstep : (Reader.mk line (.colon line) pile).step first =
      .ok ⟨line, .keyword [first], pile⟩ :=
    step_of_silent (ne_newline hfirst) (if_neg (ne_true_of_eq_false hfirst))
  have hrun : (Reader.mk line .idle pile).run (':' :: first :: more) =
      .ok ⟨line, .keyword (more.reverse ++ [first]), pile⟩ := by
    rw [run_cons hcolon, run_cons hstep]
    exact run_collected .keyword (fun _ _ _ hc => if_neg (ne_true_of_eq_false hc)) hmore [first]
  rw [readRest_append hrun]
  refine readRest_of_collects (Scanner.collects_keyword _) (r := .ok _) ?_ hrest
  rw [Scanner.flush, List.reverse_append, List.reverse_reverse]
  rfl

/-- Any character after a backslash, delimiters among them, and what follows it in its name. -/
theorem readRest_character (c : Char) {more : List Char} (hmore : ∀ d ∈ more, isDelimiter d = false)
    (hrest : EndsName rest) :
    (Reader.mk line .idle pile).readRest ('\\' :: c :: more ++ rest) =
      characterOfName (c :: more) line >>= fun f =>
        readAfter (if c = '\n' then line + 1 else line) pile f rest := by
  have hbackslash : (Reader.mk line .idle pile).step '\\' = .ok ⟨line, .backslash line, pile⟩ :=
    step_of_silent (by decide) rfl
  have hstep : (Reader.mk line (.backslash line) pile).step c =
      .ok ⟨if c = '\n' then line + 1 else line, .character line [c], pile⟩ := rfl
  have hrun : (Reader.mk line .idle pile).run ('\\' :: c :: more) =
      .ok ⟨if c = '\n' then line + 1 else line, .character line (more.reverse ++ [c]), pile⟩ := by
    rw [run_cons hbackslash, run_cons hstep]
    exact run_collected (.character line) (fun _ _ _ hc => if_neg (ne_true_of_eq_false hc)) hmore
      [c]
  rw [readRest_append hrun]
  refine readRest_of_collects (Scanner.collects_character _ _) ?_ hrest
  rw [Scanner.flush, List.reverse_append, List.reverse_reverse]
  rfl

/-- A character that stands for itself. -/
theorem readRest_char (c : Char) (hrest : EndsName rest) :
    (Reader.mk line .idle pile).readRest ('\\' :: c :: rest) =
      readAfter (if c = '\n' then line + 1 else line) pile (.char c) rest :=
  readRest_character c (List.forall_mem_nil _) hrest

end Reader

/-! ### Strings -/

/-- Reading fails at a token that is no form. -/
def IsInvalid {α : Type} (r : Except ReadError α) : Prop :=
  ∃ token line, r = .error (.invalidToken token line)

/-- What follows an invalid token does not matter. -/
theorem IsInvalid.bind {α β : Type} {r : Except ReadError α} (h : IsInvalid r)
    (f : α → Except ReadError β) : IsInvalid (r >>= f) := by
  obtain ⟨token, line, rfl⟩ := h
  exact ⟨token, line, rfl⟩

namespace Quoted

/-- A character whose written form is itself, or an escape that the scanner knows. -/
def IsPlain (c : Char) : Prop :=
  encodeChar c = [c] ∨ c = '"' ∨ c = '\\' ∨ c = '\n' ∨ c = '\t'

/-- Every other character is written with an escape that the scanner does not know. -/
theorem isPlain_or_escape (c : Char) : IsPlain c ∨
    ∃ e rest, (e = '0' ∨ e = 'r' ∨ e = 'u') ∧ encodeChar c = '\\' :: e :: rest := by
  unfold IsPlain encodeChar
  split
  · exact .inr ⟨'0', [], .inl rfl, rfl⟩
  split
  next htab => exact .inl (.inr (.inr (.inr (.inr htab))))
  split
  · exact .inr ⟨'r', [], .inr (.inl rfl), rfl⟩
  split
  next hnewline => exact .inl (.inr (.inr (.inr (.inl hnewline))))
  split
  next hquote => exact .inl (.inr (.inl hquote))
  split
  next hbackslash => exact .inl (.inr (.inr (.inl hbackslash)))
  split
  · exact .inl (.inl rfl)
  split
  · exact .inr ⟨'u', _, .inr (.inr rfl), rfl⟩
  · exact .inl (.inl rfl)

/-- How a text is written between quotes: as it is, or with the escapes that the scanner knows. -/
inductive Spells : (written text : List Char) → Prop where
  | nil : Spells [] []
  | plain {c : Char} {written text : List Char} (hquote : c ≠ '"') (hescape : c ≠ '\\')
      (h : Spells written text) : Spells (c :: written) (c :: text)
  | newline {written text : List Char} (h : Spells written text) :
      Spells ('\\' :: 'n' :: written) ('\n' :: text)
  | tab {written text : List Char} (h : Spells written text) :
      Spells ('\\' :: 't' :: written) ('\t' :: text)
  | escaped {c : Char} {written text : List Char} (hc : c = '"' ∨ c = '\\')
      (h : Spells written text) : Spells ('\\' :: c :: written) (c :: text)

/-- A plain character that is written as itself is none of those that are escaped. -/
theorem ne_of_encodeChar_eq {c d : Char} (h : encodeChar c = [c]) (hd : encodeChar d ≠ [d]) :
    c ≠ d := by
  rintro rfl
  exact hd h

/-- A plain character is spelled by its encoding. -/
theorem spells_encodeChar {c : Char} {written text : List Char} (h : IsPlain c)
    (hrest : Spells written text) : Spells (encodeChar c ++ written) (c :: text) := by
  rcases h with h | rfl | rfl | rfl | rfl
  · rw [h]
    exact .plain (ne_of_encodeChar_eq h (by decide)) (ne_of_encodeChar_eq h (by decide)) hrest
  · exact .escaped (.inl rfl) hrest
  · exact .escaped (.inr rfl) hrest
  · exact .newline hrest
  · exact .tab hrest

/-- A newline is written with an escape. -/
theorem newline_notMem_encodeChar {c : Char} (h : IsPlain c) : '\n' ∉ encodeChar c := by
  rcases h with h | rfl | rfl | rfl | rfl
  · rw [h, List.mem_singleton]
    exact (ne_of_encodeChar_eq h (by decide)).symm
  all_goals decide

/-- A plain text is spelled by its encoding. -/
theorem spells_encode {cs : List Char} (h : ∀ c ∈ cs, IsPlain c) : Spells (encode cs) cs := by
  induction cs with
  | nil => exact .nil
  | cons c rest ih =>
    obtain ⟨hc, hrest⟩ := List.forall_mem_cons.mp h
    rw [encode, List.flatMap_cons]
    exact spells_encodeChar hc (ih hrest)

theorem newline_notMem_encode {cs : List Char} (h : ∀ c ∈ cs, IsPlain c) : '\n' ∉ encode cs := by
  rw [encode, List.mem_flatMap]
  rintro ⟨c, hc, hmem⟩
  exact newline_notMem_encodeChar (h c hc) hmem

end Quoted

namespace Reader

variable {line : Nat} {pile : Pile} {start : Nat} {read : List Char} {rest : List Char}

/-- A quote begins a text. -/
theorem step_quote (line : Nat) (pile : Pile) :
    (Reader.mk line .idle pile).step '"' = .ok ⟨line, .text line [], pile⟩ :=
  step_of_silent (by decide) rfl

/-- A backslash begins an escape. -/
theorem step_backslash (line : Nat) (pile : Pile) :
    (Reader.mk line (.text start read) pile).step '\\' = .ok ⟨line, .escape start read, pile⟩ :=
  step_of_silent (by decide) rfl

/-- A character of a string that is written as it is. -/
theorem step_plain {c : Char} (hquote : c ≠ '"') (hescape : c ≠ '\\') :
    (Reader.mk line (.text start read) pile).step c =
      .ok ⟨if c = '\n' then line + 1 else line, .text start (c :: read), pile⟩ := by
  simp only [step, Scanner.step, if_neg hquote, if_neg hescape]
  rfl

/-- What is written between quotes. -/
theorem run_spelled {written text : List Char} (h : Quoted.Spells written text) :
    (Reader.mk line (.text start read) pile).run written =
      .ok ⟨line + written.count '\n', .text start (text.reverse ++ read), pile⟩ := by
  induction h generalizing line read with
  | nil => rfl
  | @plain c written text hquote hescape h ih =>
    rw [run_cons (step_plain hquote hescape), ih, List.reverse_cons, List.append_assoc,
      List.count_cons]
    by_cases hc : c = '\n'
    · simp [hc, Nat.add_comm, Nat.add_left_comm]
    · simp [hc]
  | @newline written text h ih =>
    have hstep : (Reader.mk line (.escape start read) pile).step 'n' =
        .ok ⟨line, .text start ('\n' :: read), pile⟩ := rfl
    rw [run_cons (step_backslash line pile), run_cons hstep, ih]
    simp
  | @tab written text h ih =>
    have hstep : (Reader.mk line (.escape start read) pile).step 't' =
        .ok ⟨line, .text start ('\t' :: read), pile⟩ := rfl
    rw [run_cons (step_backslash line pile), run_cons hstep, ih]
    simp
  | @escaped c written text hc h ih =>
    have hstep : (Reader.mk line (.escape start read) pile).step c =
        .ok ⟨line, .text start (c :: read), pile⟩ := by
      rcases hc with rfl | rfl <;> rfl
    have hline : c ≠ '\n' := by rcases hc with rfl | rfl <;> decide
    rw [run_cons (step_backslash line pile), run_cons hstep, ih]
    simp [hline]

/-- A string, in front of anything. -/
theorem readRest_string {written text : List Char} (h : Quoted.Spells written text) :
    (Reader.mk line .idle pile).readRest ('"' :: written ++ '"' :: rest) =
      readAfter (line + written.count '\n') pile (.str (String.ofList text)) rest := by
  have hscanner : (Scanner.text line text.reverse).step (line + written.count '\n') '"' =
      .ok ([.atom (.str (String.ofList text))], .idle) := by
    rw [Scanner.step, if_pos rfl, List.reverse_reverse]
  rw [List.cons_append, readRest_cons, step_quote]
  show readRest _ (written ++ '"' :: rest) = _
  rw [readRest_append (run_spelled h), List.append_nil]
  simp only [readRest_cons, step, hscanner]
  show [Token.atom (.str (String.ofList text))].foldlM Pile.push pile >>= _ >>= _ = _
  rw [List.foldlM_cons, bind_assoc, bind_assoc]
  rfl

theorem run_encodeChar_invalid {c : Char} (h : ¬ Quoted.IsPlain c) :
    IsInvalid ((Reader.mk line (.text start read) pile).run (Quoted.encodeChar c)) := by
  obtain ⟨e, rest, he, hencode⟩ := (Quoted.isPlain_or_escape c).resolve_left h
  rw [hencode, run_cons (step_backslash line pile)]
  refine ⟨String.ofList ['\\', e], line, ?_⟩
  rcases he with rfl | rfl | rfl
  all_goals rfl

/-- A text that is not plain makes an invalid token. -/
theorem run_encode_invalid {cs : List Char} (h : ¬ ∀ c ∈ cs, Quoted.IsPlain c) :
    IsInvalid ((Reader.mk line (.text start read) pile).run (Quoted.encode cs)) := by
  induction cs generalizing line read with
  | nil => exact absurd (by simp) h
  | cons c rest ih =>
    rw [Quoted.encode, List.flatMap_cons, run_append]
    by_cases hc : Quoted.IsPlain c
    · rw [← List.append_nil (Quoted.encodeChar c),
        run_spelled (Quoted.spells_encodeChar hc .nil)]
      exact ih fun hrest => h (List.forall_mem_cons.mpr ⟨hc, hrest⟩)
    · exact (run_encodeChar_invalid hc).bind _

/-- A string of plain characters, in front of anything. -/
theorem readRest_quoted {s : String} (h : ∀ c ∈ s.toList, Quoted.IsPlain c) :
    (Reader.mk line .idle pile).readRest ((quoted s).toList ++ rest) =
      readAfter line pile (.str s) rest := by
  have hline : (Quoted.encode s.toList).count '\n' = 0 :=
    List.count_eq_zero.mpr (Quoted.newline_notMem_encode h)
  rw [quoted, String.toList_ofList, List.cons_append, List.cons_append, List.append_assoc]
  refine (readRest_string (Quoted.spells_encode h)).trans ?_
  rw [hline, String.ofList_toList]
  rfl

theorem readRest_quoted_invalid {s : String} (h : ¬ ∀ c ∈ s.toList, Quoted.IsPlain c) :
    IsInvalid ((Reader.mk line .idle pile).readRest ((quoted s).toList ++ rest)) := by
  rw [quoted, String.toList_ofList, List.cons_append, List.cons_append, readRest_cons, step_quote]
  show IsInvalid (readRest _ (Quoted.encode s.toList ++ ['"'] ++ rest))
  rw [List.append_assoc, readRest, run_append, bind_assoc]
  exact (run_encode_invalid h).bind _

end Reader

end CompileWatch
