import CompileWatch.Proofs.Outcome
import CompileWatch.Reading.Source

/-!
# One source below another

A source that stands below another is read as it would be by itself, further down: the reader is in
no other state at the start of a line that no form reaches across than at the start of a source.

- `Form.moveDown`, `ReadError.moveDown` and so on: the same some lines further down.
- `moved`: a result further down; `moved_bind`, `moved_foldlM`: results put together.
- `Scanner.step_moveDown`, `Pile.push_moveDown`: one character, and one token.
- `Reader.run_moveDown`, `Reader.finish_moveDown`: the reader, on top of forms that are finished.
- `Reader.step_newline`: the end of a line completes what the end of the source would.
- `readAll_append_newline`: one source below another.
-/

namespace CompileWatch

/-! ### Further down -/

/-- The same place some lines further down. -/
def Metadata.moveDown (n : Nat) (m : Metadata) : Metadata :=
  { m with line := m.line.map (· + n), endLine := m.endLine.map (· + n) }

namespace Form

mutual

/-- The same form some lines further down. -/
def moveDown (n : Nat) : Form → Form
  | .symbol s => .symbol { s with metadata := s.metadata.moveDown n }
  | .list items m => .list (moveDownAll n items) (m.moveDown n)
  | .vector items m => .vector (moveDownAll n items) (m.moveDown n)
  | .map items => .map (moveDownAll n items)
  | .set items => .set (moveDownAll n items)
  | f => f

/-- The same forms some lines further down. -/
def moveDownAll (n : Nat) : List Form → List Form
  | [] => []
  | f :: rest => moveDown n f :: moveDownAll n rest

end

theorem moveDownAll_eq_map (n : Nat) (l : List Form) : moveDownAll n l = l.map (moveDown n) := by
  induction l with
  | nil => rfl
  | cons f rest ih => rw [moveDownAll, List.map_cons, ih]

end Form

/-- The same error some lines further down. -/
def ReadError.moveDown (n : Nat) : ReadError → ReadError
  | .unexpectedEnd line => .unexpectedEnd (line + n)
  | .unbalanced c line => .unbalanced c (line + n)
  | .invalidToken token line => .invalidToken token (line + n)
  | .danglingMetadata line => .danglingMetadata (line + n)

/-- The same token some lines further down. -/
def Token.moveDown (n : Nat) : Token → Token
  | .opening b line => .opening b (line + n)
  | .closing c line => .closing c (line + n)
  | .metadata line => .metadata (line + n)
  | .atom f => .atom (f.moveDown n)
  | t => t

/-- The same scanner some lines further down. -/
def Scanner.moveDown (n : Nat) : Scanner → Scanner
  | .word line read => .word (line + n) read
  | .text line read => .text (line + n) read
  | .escape line read => .escape (line + n) read
  | .hash line => .hash (line + n)
  | .backslash line => .backslash (line + n)
  | .character line read => .character (line + n) read
  | .colon line => .colon (line + n)
  | s => s

/-- The same unfinished form some lines further down. -/
def Frame.moveDown (n : Nat) : Frame → Frame
  | .bracket b line items => .bracket b (line + n) (items.map (Form.moveDown n))
  | .metadata line => .metadata (line + n)
  | .flags line set => .flags (line + n) set
  | frame => frame

/-- The same pile some lines further down, on top of forms that were finished before. -/
def Pile.moveDown (n : Nat) (base : List Form) (p : Pile) : Pile :=
  ⟨p.frames.map (Frame.moveDown n), p.forms.map (Form.moveDown n) ++ base⟩

/-- The same reader some lines further down, on top of forms that were finished before. -/
def Reader.moveDown (n : Nat) (base : List Form) (r : Reader) : Reader :=
  ⟨r.line + n, r.scanner.moveDown n, r.pile.moveDown n base⟩

/-! ### Results -/

variable {α β γ δ : Type} {n : Nat}

/-- A result further down, where `f` says what that is for a value. -/
def moved (n : Nat) (f : α → β) : Except ReadError α → Except ReadError β
  | .ok a => .ok (f a)
  | .error e => .error (e.moveDown n)

/-- What is read further down goes on further down. -/
theorem moved_bind {f : α → β} {h : γ → δ} {g : α → Except ReadError γ} {g' : β → Except ReadError δ}
    (hg : ∀ a, g' (f a) = moved n h (g a)) (x : Except ReadError α) :
    moved n f x >>= g' = moved n h (x >>= g) := by
  cases x with
  | error e => rfl
  | ok a => exact hg a

/-- What is made of a result is moved down with the result. -/
theorem moved_map {f : α → β} {h : γ → δ} {g : α → γ} {g' : β → δ} (hg : ∀ a, g' (f a) = h (g a))
    (x : Except ReadError α) : (moved n f x).map g' = moved n h (x.map g) := by
  cases x with
  | error e => rfl
  | ok a => exact congrArg Except.ok (hg a)

/-- What commutes with one step commutes with all of them. -/
theorem moved_foldlM {f : β → δ} {g : α → γ} {step : β → α → Except ReadError β}
    {step' : δ → γ → Except ReadError δ} (hstep : ∀ b a, step' (f b) (g a) = moved n f (step b a))
    (l : List α) (b : β) : (l.map g).foldlM step' (f b) = moved n f (l.foldlM step b) := by
  induction l generalizing b with
  | nil => rfl
  | cons a rest ih =>
    rw [List.map_cons, List.foldlM_cons, List.foldlM_cons, hstep]
    exact moved_bind ih _

/-! ### The scanner -/

/-- A symbol that is read further down has a lower place. -/
theorem symbolOfWord_moveDown (word : List Char) (line : Nat) :
    Form.symbol (symbolOfWord word (line + n)) = (Form.symbol (symbolOfWord word line)).moveDown n := by
  unfold symbolOfWord
  split
  · split <;> rfl
  · rfl

theorem atomOfWord_moveDown (word : List Char) (line : Nat) :
    atomOfWord word (line + n) = moved n (Form.moveDown n) (atomOfWord word line) := by
  simp only [atomOfWord]
  split
  · rfl
  split
  · rfl
  split
  · rfl
  split
  · split
    · rfl
    · split <;> rfl
  · exact congrArg Except.ok (symbolOfWord_moveDown word line)

theorem characterOfName_moveDown (name : List Char) (line : Nat) :
    characterOfName name (line + n) = moved n (Form.moveDown n) (characterOfName name line) := by
  unfold characterOfName
  split
  · rfl
  split
  · rfl
  split
  · rfl
  split <;> rfl

/-- The line after a character. -/
theorem line_moveDown (line : Nat) (c : Char) :
    (if c = '\n' then line + n + 1 else line + n) = (if c = '\n' then line + 1 else line) + n := by
  split
  · exact Nat.add_right_comm line n 1
  · rfl

namespace Scanner

/-- What a scanner completes, and how it goes on, some lines further down. -/
def moveResult (n : Nat) : List Token × Scanner → List Token × Scanner :=
  Prod.map (List.map (Token.moveDown n)) (moveDown n)

/-- Between forms, a scanner begins the same further down. -/
theorem stepIdle_moveDown (line : Nat) (c : Char) :
    stepIdle (line + n) c = moveResult n (stepIdle line c) := by
  simp only [stepIdle, apply_ite (moveResult n)]
  rfl

/-- What a scanner completes is moved down with the scanner. -/
theorem flush_moveDown (s : Scanner) :
    (s.moveDown n).flush = moved n (List.map (Token.moveDown n)) s.flush := by
  cases s with
  | word line read =>
    simp only [moveDown, flush, atomOfWord_moveDown]
    refine moved_map (fun f => ?_) _
    rfl
  | character line read =>
    simp only [moveDown, flush, characterOfName_moveDown]
    refine moved_map (fun f => ?_) _
    rfl
  | _ => rfl

theorem stepDelimiter_moveDown (s : Scanner) (line : Nat) (c : Char) :
    (s.moveDown n).stepDelimiter (line + n) c = moved n (moveResult n) (s.stepDelimiter line c) := by
  unfold stepDelimiter
  rw [flush_moveDown, stepIdle_moveDown]
  refine moved_bind (fun done => congrArg Except.ok ?_) _
  exact Prod.ext List.map_append.symm rfl

/-- One character. -/
theorem step_moveDown (s : Scanner) (line : Nat) (c : Char) :
    (s.moveDown n).step (line + n) c = moved n (moveResult n) (s.step line c) := by
  cases s with
  | idle => exact congrArg Except.ok (stepIdle_moveDown line c)
  | comment =>
    simp only [moveDown, step]
    split <;> rfl
  | word start read =>
    simp only [moveDown, step]
    split
    · exact stepDelimiter_moveDown (.word start read) line c
    · rfl
  | character start read =>
    simp only [moveDown, step]
    split
    · exact stepDelimiter_moveDown (.character start read) line c
    · rfl
  | keyword read =>
    simp only [moveDown, step]
    split
    · exact stepDelimiter_moveDown (.keyword read) line c
    · rfl
  | text start read =>
    simp only [moveDown, step]
    split
    · rfl
    split <;> rfl
  | escape start read =>
    simp only [moveDown, step]
    split
    · rfl
    split
    · rfl
    split
    · rfl
    · rw [line_moveDown]
      rfl
  | hash start =>
    simp only [moveDown, step]
    split
    · rfl
    split <;> rfl
  | backslash start => rfl
  | colon start =>
    simp only [moveDown, step]
    split <;> rfl

/-- The end of the source. -/
theorem finish_moveDown (s : Scanner) :
    (s.moveDown n).finish = moved n (List.map (Token.moveDown n)) s.finish := by
  cases s with
  | word line read => exact flush_moveDown (.word line read)
  | character line read => exact flush_moveDown (.character line read)
  | _ => rfl

end Scanner

/-! ### Unfinished forms -/

namespace Frame

/-- The keys that are true are keywords, which a change to the forms may keep. -/
theorem trueKeys_map {change : Form → Form}
    (hkeyword : ∀ f k, change f = .keyword k ↔ f = .keyword k)
    (hbool : ∀ f yes, change f = .bool yes ↔ f = .bool yes) (items : List Form) :
    trueKeys (items.map change) = trueKeys items := by
  fun_induction trueKeys items with
  | case1 k rest ih =>
    rw [List.map_cons, List.map_cons, (hkeyword _ k).mpr rfl, (hbool _ true).mpr rfl]
    exact congrArg (k :: ·) ih
  | case2 a b rest hother ih =>
    rw [List.map_cons, List.map_cons, trueKeys, ih]
    exact fun k ha hb => hother k ((hkeyword a k).mp ha) ((hbool b true).mp hb)
  | case3 items _ hshort =>
    match items with
    | [] => rfl
    | [f] => simp [trueKeys]
    | f :: g :: rest => exact absurd rfl (hshort f g rest)

theorem trueKeys_moveDown (items : List Form) :
    trueKeys (items.map (Form.moveDown n)) = trueKeys items :=
  trueKeys_map (fun f _ => by cases f <;> simp [Form.moveDown])
    (fun f _ => by cases f <;> simp [Form.moveDown]) items

/-- The flags that a form stands for do not depend on its place. -/
theorem flagsOf?_moveDown (f : Form) : flagsOf? (f.moveDown n) = flagsOf? f := by
  cases f with
  | map items =>
    rw [Form.moveDown, Form.moveDownAll_eq_map, flagsOf?, trueKeys_moveDown]
    rfl
  | _ => rfl

/-- A form with flags is moved down with them. -/
theorem addFlags?_moveDown (set : List String) (f : Form) :
    addFlags? set (f.moveDown n) = (addFlags? set f).map (Form.moveDown n) := by
  cases f <;> rfl

/-- What a bracket closes is moved down with the bracket. -/
theorem close_moveDown (b : Bracket) (line endLine : Nat) (items : List Form) :
    close b (line + n) (endLine + n) (items.map (Form.moveDown n)) =
      moved n (Form.moveDown n) (close b line endLine items) := by
  unfold close
  cases b with
  | curly =>
    simp only [List.length_map]
    split
    · simp [moved, Form.moveDown, Form.moveDownAll_eq_map]
    · rfl
  | _ => simp [moved, Form.moveDown, Form.moveDownAll_eq_map, Metadata.moveDown, Metadata.span]

end Frame

namespace Pile

variable {base : List Form}

/-- Forms that were there before stay where they are. -/
theorem deliver_moveDown (f : Form) (forms : List Form) (frames : List Frame) :
    deliver (f.moveDown n) (forms.map (Form.moveDown n) ++ base) (frames.map (Frame.moveDown n)) =
      moved n (moveDown n base) (deliver f forms frames) := by
  induction frames generalizing f with
  | nil => rfl
  | cons frame rest ih =>
    cases frame with
    | bracket b line items => rfl
    | quote =>
      have hquote : Form.call [.sym "quote", f.moveDown n] =
          (Form.call [.sym "quote", f]).moveDown n := rfl
      show deliver (Form.call [.sym "quote", f.moveDown n]) _ _ = _
      rw [hquote]
      exact ih _
    | metadata line =>
      simp only [List.map_cons, Frame.moveDown, deliver, Frame.flagsOf?_moveDown]
      cases Frame.flagsOf? f <;> rfl
    | flags line set =>
      simp only [List.map_cons, Frame.moveDown, deliver, Frame.addFlags?_moveDown]
      cases Frame.addFlags? set f with
      | none => rfl
      | some g => exact ih g
    | discard => rfl
    | afterDiscard => exact ih f

/-- One token. -/
theorem push_moveDown (p : Pile) (t : Token) :
    (p.moveDown n base).push (t.moveDown n) = moved n (moveDown n base) (p.push t) := by
  obtain ⟨frames, forms⟩ := p
  cases t with
  | atom f => exact deliver_moveDown f forms frames
  | closing c line =>
    cases frames with
    | nil => rfl
    | cons frame rest =>
      cases frame with
      | bracket b start items =>
        simp only [moveDown, Token.moveDown, push, List.map_cons, Frame.moveDown]
        split
        · rw [← List.map_reverse, Frame.close_moveDown]
          exact moved_bind (fun f => deliver_moveDown f forms rest) _
        · rfl
      | _ => rfl
  | _ => rfl

end Pile

/-! ### The reader -/

namespace Reader

variable {base : List Form}

/-- One character. -/
theorem step_moveDown (r : Reader) (c : Char) :
    (r.moveDown n base).step c = moved n (moveDown n base) (r.step c) := by
  unfold step
  simp only [moveDown, Scanner.step_moveDown]
  refine moved_bind (fun next => ?_) _
  rw [Scanner.moveResult, line_moveDown]
  show (next.1.map (Token.moveDown n)).foldlM Pile.push (r.pile.moveDown n base) >>= _ = _
  rw [moved_foldlM Pile.push_moveDown]
  refine moved_bind (fun pile => ?_) _
  rfl

/-- All characters. -/
theorem run_moveDown (r : Reader) (cs : List Char) :
    (r.moveDown n base).run cs = moved n (moveDown n base) (r.run cs) := by
  have h := moved_foldlM (f := moveDown n base) (g := id) step_moveDown cs r
  rwa [List.map_id] at h

/-- The end of the source. -/
theorem finish_moveDown (r : Reader) :
    (r.moveDown n base).finish =
      moved n (fun fs => base.reverse ++ fs.map (Form.moveDown n)) r.finish := by
  unfold finish
  simp only [moveDown, Scanner.finish_moveDown]
  refine moved_bind (fun tokens => ?_) _
  rw [moved_foldlM Pile.push_moveDown]
  refine moved_bind (fun pile => ?_) _
  simp only [Pile.moveDown, List.isEmpty_map]
  split
  · exact congrArg Except.ok (by simp)
  · rfl

/-- Every newline is counted. -/
theorem line_run (r : Reader) (cs : List Char) :
    Gives (fun r' => r'.line = r.line + cs.count '\n') (r.run cs) := by
  induction cs generalizing r with
  | nil => exact gives_ok rfl
  | cons c rest ih =>
    have hstep : Gives (fun r' => r'.line = if c = '\n' then r.line + 1 else r.line) (r.step c) :=
      gives_bind (fun _ _ => trivial) fun next (_ : True) =>
        gives_bind (fun _ _ => trivial) fun pile (_ : True) => gives_ok rfl
    rw [run, List.foldlM_cons]
    refine gives_bind hstep fun r' hr' r'' hr'' => ?_
    rw [ih r' r'' hr'', hr', List.count_cons]
    by_cases hc : c = '\n'
    · rw [if_pos hc, if_pos (beq_iff_eq.mpr hc)]
      omega
    · rw [if_neg hc, if_neg (by simpa using hc)]
      rfl

end Reader

/-! ### The end of a line -/

/-- The end of a line completes what the end of the source would. -/
theorem Scanner.step_newline {s : Scanner} {tokens : List Token} (h : s.finish = .ok tokens)
    (line : Nat) : s.step line '\n' = .ok (tokens, .idle) := by
  -- a word ends here, and nothing begins
  have hdelimiter {s : Scanner} (h : s.flush = .ok tokens) :
      s.stepDelimiter line '\n' = .ok (tokens, .idle) := by
    rw [stepDelimiter, h]
    show Except.ok (tokens ++ [], Scanner.idle) = _
    rw [List.append_nil]
  cases s with
  | idle | comment =>
    cases h
    rfl
  | word _ _ | character _ _ | keyword _ => exact hdelimiter h
  | _ => cases h

/-- A source that could end here goes on in the next line as one that begins, on top of its forms. -/
theorem Reader.step_newline {r : Reader} {fs : List Form} (h : r.finish = .ok fs) :
    r.step '\n' = .ok ⟨r.line + 1, .idle, ⟨[], fs.reverse⟩⟩ := by
  obtain ⟨tokens, hfinish, h⟩ := exists_of_bind_eq_ok h
  obtain ⟨⟨frames, forms⟩, hpile, h⟩ := exists_of_bind_eq_ok h
  have hnone : frames = [] := by
    cases frames with
    | nil => rfl
    | cons frame rest => cases h
  subst hnone
  obtain rfl : forms.reverse = fs := Except.ok.inj h
  unfold step
  rw [Scanner.step_newline hfinish]
  show (tokens.foldlM Pile.push r.pile >>= _) = _
  rw [hpile, List.reverse_reverse]
  rfl

/-- How many lines end in a source. -/
def newlines (source : String) : Nat := source.toList.count '\n'

/-- A source below another that can be read is read as by itself, only further down, and its forms
come after those of the other. -/
theorem readAll_append_newline {a b : String} {fs : List Form} (h : readAll a = .ok fs) :
    let n := newlines a + 1
    readAll (a ++ "\n" ++ b) = moved n (fun gs => fs ++ gs.map (Form.moveDown n)) (readAll b) := by
  intro n
  obtain ⟨r, hrun, hfinish⟩ := exists_of_bind_eq_ok h
  have hline : r.line + 1 = 1 + n := by
    rw [Reader.line_run {} a.toList r hrun]
    exact Nat.add_assoc ..
  have hbelow : Reader.mk (r.line + 1) .idle ⟨[], fs.reverse⟩ = Reader.moveDown n fs.reverse {} := by
    rw [hline]
    rfl
  have hchars : (a ++ "\n" ++ b).toList = a.toList ++ '\n' :: b.toList := by simp
  calc readAll (a ++ "\n" ++ b)
      = Reader.run {} a.toList >>= fun r =>
          (r.step '\n' >>= fun r => r.run b.toList) >>= Reader.finish := by
        rw [readAll, hchars, Reader.run_append, bind_assoc]
        rfl
    _ = (Reader.moveDown n fs.reverse {}).run b.toList >>= Reader.finish := by
        rw [hrun]
        show (r.step '\n' >>= _) >>= _ = _
        rw [Reader.step_newline hfinish, hbelow]
        rfl
    _ = moved n (fun gs => fs ++ gs.map (Form.moveDown n)) (readAll b) := by
        rw [Reader.run_moveDown, moved_bind Reader.finish_moveDown, List.reverse_reverse]
        rfl

/-- A comment ends with its line, so the bracket in it does not matter to what is read below. -/
theorem readAll_append_newline_comment :
    let f (line : Nat) : Form := .symbol { name := "f", metadata := .atLine line }
    readAll "f ; (" = .ok [f 1] ∧
      readAll ("f ; (" ++ "\n" ++ "[f\nf]") = .ok [f 1, .vector [f 2, f 3] (.span 2 3)] :=
  ⟨rfl, (readAll_append_newline rfl).trans rfl⟩

end CompileWatch
