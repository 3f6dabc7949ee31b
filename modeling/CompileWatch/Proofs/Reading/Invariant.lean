import CompileWatch.Proofs.Form.Parts
import CompileWatch.Proofs.Outcome
import CompileWatch.Reading.Source

/-!
# What holds of everything that is read

A property of forms that each way of reading a form establishes, from its parts on, holds of
every form inside every form that is read from a source.

- `IsName`, `IsWord`: what the scanner collects for a keyword and for a word.
- `ReadCases`: the property, way by way.
- `Scanner.Begun`, `Pile.Holds`: what the scanner has collected, and the unfinished forms, between
  two characters.
- `Reader.holds_step`, `Reader.holds_run`: one character, and all of them.
- `ReadCases.everywhere_of_readAll`: the forms of a source.
-/

namespace CompileWatch

/-! ### Words -/

/-- Whether a character begins a word: it neither separates words nor begins anything else. -/
def beginsWord (c : Char) : Bool :=
  !(isDelimiter c || c == '\x27' || c == '^' || c == '#' || c == '\\' || c == ':')

/-- What is collected up to a delimiter. -/
def IsName (name : List Char) : Prop := name ≠ [] ∧ ∀ c ∈ name, isDelimiter c = false

/-- What is read as a word. -/
def IsWord (word : List Char) : Prop := IsName word ∧ ∀ c ∈ word.head?, beginsWord c = true

/-- What begins a word is no delimiter. -/
theorem isDelimiter_of_beginsWord {c : Char} (h : beginsWord c = true) : isDelimiter c = false := by
  simp only [beginsWord, Bool.not_eq_true', Bool.or_eq_false_iff] at h
  exact h.1.1.1.1.1

theorem isName_singleton {c : Char} (h : isDelimiter c = false) : IsName [c] :=
  ⟨List.cons_ne_nil c [], fun _ hc => List.mem_singleton.mp hc ▸ h⟩

/-- A name goes on until a delimiter. -/
theorem IsName.concat {name : List Char} (h : IsName name) {c : Char} (hc : isDelimiter c = false) :
    IsName (name ++ [c]) := by
  refine ⟨List.append_ne_nil_of_left_ne_nil h.1 _, fun d hd => ?_⟩
  rcases List.mem_append.mp hd with hd | hd
  · exact h.2 d hd
  · exact List.mem_singleton.mp hd ▸ hc

theorem isWord_singleton {c : Char} (h : beginsWord c = true) : IsWord [c] :=
  ⟨isName_singleton (isDelimiter_of_beginsWord h), fun _ hc => Option.mem_some.mp hc ▸ h⟩

/-- A word that is spelled out. -/
theorem isWord_of_all {word : List Char}
    (h : (word.head?.any beginsWord && word.all (!isDelimiter ·)) = true) : IsWord word := by
  simp only [Bool.and_eq_true, Option.any_eq_true, List.all_eq_true, Bool.not_eq_true'] at h
  obtain ⟨⟨first, hfirst, hbegins⟩, hall⟩ := h
  refine ⟨⟨?_, hall⟩, fun c hc => ?_⟩
  · rintro rfl
    cases hfirst
  · rwa [Option.some.inj (hc.symm.trans hfirst)]

theorem IsWord.concat {word : List Char} (h : IsWord word) {c : Char} (hc : isDelimiter c = false) :
    IsWord (word ++ [c]) := by
  refine ⟨h.1.concat hc, fun d hd => h.2 d ?_⟩
  obtain ⟨first, rest, rfl⟩ := List.exists_cons_of_ne_nil h.1.1
  exact hd

/-- A character that begins a word does nothing else. -/
theorem stepIdle_of_beginsWord {c : Char} (h : beginsWord c = true) (line : Nat) :
    Scanner.stepIdle line c = ([], .word line [c]) := by
  simp only [beginsWord, isDelimiter, Bool.not_eq_true', Bool.or_eq_false_iff,
    beq_eq_false_iff_ne] at h
  simp [Scanner.stepIdle, h]

/-- A word is the text of its symbol. -/
theorem text_symbolOfWord (word : List Char) (line : Nat) :
    (symbolOfWord word line).text.toList = word := by
  unfold symbolOfWord
  split
  next slash name rest hdrop =>
    split
    · simp [Symbol.text]
    next hns =>
      -- the slash is the first character that is not passed over
      have hslash : slash = '/' := by
        have hhead := List.head?_dropWhile_not (· != '/') word
        rw [hdrop] at hhead
        simpa using hhead
      have hword := List.takeWhile_append_dropWhile (p := (· != '/')) (l := word)
      rw [hdrop, hslash] at hword
      simpa [Symbol.text] using hword
  · simp [Symbol.text]

/-- An integer that is read has 64 bits. -/
theorem fitsInt64_of_readInt64? {word : List Char} {n : Int} (h : readInt64? word = some n) :
    fitsInt64 n = true := by
  simp only [readInt64?, Option.ite_none_right_eq_some, Option.some.injEq] at h
  exact h.2.2 ▸ h.2.1

/-! ### Ways of reading a form -/

/-- A property that holds of whatever is read, way by way. -/
structure ReadCases (P : Form → Prop) : Prop where
  nil : P .nil
  bool (b : Bool) : P (.bool b)
  int {n : Int} (h : fitsInt64 n = true) : P (.int n)
  float (x : Binary64) : P (.float x)
  char (c : Char) : P (.char c)
  str (s : String) : P (.str s)
  keyword {name : List Char} (h : IsName name) : P (.keyword (String.ofList name))
  symbol {word : List Char} (h : IsWord word)
    (hword : ∀ line, atomOfWord word line = .ok (.symbol (symbolOfWord word line))) (line : Nat) :
    P (.symbol (symbolOfWord word line))
  quoteSymbol : P (.sym "quote")
  quote (f : Form) : P (.call [.sym "quote", f])
  list (items : List Form) (line endLine : Nat) : P (.list items (.span line endLine))
  vector (items : List Form) (line endLine : Nat) : P (.vector items (.span line endLine))
  map {items : List Form} (h : items.length % 2 = 0) : P (.map items)
  set (items : List Form) : P (.set items)
  flags {f g : Form} {flags : List String} (h : P f) (hg : Frame.addFlags? flags f = some g) : P g

namespace ReadCases

variable {P : Form → Prop} (ways : ReadCases P)
include ways

/-- A quoted form keeps what the form has everywhere. -/
theorem everywhere_quote {f : Form} (h : f.Everywhere P) :
    (Form.call [.sym "quote", f]).Everywhere P := by
  refine Form.everywhere_list.mpr ⟨ways.quote f, fun c hc => ?_⟩
  rcases List.mem_cons.mp hc with rfl | hc
  · exact Form.everywhere_of_leaf rfl ways.quoteSymbol
  · rw [List.mem_singleton.mp hc]
    exact h

/-- Flags change no part of a form. -/
theorem everywhere_addFlags {f g : Form} {flags : List String} (h : f.Everywhere P)
    (hg : Frame.addFlags? flags f = some g) : g.Everywhere P := by
  have hself : P g := ways.flags h.self hg
  have hparts := (Form.everywhere_iff.mp h).2
  cases f with
  | symbol s => cases hg; exact Form.everywhere_iff.mpr ⟨hself, hparts⟩
  | list items m => cases hg; exact Form.everywhere_iff.mpr ⟨hself, hparts⟩
  | vector items m => cases hg; exact Form.everywhere_iff.mpr ⟨hself, hparts⟩
  | _ => cases hg

theorem everywhere_close (b : Bracket) (line endLine : Nat) {items : List Form}
    (h : ∀ c ∈ items, c.Everywhere P) :
    Gives (·.Everywhere P) (Frame.close b line endLine items) := by
  cases b with
  | round => exact gives_ok (Form.everywhere_iff.mpr ⟨ways.list .., h⟩)
  | square => exact gives_ok (Form.everywhere_iff.mpr ⟨ways.vector .., h⟩)
  | hashCurly => exact gives_ok (Form.everywhere_iff.mpr ⟨ways.set _, h⟩)
  | curly =>
    rw [Frame.close]
    split
    next heven => exact gives_ok (Form.everywhere_iff.mpr ⟨ways.map heven, h⟩)
    · exact gives_error _

/-- An atom has what every atom has. -/
theorem everywhere_atomOfWord {word : List Char} (h : IsWord word) (line : Nat) :
    Gives (·.Everywhere P) (atomOfWord word line) := by
  simp only [atomOfWord]
  split
  · exact gives_ok (Form.everywhere_of_leaf rfl ways.nil)
  split
  · exact gives_ok (Form.everywhere_of_leaf rfl (ways.bool true))
  split
  · exact gives_ok (Form.everywhere_of_leaf rfl (ways.bool false))
  next hnil htrue hfalse =>
    split
    · split
      next n hn =>
        exact gives_ok (Form.everywhere_of_leaf rfl (ways.int (fitsInt64_of_readInt64? hn)))
      next =>
        split
        · exact gives_ok (Form.everywhere_of_leaf rfl (ways.float _))
        · exact gives_error _
    next hnumber =>
      refine gives_ok (Form.everywhere_of_leaf rfl (ways.symbol h (fun line' => ?_) line))
      simp only [atomOfWord, if_neg hnil, if_neg htrue, if_neg hfalse, if_neg hnumber]

theorem everywhere_characterOfName (name : List Char) (line : Nat) :
    Gives (·.Everywhere P) (characterOfName name line) := by
  have hchar : ∀ c, Gives (·.Everywhere P) (.ok (.char c) : Except ReadError Form) :=
    fun c => gives_ok (Form.everywhere_of_leaf rfl (ways.char c))
  unfold characterOfName
  split
  · exact hchar _
  split
  · exact hchar _
  split
  · exact hchar _
  split
  · exact hchar _
  · exact gives_error _

end ReadCases

/-! ### The scanner -/

/-- A token whose form, if it has one, has a property everywhere. -/
def Token.Holds (P : Form → Prop) : Token → Prop
  | .atom f => f.Everywhere P
  | _ => True

namespace Scanner

/-- What was collected is what can be collected. -/
def Begun : Scanner → Prop
  | .word _ read => IsWord read.reverse
  | .keyword read => IsName read.reverse
  | _ => True

/-- What a scanner completes, and how it goes on. -/
def Completes (P : Form → Prop) (r : List Token × Scanner) : Prop :=
  (∀ t ∈ r.1, t.Holds P) ∧ r.2.Begun

variable {P : Form → Prop}

/-- A scanner may go on without completing anything. -/
theorem completes_none {s : Scanner} (h : s.Begun) : Completes P ([], s) := ⟨by simp, h⟩

/-- A scanner may complete one thing and begin anew. -/
theorem completes_one {t : Token} (h : t.Holds P) : Completes P ([t], .idle) :=
  ⟨by simpa using h, trivial⟩

/-- Whichever way the scanner goes. -/
theorem completes_ite {p : Prop} [Decidable p] {a b : List Token × Scanner} (ha : Completes P a)
    (hb : ¬ p → Completes P b) : Completes P (if p then a else b) := by
  split
  · exact ha
  next h => exact hb h

/-- Between forms a scanner begins something, or completes what stands alone. -/
theorem completes_stepIdle (line : Nat) (c : Char) : Completes P (stepIdle line c) := by
  by_cases hc : beginsWord c = true
  · rw [stepIdle_of_beginsWord hc]
    exact completes_none (s := .word line [c]) (isWord_singleton hc)
  · refine completes_ite (completes_none trivial) fun hblank => ?_
    refine completes_ite (completes_none trivial) fun hcomment => ?_
    refine completes_ite (completes_one trivial) fun hround => ?_
    refine completes_ite (completes_one trivial) fun hsquare => ?_
    refine completes_ite (completes_one trivial) fun hcurly => ?_
    refine completes_ite (completes_one trivial) fun hcloser => ?_
    refine completes_ite (completes_none trivial) fun htext => ?_
    refine completes_ite (completes_one trivial) fun hquote => ?_
    refine completes_ite (completes_one trivial) fun hmetadata => ?_
    refine completes_ite (completes_none trivial) fun hhash => ?_
    refine completes_ite (completes_none trivial) fun hbackslash => ?_
    refine completes_ite (completes_none trivial) fun hcolon => ?_
    -- no other character is left
    exact absurd (by simp_all [beginsWord, isDelimiter]) hc

section

variable (ways : ReadCases P)
include ways

/-- What a scanner completes in the end has the property. -/
theorem holds_flush {s : Scanner} (h : s.Begun) :
    Gives (fun ts => ∀ t ∈ ts, t.Holds P) s.flush := by
  have hone : ∀ f : Form, f.Everywhere P → ∀ t ∈ [Token.atom f], t.Holds P :=
    fun f hf t ht => List.mem_singleton.mp ht ▸ hf
  cases s with
  | word line read => exact gives_map (ways.everywhere_atomOfWord h line) hone
  | character line read => exact gives_map (ways.everywhere_characterOfName _ _) hone
  | keyword read => exact gives_ok (hone _ (Form.everywhere_of_leaf rfl (ways.keyword h)))
  | _ => exact gives_ok (by simp)

/-- Before a delimiter a scanner completes what was begun. -/
theorem completes_stepDelimiter {s : Scanner} (h : s.Begun) (line : Nat) (c : Char) :
    Gives (Completes P) (s.stepDelimiter line c) := by
  refine gives_bind (holds_flush ways h) fun done hdone => gives_ok ?_
  obtain ⟨htokens, hnext⟩ := completes_stepIdle (P := P) line c
  refine ⟨fun t ht => ?_, hnext⟩
  rcases List.mem_append.mp ht with ht | ht
  · exact hdone t ht
  · exact htokens t ht

/-- One character. -/
theorem completes_step {s : Scanner} (h : s.Begun) (line : Nat) (c : Char) :
    Gives (Completes P) (s.step line c) := by
  have hnone : ∀ s : Scanner, s.Begun → Gives (Completes P) (.ok ([], s) : Except ReadError _) :=
    fun s hs => gives_ok (completes_none hs)
  have hone : ∀ t : Token, t.Holds P →
      Gives (Completes P) (.ok ([t], .idle) : Except ReadError _) :=
    fun t ht => gives_ok (completes_one ht)
  cases s with
  | idle => exact gives_ok (completes_stepIdle line c)
  | comment =>
    refine hnone _ ?_
    split <;> trivial
  | word start read =>
    simp only [step]
    split
    · exact completes_stepDelimiter ways h line c
    next hc =>
      refine hnone (.word start (c :: read)) ?_
      rw [Begun, List.reverse_cons]
      exact IsWord.concat h (Bool.not_eq_true _ ▸ hc)
  | character start read =>
    simp only [step]
    split
    · exact completes_stepDelimiter ways h line c
    · exact hnone _ trivial
  | keyword read =>
    simp only [step]
    split
    · exact completes_stepDelimiter ways h line c
    next hc =>
      refine hnone (.keyword (c :: read)) ?_
      rw [Begun, List.reverse_cons]
      exact IsName.concat h (Bool.not_eq_true _ ▸ hc)
  | text start read =>
    simp only [step]
    split
    · exact hone _ (Form.everywhere_of_leaf rfl (ways.str _))
    split
    · exact hnone _ trivial
    · exact hnone _ trivial
  | escape start read =>
    simp only [step]
    split
    · exact hnone _ trivial
    split
    · exact hnone _ trivial
    split
    · exact hnone _ trivial
    · exact gives_error _
  | hash start =>
    simp only [step]
    split
    · exact hone _ trivial
    split
    · exact hone _ trivial
    · exact gives_error _
  | backslash start => exact hnone _ trivial
  | colon start =>
    simp only [step]
    split
    · exact gives_error _
    next hc => exact hnone (.keyword [c]) (isName_singleton (Bool.not_eq_true _ ▸ hc))

/-- The end of the source. -/
theorem holds_finish {s : Scanner} (h : s.Begun) :
    Gives (fun ts => ∀ t ∈ ts, t.Holds P) s.finish := by
  cases s with
  | text _ _ | escape _ _ | backslash _ | hash _ | colon _ => exact gives_error _
  | _ => exact holds_flush ways h

end

end Scanner

/-! ### Unfinished forms -/

/-- Every item of an open bracket has a property everywhere. -/
def Frame.Holds (P : Form → Prop) : Frame → Prop
  | .bracket _ _ items => ∀ f ∈ items, f.Everywhere P
  | _ => True

/-- Everything on a pile has a property. -/
structure Pile.Holds (P : Form → Prop) (p : Pile) : Prop where
  frames : ∀ frame ∈ p.frames, frame.Holds P
  forms : ∀ f ∈ p.forms, f.Everywhere P

namespace Pile

variable {P : Form → Prop} (ways : ReadCases P)
include ways

/-- A finished form reaches the frames. -/
theorem holds_deliver {f : Form} {forms : List Form} {frames : List Frame} (hf : f.Everywhere P)
    (hforms : ∀ g ∈ forms, g.Everywhere P) (hframes : ∀ frame ∈ frames, frame.Holds P) :
    Gives (Holds P) (deliver f forms frames) := by
  induction frames generalizing f with
  | nil => exact gives_ok ⟨hframes, List.forall_mem_cons.mpr ⟨hf, hforms⟩⟩
  | cons frame rest ih =>
    obtain ⟨hframe, hrest⟩ := List.forall_mem_cons.mp hframes
    -- a mark in place of the one that has its form
    have hmark : ∀ mark : Frame, mark.Holds P →
        Gives (Holds P) (.ok ⟨mark :: rest, forms⟩ : Except ReadError Pile) :=
      fun mark hmark => gives_ok ⟨List.forall_mem_cons.mpr ⟨hmark, hrest⟩, hforms⟩
    cases frame with
    | bracket b line items => exact hmark _ (List.forall_mem_cons.mpr ⟨hf, hframe⟩)
    | quote => exact ih (ways.everywhere_quote hf) hrest
    | metadata line =>
      simp only [deliver]
      split
      · exact hmark _ trivial
      · exact gives_error _
    | flags line flags =>
      simp only [deliver]
      split
      next g hg => exact ih (ways.everywhere_addFlags hf hg) hrest
      next => exact gives_error _
    | discard => exact hmark _ trivial
    | afterDiscard => exact ih hf hrest

/-- One token. -/
theorem holds_push {p : Pile} (h : p.Holds P) {t : Token} (ht : t.Holds P) :
    Gives (Holds P) (p.push t) := by
  have hopen : ∀ frame : Frame, frame.Holds P →
      Gives (Holds P) (.ok { p with frames := frame :: p.frames } : Except ReadError Pile) :=
    fun frame hframe => gives_ok ⟨List.forall_mem_cons.mpr ⟨hframe, h.frames⟩, h.forms⟩
  cases t with
  | opening b line => exact hopen _ (by simp [Frame.Holds])
  | quote => exact hopen _ trivial
  | metadata line => exact hopen _ trivial
  | discard => exact hopen _ trivial
  | atom f => exact holds_deliver ways ht h.forms h.frames
  | closing c line =>
    -- the items of the innermost bracket become one form, which reaches the other frames
    simp only [push]
    split
    next b start items rest hp =>
      have hframes := h.frames
      rw [hp] at hframes
      obtain ⟨hitems, hrest⟩ := List.forall_mem_cons.mp hframes
      have hclosed : ∀ g ∈ items.reverse, g.Everywhere P :=
        fun g hg => hitems g (List.mem_reverse.mp hg)
      split
      · exact gives_bind (ways.everywhere_close b start line hclosed)
          fun f hf => holds_deliver ways hf h.forms hrest
      · exact gives_error _
    next => exact gives_error _

end Pile

/-! ### Sources -/

namespace Reader

variable {P : Form → Prop}

/-- Between two characters, what was collected can be collected, and the pile has a property. -/
structure Holds (P : Form → Prop) (r : Reader) : Prop where
  scanner : r.scanner.Begun
  pile : r.pile.Holds P

variable (ways : ReadCases P)
include ways

/-- One character. -/
theorem holds_step {r : Reader} (h : r.Holds P) (c : Char) : Gives (Holds P) (r.step c) := by
  refine gives_bind (Scanner.completes_step ways h.scanner r.line c) fun next hnext => ?_
  refine gives_bind (gives_foldlM (fun p hp t ht => Pile.holds_push ways hp (hnext.1 t ht)) h.pile)
    fun pile hpile => ?_
  exact gives_ok ⟨hnext.2, hpile⟩

/-- All characters. -/
theorem holds_run {r : Reader} (h : r.Holds P) (cs : List Char) : Gives (Holds P) (r.run cs) :=
  gives_foldlM (fun _ hr c _ => holds_step ways hr c) h

/-- The end of the source. -/
theorem everywhere_finish {r : Reader} (h : r.Holds P) :
    Gives (fun fs => ∀ f ∈ fs, f.Everywhere P) r.finish := by
  refine gives_bind (Scanner.holds_finish ways h.scanner) fun tokens htokens => ?_
  refine gives_bind (gives_foldlM (fun p hp t ht => Pile.holds_push ways hp (htokens t ht)) h.pile)
    fun pile hpile => ?_
  split
  · exact gives_ok fun f hf => hpile.forms f (List.mem_reverse.mp hf)
  · exact gives_error _

end Reader

/-- What every way of reading establishes holds everywhere in the forms of a source. -/
theorem ReadCases.everywhere_of_readAll {P : Form → Prop} (ways : ReadCases P) {source : String}
    {forms : List Form} (h : readAll source = .ok forms) : ∀ f ∈ forms, f.Everywhere P := by
  have hstart : Reader.Holds P {} := ⟨trivial, by simp, by simp⟩
  exact gives_bind (Reader.holds_run ways hstart source.toList)
    (fun r hr => Reader.everywhere_finish ways hr) forms h

end CompileWatch
