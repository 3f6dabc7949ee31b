import CompileWatch.Proofs.Reading.Invariant

/-!
# How much text a form takes

Every form that is read takes some characters of the source of its own. So a source of a given
length has no longer symbols, and no more of them.

- `Form.extent`: how many characters it takes at least to write a form.
- `Form.Part.extent_le`: a part takes no more of them than the whole.
- `Reader.extent`: what has been taken between two characters.
- `Reader.extent_step`, `Reader.extent_run`: one character, and all of them.
- `extentAll_of_readAll`: the forms of a source.
-/

namespace CompileWatch

namespace Form

mutual

/-- How many characters it takes at least to write a form. A quoted form can be written with a
mark, which stands for its brackets and for the operator in them. -/
def extent : Form → Nat
  | .symbol s => if s.text = "quote" then 1 else max 1 s.text.length
  | .list items _ => max 1 (extentAll items)
  | .vector items _ => max 1 (extentAll items)
  | .map items => max 1 (extentAll items)
  | .set items => max 1 (extentAll items)
  | _ => 1

/-- The same for forms in a row. -/
def extentAll : List Form → Nat
  | [] => 0
  | f :: rest => extent f + extentAll rest

end

/-- Every form has an extent. -/
theorem one_le_extent (f : Form) : 1 ≤ f.extent := by
  cases f with
  | symbol s =>
    rw [extent]
    split <;> omega
  | list items m | vector items m | map items | set items => exact Nat.le_max_left 1 _
  | _ => exact Nat.le_refl 1

/-- Forms in a row are no more than their extent. -/
theorem length_le_extentAll (l : List Form) : l.length ≤ extentAll l := by
  induction l with
  | nil => exact Nat.le_refl 0
  | cons f rest ih =>
    have hf := f.one_le_extent
    rw [List.length_cons, extentAll]
    omega

/-- Extents add up. -/
theorem extentAll_append (l l' : List Form) : extentAll (l ++ l') = extentAll l + extentAll l' := by
  induction l with
  | nil => exact (Nat.zero_add _).symm
  | cons f rest ih => rw [List.cons_append, extentAll, extentAll, ih, Nat.add_assoc]

theorem extentAll_reverse (l : List Form) : extentAll l.reverse = extentAll l := by
  induction l with
  | nil => rfl
  | cons f rest ih =>
    rw [List.reverse_cons, extentAll_append, ih, extentAll, extentAll, extentAll, Nat.add_comm]
    rfl

/-- A form in a row has no more extent than the row. -/
theorem extent_le_extentAll {f : Form} {l : List Form} (h : f ∈ l) : f.extent ≤ extentAll l := by
  obtain ⟨before, after, rfl⟩ := List.append_of_mem h
  rw [extentAll_append, extentAll]
  omega

/-- The parts of a form have no more extent than the form. -/
theorem extentAll_children_le (f : Form) : extentAll f.children ≤ f.extent := by
  cases f with
  | list items m | vector items m | map items | set items => exact Nat.le_max_right 1 _
  | _ => exact Nat.zero_le _

/-- A part of a form takes no more text than the form. -/
theorem Part.extent_le {f g : Form} (h : Part g f) : g.extent ≤ f.extent := by
  induction h with
  | here => exact Nat.le_refl _
  | inside hc _ ih =>
    exact Nat.le_trans ih (Nat.le_trans (extent_le_extentAll hc) (extentAll_children_le _))

/-- The text of a symbol is bounded by its extent. -/
theorem length_text_le (s : Symbol) : s.text.length ≤ max 5 (Form.symbol s).extent := by
  rw [extent]
  split
  next htext =>
    rw [htext]
    exact Nat.le_max_left 5 _
  · omega

end Form

open Form (extentAll)

/-! ### Tokens -/

namespace Token

/-- How many characters a token takes at least. What closes a bracket is counted with what opens
it. -/
def extent : Token → Nat
  | .atom f => f.extent
  | .quote => 1
  | .opening _ _ => 1
  | _ => 0

/-- The same for tokens in a row. -/
def extentAll : List Token → Nat
  | [] => 0
  | t :: rest => extent t + extentAll rest

theorem extentAll_append (l l' : List Token) : extentAll (l ++ l') = extentAll l + extentAll l' := by
  induction l with
  | nil => exact (Nat.zero_add _).symm
  | cons t rest ih => rw [List.cons_append, extentAll, extentAll, ih, Nat.add_assoc]

end Token

/-- The atom that a word writes takes no more characters than the word. -/
theorem extent_atomOfWord (word : List Char) (line : Nat) :
    Gives (fun f => f.extent ≤ max 1 word.length) (atomOfWord word line) := by
  have hone : ∀ f : Form, f.extent = 1 →
      Gives (fun f => f.extent ≤ max 1 word.length) (.ok f : Except ReadError Form) :=
    fun f hf => gives_ok (Nat.le_trans (Nat.le_of_eq hf) (Nat.le_max_left 1 _))
  simp only [atomOfWord]
  split
  · exact hone _ rfl
  split
  · exact hone _ rfl
  split
  · exact hone _ rfl
  split
  · split
    · exact hone _ rfl
    · split
      · exact hone _ rfl
      · exact gives_error _
  · refine gives_ok ?_
    rw [Form.extent, ← String.length_toList, text_symbolOfWord]
    split
    · exact Nat.le_max_left 1 _
    · exact Nat.le_refl _

/-- A character has the extent of one. -/
theorem extent_characterOfName (name : List Char) (line : Nat) :
    Gives (fun f => f.extent ≤ 1) (characterOfName name line) := by
  have hchar : ∀ c, Gives (fun f : Form => f.extent ≤ 1) (.ok (.char c) : Except ReadError Form) :=
    fun c => gives_ok (Nat.le_refl 1)
  unfold characterOfName
  split
  · exact hchar _
  split
  · exact hchar _
  split
  · exact hchar _
  split
  · exact hchar _
  · exact gives_error _

/-! ### The scanner -/

namespace Scanner

/-- How many characters the scanner has taken at least for what is not completed. -/
def extent : Scanner → Nat
  | .idle => 0
  | .comment => 0
  | .word _ read => max 1 read.length
  | _ => 1

/-- What is completed, and what is not, takes no more than so many characters. -/
def Takes (n : Nat) (r : List Token × Scanner) : Prop := Token.extentAll r.1 + r.2.extent ≤ n

/-- Whichever way the scanner goes. -/
theorem takes_ite {n : Nat} {p : Prop} [Decidable p] {a b : List Token × Scanner} (ha : Takes n a)
    (hb : Takes n b) : Takes n (if p then a else b) := by
  split
  · exact ha
  · exact hb

/-- A character that begins something adds one to the extent. -/
theorem takes_stepIdle (line : Nat) (c : Char) : Takes 1 (stepIdle line c) := by
  have hmore (s : Scanner) (hs : s.extent ≤ 1) : Takes 1 ([], s) := by
    rw [Takes, Token.extentAll, Nat.zero_add]
    exact hs
  have hone (t : Token) (ht : t.extent ≤ 1) : Takes 1 ([t], .idle) := ht
  refine takes_ite (hmore _ (Nat.zero_le _)) <| takes_ite (hmore _ (Nat.zero_le _)) ?_
  refine takes_ite (hone _ (Nat.le_refl _)) <| takes_ite (hone _ (Nat.le_refl _)) ?_
  refine takes_ite (hone _ (Nat.le_refl _)) <| takes_ite (hone _ (Nat.zero_le _)) ?_
  refine takes_ite (hmore _ (Nat.le_refl _)) <| takes_ite (hone _ (Nat.le_refl _)) ?_
  refine takes_ite (hone _ (Nat.zero_le _)) <| takes_ite (hmore _ (Nat.le_refl _)) ?_
  refine takes_ite (hmore _ (Nat.le_refl _)) <| takes_ite (hmore _ (Nat.le_refl _)) ?_
  exact hmore _ (Nat.le_refl _)

/-- What is completed was collected before. -/
theorem extent_flush (s : Scanner) : Gives (fun ts => Token.extentAll ts ≤ s.extent) s.flush := by
  cases s with
  | word line read =>
    refine gives_map (extent_atomOfWord _ line) fun f hf => ?_
    rwa [List.length_reverse] at hf
  | character line read => exact gives_map (extent_characterOfName _ _) fun f hf => hf
  | keyword read => exact gives_ok (Nat.le_refl 1)
  | _ => exact gives_ok (Nat.zero_le _)

/-- A delimiter adds one at most. -/
theorem takes_stepDelimiter (s : Scanner) (line : Nat) (c : Char) :
    Gives (Takes (s.extent + 1)) (s.stepDelimiter line c) := by
  refine gives_bind s.extent_flush fun done hdone => gives_ok ?_
  have hnext : Token.extentAll (stepIdle line c).1 + (stepIdle line c).2.extent ≤ 1 :=
    takes_stepIdle line c
  show Token.extentAll (done ++ (stepIdle line c).1) + (stepIdle line c).2.extent ≤ _
  rw [Token.extentAll_append]
  omega

/-- One character. -/
theorem takes_step (s : Scanner) (line : Nat) (c : Char) :
    Gives (Takes (s.extent + 1)) (s.step line c) := by
  have hmore (n : Nat) (s : Scanner) (hs : s.extent ≤ n) :
      Gives (Takes n) (.ok ([], s) : Except ReadError _) := by
    refine gives_ok ?_
    rw [Takes, Token.extentAll, Nat.zero_add]
    exact hs
  have hone (n : Nat) (t : Token) (ht : t.extent ≤ n) :
      Gives (Takes n) (.ok ([t], .idle) : Except ReadError _) := gives_ok ht
  cases s with
  | idle => exact gives_ok (takes_stepIdle line c)
  | comment =>
    refine hmore _ _ ?_
    split <;> exact Nat.zero_le _
  | word start read =>
    simp only [step]
    split
    · exact takes_stepDelimiter _ line c
    · refine hmore _ _ ?_
      rw [extent, extent, List.length_cons]
      omega
  | character start read =>
    simp only [step]
    split
    · exact takes_stepDelimiter _ line c
    · exact hmore _ _ (Nat.le_succ 1)
  | keyword read =>
    simp only [step]
    split
    · exact takes_stepDelimiter _ line c
    · exact hmore _ _ (Nat.le_succ 1)
  | text start read =>
    simp only [step]
    split
    · exact hone _ _ (Nat.le_succ 1)
    split
    · exact hmore _ _ (Nat.le_succ 1)
    · exact hmore _ _ (Nat.le_succ 1)
  | escape start read =>
    simp only [step]
    split
    · exact hmore _ _ (Nat.le_succ 1)
    split
    · exact hmore _ _ (Nat.le_succ 1)
    split
    · exact hmore _ _ (Nat.le_succ 1)
    · exact gives_error _
  | hash start =>
    simp only [step]
    split
    · exact hone _ _ (Nat.le_succ 1)
    split
    · exact hone _ _ (Nat.zero_le _)
    · exact gives_error _
  | backslash start => exact hmore _ _ (Nat.le_succ 1)
  | colon start =>
    simp only [step]
    split
    · exact gives_error _
    · exact hmore _ _ (Nat.le_succ 1)

/-- The end of the source. -/
theorem extent_finish (s : Scanner) : Gives (fun ts => Token.extentAll ts ≤ s.extent) s.finish := by
  cases s with
  | text _ _ | escape _ _ | backslash _ | hash _ | colon _ => exact gives_error _
  | _ => exact extent_flush _

end Scanner

/-! ### Unfinished forms -/

namespace Frame

/-- How many characters an unfinished form takes at least. -/
def extent : Frame → Nat
  | .bracket _ _ items => 1 + Form.extentAll items
  | .quote => 1
  | _ => 0

/-- The same for all frames of a pile. -/
def extentAll : List Frame → Nat
  | [] => 0
  | frame :: rest => extent frame + extentAll rest

/-- Flags are not counted. -/
theorem extent_addFlags? {f g : Form} {flags : List String} (h : addFlags? flags f = some g) :
    g.extent = f.extent := by
  cases f with
  | symbol s => cases h; rfl
  | list items m => cases h; rfl
  | vector items m => cases h; rfl
  | _ => cases h

/-- A bracket adds one to what stands in it. -/
theorem extent_close (b : Bracket) (line endLine : Nat) (items : List Form) :
    Gives (fun f => f.extent ≤ 1 + Form.extentAll items) (close b line endLine items) := by
  have hitems : max 1 (Form.extentAll items) ≤ 1 + Form.extentAll items := by omega
  cases b with
  | round | square | hashCurly => exact gives_ok hitems
  | curly =>
    rw [close]
    split
    · exact gives_ok hitems
    · exact gives_error _

end Frame

namespace Pile

/-- How many characters the forms on a pile take at least. -/
def extent (p : Pile) : Nat := Frame.extentAll p.frames + Form.extentAll p.forms

/-- A finished form reaches the frames. -/
theorem extent_deliver (f : Form) (forms : List Form) (frames : List Frame) :
    Gives (fun p => p.extent ≤ f.extent + (Frame.extentAll frames + Form.extentAll forms))
      (deliver f forms frames) := by
  induction frames generalizing f with
  | nil =>
    refine gives_ok ?_
    rw [extent, Frame.extentAll, Form.extentAll]
    omega
  | cons frame rest ih =>
    rw [Frame.extentAll]
    -- a mark in place of the one that has its form
    have hmark (mark : Frame) (hm : mark.extent ≤ f.extent + frame.extent) :
        Gives (fun p : Pile => p.extent ≤
          f.extent + (frame.extent + Frame.extentAll rest + Form.extentAll forms))
          (.ok ⟨mark :: rest, forms⟩ : Except ReadError Pile) := by
      refine gives_ok ?_
      show mark.extent + Frame.extentAll rest + Form.extentAll forms ≤ _
      omega
    -- a form that goes on to the other frames
    have hpassed (g : Form) (hg : g.extent ≤ f.extent + frame.extent) :
        Gives (fun p : Pile => p.extent ≤
          f.extent + (frame.extent + Frame.extentAll rest + Form.extentAll forms))
          (deliver g forms rest) := by
      intro p hp
      have hrest := ih g p hp
      omega
    cases frame with
    | bracket b line items =>
      refine hmark _ ?_
      rw [Frame.extent, Frame.extent, Form.extentAll]
      omega
    | quote =>
      refine hpassed _ ?_
      show max 1 (1 + (f.extent + 0)) ≤ f.extent + 1
      omega
    | metadata line =>
      simp only [deliver]
      split
      · exact hmark _ (Nat.zero_le _)
      · exact gives_error _
    | flags line flags =>
      simp only [deliver]
      split
      next g hg =>
        refine hpassed _ ?_
        rw [Frame.extent_addFlags? hg]
        exact Nat.le_add_right _ _
      next => exact gives_error _
    | discard => exact hmark _ (Nat.zero_le _)
    | afterDiscard => exact hpassed _ (Nat.le_add_right _ _)

/-- One token. -/
theorem extent_push (p : Pile) (t : Token) :
    Gives (fun q => q.extent ≤ p.extent + t.extent) (p.push t) := by
  have hopen (frame : Frame) (hframe : frame.extent ≤ t.extent) :
      Gives (fun q : Pile => q.extent ≤ p.extent + t.extent)
        (.ok { p with frames := frame :: p.frames } : Except ReadError Pile) := by
    refine gives_ok ?_
    show frame.extent + Frame.extentAll p.frames + Form.extentAll p.forms ≤
      Frame.extentAll p.frames + Form.extentAll p.forms + t.extent
    omega
  cases t with
  | opening b line => exact hopen _ (Nat.le_refl 1)
  | quote => exact hopen _ (Nat.le_refl 1)
  | metadata line => exact hopen _ (Nat.le_refl 0)
  | discard => exact hopen _ (Nat.le_refl 0)
  | atom f =>
    intro q hq
    have hle := extent_deliver f p.forms p.frames q hq
    show q.extent ≤ Frame.extentAll p.frames + Form.extentAll p.forms + f.extent
    omega
  | closing c line =>
    simp only [push]
    split
    next b start items rest hp =>
      split
      · refine gives_bind (Frame.extent_close b start line items.reverse) fun f hf q hq => ?_
        have hle := extent_deliver f p.forms rest q hq
        rw [Form.extentAll_reverse] at hf
        have hframes : Frame.extentAll p.frames =
            1 + Form.extentAll items + Frame.extentAll rest := by
          rw [hp, Frame.extentAll, Frame.extent]
        show q.extent ≤ Frame.extentAll p.frames + Form.extentAll p.forms + 0
        omega
      · exact gives_error _
    next => exact gives_error _

/-- Tokens in a row. -/
theorem extent_foldlM_push (p : Pile) (ts : List Token) :
    Gives (fun q => q.extent ≤ p.extent + Token.extentAll ts) (ts.foldlM push p) := by
  induction ts generalizing p with
  | nil => exact gives_ok (Nat.le_refl _)
  | cons t rest ih =>
    rw [List.foldlM_cons]
    refine gives_bind (extent_push p t) fun q hq q' hq' => ?_
    have hrest := ih q q' hq'
    rw [Token.extentAll]
    omega

end Pile

/-! ### Sources -/

namespace Reader

/-- How many characters have been taken at least. -/
def extent (r : Reader) : Nat := r.scanner.extent + r.pile.extent

/-- One character. -/
theorem extent_step (r : Reader) (c : Char) :
    Gives (fun r' => r'.extent ≤ r.extent + 1) (r.step c) := by
  refine gives_bind (r.scanner.takes_step r.line c) fun next hnext => ?_
  refine gives_bind (r.pile.extent_foldlM_push next.1) fun pile hpile => gives_ok ?_
  rw [Scanner.Takes] at hnext
  show next.2.extent + pile.extent ≤ r.scanner.extent + r.pile.extent + 1
  omega

/-- All characters. -/
theorem extent_run (r : Reader) (cs : List Char) :
    Gives (fun r' => r'.extent ≤ r.extent + cs.length) (r.run cs) := by
  unfold run
  induction cs generalizing r with
  | nil => exact gives_ok (Nat.le_refl _)
  | cons c rest ih =>
    rw [List.foldlM_cons]
    refine gives_bind (extent_step r c) fun r' hr' r'' hr'' => ?_
    have hrest := ih r' r'' hr''
    rw [List.length_cons]
    omega

/-- The end of the source. -/
theorem extent_finish (r : Reader) : Gives (fun fs => extentAll fs ≤ r.extent) r.finish := by
  refine gives_bind r.scanner.extent_finish fun tokens htokens => ?_
  refine gives_bind (r.pile.extent_foldlM_push tokens) fun pile hpile => ?_
  split
  · refine gives_ok ?_
    rw [Pile.extent] at hpile
    rw [Form.extentAll_reverse, extent]
    omega
  · exact gives_error _

end Reader

/-- The forms of a source take no more characters than it has. -/
theorem extentAll_of_readAll {source : String} {forms : List Form} (h : readAll source = .ok forms) :
    extentAll forms ≤ source.length := by
  have hall : Gives (fun fs => extentAll fs ≤ source.length) (readAll source) := by
    refine gives_bind (Reader.extent_run {} source.toList) fun r hr fs hfs => ?_
    have hfinish := r.extent_finish fs hfs
    have hstart : Reader.extent {} = 0 := rfl
    rw [String.length_toList] at hr
    omega
  exact hall forms h

end CompileWatch
