import CompileWatch.Proofs.Reading.Acceptance

/-!
# The lines of what is read

The lines that are recorded in the forms of a source follow the order of the text: those inside a
list or a vector lie between its own two lines, and of two parts of a form the later one begins no
earlier than the other one ends.

- `Form.Records`: a line that is recorded in a form.
- `Form.InOrder`: the lines in a form follow each other.
- `Ordered`: the same for forms in a row, between two lines.
- `Spells.ordered`: what is spelled is in order.
- `readAll_placed`: the forms of a source.
-/

namespace CompileWatch

namespace Form

/-- A line is recorded at a form, as its first or its last one, or at a form inside it. -/
def Records (f : Form) (n : Nat) : Prop := ∃ g, Part g f ∧ (g.line? = some n ∨ g.endLine? = some n)

/-- No line that is recorded in one form is below one that is recorded in another. -/
def Precedes (f g : Form) : Prop := ∀ m n, f.Records m → g.Records n → m ≤ n

/-- The lines in a form are in order. -/
structure InOrder (f : Form) : Prop where
  /-- Between the first line and the last one. -/
  within : ∀ line endLine n, f.line? = some line → f.endLine? = some endLine → f.Records n →
    line ≤ n ∧ n ≤ endLine
  /-- One part after the other. -/
  inTurn : f.children.Pairwise Precedes

variable {f g : Form} {n : Nat}

/-- A form records a line at its own ends or in its parts. -/
theorem records_iff : f.Records n ↔
    (f.line? = some n ∨ f.endLine? = some n) ∨ ∃ c ∈ f.children, c.Records n := by
  constructor
  · rintro ⟨g, hg, hn⟩
    cases hg with
    | here => exact .inl hn
    | inside hc hpart => exact .inr ⟨_, hc, g, hpart, hn⟩
  · rintro (hn | ⟨c, hc, g, hg, hn⟩)
    · exact ⟨f, .here, hn⟩
    · exact ⟨g, .inside hc hg, hn⟩

/-- A form without parts that records no other line than this one, as its first. -/
structure IsAt (line : Nat) (f : Form) : Prop where
  children : f.children = []
  endLine : f.endLine? = none
  line : ∀ n, f.line? = some n → n = line

/-- A form at a line records no other one. -/
theorem IsAt.eq {line : Nat} (h : f.IsAt line) (hn : f.Records n) : n = line := by
  rcases records_iff.mp hn with (hn | hn) | ⟨c, hc, -⟩
  · exact h.line n hn
  · rw [h.endLine] at hn
    cases hn
  · rw [h.children] at hc
    cases hc

theorem IsAt.inOrder {line : Nat} (h : f.IsAt line) : f.Everywhere InOrder := by
  refine everywhere_of_leaf h.children ⟨fun _ _ _ _ hend => ?_, ?_⟩
  · rw [h.endLine] at hend
    cases hend
  · rw [h.children]
    exact .nil

/-- A form that records no line. -/
theorem isAt_of_metadata?_eq_none {line : Nat} (hchildren : f.children = [])
    (h : f.metadata? = none) : f.IsAt line where
  children := hchildren
  endLine := by rw [endLine?, h]; rfl
  line n hn := by rw [line?, h] at hn; cases hn

theorem isAt_symbolOfWord (word : List Char) (line : Nat) :
    (Form.symbol (symbolOfWord word line)).IsAt line := by
  have hmetadata : (symbolOfWord word line).metadata = .atLine line := by
    unfold symbolOfWord
    split
    · split <;> rfl
    · rfl
  refine ⟨rfl, ?_, fun n hn => ?_⟩
  · show (symbolOfWord word line).metadata.endLine = none
    rw [hmetadata]
    rfl
  · have hn : (symbolOfWord word line).metadata.line = some n := hn
    rw [hmetadata] at hn
    exact (Option.some.inj hn).symm

/-- An atom is at the line of its word. -/
theorem isAt_atomOfWord (word : List Char) (line : Nat) :
    Gives (IsAt line) (atomOfWord word line) := by
  have hplain : ∀ f : Form, f.children = [] → f.metadata? = none →
      Gives (IsAt line) (.ok f : Except ReadError Form) :=
    fun f hchildren hmetadata => gives_ok (isAt_of_metadata?_eq_none hchildren hmetadata)
  simp only [atomOfWord]
  split
  · exact hplain _ rfl rfl
  split
  · exact hplain _ rfl rfl
  split
  · exact hplain _ rfl rfl
  split
  · split
    · exact hplain _ rfl rfl
    · split
      · exact hplain _ rfl rfl
      · exact gives_error _
  · exact gives_ok (isAt_symbolOfWord word line)

/-- A character is at the line where its name ends. -/
theorem isAt_characterOfName (name : List Char) (line : Nat) :
    Gives (IsAt line) (characterOfName name line) := by
  have hchar : ∀ c, Gives (IsAt line) (.ok (.char c) : Except ReadError Form) :=
    fun c => gives_ok (isAt_of_metadata?_eq_none rfl rfl)
  unfold characterOfName
  split
  · exact hchar _
  split
  · exact hchar _
  split
  · exact hchar _
  split
  · exact hchar _
  · exact gives_error _

end Form

open Form (Records Precedes InOrder IsAt)

/-- Forms in a row whose lines are in order, between two lines. -/
structure Ordered (first last : Nat) (forms : List Form) : Prop where
  within {f : Form} (hf : f ∈ forms) {n : Nat} (hn : f.Records n) : first ≤ n ∧ n ≤ last
  inTurn : forms.Pairwise Precedes
  inside {f : Form} (hf : f ∈ forms) : f.Everywhere InOrder

namespace Ordered

variable {first middle last : Nat} {f g : Form} {forms : List Form}

theorem nil : Ordered first last [] := ⟨nofun, .nil, nofun⟩

/-- One more form in front, which ends before the others begin. -/
theorem cons (hf : ∀ n, f.Records n → first ≤ n ∧ n ≤ middle) (hinside : f.Everywhere InOrder)
    (hfirst : first ≤ middle) (hlast : middle ≤ last) (h : Ordered middle last forms) :
    Ordered first last (f :: forms) where
  within hg n hn := by
    rcases List.mem_cons.mp hg with rfl | hg
    · exact ⟨(hf n hn).1, Nat.le_trans (hf n hn).2 hlast⟩
    · exact ⟨Nat.le_trans hfirst (h.within hg hn).1, (h.within hg hn).2⟩
  inTurn := List.pairwise_cons.mpr
    ⟨fun g hg m n hm hn => Nat.le_trans (hf m hm).2 (h.within hg hn).1, h.inTurn⟩
  inside hg := by
    rcases List.mem_cons.mp hg with rfl | hg
    · exact hinside
    · exact h.inside hg

/-- An atom in front. -/
theorem cons_atom (hf : f.IsAt first) (hfirst : first ≤ middle) (hlast : middle ≤ last)
    (h : Ordered middle last forms) : Ordered first last (f :: forms) := by
  refine cons (fun n hn => ?_) hf.inOrder hfirst hlast h
  rw [hf.eq hn]
  exact ⟨Nat.le_refl first, hfirst⟩

/-- Forms are in order behind an earlier line too. -/
theorem mono (hfirst : first ≤ middle) (h : Ordered middle last forms) : Ordered first last forms :=
  ⟨fun hf _ hn => ⟨Nat.le_trans hfirst (h.within hf hn).1, (h.within hf hn).2⟩, h.inTurn, h.inside⟩

theorem tail (h : Ordered first last (f :: forms)) : Ordered first last forms :=
  ⟨fun hg _ hn => h.within (List.mem_cons_of_mem f hg) hn, (List.pairwise_cons.mp h.inTurn).2,
    fun hg => h.inside (List.mem_cons_of_mem f hg)⟩

/-- Another form in front, with the same lines in it. -/
theorem replace (h : Ordered first last (f :: forms)) (hrecords : ∀ n, g.Records n → f.Records n)
    (hinside : f.Everywhere InOrder → g.Everywhere InOrder) : Ordered first last (g :: forms) where
  within hc n hn := by
    rcases List.mem_cons.mp hc with rfl | hc
    · exact h.within List.mem_cons_self (hrecords n hn)
    · exact h.tail.within hc hn
  inTurn := by
    obtain ⟨hf, hforms⟩ := List.pairwise_cons.mp h.inTurn
    exact List.pairwise_cons.mpr ⟨fun c hc m n hm hn => hf c hc m n (hrecords m hm) hn, hforms⟩
  inside hc := by
    rcases List.mem_cons.mp hc with rfl | hc
    · exact hinside (h.inside List.mem_cons_self)
    · exact h.tail.inside hc

end Ordered

/-! ### What is spelled -/

namespace Form

variable {f g : Form} {n : Nat}

/-- Flags change neither lines nor parts. -/
theorem metadata?_addFlags? {flags : List String} (h : Frame.addFlags? flags f = some g) :
    g.line? = f.line? ∧ g.endLine? = f.endLine? ∧ g.children = f.children := by
  cases f with
  | symbol s => cases h; exact ⟨rfl, rfl, rfl⟩
  | list items m => cases h; exact ⟨rfl, rfl, rfl⟩
  | vector items m => cases h; exact ⟨rfl, rfl, rfl⟩
  | _ => cases h

/-- Flags record no line. -/
theorem records_addFlags? {flags : List String} (h : Frame.addFlags? flags f = some g) :
    g.Records n ↔ f.Records n := by
  obtain ⟨hline, hend, hchildren⟩ := metadata?_addFlags? h
  rw [records_iff, records_iff, hline, hend, hchildren]

/-- Flags leave the lines in order. -/
theorem inOrder_addFlags? {flags : List String} (h : Frame.addFlags? flags f = some g)
    (hf : f.Everywhere InOrder) : g.Everywhere InOrder := by
  obtain ⟨hline, hend, hchildren⟩ := metadata?_addFlags? h
  obtain ⟨hself, hparts⟩ := everywhere_iff.mp hf
  refine everywhere_iff.mpr ⟨⟨fun _ _ _ hl he hn => ?_, ?_⟩, ?_⟩
  · exact hself.within _ _ _ (hline ▸ hl) (hend ▸ he) ((records_addFlags? h).mp hn)
  · rw [hchildren]
    exact hself.inTurn
  · rw [hchildren]
    exact hparts

/-- Only the quoted form records lines in a quotation. -/
theorem records_quote (hn : (call [sym "quote", f]).Records n) : f.Records n := by
  rcases records_iff.mp hn with (hn | hn) | ⟨c, hc, hn⟩
  · cases hn
  · cases hn
  · rcases List.mem_cons.mp hc with rfl | hc
    · rcases records_iff.mp hn with (hn | hn) | ⟨c, hc, -⟩
      · cases hn
      · cases hn
      · cases hc
    · rwa [List.mem_singleton.mp hc] at hn

theorem not_records_sym (name : String) : ¬ (sym name).Records n := by
  intro hn
  rcases records_iff.mp hn with (hn | hn) | ⟨c, hc, -⟩
  · cases hn
  · cases hn
  · cases hc

theorem inOrder_quote (hf : f.Everywhere InOrder) : (call [sym "quote", f]).Everywhere InOrder := by
  have hsym : (sym "quote").Everywhere InOrder :=
    everywhere_of_leaf rfl ⟨fun _ _ _ hline => (nomatch hline), .nil⟩
  refine everywhere_list.mpr ⟨⟨fun _ _ _ hline => (nomatch hline), ?_⟩, ?_⟩
  · exact List.pairwise_pair.mpr fun m n hm _ => (not_records_sym "quote" hm).elim
  · exact List.forall_mem_cons.mpr ⟨hsym, List.forall_mem_singleton.mpr hf⟩

/-- A closed bracket between its two lines, around parts that are in order. -/
theorem ordered_close {b : Bracket} {line endLine : Nat} {items : List Form}
    (h : Ordered line endLine items) (hlines : line ≤ endLine)
    (hf : Frame.close b line endLine items = .ok f) :
    f.Everywhere InOrder ∧ ∀ n, f.Records n → line ≤ n ∧ n ≤ endLine := by
  have hclosed : f.children = items ∧
      (f.line? = none ∧ f.endLine? = none ∨ f.line? = some line ∧ f.endLine? = some endLine) := by
    cases b with
    | round => cases hf; exact ⟨rfl, .inr ⟨rfl, rfl⟩⟩
    | square => cases hf; exact ⟨rfl, .inr ⟨rfl, rfl⟩⟩
    | hashCurly => cases hf; exact ⟨rfl, .inl ⟨rfl, rfl⟩⟩
    | curly =>
      rw [Frame.close] at hf
      split at hf
      next => cases hf; exact ⟨rfl, .inl ⟨rfl, rfl⟩⟩
      next => cases hf
  obtain ⟨hchildren, hmetadata⟩ := hclosed
  have hrecords : ∀ n, f.Records n → line ≤ n ∧ n ≤ endLine := by
    intro n hn
    rcases records_iff.mp hn with hself | ⟨c, hc, hn⟩
    · rcases hmetadata with ⟨hline, hend⟩ | ⟨hline, hend⟩
      · rw [hline, hend] at hself
        rcases hself with hself | hself <;> cases hself
      · rw [hline, hend] at hself
        rcases hself with hself | hself <;> cases hself
        · exact ⟨Nat.le_refl _, hlines⟩
        · exact ⟨hlines, Nat.le_refl _⟩
    · exact h.within (hchildren ▸ hc) hn
  refine ⟨everywhere_iff.mpr ⟨⟨fun _ _ n hl he hn => ?_, ?_⟩, ?_⟩, hrecords⟩
  · rcases hmetadata with ⟨hline, -⟩ | ⟨hline, hend⟩
    · cases hline.symm.trans hl
    · obtain rfl := Option.some.inj (hline.symm.trans hl)
      obtain rfl := Option.some.inj (hend.symm.trans he)
      exact hrecords n hn
  · rw [hchildren]
    exact h.inTurn
  · rw [hchildren]
    exact fun c hc => h.inside hc

end Form

/-- More text never has a lower line behind it. -/
theorem lineAfter_le (before text : List Char) : lineAfter before ≤ lineAfter (before ++ text) := by
  rw [lineAfter_append]
  exact Nat.le_add_right ..

/-- What is spelled is in order, between the lines of the text. -/
theorem Spells.ordered {before text : List Char} {forms : List Form}
    (h : Spells before text forms) :
    Ordered (lineAfter before) (lineAfter (before ++ text)) forms := by
  induction h with
  | done => exact .nil
  | @blank before text forms c hc h ih =>
    rw [List.append_assoc] at ih
    exact ih.mono (lineAfter_le ..)
  | @comment before text line forms hline h ih =>
    have hend : before ++ (';' :: line ++ '\n' :: text) =
        before ++ (';' :: line ++ ['\n']) ++ text := by simp
    rw [hend]
    exact ih.mono (lineAfter_le ..)
  | @word before text word f forms hword hf hends h ih =>
    rw [← List.append_assoc]
    exact ih.cons_atom (Form.isAt_atomOfWord word _ f hf) (lineAfter_le ..) (lineAfter_le ..)
  | @keyword before text name forms hname hends h ih =>
    rw [← List.append_assoc]
    exact ih.cons_atom (Form.isAt_of_metadata?_eq_none rfl rfl) (lineAfter_le ..) (lineAfter_le ..)
  | @character before text more c f forms hmore hf hends h ih =>
    rw [← List.append_assoc]
    exact ih.cons_atom (Form.isAt_characterOfName _ _ f hf) (lineAfter_le ..) (lineAfter_le ..)
  | @string before text written value forms hwritten h ih =>
    have hend : before ++ ('"' :: written ++ '"' :: text) =
        before ++ ('"' :: written ++ ['"']) ++ text := by simp
    rw [hend]
    exact ih.cons_atom (Form.isAt_of_metadata?_eq_none rfl rfl) (lineAfter_le ..) (lineAfter_le ..)
  | @bracket before inner text b f items forms hitems hf h ihItems ih =>
    have hmiddle : before ++ (b.opener ++ inner ++ [b.closer]) =
        before ++ (b.opener ++ inner) ++ [b.closer] := (List.append_assoc ..).symm
    have hend : before ++ (b.opener ++ inner ++ b.closer :: text) =
        before ++ (b.opener ++ inner ++ [b.closer]) ++ text := by simp
    rw [List.append_assoc] at ihItems
    obtain ⟨hinside, hrecords⟩ :=
      Form.ordered_close (ihItems.mono (lineAfter_le ..)) (lineAfter_le ..) hf
    rw [hend]
    refine ih.cons (fun n hn => ?_) hinside (lineAfter_le ..) (lineAfter_le ..)
    refine ⟨(hrecords n hn).1, Nat.le_trans (hrecords n hn).2 ?_⟩
    rw [hmiddle]
    exact lineAfter_le ..
  | @quote before text f forms h ih =>
    rw [List.append_assoc] at ih
    exact (ih.mono (lineAfter_le ..)).replace (fun _ => Form.records_quote) Form.inOrder_quote
  | @metadata before text m f g flags forms hflags hg h ih =>
    rw [List.append_assoc] at ih
    exact (ih.mono (lineAfter_le ..)).tail.replace (fun _ => (Form.records_addFlags? hg).mp)
      (Form.inOrder_addFlags? hg)
  | @discard before text dropped f forms h ih =>
    rw [List.append_assoc] at ih
    exact (ih.mono (lineAfter_le ..)).tail

/-- **Lines.** The forms of a source that is read are those that its text spells, and no others,
with the lines on which their characters stand: those of the opening and of the closing bracket of a
list or a vector, and that of the first character of a symbol. So the lines inside a list or a
vector lie between its own, and from one part of a form to the next one they do not go back. -/
theorem readAll_placed {source : String} {forms : List Form} (h : readAll source = .ok forms) :
    Spelled source forms ∧ (∀ others, Spelled source others → others = forms) ∧
      ∀ f ∈ forms, f.Everywhere InOrder := by
  have hspelled := readAll_eq_ok_iff.mp h
  refine ⟨hspelled, fun others hothers => ?_, fun f hf => ?_⟩
  · exact Except.ok.inj ((readAll_eq_ok_iff.mpr hothers).symm.trans h)
  · obtain ⟨text, tail, -, hspells, -⟩ := hspelled
    exact hspells.ordered.inside hf

/-- A quotation with metadata in it is dropped, and a vector with metadata begins below a comment
and holds a string over two lines. -/
theorem readAll_placed_vector :
    let d : Form := .symbol { name := "d", metadata := .atLine 3 }
    let read : Form := .vector [.str "\n", d] { Metadata.span 2 4 with flags := ["c"] }
    readAll "#_'^:a b ; (\n^:c [\"\n\" d\n]" = .ok [read] ∧
      Spelled "#_'^:a b ; (\n^:c [\"\n\" d\n]" [read] ∧ read.Everywhere InOrder := by
  intro d read
  have hread : readAll "#_'^:a b ; (\n^:c [\"\n\" d\n]" = .ok [read] := by rfl
  obtain ⟨hspelled, -, horder⟩ := readAll_placed hread
  exact ⟨hread, hspelled, horder read List.mem_cons_self⟩

end CompileWatch
