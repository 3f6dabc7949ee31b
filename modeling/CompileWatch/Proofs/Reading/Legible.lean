import CompileWatch.Form.Text
import CompileWatch.Proofs.Reading.Invariant

/-!
# Legible forms

A form is legible when its own characters can be told from those around it: its name goes on up
to a delimiter, its number has 64 bits, its word stands for nothing else. Whatever is read from a
source is legible, everywhere.

- `Form.IsLegible`, `readCases_isLegible`: legible forms, and that forms that were read are such.
- `atomOfWord_intChars`: an integer is read as it is written.
-/

namespace CompileWatch

/-- The text of a form is that of no other one, as far as the form has a text of its own. -/
def Form.IsLegible : Form → Prop
  | .int n => fitsInt64 n = true
  | .keyword name => IsName name.toList
  | .symbol s => IsWord s.text.toList ∧
      ∀ line, atomOfWord s.text.toList line = .ok (.symbol { s with metadata := .atLine line })
  | .map items => items.length % 2 = 0
  | _ => True

/-! ### Symbols -/

/-- The line of a word matters to the line of its symbol only. -/
theorem symbolOfWord_atLine (word : List Char) (line line' : Nat) :
    { symbolOfWord word line with metadata := .atLine line' } = symbolOfWord word line' := by
  unfold symbolOfWord
  split
  · split <;> rfl
  · rfl

/-! ### Forms that were read -/

/-- What is read is legible. -/
theorem readCases_isLegible : ReadCases Form.IsLegible where
  nil := trivial
  bool _ := trivial
  int h := h
  float _ := trivial
  char _ := trivial
  str _ := trivial
  keyword h := by rwa [Form.IsLegible, String.toList_ofList]
  symbol {word} h hword line := by
    rw [Form.IsLegible, text_symbolOfWord]
    refine ⟨h, fun line' => ?_⟩
    rw [symbolOfWord_atLine, hword]
  quoteSymbol := ⟨isWord_of_all rfl, fun _ => rfl⟩
  quote _ := trivial
  list _ _ _ := trivial
  vector _ _ _ := trivial
  map h := h
  set _ := trivial
  flags {f _ _} h hg := by
    cases f with
    | symbol s => cases hg; exact h
    | list items m => cases hg; trivial
    | vector items m => cases hg; trivial
    | _ => cases hg

/-! ### Integers -/

/-- The decimal digits of a number are read back as the number. -/
theorem digitsValue_toDigits (n : Nat) : digitsValue (Nat.toDigits 10 n) = n := by
  have hvalue : digitsValue (Nat.toDigits 10 n) = Nat.ofDigitChars 10 (Nat.toDigits 10 n) 0 := by
    simp only [digitsValue, Nat.ofDigitChars, Nat.mul_comm]
  rw [hvalue, Nat.ofDigitChars_ten_toDigits]

theorem isDigit_of_mem_toDigits {n : Nat} {c : Char} (h : c ∈ Nat.toDigits 10 n) :
    c.isDigit = true := Nat.isDigit_of_mem_toDigits (by decide) (by decide) h

theorem isDigits_toDigits (n : Nat) : isDigits (Nat.toDigits 10 n) = true := by
  simp only [isDigits, Bool.and_eq_true, Bool.not_eq_true', List.isEmpty_eq_false_iff,
    List.all_eq_true]
  exact ⟨Nat.toDigits_ne_nil, fun c hc => isDigit_of_mem_toDigits hc⟩

/-- A digit begins a word. -/
theorem beginsWord_of_isDigit {c : Char} (h : c.isDigit = true) : beginsWord c = true := by
  have hall : ∀ n < 10, beginsWord (Char.ofNat (48 + n)) = true := by decide
  simp only [Char.isDigit, Bool.and_eq_true, decide_eq_true_eq] at h
  have hlow : 48 ≤ c.toNat := UInt32.le_iff_toNat_le.mp h.1
  have hhigh : c.toNat ≤ 57 := UInt32.le_iff_toNat_le.mp h.2
  have hc : c = Char.ofNat (48 + (c.toNat - 48)) := by
    rw [Nat.add_sub_cancel' hlow, Char.ofNat_toNat]
  rw [hc]
  exact hall _ (by omega)

theorem isName_toDigits (n : Nat) : IsName (Nat.toDigits 10 n) :=
  ⟨Nat.toDigits_ne_nil, fun _ hc =>
    isDelimiter_of_beginsWord (beginsWord_of_isDigit (isDigit_of_mem_toDigits hc))⟩

/-- A number is written as a word. -/
theorem isWord_intChars (n : Int) : IsWord (intChars n) := by
  have hname := isName_toDigits n.natAbs
  unfold intChars
  split
  · exact ⟨⟨List.cons_ne_nil _ _, List.forall_mem_cons.mpr ⟨by decide, hname.2⟩⟩,
      fun c hc => Option.mem_some.mp hc ▸ by decide⟩
  · refine ⟨hname, fun c hc => ?_⟩
    exact beginsWord_of_isDigit (isDigit_of_mem_toDigits (List.mem_of_mem_head? hc))

/-- The word of a number begins like a number. -/
theorem startsNumber_intChars (n : Int) : startsNumber (intChars n) = true := by
  obtain ⟨d, rest, hdigits⟩ := List.exists_cons_of_ne_nil (isName_toDigits n.natAbs).1
  have hd : d.isDigit = true := isDigit_of_mem_toDigits (hdigits ▸ List.mem_cons_self)
  unfold intChars
  rw [hdigits]
  split <;> simp [startsNumber, hd]

/-- Digits carry no sign. -/
theorem splitSign_toDigits (n : Nat) :
    splitSign (Nat.toDigits 10 n) = (false, Nat.toDigits 10 n) := by
  unfold splitSign
  split
  next rest hdigits =>
    exact absurd (isDigit_of_mem_toDigits (hdigits ▸ List.mem_cons_self)) (by decide)
  next rest hdigits =>
    exact absurd (isDigit_of_mem_toDigits (hdigits ▸ List.mem_cons_self)) (by decide)
  · rfl

/-- A number of 64 bits is read back from its digits. -/
theorem readInt64?_intChars {n : Int} (h : fitsInt64 n = true) :
    readInt64? (intChars n) = some n := by
  unfold readInt64? intChars
  by_cases hn : n < 0
  · have hvalue : -(n.natAbs : Int) = n := by omega
    simp only [if_pos hn, splitSign, isDigits_toDigits, digitsValue_toDigits, if_true, hvalue, h]
  · have hvalue : (n.natAbs : Int) = n := by omega
    simp only [if_neg hn, splitSign_toDigits, isDigits_toDigits, digitsValue_toDigits, if_true,
      Bool.false_eq_true, if_false, hvalue, h]

/-- An integer is read as it is written. -/
theorem atomOfWord_intChars {n : Int} (h : fitsInt64 n = true) (line : Nat) :
    atomOfWord (intChars n) line = .ok (.int n) := by
  have hne : ∀ token : String, startsNumber token.toList = false →
      String.ofList (intChars n) ≠ token := by
    rintro _ htoken rfl
    rw [String.toList_ofList, startsNumber_intChars] at htoken
    cases htoken
  simp only [atomOfWord]
  rw [if_neg (hne _ (by decide)), if_neg (hne _ (by decide)), if_neg (hne _ (by decide)),
    if_pos (startsNumber_intChars n), readInt64?_intChars h]

end CompileWatch
