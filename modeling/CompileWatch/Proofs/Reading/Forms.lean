import CompileWatch.Proofs.Reading.Invariant

/-!
# Forms that were read

Whatever a source says, every symbol that is read from it has a name, and every list stands
between two lines, except for the lists that quote marks stand for.

- `Form.AsRead`: what holds of every form inside a form that was read.
- `asRead_of_readAll`: the forms of a source.
-/

namespace CompileWatch

/-- Everything inside a form has a name and a place, as far as it can have them. -/
def Form.AsRead (f : Form) : Prop := f.Everywhere fun g => g.IsNamed ∧ g.IsPlaced

theorem Form.AsRead.named {f : Form} (h : f.AsRead) : f.Everywhere IsNamed :=
  h.imp fun _ => And.left

/-- The symbol of a word can be written. -/
theorem proper_symbolOfWord {word : List Char} (h : IsName word) (line : Nat) :
    (symbolOfWord word line).Proper := by
  constructor
  · unfold symbolOfWord
    split
    · split
      · simpa using h.1
      · simp
    · simpa using h.1
  · rw [text_symbolOfWord]
    exact fun hbracket => absurd (h.2 '[' hbracket) (by decide)

/-- A symbol has a name, and a list its lines, whichever way they are read. -/
theorem readCases_asRead : ReadCases fun f => f.IsNamed ∧ f.IsPlaced where
  nil := ⟨trivial, trivial⟩
  bool _ := ⟨trivial, trivial⟩
  int _ := ⟨trivial, trivial⟩
  float _ := ⟨trivial, trivial⟩
  char _ := ⟨trivial, trivial⟩
  str _ := ⟨trivial, trivial⟩
  keyword _ := ⟨trivial, trivial⟩
  symbol h _ line := ⟨proper_symbolOfWord h.1 line, trivial⟩
  quoteSymbol := ⟨show Symbol.Proper { name := "quote" } by decide, trivial⟩
  quote _ := ⟨trivial, .inl rfl⟩
  list _ _ _ := ⟨trivial, .inr ⟨rfl, rfl⟩⟩
  vector _ _ _ := ⟨trivial, trivial⟩
  map _ := ⟨trivial, trivial⟩
  set _ := ⟨trivial, trivial⟩
  flags {f _ _} h hg := by
    -- more flags change neither texts nor places
    cases f with
    | symbol s => cases hg; exact h
    | list items m => cases hg; exact h
    | vector items m => cases hg; exact h
    | _ => cases hg

/-- Everything that is read from a source has a name and a place. -/
theorem asRead_of_readAll {source : String} {forms : List Form} (h : readAll source = .ok forms) :
    ∀ f ∈ forms, f.AsRead :=
  readCases_asRead.everywhere_of_readAll h

end CompileWatch
