import CompileWatch.Form.Text
import CompileWatch.Reading.Frame

/-!
# Reading a source text

Reading is one pass over the characters. The state between two characters is the
line, the scanner and the pile of unfinished forms.

- `readAll`: every form of a source.
- `readOne`: the form of a source that holds exactly one.
-/

namespace CompileWatch

/-- The state of reading between two characters. -/
structure Reader where
  line : Nat := 1
  scanner : Scanner := .idle
  pile : Pile := {}

namespace Reader

/-- Read one character. -/
def step (r : Reader) (c : Char) : Except ReadError Reader := do
  let (tokens, scanner) ← r.scanner.step r.line c
  let pile ← tokens.foldlM Pile.push r.pile
  return ⟨if c = '\n' then r.line + 1 else r.line, scanner, pile⟩

/-- The forms of a source that ends here. -/
def finish (r : Reader) : Except ReadError (List Form) := do
  let tokens ← r.scanner.finish
  let pile ← tokens.foldlM Pile.push r.pile
  if pile.frames.isEmpty then return pile.forms.reverse
  else throw (.unexpectedEnd r.line)

/-- Read a list of characters. -/
def run (r : Reader) (cs : List Char) : Except ReadError Reader := cs.foldlM step r

/-- A text is read in two parts, one after the other. -/
theorem run_append (r : Reader) (as bs : List Char) :
    r.run (as ++ bs) = r.run as >>= fun r' => r'.run bs := by
  simp [run]

end Reader

/-- Every form of a source, in order. -/
def readAll (source : String) : Except ReadError (List Form) := do
  let r ← Reader.run {} source.toList
  r.finish

/-- The form of a source that holds exactly one. -/
def readOne (source : String) : Except ReadError Form := do
  match ← readAll source with
  | [f] => return f
  | [] => throw (.unexpectedEnd 1)
  | _ :: second :: _ => throw (.invalidToken second.text 1)

end CompileWatch
