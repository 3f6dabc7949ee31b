import CompileWatch.Form.Basic
import CompileWatch.Decimal.Parse
import CompileWatch.Reading.Error
import CompileWatch.Text.Blank

/-!
# Tokens

The scanner takes one character at a time. It is in one of a few modes, and each
character moves it to another mode and completes at most two tokens: the word that
the character ends, and the delimiter that it is.

- `Token`: delimiters, reader marks, and atoms.
- `Scanner.step`: one character.
- `Scanner.finish`: the end of the source.
-/

namespace CompileWatch

/-- The brackets that collect forms. -/
inductive Bracket where
  | round
  | square
  | curly
  | hashCurly
deriving DecidableEq, Repr

/-- The character that closes a bracket. -/
def Bracket.closer : Bracket → Char
  | .round => ')'
  | .square => ']'
  | .curly | .hashCurly => '\x7d'

/-- A token with the line it started on, where a later rule needs it. -/
inductive Token where
  /-- An opening bracket. -/
  | opening (b : Bracket) (line : Nat)
  /-- A closing character. -/
  | closing (c : Char) (line : Nat)
  /-- The quote mark. -/
  | quote
  /-- The metadata mark. -/
  | metadata (line : Nat)
  /-- The mark that drops the next form. -/
  | discard
  /-- A form without parts. -/
  | atom (f : Form)

/-- Whether a character ends a word. -/
def isDelimiter (c : Char) : Bool :=
  isBlank c || c == '(' || c == ')' || c == '[' || c == ']' || c == '\x7b' || c == '\x7d' ||
    c == '"' || c == ',' || c == ';'

/-! ### Atoms -/

/-- Whether a word starts like a number: a digit, or a sign and a digit. -/
def startsNumber : List Char → Bool
  | [] => false
  | c :: rest => c.isDigit || ((c == '-' || c == '+') && (rest.head?.any Char.isDigit))

/-- The symbol of a word: qualified when its first slash has text on both sides. -/
def symbolOfWord (word : List Char) (line : Nat) : Symbol :=
  match word.dropWhile (· != '/') with
  | _ :: name@(_ :: _) =>
    match word.takeWhile (· != '/') with
    | [] => { name := String.ofList word, metadata := .atLine line }
    | ns => { ns := some (String.ofList ns), name := String.ofList name, metadata := .atLine line }
  | _ => { name := String.ofList word, metadata := .atLine line }

/-- The atom that a word writes. -/
def atomOfWord (word : List Char) (line : Nat) : Except ReadError Form :=
  let token := String.ofList word
  if token = "nil" then .ok .nil
  else if token = "true" then .ok (.bool true)
  else if token = "false" then .ok (.bool false)
  else if startsNumber word then
    match readInt64? word with
    | some n => .ok (.int n)
    | none =>
      match Binary64.read? word with
      | some x => .ok (.float x)
      | none => .error (.invalidToken token line)
  else .ok (.symbol (symbolOfWord word line))

/-- The character that a name after a backslash writes. -/
def characterOfName (name : List Char) (line : Nat) : Except ReadError Form :=
  match name with
  | [c] => .ok (.char c)
  | name =>
    if name = "newline".toList then .ok (.char '\n')
    else if name = "space".toList then .ok (.char ' ')
    else if name = "tab".toList then .ok (.char '\t')
    else .error (.invalidToken (String.ofList ('\\' :: name)) line)

/-! ### The scanner -/

/-- What the scanner is in the middle of. Characters read so far stand last first. -/
inductive Scanner where
  /-- Nothing. -/
  | idle
  /-- A comment, up to the end of its line. -/
  | comment
  /-- A number, a symbol or a constant. -/
  | word (line : Nat) (read : List Char)
  /-- A string. -/
  | text (line : Nat) (read : List Char)
  /-- A string, just after a backslash. -/
  | escape (line : Nat) (read : List Char)
  /-- Just after a hash mark. -/
  | hash (line : Nat)
  /-- Just after a backslash. -/
  | backslash (line : Nat)
  /-- The name of a character. -/
  | character (line : Nat) (read : List Char)
  /-- Just after a colon. -/
  | colon (line : Nat)
  /-- A keyword. -/
  | keyword (read : List Char)

namespace Scanner

/-- One character with nothing begun. -/
def stepIdle (line : Nat) (c : Char) : List Token × Scanner :=
  if isBlank c || c = ',' then ([], .idle)
  else if c = ';' then ([], .comment)
  else if c = '(' then ([.opening .round line], .idle)
  else if c = '[' then ([.opening .square line], .idle)
  else if c = '\x7b' then ([.opening .curly line], .idle)
  else if c = ')' || c = ']' || c = '\x7d' then ([.closing c line], .idle)
  else if c = '"' then ([], .text line [])
  else if c = '\x27' then ([.quote], .idle)
  else if c = '^' then ([.metadata line], .idle)
  else if c = '#' then ([], .hash line)
  else if c = '\\' then ([], .backslash line)
  else if c = ':' then ([], .colon line)
  else ([], .word line [c])

/-- The token that a finished name or word is, when the scanner is in one. -/
def flush : Scanner → Except ReadError (List Token)
  | .word line read => (atomOfWord read.reverse line).map fun f => [.atom f]
  | .character line read => (characterOfName read.reverse line).map fun f => [.atom f]
  | .keyword read => .ok [.atom (.keyword (String.ofList read.reverse))]
  | _ => .ok []

/-- A delimiter: it ends the word and is then read with nothing begun. -/
def stepDelimiter (s : Scanner) (line : Nat) (c : Char) :
    Except ReadError (List Token × Scanner) := do
  let done ← s.flush
  let (tokens, next) := stepIdle line c
  return (done ++ tokens, next)

/-- One character on the given line. -/
def step (line : Nat) (c : Char) : Scanner → Except ReadError (List Token × Scanner)
  | .idle => .ok (stepIdle line c)
  | .comment => .ok ([], if c = '\n' then .idle else .comment)
  | .word start read =>
    if isDelimiter c then stepDelimiter (.word start read) line c
    else .ok ([], .word start (c :: read))
  | .character start read =>
    if isDelimiter c then stepDelimiter (.character start read) line c
    else .ok ([], .character start (c :: read))
  | .keyword read =>
    if isDelimiter c then stepDelimiter (.keyword read) line c
    else .ok ([], .keyword (c :: read))
  | .text start read =>
    if c = '"' then .ok ([.atom (.str (String.ofList read.reverse))], .idle)
    else if c = '\\' then .ok ([], .escape start read)
    else .ok ([], .text start (c :: read))
  | .escape start read =>
    if c = 'n' then .ok ([], .text start ('\n' :: read))
    else if c = 't' then .ok ([], .text start ('\t' :: read))
    else if c = '"' || c = '\\' then .ok ([], .text start (c :: read))
    else .error (.invalidToken (String.ofList ['\\', c]) (if c = '\n' then line + 1 else line))
  | .hash start =>
    if c = '\x7b' then .ok ([.opening .hashCurly start], .idle)
    else if c = '_' then .ok ([.discard], .idle)
    else .error (.invalidToken (String.ofList ['#', c]) start)
  | .backslash start => .ok ([], .character start [c])
  | .colon start =>
    if isDelimiter c then .error (.invalidToken ":" start) else .ok ([], .keyword [c])

/-- The tokens that the end of the source completes. -/
def finish : Scanner → Except ReadError (List Token)
  | .text line _ | .escape line _ | .backslash line => .error (.unexpectedEnd line)
  | .hash line => .error (.invalidToken "#" line)
  | .colon line => .error (.invalidToken ":" line)
  | s => s.flush

end Scanner

end CompileWatch
