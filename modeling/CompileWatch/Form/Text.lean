import CompileWatch.Form.Basic
import CompileWatch.Decimal.Shortest
import CompileWatch.Text.Quoted

/-!
# The text of a form

A form is written on one line, the parts of a collection with single spaces between
them. Metadata is not written.
-/

namespace CompileWatch

/-- An integer in decimal. -/
def intChars (n : Int) : List Char :=
  if n < 0 then '-' :: Nat.toDigits 10 n.natAbs else Nat.toDigits 10 n.natAbs

namespace Form

mutual

/-- The characters of a form as written. -/
def chars : Form → List Char
  | .nil => ['n', 'i', 'l']
  | .bool true => ['t', 'r', 'u', 'e']
  | .bool false => ['f', 'a', 'l', 's', 'e']
  | .int n => intChars n
  | .float x => x.text.toList
  | .char c => ['\\', c]
  | .str s => (quoted s).toList
  | .keyword name => ':' :: name.toList
  | .symbol s => s.text.toList
  | .list items _ => '(' :: joined items ++ [')']
  | .vector items _ => '[' :: joined items ++ [']']
  | .map items => '\x7b' :: joined items ++ ['\x7d']
  | .set items => '#' :: '\x7b' :: joined items ++ ['\x7d']

/-- The characters of a list of forms, separated by single spaces. -/
def joined : List Form → List Char
  | [] => []
  | [f] => chars f
  | f :: g :: rest => chars f ++ ' ' :: joined (g :: rest)

end

/-- A form as written. -/
def text (f : Form) : String := String.ofList f.chars

end Form

end CompileWatch
