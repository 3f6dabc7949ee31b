import CompileWatch.Text.Unprintable
import CompileWatch.Text.GraphemeExtend

/-!
# Quoted text

The written form of a string: double quotes around it, a backslash before a quote
or a backslash, letters for the common control characters, and the code point in
braces for every other character that would not show by itself.
-/

namespace CompileWatch

/-- The digits of a number in lower-case hexadecimal. -/
def hexDigits (n : Nat) : List Char := Nat.toDigits 16 n

/-- A number in hexadecimal, padded with zeros to `width` digits. -/
def hexPadded (width n : Nat) : String :=
  String.ofList (List.replicate (width - (hexDigits n).length) '0' ++ hexDigits n)

namespace Quoted

/-- Whether a character shows only together with the one before it. The two halfwidth sound
marks extend a cluster, but have a cell and a glyph of their own. -/
def isCombining (c : Char) : Bool :=
  isGraphemeExtend c && !(c = '\uFF9E' || c = '\uFF9F')

/-- How one character of a string is written between the quotes. -/
def encodeChar (c : Char) : List Char :=
  if c = '\x00' then ['\\', '0']
  else if c = '\t' then ['\\', 't']
  else if c = '\r' then ['\\', 'r']
  else if c = '\n' then ['\\', 'n']
  else if c = '"' then ['\\', '"']
  else if c = '\\' then ['\\', '\\']
  else if 0x20 ≤ c.toNat && c.toNat < 0x7F then [c]
  else if isCombining c || isUnprintable c then
    ['\\', 'u', '\x7b'] ++ hexDigits c.toNat ++ ['\x7d']
  else [c]

/-- The characters of a string as written between the quotes. -/
def encode (s : List Char) : List Char := s.flatMap encodeChar

end Quoted

/-- A string in its written form. -/
def quoted (s : String) : String :=
  String.ofList ('"' :: Quoted.encode s.toList ++ ['"'])

end CompileWatch
