import CompileWatch.Decimal.Binary64

/-!
# Reading numbers

Integers of 64 bits and decimal doubles. A number may carry a sign; a decimal has
digits before or after its point and may have an exponent.
-/

namespace CompileWatch

/-- The value of a list of decimal digits. -/
def digitsValue (ds : List Char) : Nat :=
  ds.foldl (fun n c => n * 10 + (c.toNat - '0'.toNat)) 0

/-- Whether every character is a decimal digit, and there is one. -/
def isDigits (ds : List Char) : Bool := !ds.isEmpty && ds.all Char.isDigit

/-- A leading sign: whether it is a minus, and what follows it. -/
def splitSign : List Char → Bool × List Char
  | '-' :: rest => (true, rest)
  | '+' :: rest => (false, rest)
  | rest => (false, rest)

/-- Whether a number fits a signed word of 64 bits. -/
def fitsInt64 (n : Int) : Bool := -0x8000000000000000 ≤ n && n < 0x8000000000000000

/-- The integer of 64 bits that a text writes. -/
def readInt64? (s : List Char) : Option Int :=
  let (negative, ds) := splitSign s
  if isDigits ds then
    let n : Int := if negative then -(digitsValue ds : Int) else digitsValue ds
    if fitsInt64 n then some n else none
  else none

namespace Binary64

/-- The double nearest to `digits · 10^e`. Past the ends of the range only the end
counts, so that no power of ten grows beyond need. -/
def ofDecimal (negative : Bool) (digits : Nat) (e : Int) : Binary64 :=
  if digits = 0 then ofMagnitude negative 0
  else
    let scale : Int := (Nat.toDigits 10 digits).length + e
    if 400 < scale then infinity negative
    else if scale < -400 then ofMagnitude negative 0
    else
      match e with
      | .ofNat k => ofRatio negative (digits * Nat.pow 10 k) 1
      | .negSucc k => ofRatio negative digits (Nat.pow 10 (k + 1))

/-- The exponent that follows the digits: nothing, or `e` and a whole number. -/
def readExponent? : List Char → Option Int
  | [] => some 0
  | c :: rest =>
    if c = 'e' || c = 'E' then
      let (negative, ds) := splitSign rest
      if isDigits ds then some (if negative then -(digitsValue ds : Int) else digitsValue ds)
      else none
    else none

/-- The unsigned decimal that a text writes. -/
def readDecimal? (negative : Bool) (s : List Char) : Option Binary64 :=
  let whole := s.takeWhile Char.isDigit
  let rest := s.dropWhile Char.isDigit
  let (fraction, rest) :=
    match rest with
    | '.' :: rest => (rest.takeWhile Char.isDigit, rest.dropWhile Char.isDigit)
    | rest => ([], rest)
  if whole.isEmpty && fraction.isEmpty then none
  else
    (readExponent? rest).map fun e =>
      ofDecimal negative (digitsValue (whole ++ fraction)) (e - fraction.length)

/-- The double that a text writes: a decimal, an infinity or `nan`, the words in
letters of either case. -/
def read? (s : List Char) : Option Binary64 :=
  let (negative, rest) := splitSign s
  let word := String.ofList (rest.map Char.toLower)
  if word = "inf" || word = "infinity" then some (infinity negative)
  else if word = "nan" then some (if negative then ofMagnitude true nan.magnitude else nan)
  else readDecimal? negative rest

end Binary64

end CompileWatch
