/-!
# Doubles as bits

A double is its 64 bits. Reading a decimal needs one general step, the double
nearest to a quotient of natural numbers, and it is done in exact arithmetic.

- `Binary64.ofRatio`: the nearest double, a tie going to the even significand.
- `Binary64.decode`: significand and exponent of a finite double.
-/

namespace CompileWatch

/-- A double as its 64 bits: sign, eleven exponent bits, 52 fraction bits. -/
structure Binary64 where
  bits : UInt64
deriving DecidableEq, Repr, Inhabited

namespace Binary64

/-- The bits of positive infinity, which are also the least bits that hold no
finite magnitude. -/
def infinityBits : Nat := 0x7FF0000000000000

/-- The weight of the sign bit. -/
def signBit : Nat := 0x8000000000000000

/-- The weight of the lowest exponent bit, which is also the leading bit of a significand
of full length. -/
def leadingBit : Nat := 0x10000000000000

/-- The bits below the sign. -/
def magnitude (x : Binary64) : Nat := x.bits.toNat % signBit

/-- Whether the sign bit is set. -/
def isNegative (x : Binary64) : Bool := signBit ≤ x.bits.toNat

/-- Whether the value is not a number. -/
def isNaN (x : Binary64) : Bool := infinityBits < x.magnitude

/-- The double of a sign and the bits below it. -/
def ofMagnitude (negative : Bool) (m : Nat) : Binary64 :=
  ⟨UInt64.ofNat (if negative then signBit + m else m)⟩

/-- One value that is not a number. -/
def nan : Binary64 := ofMagnitude false 0x7FF8000000000000

/-- Infinity of either sign. -/
def infinity (negative : Bool) : Binary64 := ofMagnitude negative infinityBits

/-- Equality of values: the two zeros are equal, and what is not a number differs
from everything. -/
def sameValue (x y : Binary64) : Bool :=
  !x.isNaN && !y.isNaN && (x.bits == y.bits || (x.magnitude == 0 && y.magnitude == 0))

/-- Significand and exponent of the magnitude `m · 2^e` of a finite double. -/
def decode (x : Binary64) : Nat × Int :=
  let field : Nat := x.magnitude / leadingBit
  let fraction : Nat := x.magnitude % leadingBit
  if field = 0 then (fraction, -1074) else (leadingBit + fraction, (field : Int) - 1075)

/-! ### The nearest double -/

/-- The natural number nearest to `num / den`, a tie going to the even one. -/
def roundHalfEven (num den : Nat) : Nat :=
  let q := num / den
  let r := num % den
  if 2 * r < den then q
  else if den < 2 * r then q + 1
  else if q % 2 = 0 then q else q + 1

/-- `num / den / 2^e` as a quotient of natural numbers. -/
def scaleDown (num den : Nat) (e : Int) : Nat × Nat :=
  match e with
  | .ofNat k => (num, den * Nat.pow 2 k)
  | .negSucc k => (num * Nat.pow 2 (k + 1), den)

/-- The weight of the last significand bit of the double nearest to `num / den`:
the greatest power of two that leaves 53 bits, and never less than `2^-1074`. -/
def unitExponent (num den : Nat) : Int :=
  let guess : Int := max ((num.log2 : Int) - den.log2 - 53) (-1074)
  let (n, d) := scaleDown num den guess
  if n / d < 2 * leadingBit then guess else guess + 1

/-- The bits of the double nearest to `num / den`. Consecutive doubles have
consecutive bits, so a carry out of the significand needs no case of its own. -/
def magnitudeOfRatio (num den : Nat) : Nat :=
  if num = 0 then 0
  else
    let e := unitExponent num den
    let (n, d) := scaleDown num den e
    min ((e + 1074).toNat * leadingBit + roundHalfEven n d) infinityBits

/-- The double nearest to a quotient, a tie going to the even significand. -/
def ofRatio (negative : Bool) (num den : Nat) : Binary64 :=
  ofMagnitude negative (magnitudeOfRatio num den)

end Binary64

end CompileWatch
