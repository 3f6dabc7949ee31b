import CompileWatch.Decimal.Binary64

/-!
# The shortest decimal of a double

A double stands for every real number that rounds to it. Its text has the fewest
digits of any decimal in that interval, and of those decimals it is the nearest
one, a tie going up.

- `Binary64.shortest`: the digits and the place of the point.
- `Binary64.text`: positional for magnitudes from `10^-4` up to `10^16`, with an
  exponent outside.
-/

namespace CompileWatch

/-- A positive decimal `0.d₁d₂… · 10^point`, as the number `d₁d₂…` and the point. -/
structure Decimal where
  digits : Nat
  point : Int
deriving DecidableEq, Repr, Inhabited

namespace Binary64

/-- The interval of reals that round to `m · 2^e`, with a common denominator: the
lower end, the value, the upper end, the denominator, and whether the ends belong. -/
structure Interval where
  low : Nat
  value : Nat
  high : Nat
  den : Nat
  closed : Bool

/-- The interval of a finite double other than zero. Just above a power of two the
doubles below lie half as far apart. -/
def interval (m : Nat) (e : Int) : Interval :=
  let below := if m = leadingBit ∧ e ≠ -1074 then 1 else 2
  let (f, den) :=
    match e - 2 with
    | .ofNat k => (Nat.pow 2 k, 1)
    | .negSucc k => (1, Nat.pow 2 (k + 1))
  ⟨(4 * m - below) * f, 4 * m * f, (4 * m + 2) * f, den, m % 2 = 0⟩

/-- Whether `n / d` lies in the interval. -/
def Interval.has (i : Interval) (n d : Nat) : Bool :=
  let low := i.low * d
  let high := i.high * d
  let x := n * i.den
  if i.closed then low ≤ x && x ≤ high else low < x && x < high

/-- `10^(p - n)` as a quotient. -/
def gridStep (p : Int) (n : Nat) : Nat × Nat :=
  match p - n with
  | .ofNat k => (Nat.pow 10 k, 1)
  | .negSucc k => (1, Nat.pow 10 (k + 1))

/-- The best decimal of `n` digits in the interval of a value below `10^p`: of the
two neighbours of the value on that grid the nearer one inside. -/
def Interval.onGrid (i : Interval) (p : Int) (n : Nat) : Option Nat :=
  let (s, d) := gridStep p n
  let down := i.value * d / (i.den * s)
  let up := down + 1
  let downIn := i.has (down * s) d
  let upIn := i.has (up * s) d
  if downIn && upIn then
    let twice := 2 * (i.value * d)
    some (if (down + up) * (i.den * s) ≤ twice then up else down)
  else if downIn then some down
  else if upIn then some up
  else none

/-- The least `k ≤ bound` with `den ≤ num · 10^k`, where `bound` is reached only by
numbers outside the range of doubles. -/
def leadingZeros (num den : Nat) : Nat → Nat
  | 0 => 0
  | bound + 1 => if den ≤ num then 0 else leadingZeros (num * 10) den bound + 1

/-- The least `p` with `num / den < 10^p`. -/
def decimalPoint (num den : Nat) : Int :=
  if den ≤ num then ((Nat.toDigits 10 (num / den)).length : Int)
  else 1 - (leadingZeros num den 400 : Int)

/-- The first grid from `n` digits on that has a decimal inside, `fuel` grids long. -/
def Interval.firstGrid (i : Interval) (p : Int) : Nat → Nat → Decimal
  | 0, n => ⟨i.value / i.den, p + n⟩
  | fuel + 1, n =>
    match i.onGrid p n with
    | some digits => if digits = Nat.pow 10 n then ⟨1, p + 1⟩ else ⟨digits, p⟩
    | none => i.firstGrid p fuel (n + 1)

/-- The shortest decimal of a finite double other than zero. Seventeen digits always
have a decimal inside. -/
def shortest (x : Binary64) : Decimal :=
  let (m, e) := x.decode
  let i := interval m e
  i.firstGrid (decimalPoint i.value i.den) 17 1

/-! ### Layout -/

/-- Digits with the point after the first `p` of them, zeros filled in on either side,
and always one digit after the point. -/
def positional (ds : List Char) (p : Int) : List Char :=
  match p with
  | .ofNat 0 => ['0', '.'] ++ ds
  | .negSucc k => ['0', '.'] ++ List.replicate (k + 1) '0' ++ ds
  | .ofNat (k + 1) =>
    if ds.length ≤ k + 1 then ds ++ List.replicate (k + 1 - ds.length) '0' ++ ['.', '0']
    else ds.take (k + 1) ++ ['.'] ++ ds.drop (k + 1)

/-- Digits with the point after the first one, and a decimal exponent. -/
def scientific (ds : List Char) (p : Int) : List Char :=
  let e := (toString (p - 1)).toList
  match ds with
  | d :: rest@(_ :: _) => d :: '.' :: rest ++ 'e' :: e
  | ds => ds ++ 'e' :: e

/-- The text of a magnitude: positional from `10^-4` up to `10^16`. -/
def magnitudeText (x : Binary64) : List Char :=
  if x.magnitude = 0 then ['0', '.', '0']
  else if x.magnitude = infinityBits then ['i', 'n', 'f']
  else
    let s := x.shortest
    let ds := Nat.toDigits 10 s.digits
    if -4 < s.point ∧ s.point ≤ 16 then positional ds s.point else scientific ds s.point

/-- The text of a double. What is not a number has no sign. -/
def text (x : Binary64) : String :=
  if x.isNaN then "NaN"
  else String.ofList (if x.isNegative then '-' :: x.magnitudeText else x.magnitudeText)

end Binary64

end CompileWatch
