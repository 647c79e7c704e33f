import SyntaxForest.Double.Basic
/-!
# Shortest decimal text of a number

The text of a number has the fewest digits that still read back to it. Decimals with `n` digits form a
grid. A number has two neighbours on each grid, and the first grid on which a neighbour still rounds
to the number gives its digits. All comparisons are made in exact integer arithmetic.

A text is always positional: no exponent, no leading zeros and no zeros after the last digit of a
fraction.
-/

namespace SyntaxForest

/-- The decimal `coefficient * 10 ^ exponent`. -/
structure Decimal where
  coefficient : Nat
  exponent : Int
  deriving DecidableEq, Repr

namespace Decimal

/-- A text without the zeros at its end. -/
def trimZeros (digits : List Char) : List Char := (digits.reverse.dropWhile (· == '0')).reverse

/-- The decimal in positional notation. -/
def render (d : Decimal) : String :=
  let digits := Nat.toDigits 10 d.coefficient
  if 0 ≤ d.exponent then String.ofList (digits ++ List.replicate d.exponent.toNat '0')
  else
    let places := (-d.exponent).toNat
    let padded := List.replicate (places + 1 - digits.length) '0' ++ digits
    let whole := padded.take (padded.length - places)
    let fraction := trimZeros (padded.drop (padded.length - places))
    if fraction.isEmpty then String.ofList whole else String.ofList (whole ++ '.' :: fraction)

end Decimal

/-- A positive number `value` with the reals that round to it: those between `low` and `high`, and
also the two ends when `closed`. All three are counted in units of `numerator / denominator`. -/
structure RoundingInterval where
  low : Nat
  value : Nat
  high : Nat
  closed : Bool
  numerator : Nat
  denominator : Nat

namespace RoundingInterval

/-- The interval of a finite number other than zero, in quarters of its last bit. Below a power of two
the numbers are twice as dense, so the interval ends half as far. -/
def ofDouble (x : Double) : RoundingInterval :=
  let (m, q) := x.significand
  let below := if x.fractionBits = 0 ∧ 1 < x.exponentBits then 1 else 2
  { low := 4 * m - below, value := 4 * m, high := 4 * m + 2, closed := m % 2 == 0,
    numerator := Nat.pow 2 (q - 2).toNat, denominator := Nat.pow 2 (2 - q).toNat }

/-- How many decimal digits a natural number has. -/
def digitCount (n : Nat) : Nat := (Nat.toDigits 10 n).length

/-- The exponent of the value's leading decimal digit. -/
def leadingExponent (i : RoundingInterval) : Int :=
  let n := i.value * i.numerator
  let d := i.denominator
  if d ≤ n then (digitCount (n / d) : Int) - 1 else -(digitCount ((d + n - 1) / n - 1) : Int)

/-- What one unit of the interval is in integers that also hold the multiples of `10 ^ exponent`. -/
def scale (i : RoundingInterval) (exponent : Int) : Nat := i.numerator * Nat.pow 10 (-exponent).toNat

/-- What `10 ^ exponent` is in the same integers. -/
def step (i : RoundingInterval) (exponent : Int) : Nat := i.denominator * Nat.pow 10 exponent.toNat

/-- How many whole times `10 ^ exponent` goes into the value. -/
def floor (i : RoundingInterval) (exponent : Int) : Nat := i.value * i.scale exponent / i.step exponent

/-- Whether `k * 10 ^ exponent` rounds to the value. -/
def holds (i : RoundingInterval) (exponent : Int) (k : Nat) : Bool :=
  let low := i.low * i.scale exponent
  let high := i.high * i.scale exponent
  let point := k * i.step exponent
  (decide (low < point) && decide (point < high)) || (i.closed && (point == low || point == high))

/-- Whether the value is nearer to `k * 10 ^ exponent` than to the next multiple. -/
def nearer (i : RoundingInterval) (exponent : Int) (k : Nat) : Bool :=
  decide (2 * (i.value * i.scale exponent - k * i.step exponent) < i.step exponent)

/-- A neighbour of the value among the multiples of `10 ^ exponent`, if one rounds to it. Of two the
nearer is taken, and the larger when both are equally near. -/
def neighbour? (i : RoundingInterval) (exponent : Int) : Option Nat :=
  let down := i.floor exponent
  match i.holds exponent down, i.holds exponent (down + 1) with
  | true, true => some (if i.nearer exponent down then down else down + 1)
  | true, false => some down
  | false, true => some (down + 1)
  | false, false => none

/-- Tries one digit more at a time, `more` times at most. Seventeen digits suffice for every number,
so the first line is never the answer. -/
def search (i : RoundingInterval) (exponent : Int) : (more : Nat) → Decimal
  | 0 => ⟨i.floor exponent, exponent⟩
  | more + 1 =>
    match i.neighbour? exponent with
    | some k => ⟨k, exponent⟩
    | none => i.search (exponent - 1) more

/-- The decimal with the fewest digits in the interval. -/
def shortest (i : RoundingInterval) : Decimal := i.search i.leadingExponent 17

end RoundingInterval

namespace Double

/-- The text of a number: its shortest decimal behind its sign, or the word for what is no finite
number. -/
def render (x : Double) : String :=
  if x.isNaN then "NaN"
  else
    let sign := if x.isNegative then "-" else ""
    if x.isInfinite then sign ++ "inf"
    else if x.isZero then sign ++ "0"
    else sign ++ (RoundingInterval.ofDouble x).shortest.render

instance : ToString Double := ⟨render⟩

end Double

end SyntaxForest
