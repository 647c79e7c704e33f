/-!
# Double-precision numbers

A number is its 64-bit pattern: one sign bit, eleven exponent bits and fifty-two fraction bits. Equality
of patterns is `=`; `Double.equal` is equality of values, by which the two zeros agree and a NaN agrees
with nothing.
-/

namespace SyntaxForest

/-- A double-precision number, given by its bit pattern. -/
structure Double where
  bits : UInt64
  deriving DecidableEq, Repr

namespace Double

/-- What the sign bit counts. -/
def signUnit : Nat := 0x8000000000000000

/-- What the lowest exponent bit counts. -/
def exponentUnit : Nat := 0x10000000000000

/-- Whether the sign bit is set. -/
def isNegative (x : Double) : Bool := decide (signUnit ≤ x.bits.toNat)

/-- The eleven exponent bits. -/
def exponentBits (x : Double) : Nat := x.bits.toNat / exponentUnit % 2048

/-- The fifty-two fraction bits. -/
def fractionBits (x : Double) : Nat := x.bits.toNat % exponentUnit

/-- The pattern without its sign bit. -/
def magnitudeBits (x : Double) : Nat := x.bits.toNat % signUnit

/-- Not a number: the exponent bits are all set and the fraction is not zero. -/
def isNaN (x : Double) : Bool := x.exponentBits == 2047 && x.fractionBits != 0

/-- One of the two infinities. -/
def isInfinite (x : Double) : Bool := x.exponentBits == 2047 && x.fractionBits == 0

/-- One of the two zeros. -/
def isZero (x : Double) : Bool := x.magnitudeBits == 0

/-- Equality of values: a NaN differs from everything, and zero equals minus zero. -/
def equal (x y : Double) : Bool :=
  !x.isNaN && !y.isNaN && (x == y || (x.isZero && y.isZero))

/-- The significand `m` and exponent `q` with which a finite magnitude is `m * 2 ^ q`. -/
def significand (x : Double) : Nat × Int :=
  if x.exponentBits = 0 then (x.fractionBits, -1074)
  else (exponentUnit + x.fractionBits, (x.exponentBits : Int) - 1075)

end Double

end SyntaxForest
