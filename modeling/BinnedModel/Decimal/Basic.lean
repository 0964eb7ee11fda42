/-!
# Decimal numbers and doubles

A decimal literal names the number `± digits · 10 ^ exponent`, a finite double the
number `± mantissa · 2 ^ exponent`. This module holds both forms and the step from
a literal to its nearest double. Powers are computed only for exponents at which
a double other than zero and infinity can result.
-/

namespace BinnedModel

/-- The number `± digits · 10 ^ exponent`. -/
structure Decimal where
  /-- Whether the number carries a minus sign; zero may carry one. -/
  negative : Bool
  /-- The significant digits, read as one natural number. -/
  digits : Nat
  /-- Power of ten that scales the digits. -/
  exponent : Int
deriving DecidableEq, Repr

/-- The number `± mantissa · 2 ^ exponent`. -/
structure Binary where
  /-- Whether the number carries a minus sign; zero may carry one. -/
  negative : Bool
  /-- Significant bits, read as one natural number. -/
  mantissa : Nat
  /-- Power of two that scales the bits. -/
  exponent : Int
deriving DecidableEq, Repr

namespace Decimal

/-- Whether a character is one of the ten ASCII digits. -/
def isDigit (c : Char) : Bool :=
  '0' ≤ c && c ≤ '9'

/-- Value of a run of digits, most significant first. -/
def natOfDigits (cs : List Char) : Nat :=
  cs.foldl (fun n c => 10 * n + (c.toNat - '0'.toNat)) 0

/-- Nearest double without its sign. From `10 ^ 400` on every nonzero number
overflows, and below `10 ^ -400` every number vanishes. -/
def magnitudeToFloat (d : Decimal) : Float :=
  if d.digits = 0 ∨ d.exponent + d.digits.log2 ≤ -400 then 0
  else if 400 ≤ d.exponent then 1 / 0
  else if 0 ≤ d.exponent then Float.ofScientific d.digits false d.exponent.toNat
  else Float.ofScientific d.digits true (-d.exponent).toNat

/-- Nearest double, ties to the even mantissa. -/
def toFloat (d : Decimal) : Float :=
  if d.negative then -d.magnitudeToFloat else d.magnitudeToFloat

end Decimal

namespace Binary

/-- Exponent of the subnormal doubles. -/
def leastExponent : Int :=
  -1074

/-- Weight of the leading bit of a normal double, which its bits do not show. -/
def hiddenBit : Nat :=
  0x10000000000000

/-- Exact value of a finite double; infinities and undefined doubles have none. -/
def ofFloat? (x : Float) : Option Binary :=
  let bits := x.toBits.toNat
  let field := bits / hiddenBit % 2048
  let fraction := bits % hiddenBit
  let negative := decide (2048 * hiddenBit ≤ bits)
  if field = 2047 then none
  else if field = 0 then some ⟨negative, fraction, leastExponent⟩
  else some ⟨negative, hiddenBit + fraction, leastExponent + (field - 1 : Nat)⟩

end Binary

end BinnedModel
