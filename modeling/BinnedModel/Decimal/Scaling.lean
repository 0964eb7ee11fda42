import BinnedModel.Decimal.Basic

/-!
# Decimals of 64 bits, scaled in one step

A numeral in a document is read in two steps. Its leading digits are gathered in a
64-bit integer; the digits that no longer fit count as zeros. The integer is then
rounded to a double and scaled by a power of ten in double arithmetic. Both steps
round, so the result can differ from the nearest double in its last bits; it is
the nearest one while the digits stay below `2 ^ 53` and the power within
`10 ^ 22`, where integer and power are doubles themselves.
-/

namespace BinnedModel.Decimal

/-- Reads digits behind a number for as long as the result fits 64 bits. The second
component is the digits that are left from the first one that does not fit. -/
def gatherDigits (n : Nat) : List Char → Nat × List Char
  | [] => (n, [])
  | c :: cs =>
    let m := 10 * n + (c.toNat - '0'.toNat)
    if m < UInt64.size then gatherDigits m cs else (n, c :: cs)

/-- The decimal of a numeral, from its digits before and after the point and its
exponent, with the digits that fit 64 bits. A digit left out before the point weighs
one power of ten; the digits after the point go on from those before it. -/
def ofNumeral (negative : Bool) (whole fraction : List Char) (exponent : Int) : Decimal :=
  let (n, wholeLeft) := gatherDigits 0 whole
  let (m, fractionLeft) := gatherDigits n fraction
  ⟨negative, m, exponent + wholeLeft.length - (fraction.length - fractionLeft.length : Nat)⟩

/-- Exponent of the greatest power of ten among the doubles. -/
def maxPower : Nat :=
  308

/-- The double nearest to a power of ten; infinity beyond the greatest one. -/
def powerOfTen (n : Nat) : Float :=
  magnitudeToFloat ⟨false, 1, n⟩

/-- Quotient of an integer of 64 bits and a power of ten. A power beyond the doubles
is divided out in two parts; what is left after twice the greatest power is zero. -/
def scaleDown (x : Float) (n : Nat) : Float :=
  if n ≤ maxPower then x / powerOfTen n
  else if n ≤ 2 * maxPower then x / powerOfTen maxPower / powerOfTen (n - maxPower)
  else 0

/-- The double of a decimal without its sign; a product beyond the doubles is none. -/
def scaledMagnitude? (d : Decimal) : Option Float :=
  let x := magnitudeToFloat ⟨false, d.digits, 0⟩
  if d.digits = 0 then some 0
  else if d.exponent < 0 then some (scaleDown x (-d.exponent).toNat)
  else
    let y := x * powerOfTen d.exponent.toNat
    if y.isFinite then some y else none

/-- The double of a decimal: its digits rounded to a double, then scaled. -/
def scaled? (d : Decimal) : Option Float :=
  d.scaledMagnitude?.map fun x => if d.negative then -x else x

end BinnedModel.Decimal
