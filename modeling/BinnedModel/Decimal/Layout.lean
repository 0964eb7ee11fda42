import BinnedModel.Decimal.Shortest

/-!
# Written decimals

Two ways to lay out a decimal: positionally, with as many zeros as the exponent
asks for, and with one digit before the point and an explicit exponent.
-/

namespace BinnedModel.Decimal

/-- The digits, most significant first. -/
def digitChars (d : Decimal) : List Char :=
  Nat.toDigits 10 d.digits

/-- A minus sign for negative numbers. -/
def signChars (d : Decimal) : List Char :=
  if d.negative then ['-'] else []

/-- Number of digits before the point of the positional form; not positive when
zeros follow the point. -/
def pointPosition (d : Decimal) : Int :=
  d.digitChars.length + d.exponent

/-- Positional form of the magnitude; `tail` follows a number without fraction. -/
def positionalChars (d : Decimal) (tail : List Char) : List Char :=
  let ds := d.digitChars
  if 0 ≤ d.exponent then ds ++ List.replicate d.exponent.toNat '0' ++ tail
  else if 0 < d.pointPosition then
    let (whole, fraction) := ds.splitAt d.pointPosition.toNat
    whole ++ '.' :: fraction
  else '0' :: '.' :: List.replicate (-d.pointPosition).toNat '0' ++ ds

/-- Scientific form of the magnitude: one digit, the others as a fraction, the
exponent after an `e`. -/
def scientificChars (d : Decimal) : List Char :=
  let exponent := (toString (d.pointPosition - 1)).toList
  match d.digitChars with
  | [] => []
  | [c] => c :: 'e' :: exponent
  | c :: cs => c :: '.' :: cs ++ 'e' :: exponent

end BinnedModel.Decimal
