import BinnedModel.Decimal.Basic

/-!
# Numbers on a command line

A number is written with an optional sign, digits before or after a point or on both
sides of it, and an optional exponent; the words `inf`, `infinity` and `nan` count in
any mix of cases. Nothing may stand around it. Counts are unsigned decimals of at
most 64 bits.
-/

namespace BinnedModel.Decimal

/-- The exponent at the end of a literal: none, or a letter `e` with an integer. -/
def exponentOf? : List Char → Option Int
  | [] => some 0
  | c :: cs =>
    if c = 'e' ∨ c = 'E' then
      let (negative, digits) := match cs with
        | '-' :: ds => (true, ds)
        | '+' :: ds => (false, ds)
        | ds => (false, ds)
      if digits.isEmpty || !digits.all isDigit then none
      else some (if negative then -natOfDigits digits else natOfDigits digits)
    else none

/-- A literal behind its sign. -/
def magnitudeOf? (negative : Bool) (cs : List Char) : Option Decimal :=
  let (whole, rest) := cs.span isDigit
  let (fraction, rest) := match rest with
    | '.' :: rest => rest.span isDigit
    | _ => ([], rest)
  if whole.isEmpty && fraction.isEmpty then none
  else
    (exponentOf? rest).map fun e =>
      ⟨negative, natOfDigits (whole ++ fraction), e - fraction.length⟩

/-- A scalar behind its sign: one of the words, or a decimal literal. -/
def unsignedFloat? (negative : Bool) (cs : List Char) : Option Float :=
  let word := String.ofList (cs.map Char.toLower)
  let sign : Float := if negative then -1 else 1
  if word == "inf" || word == "infinity" then some (sign / 0)
  else if word == "nan" then some (0 / 0)
  else (magnitudeOf? negative cs).map toFloat

/-- The double that a word of the command line denotes. -/
def float? (s : String) : Option Float :=
  match s.toList with
  | '-' :: cs => unsignedFloat? true cs
  | '+' :: cs => unsignedFloat? false cs
  | cs => unsignedFloat? false cs

/-- The count that a word of the command line denotes. -/
def count? (s : String) : Option Nat :=
  let digits := match s.toList with
    | '+' :: cs => cs
    | cs => cs
  if digits.isEmpty || !digits.all isDigit then none
  else if natOfDigits digits < UInt64.size then some (natOfDigits digits) else none

end BinnedModel.Decimal
