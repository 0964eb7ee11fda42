import BinnedModel.Interpolation.Code

/-!
# Shifts between two varied yields

The shift of a parameter `α` is `0` at zero, `lo - nominal` at `-1` and
`hi - nominal` at `1`, and linear beyond the variations.
-/

namespace BinnedModel.AdditiveCode

variable {K : Type} [Scalar K]

/-- Straight lines through the three knots. -/
def linear (lo nominal hi α : K) : K :=
  if 0 ≤ α then α * (hi - nominal) else α * (nominal - lo)

/-- Straight lines beyond the variations, joined by a polynomial: half the sum of the
two differences is the odd part, their difference enters through an even part of
degree six that meets the lines smoothly. -/
def smooth (lo nominal hi α : K) : K :=
  let up := hi - nominal
  let down := nominal - lo
  if 1 ≤ α then up * α
  else if α ≤ -1 then down * α
  else
    let odd := Scalar.ratio 1 2 * (up + down)
    let even := Scalar.ratio 1 16 * (up - down)
    let square := α * α
    let inner := square * (3 : Nat) - (10 : Nat)
    let outer := square * inner + (15 : Nat)
    α * odd + square * outer * even

/-- The shift of one bin. -/
def shift (code : AdditiveCode) (lo nominal hi α : K) : K :=
  match code with
  | code0 => linear lo nominal hi α
  | code4p => smooth lo nominal hi α

/-- The shifts of all bins of three histograms of one length. -/
def shifts (code : AdditiveCode) (lo nominal hi : List K) (α : K) : List K :=
  List.zipWith (fun n (l, h) => code.shift l n h α) nominal (lo.zip hi)

end BinnedModel.AdditiveCode
