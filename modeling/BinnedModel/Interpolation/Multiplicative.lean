import BinnedModel.Interpolation.Bernstein
import BinnedModel.Interpolation.Code

/-!
# Factors between two variations

The factor of a parameter `α` is `1` at zero, `lo` at `-1` and `hi` at `1`. Positive
variations are interpolated by exponentials or, between `-1` and `1`, by a
polynomial that meets them smoothly; variations that are not positive have no
exponential and are blended linearly. Between variations on different sides of one
the polynomial is used only if it is found monotonic.
-/

namespace BinnedModel

namespace Quintic

variable {K : Type} [Scalar K]

/-- The combination `Σ nᵢ/16 · bᵢ` of six scalars. -/
def sixteenths (n0 n1 n2 n3 n4 n5 : Int) (b : Quintic K) : K :=
  Scalar.ratio n0 16 * b.c0 + Scalar.ratio n1 16 * b.c1 + Scalar.ratio n2 16 * b.c2 +
    Scalar.ratio n3 16 * b.c3 + Scalar.ratio n4 16 * b.c4 + Scalar.ratio n5 16 * b.c5

/-- The unique `c` for which `1 + Σ cₖ α ^ (k + 1)` agrees in value and in the first
two derivatives with `hi ^ α` at `1` and with `lo ^ (-α)` at `-1`: the inverse of
those six conditions, applied to their right-hand sides. -/
def meeting (lo hi : K) : Quintic K :=
  let up := Scalar.log hi
  let down := Scalar.log lo
  let b : Quintic K :=
    ⟨hi - 1, lo - 1, hi * up, -lo * down, hi * up * up, lo * down * down⟩
  { c0 := sixteenths 15 (-15) (-7) (-7) 1 (-1) b
    c1 := sixteenths 24 24 (-9) 9 1 1 b
    c2 := sixteenths (-10) 10 10 10 (-2) 2 b
    c3 := sixteenths (-24) (-24) 14 (-14) (-2) (-2) b
    c4 := sixteenths 3 (-3) (-3) (-3) 1 (-1) b
    c5 := sixteenths 8 8 (-5) 5 1 1 b }

/-- Power coefficients of `sign` times the slope of `1 + Σ cₖ α ^ (k + 1)`. -/
def signedSlope (sign : K) (c : Quintic K) : Quintic K :=
  let n (k : Nat) : K := (k : K)
  { c0 := sign * n 1 * c.c0
    c1 := sign * n 2 * c.c1
    c2 := sign * n 3 * c.c2
    c3 := sign * n 4 * c.c3
    c4 := sign * n 5 * c.c4
    c5 := sign * n 6 * c.c5 }

/-- Bernstein coefficients of `sign` times the slope of `1 + Σ cₖ α ^ (k + 1)`, over
`α = 2 t - 1` with `t` in the unit interval. -/
def slopeBernstein (sign : K) (c : Quintic K) : Quintic K :=
  (c.signedSlope sign).recentre.toBernstein

end Quintic

namespace MultiplicativeCode

variable {K : Type} [Scalar K]

/-- Halvings after which a slope that is neither found nonnegative nor found negative
counts as negative. -/
def slopeDepth : Nat :=
  12

/-- Whether the polynomial between positive variations is used: it is, unless the
variations lie on different sides of one and its slope is not found to have the sign
of their difference. -/
def keepsPolynomial (lo hi : K) : Bool :=
  let slope (sign : K) := (Quintic.meeting lo hi).slopeBernstein sign
  if lo < 1 ∧ 1 < hi then (slope 1).isNonneg slopeDepth
  else if hi < 1 ∧ 1 < lo then (slope (-1)).isNonneg slopeDepth
  else true

/-- The code that is used for a pair of variations: the requested one, but `code1` in
place of `code4` if the polynomial of the pair is not used. -/
def effective (code : MultiplicativeCode) (lo hi : K) : MultiplicativeCode :=
  match code with
  | code1 => code1
  | code4 => if 0 < lo ∧ 0 < hi then (if keepsPolynomial lo hi then code4 else code1) else code4

/-- Straight lines through the three knots. -/
def blend (lo hi α : K) : K :=
  if 0 ≤ α then hi * α + (1 - α) else lo * -α + (1 + α)

/-- Exponential through `1` on each side of zero. -/
def exponential (lo hi α : K) : K :=
  if 0 ≤ α then Scalar.pow hi α else Scalar.pow lo (-α)

/-- Polynomial between the variations, exponential outside. -/
def polynomial (lo hi α : K) : K :=
  if 1 ≤ Scalar.magnitude α then
    Scalar.pow (if 0 ≤ α then hi else lo) (Scalar.magnitude α)
  else 1 + (Quintic.meeting lo hi).horner α * α

/-- The factor of a pair of variations under a code that has already been settled. -/
def factor (code : MultiplicativeCode) (lo hi α : K) : K :=
  if hi ≤ 0 ∨ lo ≤ 0 then blend lo hi α
  else match code with
    | code1 => exponential lo hi α
    | code4 => polynomial lo hi α

/-- The factor of a pair of variations under a requested code. -/
def interpolate (code : MultiplicativeCode) (lo hi α : K) : K :=
  (code.effective lo hi).factor lo hi α

end MultiplicativeCode

end BinnedModel
