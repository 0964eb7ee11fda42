import BinnedModel.Scalar

/-!
# Polynomials of degree five in Bernstein form

A polynomial on the unit interval lies in the convex hull of its Bernstein
coefficients, so it is nonnegative if they are. Where they are not, the interval is
halved: the coefficients of the two halves come from repeated middles. The test
below decides nonnegativity up to a number of halvings; what is still open then
counts as negative.
-/

namespace BinnedModel

/-- Six coefficients of a polynomial of degree five, in whatever basis. -/
structure Quintic (K : Type) where
  /-- Coefficient of index 0. -/
  c0 : K
  /-- Coefficient of index 1. -/
  c1 : K
  /-- Coefficient of index 2. -/
  c2 : K
  /-- Coefficient of index 3. -/
  c3 : K
  /-- Coefficient of index 4. -/
  c4 : K
  /-- Coefficient of index 5. -/
  c5 : K

namespace Quintic

variable {K : Type} [Scalar K]

/-- Value at `x` of the polynomial with these power coefficients, by Horner's rule. -/
def horner (p : Quintic K) (x : K) : K :=
  ((((p.c5 * x + p.c4) * x + p.c3) * x + p.c2) * x + p.c1) * x + p.c0

/-- Power coefficients in `t` of the polynomial in `x = 2 t - 1` with the given
power coefficients in `x`. -/
def recentre (p : Quintic K) : Quintic K :=
  let n (k : Nat) : K := (k : K)
  { c0 := p.c0 - p.c1 + p.c2 - p.c3 + p.c4 - p.c5
    c1 := p.c1 * n 2 - p.c2 * n 4 + p.c3 * n 6 - p.c4 * n 8 + p.c5 * n 10
    c2 := p.c2 * n 4 - p.c3 * n 12 + p.c4 * n 24 - p.c5 * n 40
    c3 := p.c3 * n 8 - p.c4 * n 32 + p.c5 * n 80
    c4 := p.c4 * n 16 - p.c5 * n 80
    c5 := p.c5 * n 32 }

/-- Bernstein coefficients of the polynomial with the given power coefficients: the
`i`-th is the sum over `j ≤ i` of the `j`-th power coefficient, weighted with
`choose i j / choose 5 j`. -/
def toBernstein (p : Quintic K) : Quintic K :=
  let r (n d : Nat) : K := Scalar.ratio n d
  { c0 := p.c0
    c1 := p.c0 + r 1 5 * p.c1
    c2 := p.c0 + r 2 5 * p.c1 + r 1 10 * p.c2
    c3 := p.c0 + r 3 5 * p.c1 + r 3 10 * p.c2 + r 1 10 * p.c3
    c4 := p.c0 + r 4 5 * p.c1 + r 6 10 * p.c2 + r 4 10 * p.c3 + r 1 5 * p.c4
    c5 := p.c0 + p.c1 + p.c2 + p.c3 + p.c4 + p.c5 }

/-- The middle of two scalars. -/
def middle (x y : K) : K :=
  Scalar.ratio 1 2 * (x + y)

/-- The middles of neighbouring coefficients, with the last coefficient kept: one
round of de Casteljau's scheme at one half. -/
def middles (b : Quintic K) : Quintic K :=
  { c0 := middle b.c0 b.c1
    c1 := middle b.c1 b.c2
    c2 := middle b.c2 b.c3
    c3 := middle b.c3 b.c4
    c4 := middle b.c4 b.c5
    c5 := b.c5 }

/-- Bernstein coefficients of the polynomial on the left and on the right half of
its interval. -/
def halves (b : Quintic K) : Quintic K × Quintic K :=
  let b1 := b.middles
  let b2 := b1.middles
  let b3 := b2.middles
  let b4 := b3.middles
  let b5 := b4.middles
  (⟨b.c0, b1.c0, b2.c0, b3.c0, b4.c0, b5.c0⟩,
    ⟨b5.c0, b4.c1, b3.c2, b2.c3, b1.c4, b.c5⟩)

/-- Whether all coefficients are nonnegative. -/
def AllNonneg (b : Quintic K) : Prop :=
  0 ≤ b.c0 ∧ 0 ≤ b.c1 ∧ 0 ≤ b.c2 ∧ 0 ≤ b.c3 ∧ 0 ≤ b.c4 ∧ 0 ≤ b.c5

instance (b : Quintic K) : Decidable b.AllNonneg :=
  inferInstanceAs (Decidable (0 ≤ b.c0 ∧ _))

/-- Whether the polynomial with these Bernstein coefficients is found nonnegative on
its interval within the given number of halvings. -/
def isNonneg : Nat → Quintic K → Bool
  | 0, b => decide b.AllNonneg
  | depth + 1, b =>
    if b.AllNonneg then true
    else if b.c0 < 0 ∨ b.c5 < 0 then false
    else isNonneg depth b.halves.1 && isNonneg depth b.halves.2

end Quintic

end BinnedModel
