/-!
# Scalars of a binned model

Yields, priors and likelihoods are written once, over a class of scalars. The
instance for doubles runs the program; an instance for an exact field lets the
same definitions be reasoned about. The class holds operations only: no law is
part of it, so nothing that is proved for every scalar can lean on exactness.
-/

namespace BinnedModel

/-- Numbers in which yields, priors and likelihoods are computed. -/
class Scalar (K : Type) extends Add K, Sub K, Mul K, Div K, Neg K, Zero K, One K,
    NatCast K, IntCast K, LE K, LT K where
  /-- The order test `x ≤ y` can be run. -/
  decidableLE : DecidableRel fun x y : K => x ≤ y
  /-- The order test `x < y` can be run. -/
  decidableLT : DecidableRel fun x y : K => x < y
  /-- Natural logarithm. -/
  log : K → K
  /-- Power of a positive base with any exponent. -/
  pow : K → K → K
  /-- Square root. -/
  sqrt : K → K
  /-- Logarithm of the gamma function, for arguments of at least one. -/
  lnGamma : K → K
  /-- The constant `ln √(2π)` of the Gaussian density. -/
  halfLogTwoPi : K
  /-- Whether a scalar is an ordinary number, neither infinite nor undefined. -/
  isFinite : K → Bool

namespace Scalar

variable {K : Type} [Scalar K]

instance : DecidableLE K := decidableLE

instance : DecidableLT K := decidableLT

/-- Both order tests hold: the two scalars denote one number. An undefined
scalar agrees with nothing, itself included. -/
def Agrees (x y : K) : Prop :=
  x ≤ y ∧ y ≤ x

instance (x y : K) : Decidable (Agrees x y) :=
  inferInstanceAs (Decidable (x ≤ y ∧ y ≤ x))

/-- The scalar `n / d`. -/
def ratio (n : Int) (d : Nat) : K :=
  (n : K) / (d : K)

/-- Absolute value. -/
def magnitude (x : K) : K :=
  if x < 0 then -x else x

/-- Sum of a list, added from left to right. -/
def total (xs : List K) : K :=
  xs.foldl (· + ·) 0

/-- Product of a list, multiplied from left to right. -/
def product (xs : List K) : K :=
  xs.foldl (· * ·) 1

end Scalar

end BinnedModel
