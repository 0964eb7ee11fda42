import BinnedModel.Fault.Basic

/-!
# Poisson densities

Binned counts follow Poisson distributions. Observed counts need not be whole
numbers, so the density is taken along the continuous extension of the factorial.
The data term of a likelihood needs the density only up to a factor that does not
depend on the rate; `kernel` is the logarithm of that part.
-/

namespace BinnedModel.Poisson

variable {K : Type} [Scalar K]

/-- The logarithm of a vanishing density. -/
def logZero : K :=
  Scalar.log 0

/-- Logarithm of the density `rate ^ x e ^ (-rate) / Γ (x + 1)`. It vanishes for
negative counts; at rate zero all weight lies on count zero. -/
def logDensity (x rate : K) : Except (Fault K) K :=
  if Scalar.isFinite rate = false ∨ rate < 0 then .error (.invalid (.poissonRate rate))
  else if x < 0 then .ok logZero
  else if Scalar.Agrees rate 0 then
    if Scalar.Agrees x 0 then .ok 0 else .ok logZero
  else .ok (x * Scalar.log rate - rate - Scalar.lnGamma (x + 1))

/-- Logarithm of the probability of a whole count. -/
def logMass (k : Nat) (rate : K) : Except (Fault K) K :=
  logDensity (k : K) rate

/-- The part of the logarithmic density that depends on the rate. An empty bin
contributes only its rate, also where the rate is zero. -/
def kernel (observed rate : K) : K :=
  if Scalar.Agrees observed 0 then -rate else observed * Scalar.log rate - rate

end BinnedModel.Poisson
