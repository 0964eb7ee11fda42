import BinnedModel.Model.Yields

/-!
# Likelihoods

The logarithmic likelihood of observed counts is the sum over the bins of the Poisson
densities, without the terms that do not depend on the parameters, and, if priors are
given, of the logarithmic densities of the parameters. It is defined for any map from
parameters to yields. The gradient is taken by central differences.
-/

namespace BinnedModel

/-- A logarithmic likelihood over fixed observed counts. -/
structure Likelihood (K : Type) where
  /-- Expected counts. -/
  yields : YieldMap K
  /-- Observed counts, one per bin. -/
  observed : List K
  /-- Priors, one per parameter, if the parameters are constrained. -/
  priors : Option (List (Prior K))

namespace Likelihood

variable {K : Type}

/-- The likelihood of the counts alone. -/
def ofCounts (yields : YieldMap K) (observed : List K) : Except (Fault K) (Likelihood K) :=
  if observed.length ≠ yields.bins then
    .error (.dimensionMismatch .observedToExpected yields.bins observed.length)
  else .ok ⟨yields, observed, none⟩

/-- The likelihood of the counts with one constraint per parameter. -/
def withPriors (yields : YieldMap K) (observed : List K) (priors : List (Prior K)) :
    Except (Fault K) (Likelihood K) :=
  if observed.length ≠ yields.bins then
    .error (.dimensionMismatch .observedToExpected yields.bins observed.length)
  else if priors.length ≠ yields.parameters then
    .error (.dimensionMismatch .priorsToParameters yields.parameters priors.length)
  else .ok ⟨yields, observed, some priors⟩

/-- Whether the parameters are constrained. -/
def isConstrained (l : Likelihood K) : Bool :=
  l.priors.isSome

variable [Scalar K]

/-- Add the logarithmic densities of parameters, from left to right. -/
def addDensities : List (Prior K × K) → K → Except (Fault K) K
  | [], sum => .ok sum
  | (prior, x) :: rest, sum =>
    match prior.logDensity x with
    | .error f => .error f
    | .ok density => addDensities rest (sum + density)

/-- The data term at expected counts. -/
def dataTerm (observed expected : List K) : K :=
  Scalar.total (List.zipWith Poisson.kernel observed expected)

/-- The likelihood at expected counts and the parameters that lead to them. -/
def atYields (l : Likelihood K) (params expected : List K) : Except (Fault K) K :=
  if expected.length ≠ l.observed.length then
    .error (.dimensionMismatch .observedToExpected expected.length l.observed.length)
  else addDensities ((l.priors.getD []).zip params) (dataTerm l.observed expected)

/-- Where there are priors, there has to be one parameter for each. -/
def checkParameters (l : Likelihood K) (params : List K) : Except (Fault K) Unit :=
  match l.priors with
  | none => .ok ()
  | some ps =>
    if params.length ≠ ps.length then
      .error (.dimensionMismatch .parametersToPriors ps.length params.length)
    else .ok ()

/-- The logarithmic likelihood at a parameter vector. -/
def eval (l : Likelihood K) (params : List K) : Except (Fault K) K :=
  match l.checkParameters params with
  | .error f => .error f
  | .ok () =>
    match l.yields.expected params with
    | .error f => .error f
    | .ok expected => l.atYields params expected

/-- The logarithmic likelihood at several points; the first fault ends it. -/
def evalMany (l : Likelihood K) (points : List (List K)) : Except (Fault K) (List K) :=
  points.mapM l.eval

/-- Step of the central difference at a parameter value: relative for large values,
absolute for those up to one. -/
def stepAt (x : K) : K :=
  Scalar.sqrt (Scalar.ratio 1 100000000) *
    if 1 ≤ Scalar.magnitude x then Scalar.magnitude x else 1

/-- Central difference with respect to one parameter. -/
def slope (l : Likelihood K) (params : List K) (i : Nat) : Except (Fault K) K := do
  let x := params.getD i 0
  let step := stepAt x
  let above ← l.eval (params.set i (x + step))
  let below ← l.eval (params.set i (x - step))
  return (above - below) / ((2 : Nat) * step)

/-- Central differences with respect to all parameters. -/
def gradient (l : Likelihood K) (params : List K) : Except (Fault K) (List K) :=
  if params.length ≠ l.yields.parameters then
    .error (.parameterCountMismatch l.yields.parameters params.length)
  else (List.range params.length).mapM (l.slope params)

end Likelihood

end BinnedModel
