import BinnedModel.Poisson

/-!
# Priors

Each parameter has a prior: a Gaussian or a Poisson constraint, or a flat prior that
only states an interval. A flat prior does not change a likelihood; if its interval
is a single point, it pins the parameter there.
-/

namespace BinnedModel

/-- Prior distribution of one parameter. -/
inductive Prior (K : Type) where
  /-- Gaussian with centre `mu` and width `sigma`. -/
  | normal (mu sigma : K)
  /-- Poisson with the given rate, along the continuous extension. -/
  | poisson (rate : K)
  /-- No preference on the interval from `a` to `b`. -/
  | flat (a b : K)
deriving DecidableEq, Repr

/-- An end of an interval on the extended line. -/
inductive Edge (K : Type) where
  /-- Below every scalar. -/
  | bottom
  /-- A scalar. -/
  | point (x : K)
  /-- Above every scalar. -/
  | top
deriving DecidableEq, Repr

namespace Prior

variable {K : Type}

/-- Lower end of the support. -/
def minimum [Scalar K] : Prior K → Edge K
  | normal _ _ => .bottom
  | poisson _ => .point 0
  | flat a _ => .point a

/-- Upper end of the support. -/
def maximum : Prior K → Edge K
  | normal _ _ => .top
  | poisson _ => .top
  | flat _ b => .point b

/-- Whether the prior is flat, so that it adds nothing to a likelihood. -/
def isFlat : Prior K → Bool
  | flat _ _ => true
  | _ => false

variable [Scalar K]

/-- A Gaussian prior, if its centre is finite and its width finite and positive. -/
def mkNormal (mu sigma : K) : Except (Fault K) (Prior K) :=
  if Scalar.isFinite mu = false then .error (.invalid (.priorCentre mu))
  else if Scalar.isFinite sigma = false ∨ sigma ≤ 0 then
    .error (.invalid (.priorWidth sigma))
  else .ok (.normal mu sigma)

/-- A Poisson prior, if its rate is finite and not negative. -/
def mkPoisson (rate : K) : Except (Fault K) (Prior K) :=
  if Scalar.isFinite rate = false ∨ rate < 0 then .error (.invalid (.priorRate rate))
  else .ok (.poisson rate)

/-- A flat prior, if its interval is finite and not reversed. -/
def mkFlat (a b : K) : Except (Fault K) (Prior K) :=
  if Scalar.isFinite a = false ∨ Scalar.isFinite b = false ∨ b < a then
    .error (.invalid (.priorInterval a b))
  else .ok (.flat a b)

/-- Logarithm of the density; a flat prior counts as one everywhere. -/
def logDensity (p : Prior K) (x : K) : Except (Fault K) K :=
  match p with
  | normal mu sigma =>
    if Scalar.isFinite sigma = false ∨ sigma ≤ 0 then
      .error (.invalid (.normalWidth sigma))
    else
      let z := (x - mu) / sigma
      .ok (Scalar.ratio (-1) 2 * z * z - Scalar.log sigma - Scalar.halfLogTwoPi)
  | poisson rate => Poisson.logDensity x rate
  | flat _ _ => .ok 0

/-- Mean of the distribution. -/
def mean : Prior K → K
  | normal mu _ => mu
  | poisson rate => rate
  | flat a b => Scalar.ratio 1 2 * (a + b)

/-- Whether a scalar lies in the support, its ends included. -/
def Supports (p : Prior K) (x : K) : Prop :=
  match p with
  | normal _ _ => True
  | poisson _ => 0 ≤ x
  | flat a b => a ≤ x ∧ x ≤ b

instance (p : Prior K) (x : K) : Decidable (p.Supports x) :=
  match p with
  | normal _ _ => inferInstanceAs (Decidable True)
  | poisson _ => inferInstanceAs (Decidable (0 ≤ x))
  | flat a b => inferInstanceAs (Decidable (a ≤ x ∧ x ≤ b))

/-- A prior as an object whose key `dist` names the distribution. -/
def toJson : Prior K → Json K
  | normal mu sigma =>
    .object [("dist", .string "normal"), ("mu", .ofScalar mu), ("sigma", .ofScalar sigma)]
  | poisson rate => .object [("dist", .string "poisson"), ("lambda", .ofScalar rate)]
  | flat a b =>
    .object [("dist", .string "flat"), ("a", .ofScalar a), ("b", .ofScalar b)]

/-- The name of the distribution: the key `dist` of an object, the first item of an
array. -/
def distribution? : Json K → Option String
  | .array (item :: _) => item.string?
  | .object fields =>
    ((Json.object fields).record? ["dist"]).bind fun r => Json.field? r "dist" Json.string?
  | _ => none

/-- Read a prior from JSON. Its numbers are not checked. -/
def ofJson? (j : Json K) : Option (Prior K) :=
  match distribution? j with
  | some "normal" => do
    let r ← j.record? ["dist", "mu", "sigma"]
    return normal (← Json.field? r "mu" Json.scalar?) (← Json.field? r "sigma" Json.scalar?)
  | some "poisson" => do
    let r ← j.record? ["dist", "lambda"]
    return poisson (← Json.field? r "lambda" Json.scalar?)
  | some "flat" => do
    let r ← j.record? ["dist", "a", "b"]
    return flat (← Json.field? r "a" Json.scalar?) (← Json.field? r "b" Json.scalar?)
  | _ => none

end Prior

/-- An end of an interval; an infinite one has no JSON form and becomes `null`. -/
def Edge.toJson {K : Type} [Scalar K] : Edge K → Json K
  | bottom => .null
  | point x => .ofScalar x
  | top => .null

end BinnedModel
