import BinnedModel.Json.Decode

/-!
# Interpolation codes

An interpolation turns a parameter into a factor or a shift that is neutral at `0`
and reproduces the stored variations at `-1` and `1`. Each family has a plain
code, piecewise in the sign of the parameter, and one that is a polynomial between
the variations.
-/

namespace BinnedModel

/-- How a factor is interpolated between a down and an up factor. -/
inductive MultiplicativeCode where
  /-- Exponential on each side of zero. -/
  | code1
  /-- Polynomial of degree six between the variations, exponential outside. -/
  | code4
deriving DecidableEq, Repr

/-- How a shift is interpolated between a down and an up histogram. -/
inductive AdditiveCode where
  /-- Linear on each side of zero. -/
  | code0
  /-- Polynomial of degree six between the variations, linear outside. -/
  | code4p
deriving DecidableEq, Repr

/-- The name of a multiplicative code. -/
def MultiplicativeCode.name : MultiplicativeCode → String
  | code1 => "code1"
  | code4 => "code4"

/-- Read a multiplicative code from JSON. -/
def MultiplicativeCode.ofJson? {K : Type} (j : Json K) : Option MultiplicativeCode :=
  j.alternative?.bind fun s => [code1, code4].find? fun c => c.name == s

/-- A multiplicative code is read back from its name. -/
theorem MultiplicativeCode.ofJson?_name {K : Type} (c : MultiplicativeCode) :
    ofJson? (.string c.name : Json K) = some c := by
  cases c <;> rfl

/-- The name of an additive code. -/
def AdditiveCode.name : AdditiveCode → String
  | code0 => "code0"
  | code4p => "code4p"

/-- Read an additive code from JSON. -/
def AdditiveCode.ofJson? {K : Type} (j : Json K) : Option AdditiveCode :=
  j.alternative?.bind fun s => [code0, code4p].find? fun c => c.name == s

/-- An additive code is read back from its name. -/
theorem AdditiveCode.ofJson?_name {K : Type} (c : AdditiveCode) :
    ofJson? (.string c.name : Json K) = some c := by
  cases c <;> rfl

end BinnedModel
