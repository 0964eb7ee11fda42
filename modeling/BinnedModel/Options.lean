import BinnedModel.Fault.Basic
import BinnedModel.Interpolation.Code

/-!
# Build options

What a user may choose when a model is built: the interpolation codes, the interval
of free parameters, and the measurement whose settings apply.
-/

namespace BinnedModel

open Json (fieldD? nullable? string? pair? scalar?)

/-- Choices for the assembly of a model. -/
structure Options (K : Type) where
  /-- Interpolation of factors between two variations. -/
  multiplicative : MultiplicativeCode
  /-- Interpolation of shifts between two varied histograms. -/
  additive : AdditiveCode
  /-- Support of the flat prior of a free parameter. -/
  freeInterval : K × K
  /-- Name of the measurement whose settings apply; if absent, the first one. -/
  measurement : Option String

namespace Options

variable {K : Type} [Scalar K]

/-- Polynomial codes, free parameters between zero and ten, the first measurement. -/
def standard : Options K :=
  { multiplicative := .code4
    additive := .code4p
    freeInterval := (0, ((10 : Nat) : K))
    measurement := none }

/-- The interval of free parameters has to be finite and not reversed. -/
def check (o : Options K) : Except (Fault K) Unit :=
  let (a, b) := o.freeInterval
  if Scalar.isFinite a = false ∨ Scalar.isFinite b = false ∨ b < a then
    .error (.invalid (.freeInterval a b))
  else .ok ()

/-- Options as JSON. -/
def toJson (o : Options K) : Json K :=
  .object [("normsys_interp", .string o.multiplicative.name),
    ("histosys_interp", .string o.additive.name),
    ("flat_range", .ofPair o.freeInterval),
    ("measurement", .ofOption .string o.measurement)]

/-- Read options; what is missing is as in the standard ones. -/
def ofJson? (j : Json K) : Option (Options K) := do
  let r ← j.record? ["normsys_interp", "histosys_interp", "flat_range", "measurement"]
  let multiplicative ← fieldD? r "normsys_interp" .code4 MultiplicativeCode.ofJson?
  let additive ← fieldD? r "histosys_interp" .code4p AdditiveCode.ofJson?
  let freeInterval ← fieldD? r "flat_range" standard.freeInterval (pair? scalar?)
  let measurement ← fieldD? r "measurement" none (nullable? string?)
  return ⟨multiplicative, additive, freeInterval, measurement⟩

end Options

end BinnedModel
