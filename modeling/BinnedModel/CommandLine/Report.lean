import BinnedModel.Likelihood
import BinnedModel.Model.Basic
import BinnedModel.Prior.Draw

/-!
# Reports

The documents that the commands print. Scalars that are not finite have no JSON form
and appear as `null`.
-/

namespace BinnedModel

/-- The place of a channel as JSON. -/
def ChannelLayout.toJson (c : ChannelLayout) : Json Float :=
  .object [("name", .string c.name), ("offset", .ofNat c.offset), ("n_bins", .ofNat c.bins),
    ("samples", .ofList .string c.samples)]

/-- A parameter as JSON. -/
def Parameter.toJson (p : Parameter Float) : Json Float :=
  .object [("name", .string p.name), ("modifier", .string p.modifier),
    ("kind", .string p.kind.name), ("prior", p.prior.toJson), ("init", .ofScalar p.init),
    ("bins", .ofList .ofNat p.bins)]

namespace Report

/-- Channels, parameters and their supports. -/
def inspect (m : Model Float) : Json Float :=
  .object [("channels", .ofList ChannelLayout.toJson m.channels),
    ("n_bins", .ofNat m.bins),
    ("n_parameters", .ofNat m.parameters.length),
    ("poi_index", .ofOption .ofNat m.poiIndex?),
    ("parameters", .ofList Parameter.toJson m.parameters),
    ("bounds", .ofList (fun b => .array [b.1.toJson, b.2.toJson]) m.bounds)]

/-- Expected counts at a parameter vector, as a whole and by channel. -/
def expected (m : Model Float) (params yields : List Float) : Json Float :=
  .object [("parameter_names", .ofList .string m.names),
    ("parameters", .ofScalars params),
    ("expected", .ofScalars yields),
    ("channels", .ofList (fun c =>
      .object [("name", .string c.name), ("expected", .ofScalars (c.slice yields))]) m.channels)]

/-- The logarithmic likelihood at a parameter vector, with its gradient if wanted. -/
def likelihood (m : Model Float) (params : List Float) (constrained : Bool) (value : Float)
    (gradient : Option (List Float)) : Json Float :=
  .object ([("parameter_names", .ofList .string m.names),
    ("parameters", .ofScalars params),
    ("constrained", .bool constrained),
    ("loglikelihood", .ofScalar value),
    ("nll", .ofScalar (-value))] ++
    match gradient with
    | none => []
    | some slopes => [("gradient", .ofScalars slopes)])

/-- A parameter with random values of its prior. -/
def drawn (p : Parameter Float) (draws : List Float) : Json Float :=
  .object [("name", .string p.name), ("prior", p.prior.toJson),
    ("minimum", p.prior.minimum.toJson), ("maximum", p.prior.maximum.toJson),
    ("draws", .ofScalars draws)]

/-- Random values for parameters one after the other, from one source of words. -/
def drawAll (words : WordSource) (count : Nat) :
    List (Parameter Float) → Nat → Except (Fault Float) (List (Json Float))
  | [], _ => .ok []
  | p :: ps, position =>
    match p.prior.draws words count position with
    | .error f => .error f
    | .ok (xs, next) => (drawAll words count ps next).map (drawn p xs :: ·)

/-- Random values for every parameter. -/
def priors (m : Model Float) (count : Nat) (seed : UInt64) :
    Except (Fault Float) (Json Float) :=
  (drawAll (WordSource.ofSeed seed) count m.parameters 0).map fun entries =>
    .object [("seed", .ofNat seed.toNat), ("parameters", .array entries)]

end Report

end BinnedModel
