import BinnedModel.Modifier.Kind

/-!
# Faults

Everything that can go wrong, one constructor per cause. A fault holds the data of
its cause; how it is worded is decided elsewhere.
-/

namespace BinnedModel

/-- A vector that has to have one entry per bin. -/
inductive BinVector where
  /-- Yields of a sample. -/
  | sample (name : String)
  /-- Per-bin data of a modifier of a sample. -/
  | payload (sample : String) (kind : ModifierKind) (modifier : String)
  /-- Observed counts of a channel. -/
  | observation
  /-- A histogram from which a one-channel workspace is made. -/
  | histogram (label : String)
deriving DecidableEq, Repr

/-- Two vectors that have to agree in length; the second one is the reference. -/
inductive Alignment where
  /-- Priors, one per parameter of the yields. -/
  | priorsToParameters
  /-- Observed counts, one per expected yield. -/
  | observedToExpected
  /-- Parameter values, one per prior. -/
  | parametersToPriors
deriving DecidableEq, Repr

/-- Why no random value can be drawn from a prior. -/
inductive DrawFault where
  /-- The Gaussian width is infinite or undefined. -/
  | normalWidth
  /-- The Poisson rate is infinite or undefined. -/
  | poissonRateNotFinite
  /-- The Poisson rate is negative. -/
  | poissonRateNotPositive
  /-- The Poisson rate is beyond the counts that can be drawn. -/
  | poissonRateTooLarge
deriving DecidableEq, Repr

/-- A value that has the right form but is not admissible. -/
inductive Invalid (K : Type) where
  /-- The workspace has no channel. -/
  | noChannels
  /-- No measurement has the requested name. -/
  | unknownMeasurement (name : String)
  /-- Two channels share a name. -/
  | duplicateChannel (name : String)
  /-- The channel has no sample. -/
  | noSamples (channel : String)
  /-- The first sample of the channel has no bins. -/
  | noBins (channel : String)
  /-- No observation belongs to the channel. -/
  | noObservation (channel : String)
  /-- The data of a modifier does not have the form that its kind asks for. -/
  | malformedPayload (kind : ModifierKind) (modifier : String)
  /-- The modifier has no parameter in the table. -/
  | noSlot (modifier : String)
  /-- The default interval of free parameters is not a finite interval. -/
  | freeInterval (a b : K)
  /-- A Poisson density was asked for at a rate that is infinite, undefined or negative. -/
  | poissonRate (rate : K)
  /-- A Gaussian density was asked for at a width that is not finite and positive. -/
  | normalWidth (sigma : K)
  /-- The centre of a Gaussian prior is not finite. -/
  | priorCentre (mu : K)
  /-- The width of a Gaussian prior is not finite and positive. -/
  | priorWidth (sigma : K)
  /-- The rate of a Poisson prior is infinite, undefined or negative. -/
  | priorRate (rate : K)
  /-- The support of a flat prior is not a finite interval. -/
  | priorInterval (a b : K)
  /-- A one-channel workspace was asked for without signal bins. -/
  | noSignal
  /-- No random value can be drawn. -/
  | draw (cause : DrawFault)
deriving DecidableEq, Repr

/-- A cause of failure. -/
inductive Fault (K : Type) where
  /-- A file cannot be read. -/
  | unreadableFile
  /-- Text is no JSON, or a JSON value does not have the expected form. -/
  | malformedJson
  /-- A modifier's type is not one of the seven kinds. -/
  | unsupportedKind (type : String)
  /-- A modifier name comes again with another kind. -/
  | kindConflict (name : String) (kind : ModifierKind) (channel sample : String)
      (earlier : ModifierKind)
  /-- A per-bin modifier name comes again over another number of bins. -/
  | shapeConflict (name : String) (kind : ModifierKind) (bins : Nat) (channel : String)
      (earlier : Nat)
  /-- Two samples of a channel share a name. -/
  | duplicateSample (channel sample : String)
  /-- A vector does not have one entry per bin of its channel. -/
  | binCountMismatch (channel : String) (vector : BinVector) (expected got : Nat)
  /-- A parameter vector does not have one entry per parameter. -/
  | parameterCountMismatch (expected got : Nat)
  /-- Two vectors differ in length. -/
  | dimensionMismatch (vectors : Alignment) (expected got : Nat)
  /-- A value is not admissible. -/
  | invalid (cause : Invalid K)
deriving DecidableEq, Repr

end BinnedModel
