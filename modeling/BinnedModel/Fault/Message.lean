import BinnedModel.Decimal.Layout
import BinnedModel.Fault.Basic

/-!
# Wording of faults

One text per fault. Numbers stand in it as the shortest decimals that read back,
always positional, whole numbers without a point.
-/

namespace BinnedModel

/-- A double inside a message. -/
def numberText (x : Float) : String :=
  match Binary.ofFloat? x with
  | some b =>
    let d := b.shortest .up
    String.ofList (d.signChars ++ d.positionalChars [])
  | none => if x.isNaN then "NaN" else if x < 0 then "-inf" else "inf"

/-- The name of a vector that has one entry per bin. -/
def BinVector.text : BinVector → String
  | sample name => name
  | payload owner kind modifier =>
    owner ++ " / " ++ kind.name ++ " '" ++ modifier ++ "'"
  | observation => "observation"
  | histogram label => label

/-- The names of two vectors that have to agree in length. -/
def Alignment.text : Alignment → String
  | priorsToParameters => "priors vs parameters"
  | observedToExpected => "observed vs expected bins"
  | parametersToPriors => "parameters vs priors"

/-- Why no random value can be drawn. -/
def DrawFault.text : DrawFault → String
  | normalWidth =>
    "normal prior: variation parameter is non-finite in (log)normal distribution"
  | poissonRateNotFinite =>
    "poisson prior: lambda is infinite or nan in Poisson distribution"
  | poissonRateNotPositive =>
    "poisson prior: lambda is not positive in Poisson distribution"
  | poissonRateTooLarge =>
    "poisson prior: lambda is too large in Poisson distribution, see Poisson::MAX_LAMBDA"

/-- An interval between brackets. -/
def intervalText (a b : Float) : String :=
  "[" ++ numberText a ++ ", " ++ numberText b ++ "]"

/-- What is not admissible. -/
def Invalid.text : Invalid Float → String
  | noChannels => "Workspace has no channels"
  | unknownMeasurement name => "Unknown measurement '" ++ name ++ "'"
  | duplicateChannel name => "Duplicate channel name '" ++ name ++ "'"
  | noSamples channel => "Channel '" ++ channel ++ "' has no samples"
  | noBins channel => "Channel '" ++ channel ++ "' has no bins (empty sample data)"
  | noObservation channel => "No observation for channel '" ++ channel ++ "'"
  | malformedPayload kind modifier =>
    kind.name ++ " modifier '" ++ modifier ++ "' has malformed data"
  | noSlot modifier => "Modifier '" ++ modifier ++ "' has no parameter slot"
  | freeInterval a b =>
    "flat_range must be finite with a <= b, got " ++ intervalText a b
  | poissonRate rate => "lambda must be finite and >= 0, got " ++ numberText rate
  | normalWidth sigma => "sigma must be finite and > 0, got " ++ numberText sigma
  | priorCentre mu => "normal prior mu must be finite, got " ++ numberText mu
  | priorWidth sigma =>
    "normal prior sigma must be finite and > 0, got " ++ numberText sigma
  | priorRate rate =>
    "poisson prior lambda must be finite and >= 0, got " ++ numberText rate
  | priorInterval a b => "flat prior needs finite a <= b, got " ++ intervalText a b
  | noSignal => "signal must not be empty"
  | draw cause => cause.text

/-- The text of a fault. -/
def Fault.message : Fault Float → String
  | unreadableFile => "I/O error"
  | malformedJson => "JSON error"
  | unsupportedKind type => "Unsupported modifier kind: '" ++ type ++ "'"
  | kindConflict name kind channel sample earlier =>
    "Modifier conflict for '" ++ name ++ "': declared as " ++ kind.name ++ " in channel '" ++
      channel ++ "' sample '" ++ sample ++ "' but registered earlier as " ++ earlier.name
  | shapeConflict name kind bins channel earlier =>
    "Modifier conflict for '" ++ name ++ "': per-bin " ++ kind.name ++ " spans " ++
      toString bins ++ " bins in channel '" ++ channel ++ "' but " ++ toString earlier ++
      " bins elsewhere"
  | duplicateSample channel sample =>
    "Duplicate sample name '" ++ sample ++ "' in channel '" ++ channel ++ "'"
  | binCountMismatch channel vector expected got =>
    "Bin count mismatch in channel '" ++ channel ++ "' (" ++ vector.text ++ "): expected " ++
      toString expected ++ ", got " ++ toString got
  | parameterCountMismatch expected got =>
    "Parameter count mismatch: expected " ++ toString expected ++ ", got " ++ toString got
  | dimensionMismatch vectors expected got =>
    "Dimension mismatch (" ++ vectors.text ++ "): expected " ++ toString expected ++
      ", got " ++ toString got
  | invalid cause => "Validation error: " ++ cause.text

end BinnedModel
