import BinnedModel.Json.Basic

/-!
# Workspaces

A workspace describes binned measurements: channels with the samples that contribute
to them, the modifiers that vary those samples, the observed counts, and settings
for the parameters. Modifier data is kept as raw JSON here; it gets its meaning from
the kind that the modifier names.
-/

namespace BinnedModel

/-- A modifier as it stands in a workspace. -/
structure Declaration (K : Type) where
  /-- Name of the parameter; equal names share one parameter. -/
  name : String
  /-- Name of the kind. -/
  type : String
  /-- Data in the form that the kind asks for. -/
  data : Json K

/-- A process that contributes to a channel. -/
structure Sample (K : Type) where
  /-- Name, unique within the channel. -/
  name : String
  /-- Nominal yield of each bin. -/
  data : List K
  /-- Modifiers in the order of declaration. -/
  modifiers : List (Declaration K)

/-- A histogram to which samples contribute. -/
structure Channel (K : Type) where
  /-- Name, unique within the workspace. -/
  name : String
  /-- Samples in the order of declaration. -/
  samples : List (Sample K)

/-- Observed counts of a channel. -/
structure Observation (K : Type) where
  /-- Name of the channel. -/
  name : String
  /-- Count of each bin. -/
  data : List K

/-- Settings for the parameters of one modifier name. In each list a single entry
applies to all parameters of the name. -/
structure ParameterConfig (K : Type) where
  /-- Name of the modifier. -/
  name : String
  /-- Starting values. -/
  inits : List K
  /-- Intervals of free parameters. -/
  bounds : List (K × K)
  /-- Whether the parameters are pinned to their starting values. -/
  fixed : Bool
  /-- Centres of constraints. -/
  auxdata : List K
  /-- Widths of constraints. -/
  sigmas : List K

/-- Settings of a measurement. -/
structure MeasurementConfig (K : Type) where
  /-- Name of the parameter of interest; empty if there is none. -/
  poi : String
  /-- Settings by modifier name; of two with one name the first counts. -/
  parameters : List (ParameterConfig K)

/-- A named set of settings. -/
structure Measurement (K : Type) where
  /-- Name of the measurement. -/
  name : String
  /-- Its settings. -/
  config : MeasurementConfig K

/-- A description of binned measurements. -/
structure Workspace (K : Type) where
  /-- Channels in the order of declaration. -/
  channels : List (Channel K)
  /-- Observed counts, by channel name. -/
  observations : List (Observation K)
  /-- Measurements in the order of declaration. -/
  measurements : List (Measurement K)
  /-- Version of the format. -/
  version : Option String

variable {K : Type}

/-- The settings for a modifier name. -/
def MeasurementConfig.parameter? (c : MeasurementConfig K) (name : String) :
    Option (ParameterConfig K) :=
  c.parameters.find? fun p => p.name == name

/-- The measurement of a name, or the first one if no name is given. -/
def Workspace.measurement? (ws : Workspace K) : Option String → Option (Measurement K)
  | none => ws.measurements.head?
  | some name => ws.measurements.find? fun m => m.name == name

/-- The entry of a list of settings that applies to the `k`-th parameter of a name. -/
def settingFor? {α : Type} (values : List α) (k : Nat) : Option α :=
  match values with
  | [value] => some value
  | _ => values[k]?

namespace Declaration

/-- A free factor. -/
def normfactor (name : String) : Declaration K :=
  ⟨name, "normfactor", .null⟩

/-- A free factor per bin. -/
def shapefactor (name : String) : Declaration K :=
  ⟨name, "shapefactor", .null⟩

/-- A luminosity factor. -/
def lumi (name : String) : Declaration K :=
  ⟨name, "lumi", .null⟩

variable [Scalar K]

/-- A factor between a down and an up factor. -/
def normsys (name : String) (lo hi : K) : Declaration K :=
  ⟨name, "normsys", .object [("hi", .ofScalar hi), ("lo", .ofScalar lo)]⟩

/-- A shift between a down and an up histogram. -/
def histosys (name : String) (lo hi : List K) : Declaration K :=
  ⟨name, "histosys", .object [("hi_data", .ofScalars hi), ("lo_data", .ofScalars lo)]⟩

/-- A factor per bin with absolute uncertainties. -/
def shapesys (name : String) (delta : List K) : Declaration K :=
  ⟨name, "shapesys", .ofScalars delta⟩

/-- A factor per bin with absolute statistical uncertainties. -/
def staterror (name : String) (delta : List K) : Declaration K :=
  ⟨name, "staterror", .ofScalars delta⟩

end Declaration

end BinnedModel
