import BinnedModel.Json.Decode
import BinnedModel.Workspace.Basic

/-!
# Workspaces as JSON

Encoder and decoder of each part of a workspace stand side by side. Lists of
parameter settings and the version are left out when they are empty; the decoder
takes a missing list for an empty one.
-/

namespace BinnedModel

open Json (field? fieldD? list? nullable? string? bool? scalars? scalar? pair?)

variable {K : Type} [Scalar K]

/-- A field that is written only if its list is not empty. -/
def listField {α : Type} (name : String) (encode : α → Json K) (xs : List α) :
    List (String × Json K) :=
  if xs.isEmpty then [] else [(name, .ofList encode xs)]

namespace Declaration

/-- A modifier as JSON. -/
def toJson (d : Declaration K) : Json K :=
  .object [("name", .string d.name), ("type", .string d.type), ("data", d.data)]

/-- Read a modifier. -/
def ofJson? (j : Json K) : Option (Declaration K) := do
  let r ← j.record? ["name", "type", "data"]
  let name ← field? r "name" string?
  let type ← field? r "type" string?
  let data ← fieldD? r "data" .null Json.plain?
  return ⟨name, type, data⟩

end Declaration

namespace Sample

/-- A sample as JSON. -/
def toJson (s : Sample K) : Json K :=
  .object [("name", .string s.name), ("data", .ofScalars s.data),
    ("modifiers", .ofList Declaration.toJson s.modifiers)]

/-- Read a sample. -/
def ofJson? (j : Json K) : Option (Sample K) := do
  let r ← j.record? ["name", "data", "modifiers"]
  let name ← field? r "name" string?
  let data ← field? r "data" scalars?
  let modifiers ← fieldD? r "modifiers" [] (list? Declaration.ofJson?)
  return ⟨name, data, modifiers⟩

end Sample

namespace Channel

/-- A channel as JSON. -/
def toJson (c : Channel K) : Json K :=
  .object [("name", .string c.name), ("samples", .ofList Sample.toJson c.samples)]

/-- Read a channel. -/
def ofJson? (j : Json K) : Option (Channel K) := do
  let r ← j.record? ["name", "samples"]
  let name ← field? r "name" string?
  let samples ← field? r "samples" (list? Sample.ofJson?)
  return ⟨name, samples⟩

end Channel

namespace Observation

/-- An observation as JSON. -/
def toJson (o : Observation K) : Json K :=
  .object [("name", .string o.name), ("data", .ofScalars o.data)]

/-- Read an observation. -/
def ofJson? (j : Json K) : Option (Observation K) := do
  let r ← j.record? ["name", "data"]
  let name ← field? r "name" string?
  let data ← field? r "data" scalars?
  return ⟨name, data⟩

end Observation

namespace ParameterConfig

/-- Parameter settings as JSON. -/
def toJson (c : ParameterConfig K) : Json K :=
  .object (("name", .string c.name) :: listField "inits" .ofScalar c.inits ++
    listField "bounds" .ofPair c.bounds ++ ("fixed", .bool c.fixed) ::
    listField "auxdata" .ofScalar c.auxdata ++ listField "sigmas" .ofScalar c.sigmas)

/-- Read parameter settings. -/
def ofJson? (j : Json K) : Option (ParameterConfig K) := do
  let r ← j.record? ["name", "inits", "bounds", "fixed", "auxdata", "sigmas"]
  let name ← field? r "name" string?
  let inits ← fieldD? r "inits" [] scalars?
  let bounds ← fieldD? r "bounds" [] (list? (pair? scalar?))
  let fixed ← fieldD? r "fixed" false bool?
  let auxdata ← fieldD? r "auxdata" [] scalars?
  let sigmas ← fieldD? r "sigmas" [] scalars?
  return ⟨name, inits, bounds, fixed, auxdata, sigmas⟩

end ParameterConfig

namespace MeasurementConfig

/-- Measurement settings as JSON. -/
def toJson (c : MeasurementConfig K) : Json K :=
  .object [("poi", .string c.poi), ("parameters", .ofList ParameterConfig.toJson c.parameters)]

/-- Read measurement settings. -/
def ofJson? (j : Json K) : Option (MeasurementConfig K) := do
  let r ← j.record? ["poi", "parameters"]
  let poi ← fieldD? r "poi" "" string?
  let parameters ← fieldD? r "parameters" [] (list? ParameterConfig.ofJson?)
  return ⟨poi, parameters⟩

end MeasurementConfig

namespace Measurement

/-- A measurement as JSON. -/
def toJson (m : Measurement K) : Json K :=
  .object [("name", .string m.name), ("config", m.config.toJson)]

/-- Read a measurement. -/
def ofJson? (j : Json K) : Option (Measurement K) := do
  let r ← j.record? ["name", "config"]
  let name ← field? r "name" string?
  let config ← field? r "config" MeasurementConfig.ofJson?
  return ⟨name, config⟩

end Measurement

namespace Workspace

/-- A workspace as JSON. -/
def toJson (ws : Workspace K) : Json K :=
  .object ([("channels", .ofList Channel.toJson ws.channels),
    ("observations", .ofList Observation.toJson ws.observations),
    ("measurements", .ofList Measurement.toJson ws.measurements)] ++
    match ws.version with
    | none => []
    | some version => [("version", .string version)])

/-- Read a workspace. -/
def ofJson? (j : Json K) : Option (Workspace K) := do
  let r ← j.record? ["channels", "observations", "measurements", "version"]
  let channels ← field? r "channels" (list? Channel.ofJson?)
  let observations ← fieldD? r "observations" [] (list? Observation.ofJson?)
  let measurements ← fieldD? r "measurements" [] (list? Measurement.ofJson?)
  let version ← fieldD? r "version" none (nullable? string?)
  return ⟨channels, observations, measurements, version⟩

end Workspace

end BinnedModel
