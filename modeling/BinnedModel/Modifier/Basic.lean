import BinnedModel.Fault.Basic
import BinnedModel.Workspace.Basic

/-!
# Modifiers

A modifier with its data in the form that its kind asks for. Reading a declaration
settles the kind first and the data second; whether the data fits the bins of the
sample is a separate check, because only the sample knows its bins.
-/

namespace BinnedModel

open Json (field? scalar? scalars?)

/-- What a modifier knows beyond its name. -/
inductive Payload (K : Type) where
  /-- Free factor. -/
  | normfactor
  /-- Free factor per bin. -/
  | shapefactor
  /-- Factor between the values at `-1` and at `1`. -/
  | normsys (lo hi : K)
  /-- Shift between the histograms at `-1` and at `1`. -/
  | histosys (lo hi : List K)
  /-- Factor per bin with absolute uncertainties. -/
  | shapesys (delta : List K)
  /-- Factor per bin with absolute statistical uncertainties. -/
  | staterror (delta : List K)
  /-- Luminosity factor, with the width that the measurement gives, if any. -/
  | lumi (sigma : Option K)
deriving DecidableEq, Repr

/-- A modifier of one sample. -/
structure Modifier (K : Type) where
  /-- Name of the parameter; equal names share one parameter. -/
  name : String
  /-- Kind and data. -/
  payload : Payload K
deriving DecidableEq, Repr

namespace Payload

variable {K : Type}

/-- The kind of a payload. -/
def kind : Payload K → ModifierKind
  | normfactor => .normfactor
  | shapefactor => .shapefactor
  | normsys _ _ => .normsys
  | histosys _ _ => .histosys
  | shapesys _ => .shapesys
  | staterror _ => .staterror
  | lumi _ => .lumi

/-- The vectors of a payload that have one entry per bin. -/
def histograms : Payload K → List (List K)
  | histosys lo hi => [lo, hi]
  | shapesys delta => [delta]
  | staterror delta => [delta]
  | _ => []

/-- Absolute uncertainties per bin, for the kinds that have them. -/
def uncertainties? : Payload K → Option (List K)
  | shapesys delta => some delta
  | staterror delta => some delta
  | _ => none

/-- Length of the per-bin data, the greater one of two; none without such data. -/
def length? : Payload K → Option Nat
  | histosys lo hi => some (max lo.length hi.length)
  | shapesys delta => some delta.length
  | staterror delta => some delta.length
  | _ => none

/-- Read the data of a modifier of a known kind. -/
def ofJson? [Scalar K] (kind : ModifierKind) (data : Json K) : Option (Payload K) :=
  match kind with
  | .normfactor => some normfactor
  | .shapefactor => some shapefactor
  | .lumi => some (lumi none)
  | .normsys => do
    let r ← data.record? ["hi", "lo"]
    let hi ← field? r "hi" scalar?
    let lo ← field? r "lo" scalar?
    return normsys lo hi
  | .histosys => do
    let r ← data.record? ["hi_data", "lo_data"]
    let hi ← field? r "hi_data" scalars?
    let lo ← field? r "lo_data" scalars?
    return histosys lo hi
  | .shapesys => (data.scalars?).map shapesys
  | .staterror => (data.scalars?).map staterror

end Payload

namespace Modifier

variable {K : Type}

/-- The kind of a modifier. -/
def kind (m : Modifier K) : ModifierKind :=
  m.payload.kind

/-- Read a declaration as a modifier of a known kind. -/
def ofDeclarationAs [Scalar K] (kind : ModifierKind) (d : Declaration K) :
    Except (Fault K) (Modifier K) :=
  match Payload.ofJson? kind d.data with
  | some payload => .ok ⟨d.name, payload⟩
  | none => .error (.invalid (.malformedPayload kind d.name))

/-- Read a declaration as a modifier of the kind that it names. -/
def ofDeclaration [Scalar K] (d : Declaration K) : Except (Fault K) (Modifier K) :=
  match ModifierKind.ofName? d.type with
  | some kind => ofDeclarationAs kind d
  | none => .error (.unsupportedKind d.type)

/-- All per-bin data has to have one entry per bin; the first vector that does not is
reported. -/
def checkBins (m : Modifier K) (channel sample : String) (bins : Nat) :
    Except (Fault K) Unit :=
  match m.payload.histograms.find? fun h => h.length != bins with
  | some h =>
    .error (.binCountMismatch channel (.payload sample m.kind m.name) bins h.length)
  | none => .ok ()

/-- A luminosity modifier with the width that the measurement gives its name; any
other modifier as it is. -/
def withWidth (config : Option (MeasurementConfig K)) (m : Modifier K) : Modifier K :=
  match m.payload with
  | .lumi _ =>
    let settings := config.bind fun c => c.parameter? m.name
    ⟨m.name, .lumi (settings.bind fun s => settingFor? s.sigmas 0)⟩
  | _ => m

end Modifier

end BinnedModel
