import BinnedModel.Model.Yields

/-!
# Models

A model holds the expected counts as a function of the parameters, one record per
parameter, and the layout of the channels, all in one order: parameters in the order
in which their modifiers are met, bins in the order of the channels. All structural
faults of a workspace are found when the model is built.
-/

namespace BinnedModel

/-- Where a channel stands among the bins of a model. -/
structure ChannelLayout where
  /-- Name of the channel. -/
  name : String
  /-- Global index of the first bin. -/
  offset : Nat
  /-- Number of bins. -/
  bins : Nat
  /-- Names of the samples, in the order of declaration. -/
  samples : List String
deriving DecidableEq, Repr

/-- The part of a vector over all bins that belongs to a channel. -/
def ChannelLayout.slice {α : Type} (c : ChannelLayout) (values : List α) : List α :=
  (values.drop c.offset).take c.bins

/-- A binned statistical model. -/
structure Model (K : Type) where
  /-- Expected counts. -/
  yields : YieldFunction K
  /-- Parameters in order. -/
  parameters : List (Parameter K)
  /-- Channels in order. -/
  channels : List ChannelLayout
  /-- Name of the parameter of interest, if the measurement states one. -/
  poi : Option String

namespace Model

variable {K : Type}

/-- Names of the parameters. -/
def names (m : Model K) : List String :=
  m.parameters.map (·.name)

/-- Priors of the parameters. -/
def priors (m : Model K) : List (Prior K) :=
  m.parameters.map (·.prior)

/-- Starting values of the parameters. -/
def inits (m : Model K) : List K :=
  m.parameters.map (·.init)

/-- Supports of the parameters, as pairs of ends. -/
def bounds [Scalar K] (m : Model K) : List (Edge K × Edge K) :=
  m.parameters.map fun p => (p.prior.minimum, p.prior.maximum)

/-- Number of bins of all channels together. -/
def bins (m : Model K) : Nat :=
  m.yields.bins

/-- Index of the parameter of a name. -/
def index? (m : Model K) (name : String) : Option Nat :=
  m.parameters.findIdx? fun p => p.name == name

/-- Index of the parameter of interest. -/
def poiIndex? (m : Model K) : Option Nat :=
  m.poi.bind m.index?

/-- Whether the measurement states a parameter of interest that no modifier declares. -/
def poiUndeclared (m : Model K) : Bool :=
  match m.poi with
  | none => false
  | some poi => !m.parameters.any fun p => p.modifier == poi

/-- Observed counts of one channel: those of the first observation of its name, which
has to have the channel's number of bins. -/
def observedIn (ws : Workspace K) (c : ChannelLayout) : Except (Fault K) (List K) :=
  match ws.observations.find? fun o => o.name == c.name with
  | none => .error (.invalid (.noObservation c.name))
  | some o =>
    if o.data.length ≠ c.bins then
      .error (.binCountMismatch c.name .observation c.bins o.data.length)
    else .ok o.data

/-- Observed counts of a workspace in the order of the model's bins. -/
def observed (m : Model K) (ws : Workspace K) : Except (Fault K) (List K) :=
  (m.channels.mapM (observedIn ws)).map List.flatten

end Model

variable {K : Type} [Scalar K]

/-- The settings that apply: those of the named measurement, which has to exist, else
those of the first one, if there is any. -/
def Workspace.settings (ws : Workspace K) (o : Options K) :
    Except (Fault K) (Option (MeasurementConfig K)) :=
  match o.measurement, ws.measurement? o.measurement with
  | some name, none => .error (.invalid (.unknownMeasurement name))
  | _, m => .ok (m.map (·.config))

/-- Read channels one after the other from a global bin index on; `seen` holds the
names met before. -/
def planChannels (offset : Nat) (seen : List String) :
    List (Channel K) → Registry K → Except (Fault K) (Registry K × List (ChannelPlan K))
  | [], r => .ok (r, [])
  | c :: cs, r =>
    if seen.contains c.name then .error (.invalid (.duplicateChannel c.name))
    else
      match c.plan offset r with
      | (_, .error f) => .error f
      | (r, .ok plan) =>
        (planChannels (offset + plan.bins) (c.name :: seen) cs r).map fun (r, plans) =>
          (r, plan :: plans)

/-- The place of a channel among the bins. -/
def ChannelPlan.layout (c : ChannelPlan K) : ChannelLayout :=
  ⟨c.name, c.offset, c.bins, c.samples.map (·.1)⟩

namespace Model

/-- The model of plans whose modifiers have been entered into a registry. -/
def ofPlans (plans : List (ChannelPlan K)) (r : Registry K) (o : Options K) :
    Except (Fault K) (Model K) := do
  let table ← r.table o
  let channels ← plans.mapM fun c => c.compile table o
  return {
    yields :=
      { channels := channels
        parameters := table.parameters.length
        bins := blockTotal (plans.map (·.bins))
        additive := o.additive }
    parameters := table.parameters
    channels := plans.map (·.layout)
    poi := (r.config.map (·.poi)).filter fun poi => !poi.isEmpty }

/-- Build the model of a workspace. -/
def build (ws : Workspace K) (o : Options K) : Except (Fault K) (Model K) := do
  o.check
  if ws.channels.isEmpty then .error (.invalid .noChannels) else
  let config ← ws.settings o
  let (registry, plans) ← planChannels 0 [] ws.channels (Registry.empty config)
  ofPlans plans registry o

end Model

end BinnedModel
