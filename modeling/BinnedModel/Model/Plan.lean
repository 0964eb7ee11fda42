import BinnedModel.Registry.Basic

/-!
# Channel plans

A channel is read by entering the modifiers of its samples, in order, into the
registry. The first sample fixes the number of bins. What has been entered before a
fault stays entered, so every reading returns the registry beside its outcome.
-/

namespace BinnedModel

/-- A sample with its modifiers read. -/
structure SamplePlan (K : Type) where
  /-- Nominal yield of each bin. -/
  nominal : List K
  /-- Modifiers in the order of declaration. -/
  modifiers : List (Modifier K)

/-- A channel with its samples read. -/
structure ChannelPlan (K : Type) where
  /-- Name of the channel. -/
  name : String
  /-- Global index of the first bin. -/
  offset : Nat
  /-- Number of bins of every sample. -/
  bins : Nat
  /-- Samples by name, in the order of declaration. -/
  samples : List (String × SamplePlan K)

namespace ChannelPlan

variable {K : Type}

/-- The sample of a name. -/
def sample? (c : ChannelPlan K) (name : String) : Option (SamplePlan K) :=
  c.samples.lookup name

/-- Nominal yields of all samples together, bin by bin. -/
def nominalTotal [Scalar K] (c : ChannelPlan K) : List K :=
  (List.range c.bins).map fun k =>
    Scalar.total (c.samples.filterMap fun s => s.2.nominal[k]?)

end ChannelPlan

variable {K : Type} [Scalar K]

namespace Sample

/-- Enter modifiers of a sample one after the other. -/
def registerAll (s : Sample K) (channel : String) (offset : Nat) :
    List (Declaration K) → Registry K → Registry K × Except (Fault K) (List (Modifier K))
  | [], r => (r, .ok [])
  | d :: ds, r =>
    match r.register d s.data offset channel s.name with
    | .error f => (r, .error f)
    | .ok (m, r) =>
      let (r, rest) := registerAll s channel offset ds r
      (r, rest.map (m :: ·))

/-- Read a sample of a channel whose first bin has the given global index. -/
def plan (s : Sample K) (channel : String) (offset : Nat) (r : Registry K) :
    Registry K × Except (Fault K) (SamplePlan K) :=
  let (r, modifiers) := s.registerAll channel offset s.modifiers r
  (r, modifiers.map fun ms => ⟨s.data, ms⟩)

end Sample

namespace Channel

/-- Read samples one after the other; `seen` holds the names met before. -/
def planSamples (c : Channel K) (bins offset : Nat) (seen : List String) :
    List (Sample K) → Registry K →
      Registry K × Except (Fault K) (List (String × SamplePlan K))
  | [], r => (r, .ok [])
  | s :: ss, r =>
    if seen.contains s.name then (r, .error (.duplicateSample c.name s.name))
    else if s.data.length ≠ bins then
      (r, .error (.binCountMismatch c.name (.sample s.name) bins s.data.length))
    else
      match s.plan c.name offset r with
      | (r, .error f) => (r, .error f)
      | (r, .ok plan) =>
        let (r, rest) := planSamples c bins offset (s.name :: seen) ss r
        (r, rest.map ((s.name, plan) :: ·))

/-- Read a channel whose first bin has the given global index. -/
def plan (c : Channel K) (offset : Nat) (r : Registry K) :
    Registry K × Except (Fault K) (ChannelPlan K) :=
  match c.samples with
  | [] => (r, .error (.invalid (.noSamples c.name)))
  | first :: _ =>
    if first.data.isEmpty then (r, .error (.invalid (.noBins c.name)))
    else
      let (r, samples) := c.planSamples first.data.length offset [] c.samples r
      (r, samples.map fun ss => ⟨c.name, offset, first.data.length, ss⟩)

end Channel

end BinnedModel
