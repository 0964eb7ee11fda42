import BinnedModel.Options
import BinnedModel.Prior.Basic
import BinnedModel.Registry.Basic

/-!
# Parameter tables

Once all channels are read, the registry becomes a table of parameters: the entries
in the order of encounter, each with one parameter or one per bin. A parameter gets
its prior from its kind, from the sums of its entry and from the settings of the
measurement. Settings may pin it; a prior on a single point pins it too, and then
the starting value is that point.
-/

namespace BinnedModel

/-- One parameter of a model. -/
structure Parameter (K : Type) where
  /-- Name of the modifier, followed by an index in brackets for per-bin kinds. -/
  name : String
  /-- Name of the modifier. -/
  modifier : String
  /-- Kind of the modifier. -/
  kind : ModifierKind
  /-- Prior of the parameter. -/
  prior : Prior K
  /-- Starting value. -/
  init : K
  /-- Global bins that the parameter acts on. -/
  bins : List Nat

/-- The parameters of a model, in order. -/
structure ParameterTable (K : Type) where
  /-- All parameters; those of one modifier stand side by side. -/
  parameters : List (Parameter K)
  /-- For each modifier name the index at which its parameters start. -/
  starts : List (String × Nat)

namespace ParameterTable

variable {K : Type}

/-- Index of the first parameter of a modifier. -/
def firstSlot? (t : ParameterTable K) (name : String) : Option Nat :=
  t.starts.lookup name

end ParameterTable

variable {K : Type} [Scalar K]

/-- The flat prior of a free parameter: the interval from its settings, else the one
from the options. -/
def freePrior (settings : Option (ParameterConfig K)) (o : Options K) (k : Nat) :
    Except (Fault K) (Prior K) :=
  let (a, b) := (settings.bind fun s => settingFor? s.bounds k).getD o.freeInterval
  Prior.mkFlat a b

namespace Entry

/-- Relative uncertainty of the `k`-th factor: the root of the summed squares over the
summed yields, and zero where the yields do not add up to a positive number. -/
def relativeWidth (e : Entry K) (k : Nat) : K :=
  let nominal := e.nominal.getD k 0
  let delta := Scalar.sqrt (e.variance.getD k 0)
  if 0 < nominal then delta / nominal else 0

/-- The prior of the `k`-th parameter as its kind has it. A factor without relative
uncertainty is pinned at one, a luminosity without width is free. -/
def prior (e : Entry K) (settings : Option (ParameterConfig K)) (o : Options K) (k : Nat) :
    Except (Fault K) (Prior K) :=
  match e.kind with
  | .normfactor | .shapefactor => freePrior settings o k
  | .normsys | .histosys => Prior.mkNormal 0 1
  | .shapesys | .staterror =>
    let sigma := e.relativeWidth k
    if 0 < sigma ∧ Scalar.isFinite sigma = true then Prior.mkNormal 1 sigma
    else Prior.mkFlat 1 1
  | .lumi =>
    match settings.bind fun s => settingFor? s.sigmas 0 with
    | some sigma =>
      Prior.mkNormal ((settings.bind fun s => settingFor? s.auxdata 0).getD 1) sigma
    | none => freePrior settings o k

/-- Name of the `k`-th parameter. -/
def slotName (e : Entry K) (k : Nat) : String :=
  if e.kind.isPerBin then e.name ++ "[" ++ toString k ++ "]" else e.name

/-- The `k`-th parameter. -/
def parameter (e : Entry K) (settings : Option (ParameterConfig K)) (o : Options K) (k : Nat) :
    Except (Fault K) (Parameter K) :=
  let init := (settings.bind fun s => settingFor? s.inits k).getD e.kind.neutral
  let bins := e.bins.getD k []
  match e.prior settings o k with
  | .error f => .error f
  | .ok prior =>
    if (settings.map (·.fixed)).getD false then
      (Prior.mkFlat init init).map fun pinned =>
        ⟨e.slotName k, e.name, e.kind, pinned, init, bins⟩
    else
      match prior with
      | .flat a b =>
        .ok ⟨e.slotName k, e.name, e.kind, prior, if Scalar.Agrees a b then a else init, bins⟩
      | _ => .ok ⟨e.slotName k, e.name, e.kind, prior, init, bins⟩

/-- All parameters of an entry. -/
def parameters (e : Entry K) (settings : Option (ParameterConfig K)) (o : Options K) :
    Except (Fault K) (List (Parameter K)) :=
  (List.range e.slots).mapM (e.parameter settings o)

end Entry

/-- The table of the registered modifiers. -/
def Registry.table (r : Registry K) (o : Options K) : Except (Fault K) (ParameterTable K) :=
  match r.entries.mapM fun e => e.parameters (r.settings? e.name) o with
  | .error f => .error f
  | .ok blocks =>
    .ok { parameters := blocks.flatten
          starts := (r.entries.map (·.name)).zip (blockStarts 0 (blocks.map (·.length))) }

end BinnedModel
