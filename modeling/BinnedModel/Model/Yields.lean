import BinnedModel.Interpolation.Additive
import BinnedModel.Interpolation.Multiplicative
import BinnedModel.Model.Plan
import BinnedModel.Registry.Table

/-!
# Yields as a function of parameters

With the parameter table at hand, modifiers refer to parameters by index, and the
interpolation code of each pair of variations is settled once. The yield of a bin is
the sum over the samples of nominal yield plus shifts, times the product of the
factors.
-/

namespace BinnedModel

/-- A map from parameters to expected counts, together with the lengths that it
claims for its argument and its result. -/
structure YieldMap (K : Type) where
  /-- Number of parameters. -/
  parameters : Nat
  /-- Number of bins. -/
  bins : Nat
  /-- Expected counts at a parameter vector. -/
  expected : List K → Except (Fault K) (List K)

/-- What a modifier does to the yields of its sample. -/
inductive Effect (K : Type) where
  /-- Multiply all bins by one parameter. -/
  | scale (slot : Nat)
  /-- Multiply each bin by its own parameter. -/
  | scaleBins (slots : List Nat)
  /-- Multiply all bins by a factor between two variations. -/
  | vary (slot : Nat) (lo hi : K) (code : MultiplicativeCode)
  /-- Add a shift between two varied histograms. -/
  | morph (slot : Nat) (lo hi : List K)

/-- A sample as yields with effects. -/
structure SampleYields (K : Type) where
  /-- Nominal yield of each bin. -/
  nominal : List K
  /-- Effects in the order of the modifiers. -/
  effects : List (Effect K)

/-- A channel as samples that add up. -/
structure ChannelYields (K : Type) where
  /-- Number of bins. -/
  bins : Nat
  /-- Samples in the order of declaration. -/
  samples : List (SampleYields K)

/-- The yields of all channels as a function of the parameters. -/
structure YieldFunction (K : Type) where
  /-- Channels in the order of declaration. -/
  channels : List (ChannelYields K)
  /-- Number of parameters. -/
  parameters : Nat
  /-- Number of bins of all channels together. -/
  bins : Nat
  /-- Interpolation of shifts. -/
  additive : AdditiveCode

variable {K : Type} [Scalar K]

namespace Effect

/-- The factor of an effect in one bin, at parameters given by index; an effect that
adds, or that does not reach the bin, has none. -/
def factorAt? (p : Nat → K) (bin : Nat) : Effect K → Option K
  | scale slot => some (p slot)
  | scaleBins slots => slots[bin]?.map p
  | vary slot lo hi code => some (code.factor lo hi (p slot))
  | morph _ _ _ => none

/-- The shift of an effect in one bin of the given nominal yield; an effect that
multiplies has none. -/
def shiftAt? (code : AdditiveCode) (p : Nat → K) (nominal : K) (bin : Nat) :
    Effect K → Option K
  | morph slot lo hi => some (code.shift (lo.getD bin 0) nominal (hi.getD bin 0) (p slot))
  | _ => none

end Effect

/-- The yield of a sample in one bin. -/
def SampleYields.yieldAt (s : SampleYields K) (code : AdditiveCode) (p : Nat → K) (bin : Nat) :
    K :=
  let nominal := s.nominal.getD bin 0
  (nominal + Scalar.total (s.effects.filterMap (Effect.shiftAt? code p nominal bin))) *
    Scalar.product (s.effects.filterMap (Effect.factorAt? p bin))

/-- The yields of a channel, bin by bin. -/
def ChannelYields.yields (c : ChannelYields K) (code : AdditiveCode) (p : Nat → K) : List K :=
  (List.range c.bins).map fun bin =>
    Scalar.total (c.samples.map fun s => s.yieldAt code p bin)

namespace YieldFunction

/-- Expected counts of all channels, one channel after the other. -/
def eval (f : YieldFunction K) (params : List K) : Except (Fault K) (List K) :=
  if params.length ≠ f.parameters then
    .error (.parameterCountMismatch f.parameters params.length)
  else .ok (f.channels.flatMap fun c => c.yields f.additive fun i => params.getD i 0)

/-- The function as a map with its lengths. -/
def toMap (f : YieldFunction K) : YieldMap K :=
  ⟨f.parameters, f.bins, f.eval⟩

end YieldFunction

/-- The effect of a modifier, with its parameters found in the table. -/
def Modifier.effect (m : Modifier K) (t : ParameterTable K) (o : Options K) :
    Except (Fault K) (Effect K) :=
  match t.firstSlot? m.name with
  | none => .error (.invalid (.noSlot m.name))
  | some slot =>
    .ok (match m.payload with
      | .normfactor | .lumi _ => .scale slot
      | .shapefactor =>
        .scaleBins (List.range' slot (t.parameters.countP fun p => p.modifier == m.name))
      | .shapesys delta | .staterror delta => .scaleBins (List.range' slot delta.length)
      | .normsys lo hi => .vary slot lo hi (o.multiplicative.effective lo hi)
      | .histosys lo hi => .morph slot lo hi)

/-- A sample with the effects of its modifiers. -/
def SamplePlan.compile (s : SamplePlan K) (t : ParameterTable K) (o : Options K) :
    Except (Fault K) (SampleYields K) :=
  (s.modifiers.mapM fun (m : Modifier K) => m.effect t o).map
    fun effects => ⟨s.nominal, effects⟩

/-- A channel with the effects of its samples. -/
def ChannelPlan.compile (c : ChannelPlan K) (t : ParameterTable K) (o : Options K) :
    Except (Fault K) (ChannelYields K) :=
  (c.samples.mapM fun (s : String × SamplePlan K) => s.2.compile t o).map
    fun samples => ⟨c.bins, samples⟩

end BinnedModel
