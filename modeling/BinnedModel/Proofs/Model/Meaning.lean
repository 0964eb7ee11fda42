import Mathlib
import BinnedModel.Proofs.Model.Assembly

/-!
# The meaning of a workspace

A workspace has yields of its own, read off its declarations: in each bin a sample yields
its nominal yield plus the shifts of its declarations, times their factors, and a channel
yields what its samples do together. Nothing is compiled for this; a declaration finds its
parameters under its name, and the interpolation code of a pair of variations is settled
anew each time. A value that does not exist, be it a parameter, a bin of a histogram or
the data of a declaration, leaves the yield undefined.

The main result says that a built model yields exactly this, in the order of channels and
bins, at every vector of the right length. It holds over every type of scalars: sums and
products are taken from left to right on both sides.
-/

namespace BinnedModel

variable {K : Type} [Scalar K]

/-- What a declaration contributes to the yield of a bin. -/
inductive Contribution (K : Type) where
  /-- It is added to the nominal yield. -/
  | shift (amount : K)
  /-- The shifted yield is multiplied by it. -/
  | factor (value : K)

/-- The amount of a shift. -/
def Contribution.shift? : Contribution K → Option K
  | shift amount => some amount
  | factor _ => none

/-- The value of a factor. -/
def Contribution.factor? : Contribution K → Option K
  | shift _ => none
  | factor value => some value

/-- The contribution of data of a known kind, whose parameters start at a slot, to a bin
of the given nominal yield. -/
def Payload.contribution? (o : Options K) (params : List K) (slot : ℕ) (nominal : K)
    (bin : ℕ) : Payload K → Option (Contribution K)
  | normfactor => do return .factor (← params[slot]?)
  | lumi _ => do return .factor (← params[slot]?)
  | shapefactor => do return .factor (← params[slot + bin]?)
  | shapesys _ => do return .factor (← params[slot + bin]?)
  | staterror _ => do return .factor (← params[slot + bin]?)
  | normsys lo hi => do return .factor (o.multiplicative.interpolate lo hi (← params[slot]?))
  | histosys lo hi => do
    return .shift (o.additive.shift (← lo[bin]?) nominal (← hi[bin]?) (← params[slot]?))

/-- The contribution of a declaration: that of its data, read as its type asks for. -/
def Declaration.contribution? (o : Options K) (params : List K) (slot : String → ℕ)
    (nominal : K) (bin : ℕ) (d : Declaration K) : Option (Contribution K) := do
  let m ← (Modifier.ofDeclaration d).toOption
  m.payload.contribution? o params (slot d.name) nominal bin

/-- The yield of a sample in a bin: the nominal yield plus all shifts, times all factors. -/
def Sample.declaredYield? (o : Options K) (params : List K) (slot : String → ℕ) (bin : ℕ)
    (s : Sample K) : Option K := do
  let nominal ← s.data[bin]?
  let contributions ← s.modifiers.mapM fun d => d.contribution? o params slot nominal bin
  return (nominal + Scalar.total (contributions.filterMap Contribution.shift?)) *
    Scalar.product (contributions.filterMap Contribution.factor?)

/-- The yield of a channel in a bin: that of all its samples together. -/
def Channel.declaredYield? (o : Options K) (params : List K) (slot : String → ℕ) (bin : ℕ)
    (c : Channel K) : Option K := do
  let yields ← c.samples.mapM fun s => s.declaredYield? o params slot bin
  return Scalar.total yields

/-- The effect of a modifier that fits its sample is its contribution, in every bin and at
every vector that holds all its parameters. -/
theorem Payload.contribution?_eq_effect {m : Modifier K} {o : Options K} {params : List K}
    {slot bins bin : ℕ} (nominal : K) (hfits : m.Fits bins) (hbin : bin < bins)
    (hslots : slot + m.slotsIn bins ≤ params.length) :
    ∃ x, m.payload.contribution? o params slot nominal bin = some x ∧
      x.shift? = (m.effectAt o slot bins).shiftAt? o.additive (fun i => params.getD i 0)
        nominal bin ∧
      x.factor? = (m.effectAt o slot bins).factorAt? (fun i => params.getD i 0) bin := by
  have hparam : ∀ i < params.length, params[i]? = some (params.getD i 0) := by
    intro i hi
    rw [List.getD_eq_getElem?_getD, List.getElem?_eq_getElem hi, Option.getD_some]
  have hbinParam : slot + bins ≤ params.length →
      params[slot + bin]? = some (params.getD (slot + bin) 0) :=
    fun hall => hparam _ (by omega)
  have hbinSlot : (List.range' slot bins)[bin]?.map (fun i => params.getD i 0) =
      some (params.getD (slot + bin) 0) := by
    rw [List.getElem?_range' hbin, Nat.one_mul, Option.map_some]
  unfold Modifier.slotsIn Modifier.kind at hslots
  unfold Modifier.effectAt
  cases hp : m.payload with
  | normfactor =>
    rw [hp] at hslots
    exact ⟨_, by rw [contribution?, hparam slot hslots]; rfl, rfl, rfl⟩
  | lumi sigma =>
    rw [hp] at hslots
    exact ⟨_, by rw [contribution?, hparam slot hslots]; rfl, rfl, rfl⟩
  | normsys lo hi =>
    rw [hp] at hslots
    exact ⟨_, by rw [contribution?, hparam slot hslots]; rfl, rfl, rfl⟩
  | shapefactor =>
    rw [hp] at hslots
    refine ⟨_, by rw [contribution?, hbinParam hslots]; rfl, rfl, ?_⟩
    exact hbinSlot.symm
  | shapesys delta =>
    rw [hp] at hslots
    refine ⟨_, by rw [contribution?, hbinParam hslots]; rfl, rfl, ?_⟩
    exact hbinSlot.symm
  | staterror delta =>
    rw [hp] at hslots
    refine ⟨_, by rw [contribution?, hbinParam hslots]; rfl, rfl, ?_⟩
    exact hbinSlot.symm
  | histosys lo hi =>
    rw [hp] at hslots
    have hdata : ∀ h ∈ [lo, hi], h[bin]? = some (h.getD bin 0) := by
      intro h hmem
      have hlen : h.length = bins := hfits h (by rw [hp]; exact hmem)
      rw [List.getD_eq_getElem?_getD, List.getElem?_eq_getElem (by omega), Option.getD_some]
    have hlo := hdata lo (by simp)
    have hhi := hdata hi (by simp)
    exact ⟨_, by rw [contribution?, hlo, hhi, hparam slot hslots]; rfl, rfl, rfl⟩

/-- The width of a luminosity is no part of what it contributes. -/
@[simp] theorem Modifier.withWidth_contribution? (config : Option (MeasurementConfig K))
    (m : Modifier K) (o : Options K) (params : List K) (slot : ℕ) (nominal : K) (bin : ℕ) :
    (m.withWidth config).payload.contribution? o params slot nominal bin =
      m.payload.contribution? o params slot nominal bin := by
  unfold withWidth
  split
  · next h => rw [h]; rfl
  · rfl

/-- A declaration contributes what the modifier contributes that it says. -/
theorem Declaration.Says.contribution?_eq {config : Option (MeasurementConfig K)} {bins : ℕ}
    {d : Declaration K} {m : Modifier K} (h : d.Says config bins m) (o : Options K)
    (params : List K) (slot : String → ℕ) (nominal : K) (bin : ℕ) :
    d.contribution? o params slot nominal bin =
      m.payload.contribution? o params (slot d.name) nominal bin := by
  obtain ⟨m₀, hread, -, rfl⟩ := h
  rw [Declaration.contribution?, hread, Modifier.withWidth_contribution?]
  rfl

/-- The contributions of declarations are the shifts and the factors of the effects to
which they compile. -/
theorem contributions_of_effects {config : Option (MeasurementConfig K)} {o : Options K}
    {params : List K} {slot : String → ℕ} {bins bin : ℕ} (nominal : K) (hbin : bin < bins)
    {ds : List (Declaration K)} {effects : List (Effect K)}
    (h : List.Forall₂ (fun d effect => ∃ m, d.Says config bins m ∧
      effect = m.effectAt o (slot d.name) bins) ds effects)
    (hslots : ∀ d ∈ ds, ∀ m, d.Says config bins m →
      slot d.name + m.slotsIn bins ≤ params.length) :
    ∃ xs, ds.mapM (fun d => d.contribution? o params slot nominal bin) = some xs ∧
      xs.filterMap Contribution.shift? = effects.filterMap
        (Effect.shiftAt? o.additive (fun i => params.getD i 0) nominal bin) ∧
      xs.filterMap Contribution.factor? = effects.filterMap
        (Effect.factorAt? (fun i => params.getD i 0) bin) := by
  induction h with
  | nil => exact ⟨[], rfl, rfl, rfl⟩
  | @cons d effect ds effects hd _ ih =>
    obtain ⟨m, hstated, rfl⟩ := hd
    obtain ⟨hfirst, hrest⟩ := List.forall_mem_cons.mp hslots
    obtain ⟨x, hx, hshift, hfactor⟩ :=
      Payload.contribution?_eq_effect nominal hstated.fits hbin (hfirst m hstated)
    obtain ⟨xs, hxs, hshifts, hfactors⟩ := ih hrest
    have hread : d.contribution? o params slot nominal bin = some x :=
      (hstated.contribution?_eq o params slot nominal bin).trans hx
    refine ⟨x :: xs, ?_, ?_, ?_⟩
    · rw [List.mapM_cons, hread, hxs]
      rfl
    · rw [List.filterMap_cons, List.filterMap_cons, hshift, hshifts]
    · rw [List.filterMap_cons, List.filterMap_cons, hfactor, hfactors]

/-- A compiled sample yields what it declares, in every bin and at every vector that holds
the parameters of its declarations. -/
theorem Sample.Compiles.declaredYield? {config : Option (MeasurementConfig K)} {o : Options K}
    {slot : String → ℕ} {s : Sample K} {y : SampleYields K} (h : s.Compiles config o slot y)
    {params : List K} {bin : ℕ} (hbin : bin < s.data.length)
    (hslots : ∀ d ∈ s.modifiers, ∀ m, d.Says config s.data.length m →
      slot d.name + m.slotsIn s.data.length ≤ params.length) :
    s.declaredYield? o params slot bin =
      some (y.yieldAt o.additive (fun i => params.getD i 0) bin) := by
  have hnominal : s.data[bin]? = some (y.nominal.getD bin 0) := by
    rw [h.nominal, List.getD_eq_getElem?_getD, List.getElem?_eq_getElem hbin, Option.getD_some]
  obtain ⟨xs, hxs, hshifts, hfactors⟩ :=
    contributions_of_effects (y.nominal.getD bin 0) hbin h.effects hslots
  rw [Sample.declaredYield?, hnominal, Option.bind_eq_bind, Option.bind_some, hxs,
    Option.bind_eq_bind, Option.bind_some, hshifts, hfactors]
  rfl

/-- A compiled channel yields what it declares, bin by bin. -/
theorem Channel.Compiles.declaredYield? {config : Option (MeasurementConfig K)}
    {o : Options K} {slot : String → ℕ} {c : Channel K} {y : ChannelYields K}
    (h : c.Compiles config o slot y) {params : List K} {bin : ℕ} (hbin : bin < c.bins)
    (hslots : ∀ s ∈ c.samples, ∀ d ∈ s.modifiers, ∀ m, d.Says config s.data.length m →
      slot d.name + m.slotsIn s.data.length ≤ params.length) :
    ∃ value, c.declaredYield? o params slot bin = some value ∧
      (y.yields o.additive fun i => params.getD i 0)[bin]? = some value := by
  have hsamples : c.samples.mapM (fun s => s.declaredYield? o params slot bin) =
      some (y.samples.map fun s => s.yieldAt o.additive (fun i => params.getD i 0) bin) := by
    refine mapM_eq_some_of_forall₂ (List.forall₂_map_right_iff.mpr ?_)
    refine forall₂_imp_of_mem h.samples fun s hs z hz => ?_
    exact hz.declaredYield? (by rw [h.regular.bins_eq s hs]; exact hbin) (hslots s hs)
  refine ⟨_, by rw [Channel.declaredYield?, hsamples]; rfl, ?_⟩
  rw [ChannelYields.yields, List.getElem?_map, List.getElem?_range (h.bins ▸ hbin)]
  rfl

end BinnedModel
