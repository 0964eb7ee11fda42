import Mathlib
import BinnedModel.Proofs.Model.Frame
import BinnedModel.Proofs.Model.Meaning

/-!
# Evaluation within bounds

The yields read parameters by index and histograms by bin. Here they are evaluated a second
time by an evaluation that has no value as soon as one of its reads misses: a parameter
beyond the vector, a bin beyond a histogram, or a bin for which an effect has no parameter.
In a model that has been built no read misses, so both evaluations agree at every vector of
the right length, and at any other vector the lengths are reported. The lengths on which
this rests come from different places, the number of bins of the sample, the data of the
modifier and the table of parameters; all of them are those of the sample.

A build looks up a parameter for each modifier. That there is none is a fault that no build
ends with: no earlier stage can raise it, and where all earlier stages succeed each modifier
has its parameters.
-/

namespace BinnedModel

variable {K : Type}

/-- An effect stays within a vector of parameters and within the bins of its sample: all
parameters that it reads exist, and what it has for each bin is there for each bin. -/
def Effect.InBounds (params bins : ℕ) : Effect K → Prop
  | scale slot => slot < params
  | scaleBins slots => slots.length = bins ∧ ∀ i ∈ slots, i < params
  | vary slot _ _ _ => slot < params
  | morph slot lo hi => slot < params ∧ lo.length = bins ∧ hi.length = bins

/-- A compiled sample has one nominal yield per bin, and its effects stay within bounds. -/
structure SampleYields.InBounds (params bins : ℕ) (z : SampleYields K) : Prop where
  /-- There is one nominal yield per bin. -/
  nominal : z.nominal.length = bins
  /-- The effects stay within the parameters and the bins. -/
  effects : ∀ e ∈ z.effects, e.InBounds params bins

/-- An outcome is not the fault that a modifier has no parameter. -/
def FindsSlots {α : Type} (x : Except (Fault K) α) : Prop :=
  ∀ name, x ≠ .error (.invalid (.noSlot name))

namespace FindsSlots

variable {α β : Type}

/-- A success is no fault. -/
theorem ok (a : α) : FindsSlots (.ok a : Except (Fault K) α) := by
  intro name h
  cases h

/-- A fault that a later step passes on stays the same fault. -/
theorem passOn {f : Fault K} (h : FindsSlots (.error f : Except (Fault K) α)) :
    FindsSlots (.error f : Except (Fault K) β) := by
  intro name he
  exact h name (congrArg Except.error (Except.error.inj he))

/-- The outcome of a step is changed after a success only. -/
theorem map {x : Except (Fault K) α} (h : FindsSlots x) (f : α → β) :
    FindsSlots (x.map f) := by
  cases x with
  | error e => exact h.passOn
  | ok a => exact FindsSlots.ok (f a)

/-- A fault of two steps in sequence is a fault of one of them. -/
theorem bind {x : Except (Fault K) α} {f : α → Except (Fault K) β} (h : FindsSlots x)
    (hf : ∀ a, x = .ok a → FindsSlots (f a)) : FindsSlots (x >>= f) := by
  cases x with
  | error e => exact h.passOn
  | ok a => exact hf a rfl

/-- A fault of a traversal is a fault of one of its steps. -/
theorem mapM {f : α → Except (Fault K) β} (h : ∀ a, FindsSlots (f a)) (xs : List α) :
    FindsSlots (xs.mapM f) := by
  induction xs with
  | nil => exact FindsSlots.ok []
  | cons x xs ih =>
    rw [List.mapM_cons]
    exact (h x).bind fun b _ => ih.bind fun bs _ => FindsSlots.ok (b :: bs)

end FindsSlots

variable [Scalar K]

/-- The contribution of an effect to a bin of the given nominal yield, if all that it reads
for this bin exists. -/
def Effect.contribution? (code : AdditiveCode) (params : List K) (nominal : K) (bin : ℕ) :
    Effect K → Option (Contribution K)
  | scale slot => do return .factor (← params[slot]?)
  | scaleBins slots => do return .factor (← params[← slots[bin]?]?)
  | vary slot lo hi code => do return .factor (code.factor lo hi (← params[slot]?))
  | morph slot lo hi => do
    return .shift (code.shift (← lo[bin]?) nominal (← hi[bin]?) (← params[slot]?))

/-- The yield of a sample in a bin, if all that it reads for this bin exists. -/
def SampleYields.yieldAt? (z : SampleYields K) (code : AdditiveCode) (params : List K)
    (bin : ℕ) : Option K := do
  let nominal ← z.nominal[bin]?
  let contributions ← z.effects.mapM (Effect.contribution? code params nominal bin)
  return (nominal + Scalar.total (contributions.filterMap Contribution.shift?)) *
    Scalar.product (contributions.filterMap Contribution.factor?)

/-- The yield of a channel in a bin, if all its samples have one. -/
def ChannelYields.yieldAt? (y : ChannelYields K) (code : AdditiveCode) (params : List K)
    (bin : ℕ) : Option K := do
  let yields ← y.samples.mapM fun z => z.yieldAt? code params bin
  return Scalar.total yields

/-- The yields of all channels, if each of them has one in each of its bins. -/
def YieldFunction.eval? (f : YieldFunction K) (params : List K) : Option (List K) := do
  let yields ← f.channels.mapM fun y =>
    (List.range y.bins).mapM (y.yieldAt? f.additive params)
  return yields.flatten

/-- An effect that stays within bounds has a contribution to each bin, which is its shift or
its factor there. -/
theorem Effect.InBounds.contribution?_eq {params : List K} {bins bin : ℕ} {e : Effect K}
    (h : e.InBounds params.length bins) (code : AdditiveCode) (nominal : K)
    (hbin : bin < bins) :
    ∃ x, e.contribution? code params nominal bin = some x ∧
      x.shift? = e.shiftAt? code (fun i => params.getD i 0) nominal bin ∧
      x.factor? = e.factorAt? (fun i => params.getD i 0) bin := by
  have hread : ∀ (xs : List K) (i : ℕ), i < xs.length → xs[i]? = some (xs.getD i 0) := by
    intro xs i hi
    rw [List.getD_eq_getElem?_getD, List.getElem?_eq_getElem hi, Option.getD_some]
  cases e with
  | scale slot =>
    have hparam := hread params slot h
    exact ⟨_, by rw [contribution?, hparam]; rfl, rfl, rfl⟩
  | scaleBins slots =>
    have hlength : slots.length = bins := h.1
    have hslot : slots[bin]? = some slots[bin] := List.getElem?_eq_getElem (by omega)
    have hparam := hread params slots[bin] (h.2 _ (List.getElem_mem _))
    refine ⟨.factor (params.getD slots[bin] 0), ?_, rfl, ?_⟩
    · rw [contribution?, hslot, Option.bind_eq_bind, Option.bind_some, hparam]
      rfl
    · rw [factorAt?, hslot]
      rfl
  | vary slot lo hi code' =>
    have hparam := hread params slot h
    exact ⟨_, by rw [contribution?, hparam]; rfl, rfl, rfl⟩
  | morph slot lo hi =>
    have hlength : lo.length = bins ∧ hi.length = bins := h.2
    have hparam := hread params slot h.1
    have hlo := hread lo bin (by omega)
    have hhi := hread hi bin (by omega)
    exact ⟨_, by rw [contribution?, hlo, hhi, hparam]; rfl, rfl, rfl⟩

/-- The contributions of effects that stay within bounds are their shifts and their
factors. -/
theorem contributions_of_inBounds {params : List K} {bins bin : ℕ} (code : AdditiveCode)
    (nominal : K) (hbin : bin < bins) {es : List (Effect K)}
    (h : ∀ e ∈ es, e.InBounds params.length bins) :
    ∃ xs, es.mapM (Effect.contribution? code params nominal bin) = some xs ∧
      xs.filterMap Contribution.shift? =
        es.filterMap (Effect.shiftAt? code (fun i => params.getD i 0) nominal bin) ∧
      xs.filterMap Contribution.factor? =
        es.filterMap (Effect.factorAt? (fun i => params.getD i 0) bin) := by
  induction es with
  | nil => exact ⟨[], rfl, rfl, rfl⟩
  | cons e es ih =>
    have hfirst := h e List.mem_cons_self
    have hrest := fun e' he' => h e' (List.mem_cons_of_mem e he')
    obtain ⟨x, hx, hshift, hfactor⟩ := hfirst.contribution?_eq code nominal hbin
    obtain ⟨xs, hxs, hshifts, hfactors⟩ := ih hrest
    refine ⟨x :: xs, ?_, ?_, ?_⟩
    · rw [List.mapM_cons, hx, hxs]
      rfl
    · rw [List.filterMap_cons, List.filterMap_cons, hshift, hshifts]
    · rw [List.filterMap_cons, List.filterMap_cons, hfactor, hfactors]

/-- A sample that stays within bounds has its yield in each bin. -/
theorem SampleYields.InBounds.yieldAt?_eq {params : List K} {bins bin : ℕ}
    {z : SampleYields K} (h : z.InBounds params.length bins) (code : AdditiveCode)
    (hbin : bin < bins) :
    z.yieldAt? code params bin = some (z.yieldAt code (fun i => params.getD i 0) bin) := by
  have hlength := h.nominal
  have hnominal : z.nominal[bin]? = some (z.nominal.getD bin 0) := by
    rw [List.getD_eq_getElem?_getD, List.getElem?_eq_getElem (by omega), Option.getD_some]
  obtain ⟨xs, hxs, hshifts, hfactors⟩ :=
    contributions_of_inBounds code (z.nominal.getD bin 0) hbin h.effects
  rw [SampleYields.yieldAt?, hnominal, Option.bind_eq_bind, Option.bind_some, hxs,
    Option.bind_eq_bind, Option.bind_some, hshifts, hfactors]
  rfl

/-- A channel whose samples stay within bounds has its yield in each bin. -/
theorem ChannelYields.yieldAt?_eq {params : List K} {bin : ℕ} {y : ChannelYields K}
    (h : ∀ z ∈ y.samples, z.InBounds params.length y.bins) (code : AdditiveCode)
    (hbin : bin < y.bins) :
    y.yieldAt? code params bin = some (Scalar.total (y.samples.map fun z =>
      z.yieldAt code (fun i => params.getD i 0) bin)) := by
  have hsamples : y.samples.mapM (fun z => z.yieldAt? code params bin) =
      some (y.samples.map fun z => z.yieldAt code (fun i => params.getD i 0) bin) := by
    refine mapM_eq_some_of_forall₂ (List.forall₂_map_right_iff.mpr (List.forall₂_same.mpr ?_))
    intro z hz
    exact (h z hz).yieldAt?_eq code hbin
  rw [ChannelYields.yieldAt?, hsamples]
  rfl

/-- Where all samples stay within bounds, the evaluation that checks its reads has the value
of the one that does not. -/
theorem YieldFunction.eval?_eq {f : YieldFunction K} {params : List K}
    (h : ∀ y ∈ f.channels, ∀ z ∈ y.samples, z.InBounds params.length y.bins) :
    f.eval? params = some (f.channels.flatMap fun y =>
      y.yields f.additive fun i => params.getD i 0) := by
  have hchannel : ∀ y ∈ f.channels,
      (List.range y.bins).mapM (y.yieldAt? f.additive params) =
        some (y.yields f.additive fun i => params.getD i 0) := by
    intro y hy
    refine mapM_eq_some_of_forall₂ (List.forall₂_map_right_iff.mpr (List.forall₂_same.mpr ?_))
    intro bin hbin
    exact ChannelYields.yieldAt?_eq (h y hy) f.additive (List.mem_range.mp hbin)
  have hchannels : f.channels.mapM (fun y =>
      (List.range y.bins).mapM (y.yieldAt? f.additive params)) =
        some (f.channels.map fun y => y.yields f.additive fun i => params.getD i 0) :=
    mapM_eq_some_of_forall₂ (List.forall₂_map_right_iff.mpr (List.forall₂_same.mpr hchannel))
  rw [YieldFunction.eval?, hchannels, List.flatMap_def]
  rfl

/-- The effect of a modifier that fits its sample stays within the bins of the sample, and
within the parameters if its block does. -/
theorem Modifier.Fits.inBounds_effectAt {m : Modifier K} {bins : ℕ} (h : m.Fits bins)
    (o : Options K) {slot params : ℕ} (hblock : slot + m.slotsIn bins ≤ params) :
    (m.effectAt o slot bins).InBounds params bins := by
  have hbins : slot + bins ≤ params →
      (Effect.scaleBins (K := K) (List.range' slot bins)).InBounds params bins := by
    intro hle
    refine ⟨List.length_range', fun i hi => ?_⟩
    have hrange := List.mem_range'_1.mp hi
    omega
  have hone : slot + 1 ≤ params → slot < params := fun hle => hle
  unfold Modifier.slotsIn Modifier.kind at hblock
  unfold Modifier.effectAt
  cases hp : m.payload with
  | normfactor =>
    rw [hp] at hblock
    exact hone hblock
  | lumi sigma =>
    rw [hp] at hblock
    exact hone hblock
  | normsys lo hi =>
    rw [hp] at hblock
    exact hone hblock
  | shapefactor =>
    rw [hp] at hblock
    exact hbins hblock
  | shapesys delta =>
    rw [hp] at hblock
    exact hbins hblock
  | staterror delta =>
    rw [hp] at hblock
    exact hbins hblock
  | histosys lo hi =>
    rw [hp] at hblock
    have hdata : ∀ x ∈ [lo, hi], x.length = bins := by
      intro x hx
      exact h x (by rw [hp]; exact hx)
    exact ⟨hone hblock, hdata lo (by simp), hdata hi (by simp)⟩

namespace Model.Built

variable {ws : Workspace K} {o : Options K} {config : Option (MeasurementConfig K)}
  {plans : List (ChannelPlan K)} {t : ParameterTable K} {m : Model K}

/-- Every compiled sample of a model stays within the parameters of the model and the bins
of its channel. -/
theorem inBounds (h : Model.Built ws o config plans t m) {y : ChannelYields K}
    (hy : y ∈ m.yields.channels) {z : SampleYields K} (hz : z ∈ y.samples) :
    z.InBounds m.parameters.length y.bins := by
  obtain ⟨c, hc, hchannel⟩ := exists_mem_of_forall₂_right h.compiles hy
  obtain ⟨s, hs, hsample⟩ := exists_mem_of_forall₂_right hchannel.samples hz
  have hbins : s.data.length = y.bins := by
    rw [hchannel.regular.bins_eq s hs, hchannel.bins]
  refine ⟨by rw [hsample.nominal, hbins], fun e he => ?_⟩
  obtain ⟨d, hd, md, hstated, rfl⟩ := exists_mem_of_forall₂_right hsample.effects he
  have hblock := (h.block ⟨c, hc, hs, hd⟩ hstated).1
  rw [← hbins]
  exact hstated.fits.inBounds_effectAt o hblock

end Model.Built

/-- Entering a declaration looks up no parameter. -/
theorem Registry.register_findsSlots (r : Registry K) (d : Declaration K) (nominal : List K)
    (offset : ℕ) (channel sample : String) :
    FindsSlots (r.register d nominal offset channel sample) := by
  intro name
  unfold register
  split
  · next f hf =>
    unfold Modifier.ofDeclaration Modifier.ofDeclarationAs at hf
    split at hf
    · split at hf <;> cases hf
      simp
    · cases hf
      simp
  · split
    · next f hf =>
      unfold Modifier.checkBins at hf
      split at hf <;> cases hf
      simp
    · split
      · next f hf =>
        unfold entryFor at hf
        split at hf
        · cases hf
        · split at hf
          · cases hf
            simp
          · split at hf <;> cases hf
            simp
      · simp

/-- Reading a sample looks up no parameter. -/
theorem Sample.plan_findsSlots (s : Sample K) (channel : String) (offset : ℕ)
    (r : Registry K) : FindsSlots (s.plan channel offset r).2 := by
  have hall : ∀ (ds : List (Declaration K)) (r : Registry K),
      FindsSlots (s.registerAll channel offset ds r).2 := by
    intro ds
    induction ds with
    | nil => exact fun r => FindsSlots.ok []
    | cons d ds ih =>
      intro r
      have hregister := r.register_findsSlots d s.data offset channel s.name
      unfold registerAll
      split
      · next f hf =>
        rw [hf] at hregister
        exact hregister.passOn
      · exact (ih _).map _
  exact (hall s.modifiers r).map _

/-- Reading a channel looks up no parameter. -/
theorem Channel.plan_findsSlots (c : Channel K) (offset : ℕ) (r : Registry K) :
    FindsSlots (c.plan offset r).2 := by
  have hall : ∀ (ss : List (Sample K)) (bins : ℕ) (seen : List String) (r : Registry K),
      FindsSlots (c.planSamples bins offset seen ss r).2 := by
    intro ss
    induction ss with
    | nil => exact fun bins seen r => FindsSlots.ok []
    | cons s ss ih =>
      intro bins seen r name
      have hplan := s.plan_findsSlots c.name offset r
      unfold planSamples
      split
      · simp
      · split
        · simp
        · split
          · next f hf =>
            rw [hf] at hplan
            exact hplan.passOn name
          · exact (ih _ _ _).map _ name
  intro name
  unfold plan
  split
  · simp
  · split
    · simp
    · exact (hall _ _ _ _).map _ name

/-- Reading channels one after the other looks up no parameter. -/
theorem planChannels_findsSlots (cs : List (Channel K)) (offset : ℕ) (seen : List String)
    (r : Registry K) : FindsSlots (planChannels offset seen cs r) := by
  induction cs generalizing offset seen r with
  | nil => exact FindsSlots.ok (r, [])
  | cons c cs ih =>
    intro name
    have hplan := c.plan_findsSlots offset r
    unfold planChannels
    split
    · simp
    · split
      · next f hf =>
        rw [hf] at hplan
        exact hplan.passOn name
      · exact (ih _ _ _).map _ name

/-- Making a flat prior looks up no parameter. -/
theorem Prior.mkFlat_findsSlots (a b : K) : FindsSlots (Prior.mkFlat a b) := by
  intro name
  unfold mkFlat
  split <;> simp

/-- Making a Gaussian prior looks up no parameter. -/
theorem Prior.mkNormal_findsSlots (mu sigma : K) : FindsSlots (Prior.mkNormal mu sigma) := by
  intro name
  unfold mkNormal
  split
  · simp
  · split <;> simp

/-- Making a parameter looks up no other one. -/
theorem Entry.parameter_findsSlots (e : Entry K) (settings : Option (ParameterConfig K))
    (o : Options K) (k : ℕ) : FindsSlots (e.parameter settings o k) := by
  have hprior : FindsSlots (e.prior settings o k) := by
    unfold prior freePrior
    split
    · exact Prior.mkFlat_findsSlots _ _
    · exact Prior.mkFlat_findsSlots _ _
    · exact Prior.mkNormal_findsSlots _ _
    · exact Prior.mkNormal_findsSlots _ _
    · dsimp only
      split
      · exact Prior.mkNormal_findsSlots _ _
      · exact Prior.mkFlat_findsSlots _ _
    · dsimp only
      split
      · exact Prior.mkNormal_findsSlots _ _
      · exact Prior.mkFlat_findsSlots _ _
    · split
      · exact Prior.mkNormal_findsSlots _ _
      · exact Prior.mkFlat_findsSlots _ _
  unfold parameter
  dsimp only
  split
  · next f hf =>
    rw [hf] at hprior
    exact hprior.passOn
  · split
    · exact (Prior.mkFlat_findsSlots _ _).map _
    · split <;> exact FindsSlots.ok _

/-- Making a table of parameters looks up none. -/
theorem Registry.table_findsSlots (r : Registry K) (o : Options K) :
    FindsSlots (r.table o) := by
  have hblocks : FindsSlots (r.entries.mapM fun e => e.parameters (r.settings? e.name) o) :=
    FindsSlots.mapM (fun e => FindsSlots.mapM (e.parameter_findsSlots _ o) _) _
  unfold table
  split
  · next f hf =>
    rw [hf] at hblocks
    exact hblocks.passOn
  · exact FindsSlots.ok _

/-- No build ends with the fault that a modifier has no parameter: where all stages before
the compilation succeed, the compilation does. -/
theorem Model.build_findsSlots (ws : Workspace K) (o : Options K) :
    FindsSlots (Model.build ws o) := by
  have hcheck : FindsSlots o.check := by
    intro name
    unfold Options.check
    dsimp only
    split <;> simp
  have hsettings : FindsSlots (ws.settings o) := by
    intro name
    unfold Workspace.settings
    split <;> simp
  unfold build
  refine hcheck.bind fun _ _ => ?_
  split
  · intro name
    simp
  · refine hsettings.bind fun config _ => ?_
    refine (planChannels_findsSlots _ _ _ _).bind fun ⟨registry, plans⟩ hplans => ?_
    obtain ⟨-, hreads, -, hadmits, rfl⟩ := planChannels_eq_ok_iff.mp hplans
    have hagree := Registry.admitsAll_empty_iff.mp hadmits
    refine (Registry.table_findsSlots _ o).bind fun t ht => ?_
    rw [mapM_eq_ok_map fun p hp => compile_of_table hreads hagree ht hp]
    exact FindsSlots.ok _

/-- No build fails because a modifier has no parameter. In a model that has been built every
sample stays within the parameters of the model and the bins of its channel. A vector of
another length than the parameters is refused with both lengths; at every other vector the
model has one yield for each of its bins, and no read misses on the way. -/
theorem Model.evaluation_in_bounds (ws : Workspace K) (o : Options K) :
    (∀ name, Model.build ws o ≠ .error (.invalid (.noSlot name))) ∧
    ∀ m, Model.build ws o = .ok m →
      (∀ y ∈ m.yields.channels, ∀ z ∈ y.samples, z.nominal.length = y.bins ∧
        ∀ e ∈ z.effects, e.InBounds m.parameters.length z.nominal.length) ∧
      ∀ params : List K,
        (params.length ≠ m.parameters.length → m.yields.eval params =
          .error (.parameterCountMismatch m.parameters.length params.length)) ∧
        (params.length = m.parameters.length → ∃ values, m.yields.eval params = .ok values ∧
          m.yields.eval? params = some values ∧ values.length = m.bins) := by
  refine ⟨Model.build_findsSlots ws o, fun m h => ?_⟩
  obtain ⟨config, plans, t, hbuilt⟩ := Model.build_eq_ok_iff.mp h
  have hinBounds : ∀ y ∈ m.yields.channels, ∀ z ∈ y.samples,
      z.InBounds m.parameters.length y.bins := fun y hy z hz => hbuilt.inBounds hy hz
  have hcount : m.yields.parameters = m.parameters.length := by rw [hbuilt.model]
  have hcode : m.yields.additive = o.additive := by rw [hbuilt.model]
  refine ⟨fun y hy z hz => ?_, fun params => ⟨fun hne => ?_, fun heq => ?_⟩⟩
  · have hsample := hinBounds y hy z hz
    exact ⟨hsample.nominal, hsample.nominal ▸ hsample.effects⟩
  · rw [YieldFunction.eval, hcount, if_pos hne]
  · refine ⟨_, hbuilt.eval_eq heq, ?_, ?_⟩
    · rw [YieldFunction.eval?_eq (heq ▸ hinBounds), hcode]
    · rw [hbuilt.length_yields, hbuilt.bins_total]

/-- The model of the two regions refuses a vector of seven parameters, and has three yields
at its starting values without a read that misses. -/
theorem Model.inBounds_twoRegions :
    ∃ m, Model.build Workspace.twoRegions Options.standard = .ok m ∧
      m.yields.eval [2, 1.5, 0.5, 1, -1, 3, 2] = .error (.parameterCountMismatch 8 7) ∧
      ∃ values, m.yields.eval m.inits = .ok values ∧ m.yields.eval? m.inits = some values ∧
        values.length = m.bins := by
  obtain ⟨m, hbuild, hcount⟩ := Model.exists_build_twoRegions
  obtain ⟨-, heval⟩ :=
    (Model.evaluation_in_bounds Workspace.twoRegions Options.standard).2 m hbuild
  have hinits : m.inits.length = m.parameters.length := List.length_map _
  have hshort := (heval [2, 1.5, 0.5, 1, -1, 3, 2]).1 (by rw [hcount]; decide)
  rw [hcount] at hshort
  exact ⟨m, hbuild, hshort, (heval m.inits).2 hinits⟩

end BinnedModel
