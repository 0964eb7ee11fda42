import Mathlib
import BinnedModel.Proofs.Model.OrderInvariance
import BinnedModel.Proofs.Registry.Units

/-!
# Units of the yields

A workspace with all its histograms in other units builds exactly if the original one does, with
the same fault if it does not. The two models have the same parameters, and the yields of the one
are those of the other in these units: shifts are differences of histograms and carry their unit,
factors have none.
-/

namespace BinnedModel

/-- A sample in other units. -/
noncomputable def Sample.rescale (c : ℝ) (s : Sample ℝ) : Sample ℝ :=
  ⟨s.name, s.data.map (c * ·), s.modifiers.map (Declaration.rescale c)⟩

/-- A channel in other units. -/
noncomputable def Channel.rescale (c : ℝ) (ch : Channel ℝ) : Channel ℝ :=
  ⟨ch.name, ch.samples.map (Sample.rescale c)⟩

/-- A workspace with the yields of its samples, its varied histograms and its absolute uncertainties
in other units. Observed counts and settings stay. -/
noncomputable def Workspace.rescale (c : ℝ) (ws : Workspace ℝ) : Workspace ℝ :=
  { ws with channels := ws.channels.map (Channel.rescale c) }

/-- A read sample in other units. -/
def SamplePlan.rescale (c : ℝ) (s : SamplePlan ℝ) : SamplePlan ℝ :=
  ⟨s.nominal.map (c * ·), s.modifiers.map (Modifier.rescale c)⟩

/-- A read channel in other units. -/
def ChannelPlan.rescale (c : ℝ) (p : ChannelPlan ℝ) : ChannelPlan ℝ :=
  { p with samples := p.samples.map (Prod.map id (SamplePlan.rescale c)) }

/-- An effect in other units: histograms are multiplied, factors are not. -/
def Effect.rescale (c : ℝ) : Effect ℝ → Effect ℝ
  | morph slot lo hi => morph slot (lo.map (c * ·)) (hi.map (c * ·))
  | e => e

/-- A compiled sample in other units. -/
def SampleYields.rescale (c : ℝ) (s : SampleYields ℝ) : SampleYields ℝ :=
  ⟨s.nominal.map (c * ·), s.effects.map (Effect.rescale c)⟩

/-- A compiled channel in other units. -/
def ChannelYields.rescale (c : ℝ) (y : ChannelYields ℝ) : ChannelYields ℝ :=
  ⟨y.bins, y.samples.map (SampleYields.rescale c)⟩

/-- A model in other units. -/
def Model.rescale (c : ℝ) (m : Model ℝ) : Model ℝ :=
  { m with
    yields := { m.yields with channels := m.yields.channels.map (ChannelYields.rescale c) } }

section Reading

variable (c : ℝ)

/-- Declarations in other units are entered as the original ones are. -/
theorem Sample.registerAll_rescale (s : Sample ℝ) (channel : String) (offset : ℕ)
    (ds : List (Declaration ℝ)) (r : Registry ℝ) :
    (s.rescale c).registerAll channel offset (ds.map (Declaration.rescale c)) (r.rescale c) =
      Prod.map (Registry.rescale c) (Except.map (List.map (Modifier.rescale c)))
        (s.registerAll channel offset ds r) := by
  induction ds generalizing r with
  | nil => rfl
  | cons d ds ih =>
    rw [List.map_cons, registerAll, registerAll]
    have hcall := r.register_rescale c d s.data offset channel s.name
    dsimp only [rescale] at hcall ih ⊢
    rw [hcall]
    cases r.register d s.data offset channel s.name with
    | error f => rfl
    | ok mr =>
      obtain ⟨m, r'⟩ := mr
      dsimp only [Except.map, Prod.map]
      rw [ih]
      cases s.registerAll channel offset ds r' with
      | mk r'' rest => cases rest <;> rfl

/-- A sample in other units is read as the original one is. -/
theorem Sample.plan_rescale (s : Sample ℝ) (channel : String) (offset : ℕ) (r : Registry ℝ) :
    (s.rescale c).plan channel offset (r.rescale c) =
      Prod.map (Registry.rescale c) (Except.map (SamplePlan.rescale c))
        (s.plan channel offset r) := by
  have hall := s.registerAll_rescale c channel offset s.modifiers r
  unfold plan
  rw [show (s.rescale c).modifiers = s.modifiers.map (Declaration.rescale c) from rfl, hall]
  cases s.registerAll channel offset s.modifiers r with
  | mk r' modifiers => cases modifiers <;> rfl

/-- Samples in other units are read as the original ones are. -/
theorem Channel.planSamples_rescale (ch : Channel ℝ) (bins offset : ℕ) (seen : List String)
    (ss : List (Sample ℝ)) (r : Registry ℝ) :
    (ch.rescale c).planSamples bins offset seen (ss.map (Sample.rescale c)) (r.rescale c) =
      Prod.map (Registry.rescale c)
        (Except.map (List.map (Prod.map id (SamplePlan.rescale c))))
        (ch.planSamples bins offset seen ss r) := by
  induction ss generalizing seen r with
  | nil => rfl
  | cons s ss ih =>
    have hlength : (s.rescale c).data.length = s.data.length := List.length_map _
    have hname : (s.rescale c).name = s.name := rfl
    have hchannel : (ch.rescale c).name = ch.name := rfl
    rw [List.map_cons, planSamples, planSamples, hlength, hname, hchannel, s.plan_rescale]
    split
    · rfl
    · split
      · rfl
      · cases s.plan ch.name offset r with
        | mk r' outcome =>
          cases outcome with
          | error f => rfl
          | ok plan =>
            dsimp only [Prod.map, Except.map]
            rw [ih]
            cases ch.planSamples bins offset (s.name :: seen) ss r' with
            | mk r'' rest => cases rest <;> rfl

/-- A channel in other units is read as the original one is. -/
theorem Channel.plan_rescale (ch : Channel ℝ) (offset : ℕ) (r : Registry ℝ) :
    (ch.rescale c).plan offset (r.rescale c) =
      Prod.map (Registry.rescale c) (Except.map (ChannelPlan.rescale c)) (ch.plan offset r) := by
  have hsamples : (ch.rescale c).samples = ch.samples.map (Sample.rescale c) := rfl
  have hname : (ch.rescale c).name = ch.name := rfl
  unfold plan
  rw [hsamples, hname]
  cases hfirst : ch.samples with
  | nil => rfl
  | cons first rest =>
    have hlength : (first.rescale c).data.length = first.data.length := List.length_map _
    have hempty : (first.rescale c).data.isEmpty = first.data.isEmpty := List.isEmpty_map
    rw [List.map_cons]
    dsimp only
    rw [hempty, hlength]
    split
    · rfl
    · rw [← List.map_cons, planSamples_rescale]
      cases ch.planSamples first.data.length offset [] (first :: rest) r with
      | mk r' outcome => cases outcome <;> rfl

/-- Channels in other units are read as the original ones are. -/
theorem planChannels_rescale (offset : ℕ) (seen : List String) (cs : List (Channel ℝ))
    (r : Registry ℝ) :
    planChannels offset seen (cs.map (Channel.rescale c)) (r.rescale c) =
      (planChannels offset seen cs r).map
        (Prod.map (Registry.rescale c) (List.map (ChannelPlan.rescale c))) := by
  induction cs generalizing offset seen r with
  | nil => rfl
  | cons ch cs ih =>
    have hname : (ch.rescale c).name = ch.name := rfl
    rw [List.map_cons, planChannels, planChannels, hname, ch.plan_rescale]
    split
    · rfl
    · cases ch.plan offset r with
      | mk r' outcome =>
        cases outcome with
        | error f => rfl
        | ok plan =>
          have hbins : (plan.rescale c).bins = plan.bins := rfl
          dsimp only [Prod.map, Except.map]
          rw [hbins, ih]
          cases planChannels (offset + plan.bins) (ch.name :: seen) cs r' <;> rfl

end Reading

section Compiling

variable (c : ℝ)

/-- A modifier in other units has the effect in other units. -/
theorem Modifier.effect_rescale (m : Modifier ℝ) (t : ParameterTable ℝ) (o : Options ℝ) :
    (m.rescale c).effect t o = (m.effect t o).map (Effect.rescale c) := by
  obtain ⟨name, payload⟩ := m
  unfold effect rescale
  dsimp only
  cases t.firstSlot? name with
  | none => rfl
  | some slot =>
    dsimp only [Except.map]
    cases payload with
    | shapesys delta | staterror delta =>
      dsimp only [Payload.rescale]
      rw [List.length_map]
      rfl
    | _ => rfl

/-- A sample in other units compiles as the original one does. -/
theorem SamplePlan.compile_rescale (s : SamplePlan ℝ) (t : ParameterTable ℝ) (o : Options ℝ) :
    (s.rescale c).compile t o = (s.compile t o).map (SampleYields.rescale c) := by
  have hmodifiers : (s.rescale c).modifiers.mapM (fun m : Modifier ℝ => m.effect t o) =
      (s.modifiers.mapM fun m : Modifier ℝ => m.effect t o).map (List.map (Effect.rescale c)) := by
    rw [rescale, List.mapM_map, ← mapM_map_right]
    exact mapM_congr fun m _ => Modifier.effect_rescale c m t o
  unfold compile
  rw [hmodifiers]
  cases s.modifiers.mapM fun m : Modifier ℝ => m.effect t o <;> rfl

/-- A channel in other units compiles as the original one does. -/
theorem ChannelPlan.compile_rescale (p : ChannelPlan ℝ) (t : ParameterTable ℝ) (o : Options ℝ) :
    (p.rescale c).compile t o = (p.compile t o).map (ChannelYields.rescale c) := by
  have hsamples : (p.rescale c).samples.mapM (fun s : String × SamplePlan ℝ => s.2.compile t o) =
      (p.samples.mapM fun s : String × SamplePlan ℝ => s.2.compile t o).map
        (List.map (SampleYields.rescale c)) := by
    rw [rescale, List.mapM_map, ← mapM_map_right]
    exact mapM_congr fun s _ => SamplePlan.compile_rescale c s.2 t o
  unfold compile
  rw [hsamples]
  cases p.samples.mapM fun s : String × SamplePlan ℝ => s.2.compile t o <;> rfl

variable {c : ℝ} (hc : 0 < c)

include hc

/-- Plans and registry in other units make the model in other units. -/
theorem Model.ofPlans_rescale (plans : List (ChannelPlan ℝ)) (r : Registry ℝ) (o : Options ℝ) :
    ofPlans (plans.map (ChannelPlan.rescale c)) (r.rescale c) o =
      (ofPlans plans r o).map (rescale c) := by
  unfold ofPlans
  rw [r.table_rescale hc]
  cases r.table o with
  | error f => rfl
  | ok t =>
    have hchannels :
        (plans.map (ChannelPlan.rescale c)).mapM (fun p : ChannelPlan ℝ => p.compile t o) =
          (plans.mapM fun p : ChannelPlan ℝ => p.compile t o).map
            (List.map (ChannelYields.rescale c)) := by
      rw [List.mapM_map, ← mapM_map_right]
      exact mapM_congr fun p _ => ChannelPlan.compile_rescale c p t o
    have hbins : (plans.map (ChannelPlan.rescale c)).map (·.bins) = plans.map (·.bins) := by
      rw [List.map_map]
      rfl
    have hlayouts : (plans.map (ChannelPlan.rescale c)).map (·.layout) = plans.map (·.layout) := by
      rw [List.map_map]
      refine List.map_congr_left fun p _ => ?_
      simp only [Function.comp_apply, ChannelPlan.layout, ChannelPlan.rescale, List.map_map]
      rfl
    dsimp only [bind, Except.bind]
    rw [hchannels, hbins, hlayouts]
    cases plans.mapM fun p : ChannelPlan ℝ => p.compile t o <;> rfl

/-- A workspace in other units builds as the original one does, with the same fault or to the model
in these units. -/
theorem Model.build_rescale (ws : Workspace ℝ) (o : Options ℝ) :
    build (ws.rescale c) o = (build ws o).map (rescale c) := by
  have hsettings : (ws.rescale c).settings o = ws.settings o := rfl
  have hchannels : (ws.rescale c).channels = ws.channels.map (Channel.rescale c) := rfl
  have hempty (config : Option (MeasurementConfig ℝ)) :
      (Registry.empty config).rescale c = Registry.empty config := rfl
  unfold build
  rw [hsettings, hchannels, List.isEmpty_map]
  cases o.check with
  | error f => rfl
  | ok _ =>
    dsimp only [bind, Except.bind]
    split
    · rfl
    · cases ws.settings o with
      | error f => rfl
      | ok config =>
        have hplans := planChannels_rescale c 0 [] ws.channels (Registry.empty config)
        rw [hempty] at hplans
        dsimp only
        rw [hplans]
        cases planChannels 0 [] ws.channels (Registry.empty config) with
        | error f => rfl
        | ok rp => exact ofPlans_rescale hc rp.2 rp.1 o

end Compiling

section Yields

variable (c : ℝ)

/-- A shift between histograms in other units is the shift in these units. -/
theorem AdditiveCode.shift_mul (code : AdditiveCode) (lo nominal hi α : ℝ) :
    code.shift (c * lo) (c * nominal) (c * hi) α = c * code.shift lo nominal hi α := by
  cases code with
  | code0 =>
    simp only [shift, linear]
    split <;> ring
  | code4p =>
    simp only [shift, smooth]
    split
    · ring
    · split <;> ring

/-- A sum in other units is the sum in these units. -/
theorem Scalar.total_map_mul (xs : List ℝ) :
    Scalar.total (xs.map (c * ·)) = c * Scalar.total xs := by
  rw [Scalar.total_eq_sum, Scalar.total_eq_sum, List.sum_map_mul_left, List.map_id']

/-- The shift of an effect is in the units of its histograms. -/
theorem Effect.shiftAt?_rescale (e : Effect ℝ) (code : AdditiveCode) (p : ℕ → ℝ) (nominal : ℝ)
    (bin : ℕ) :
    (e.rescale c).shiftAt? code p (c * nominal) bin =
      (e.shiftAt? code p nominal bin).map (c * ·) := by
  cases e with
  | morph slot lo hi =>
    dsimp only [rescale, shiftAt?, Option.map_some]
    rw [getD_map_mul, getD_map_mul, AdditiveCode.shift_mul]
  | _ => rfl

/-- The factor of an effect has no unit. -/
theorem Effect.factorAt?_rescale (e : Effect ℝ) (p : ℕ → ℝ) (bin : ℕ) :
    (e.rescale c).factorAt? p bin = e.factorAt? p bin := by
  cases e <;> rfl

/-- The yield of a sample is in the units of its histograms. -/
theorem SampleYields.yieldAt_rescale (s : SampleYields ℝ) (code : AdditiveCode) (p : ℕ → ℝ)
    (bin : ℕ) : (s.rescale c).yieldAt code p bin = c * s.yieldAt code p bin := by
  have hshifts : (s.effects.map (Effect.rescale c)).filterMap
        (Effect.shiftAt? code p (c * s.nominal.getD bin 0) bin) =
      (s.effects.filterMap (Effect.shiftAt? code p (s.nominal.getD bin 0) bin)).map (c * ·) := by
    rw [List.filterMap_map, List.map_filterMap]
    exact List.filterMap_congr fun e _ => e.shiftAt?_rescale c code p _ bin
  have hfactors : (s.effects.map (Effect.rescale c)).filterMap (Effect.factorAt? p bin) =
      s.effects.filterMap (Effect.factorAt? p bin) := by
    rw [List.filterMap_map]
    exact List.filterMap_congr fun e _ => e.factorAt?_rescale c p bin
  unfold yieldAt rescale
  dsimp only
  rw [getD_map_mul, hshifts, hfactors, Scalar.total_map_mul, ← mul_add, mul_assoc]

/-- The yields of a channel are in the units of its histograms. -/
theorem ChannelYields.yields_rescale (y : ChannelYields ℝ) (code : AdditiveCode) (p : ℕ → ℝ) :
    (y.rescale c).yields code p = (y.yields code p).map (c * ·) := by
  unfold yields rescale
  dsimp only
  rw [List.map_map]
  refine List.map_congr_left fun bin _ => ?_
  rw [Function.comp_apply, ← Scalar.total_map_mul, List.map_map, List.map_map]
  congr 1
  exact List.map_congr_left fun s _ => s.yieldAt_rescale c code p bin

/-- The expected counts of a model are in the units of its histograms. -/
theorem Model.eval_rescale (m : Model ℝ) (params : List ℝ) :
    (m.rescale c).yields.eval params = (m.yields.eval params).map (List.map (c * ·)) := by
  unfold YieldFunction.eval rescale
  dsimp only
  split
  · rfl
  · dsimp only [Except.map]
    rw [List.map_flatMap, List.flatMap_map]
    congr 2
    funext y
    exact y.yields_rescale c m.yields.additive fun i => params.getD i 0

end Yields

/-- A workspace with its yields, varied histograms and absolute uncertainties multiplied by a
positive number builds exactly if the original one does. The two models have the same parameters,
channels and parameter of interest, and at all parameters the one expects the counts of the other,
multiplied by the number. -/
theorem Model.yields_in_other_units {c : ℝ} (hc : 0 < c) (ws : Workspace ℝ) (o : Options ℝ) :
    ((∃ m, build (ws.rescale c) o = .ok m) ↔ ∃ m, build ws o = .ok m) ∧
      ∀ m m', build ws o = .ok m → build (ws.rescale c) o = .ok m' →
        m'.parameters = m.parameters ∧ m'.channels = m.channels ∧ m'.poi = m.poi ∧
          ∀ params, m'.yields.eval params = (m.yields.eval params).map (List.map (c * ·)) := by
  have hbuild := build_rescale hc ws o
  constructor
  · rw [hbuild]
    cases build ws o with
    | error f => exact iff_of_false (fun ⟨m, hm⟩ => by cases hm) fun ⟨m, hm⟩ => by cases hm
    | ok m => exact iff_of_true ⟨_, rfl⟩ ⟨m, rfl⟩
  · intro m m' hm hm'
    rw [hbuild, hm] at hm'
    cases hm'
    exact ⟨rfl, rfl, rfl, m.eval_rescale c⟩

/-- The two regions with all histograms doubled have the same parameters, and at all of them twice
the expected counts. -/
theorem Model.doubled_regions :
    ∃ m m', build Workspace.regions Options.standard = .ok m ∧
      build (Workspace.regions.rescale 2) Options.standard = .ok m' ∧
      m'.parameters = m.parameters ∧
      ∀ params, m'.yields.eval params = (m.yields.eval params).map (List.map (2 * ·)) := by
  obtain ⟨hiff, hsame⟩ :=
    yields_in_other_units (c := 2) two_pos Workspace.regions Options.standard
  obtain ⟨m, hm⟩ := exists_build_regions
  obtain ⟨m', hm'⟩ := hiff.mpr ⟨m, hm⟩
  obtain ⟨hparameters, -, -, hyields⟩ := hsame m m' hm hm'
  exact ⟨m, m', hm, hm', hparameters, hyields⟩

end BinnedModel
