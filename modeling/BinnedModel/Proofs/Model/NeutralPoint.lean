import Mathlib
import BinnedModel.Proofs.Interpolation.Pieces
import BinnedModel.Proofs.Interpolation.ShiftPieces
import BinnedModel.Proofs.Model.OrderInvariance
import BinnedModel.Proofs.Model.StartingPoint

/-!
# The neutral point

Each kind of modifier has a value of its parameters at which it changes nothing. The neutral
point of a model has this value at every parameter. There each shift is zero and each factor
is one, whatever the variations are and however they are interpolated, so that the yields of
a sample are its nominal yields and those of a channel are the sums of them. This takes exact
arithmetic with zero and one; it does not depend on the order in which sums are taken.

Without settings of a measurement the neutral point is also where a model starts. This does
not take exact arithmetic, because the starting values are taken over as they are.
-/

namespace BinnedModel

variable {K : Type} [Scalar K]

/-- Nominal yields of all samples of a channel together, bin by bin. -/
def Channel.nominalTotal (c : Channel K) : List K :=
  (List.range c.bins).map fun k => Scalar.total (c.samples.map fun s => s.data.getD k 0)

/-- The vector of the neutral values of all parameters. -/
def Model.neutralPoint (m : Model K) : List K :=
  m.parameters.map fun p => p.kind.neutral

section Idle

variable [Scalar.ExactUnits K]

open Scalar (ExactUnits)

/-- An effect changes nothing in a bin: it shifts by zero if it shifts, and multiplies by one
if it multiplies. -/
structure Effect.IdleAt (p : ℕ → K) (bin : ℕ) (e : Effect K) : Prop where
  /-- A shift is zero. -/
  shift : ∀ code nominal x, e.shiftAt? code p nominal bin = some x → x = 0
  /-- A factor is one. -/
  factor : ∀ x, e.factorAt? p bin = some x → x = 1

omit [Scalar.ExactUnits K] in
/-- An effect that multiplies by one changes nothing. -/
theorem Effect.idleAt_of_factor {e : Effect K} {p : ℕ → K} {bin : ℕ}
    (hshift : ∀ code nominal, e.shiftAt? code p nominal bin = none)
    (hfactor : e.factorAt? p bin = some 1) : e.IdleAt p bin := by
  constructor
  · intro code nominal x hx
    rw [hshift code nominal] at hx
    cases hx
  · intro x hx
    rw [hfactor] at hx
    exact (Option.some.inj hx).symm

/-- A modifier changes nothing in a bin if its parameter there has the neutral value of its
kind. -/
theorem Modifier.idleAt_effectAt (m : Modifier K) (o : Options K) {slot bins bin : ℕ}
    {p : ℕ → K} (hbin : bin < bins)
    (hneutral : p (slot + if m.kind.isPerBin then bin else 0) = m.kind.neutral) :
    (m.effectAt o slot bins).IdleAt p bin := by
  have hbinSlot : p (slot + bin) = 1 → (List.range' slot bins)[bin]?.map p = some 1 := by
    intro hone
    rw [List.getElem?_range' hbin, Nat.one_mul, Option.map_some, hone]
  unfold kind at hneutral
  unfold effectAt
  cases hp : m.payload with
  | normfactor =>
    rw [hp] at hneutral
    exact Effect.idleAt_of_factor (fun _ _ => rfl) (congrArg some hneutral)
  | lumi sigma =>
    rw [hp] at hneutral
    exact Effect.idleAt_of_factor (fun _ _ => rfl) (congrArg some hneutral)
  | shapefactor =>
    rw [hp] at hneutral
    exact Effect.idleAt_of_factor (fun _ _ => rfl) (hbinSlot hneutral)
  | shapesys delta =>
    rw [hp] at hneutral
    exact Effect.idleAt_of_factor (fun _ _ => rfl) (hbinSlot hneutral)
  | staterror delta =>
    rw [hp] at hneutral
    exact Effect.idleAt_of_factor (fun _ _ => rfl) (hbinSlot hneutral)
  | normsys lo hi =>
    rw [hp] at hneutral
    have hzero : p slot = 0 := hneutral
    refine Effect.idleAt_of_factor (fun _ _ => rfl) ?_
    rw [Effect.factorAt?, hzero, MultiplicativeCode.factor_zero]
  | histosys lo hi =>
    rw [hp] at hneutral
    have hzero : p slot = 0 := hneutral
    constructor
    · intro code nominal x hx
      rw [Effect.shiftAt?, hzero, AdditiveCode.shift_zero] at hx
      exact (Option.some.inj hx).symm
    · intro x hx
      cases hx

/-- A sample whose effects change nothing in a bin has its nominal yield there. -/
theorem SampleYields.yieldAt_of_idle {z : SampleYields K} {code : AdditiveCode} {p : ℕ → K}
    {bin : ℕ} (h : ∀ e ∈ z.effects, e.IdleAt p bin) :
    z.yieldAt code p bin = z.nominal.getD bin 0 := by
  have hshifts : Scalar.total
      (z.effects.filterMap (Effect.shiftAt? code p (z.nominal.getD bin 0) bin)) = 0 := by
    refine Scalar.total_eq_zero fun x hx => ?_
    obtain ⟨e, he, hshift⟩ := List.mem_filterMap.mp hx
    exact (h e he).shift _ _ x hshift
  have hfactors : Scalar.product (z.effects.filterMap (Effect.factorAt? p bin)) = 1 := by
    refine Scalar.product_eq_one fun x hx => ?_
    obtain ⟨e, he, hfactor⟩ := List.mem_filterMap.mp hx
    exact (h e he).factor x hfactor
  unfold yieldAt
  dsimp only
  rw [hshifts, hfactors, ExactUnits.add_zero, ExactUnits.mul_one]

end Idle

/-- The plan of a channel has its nominal yields. -/
theorem Channel.Reads.nominalTotal_eq {config : Option (MeasurementConfig K)} {c : Channel K}
    {p : ChannelPlan K} (h : c.Reads config p) : p.nominalTotal = c.nominalTotal := by
  unfold ChannelPlan.nominalTotal Channel.nominalTotal
  rw [h.bins]
  refine List.map_congr_left fun k hk => ?_
  have hnominal : ∀ s ∈ p.samples, s.2.nominal[k]? = some (s.2.nominal.getD k 0) := by
    intro s hs
    obtain ⟨raw, hraw, hread⟩ := exists_mem_of_forall₂_right h.samples hs
    have hlt : k < s.2.nominal.length := by
      rw [hread.nominal, h.regular.bins_eq raw hraw]
      exact List.mem_range.mp hk
    rw [List.getD_eq_getElem?_getD, List.getElem?_eq_getElem hlt, Option.getD_some]
  have hdata : p.samples.map (fun s => s.2.nominal.getD k 0) =
      c.samples.map fun s => s.data.getD k 0 :=
    (map_eq_map_of_forall₂ (h.samples.imp fun _ _ hs => by rw [hs.nominal])).symm
  rw [List.filterMap_congr hnominal, ← hdata, ← List.filterMap_eq_map]
  rfl

namespace Model.Built

variable {ws : Workspace K} {o : Options K} {config : Option (MeasurementConfig K)}
  {plans : List (ChannelPlan K)} {t : ParameterTable K} {m : Model K}

/-- At the neutral point a declared modifier reads the neutral value of its kind in every
bin. -/
theorem getD_neutralPoint (h : Model.Built ws o config plans t m) {s : Sample K}
    {d : Declaration K} (hd : ws.Declares s d) {md : Modifier K}
    (hstated : d.Says config s.data.length md) {bin : ℕ} (hbin : bin < s.data.length) :
    m.neutralPoint.getD (m.slotOf d.name + if md.kind.isPerBin then bin else 0) 0 =
      md.kind.neutral := by
  obtain ⟨hlength, hblock⟩ := h.block hd hstated
  have hwithin : (if md.kind.isPerBin then bin else 0) < md.slotsIn s.data.length := by
    unfold Modifier.slotsIn
    split
    · exact hbin
    · exact Nat.one_pos
  generalize (if md.kind.isPerBin then bin else 0) = k at hwithin ⊢
  have hlt : m.slotOf d.name + k < m.parameters.length := by omega
  have hp : m.parameters[m.slotOf d.name + k]? = some m.parameters[m.slotOf d.name + k] :=
    List.getElem?_eq_getElem hlt
  have hname := (hblock _ _ hp).mpr ⟨Nat.le_add_right _ _, by omega⟩
  have hkind := h.kind_eq hp hd hname hstated
  rw [Model.neutralPoint, List.getD_eq_getElem?_getD, List.getElem?_map, hp, Option.map_some,
    Option.getD_some, hkind]

/-- At the neutral point a compiled sample of a channel has its nominal yields. -/
theorem yieldAt_neutralPoint [Scalar.ExactUnits K] (h : Model.Built ws o config plans t m)
    {c : Channel K} (hc : c ∈ ws.channels) {s : Sample K} (hs : s ∈ c.samples)
    {z : SampleYields K} (hz : s.Compiles config o m.slotOf z) {bin : ℕ}
    (hbin : bin < s.data.length) (code : AdditiveCode) :
    z.yieldAt code (fun i => m.neutralPoint.getD i 0) bin = s.data.getD bin 0 := by
  rw [← hz.nominal]
  refine SampleYields.yieldAt_of_idle fun e he => ?_
  obtain ⟨d, hd, md, hstated, rfl⟩ := exists_mem_of_forall₂_right hz.effects he
  exact md.idleAt_effectAt o hbin (h.getD_neutralPoint ⟨c, hc, hs, hd⟩ hstated hbin)

/-- At the neutral point a compiled channel has its nominal yields. -/
theorem yields_neutralPoint [Scalar.ExactUnits K] (h : Model.Built ws o config plans t m)
    {c : Channel K} (hc : c ∈ ws.channels) {y : ChannelYields K}
    (hy : c.Compiles config o m.slotOf y) (code : AdditiveCode) :
    y.yields code (fun i => m.neutralPoint.getD i 0) = c.nominalTotal := by
  unfold ChannelYields.yields Channel.nominalTotal
  rw [hy.bins]
  refine List.map_congr_left fun k hk => congrArg Scalar.total ?_
  have hsamples : List.Forall₂ (fun s z => s.data.getD k 0 =
      z.yieldAt code (fun i => m.neutralPoint.getD i 0) k) c.samples y.samples := by
    refine forall₂_imp_of_mem hy.samples fun s hs z hz => ?_
    have hbin : k < s.data.length := by
      rw [hy.regular.bins_eq s hs]
      exact List.mem_range.mp hk
    exact (h.yieldAt_neutralPoint hc hs hz hbin code).symm
  exact (map_eq_map_of_forall₂ hsamples).symm

/-- At the neutral point a model has the nominal yields of its channels, one channel after the
other. -/
theorem eval_neutralPoint_eq [Scalar.ExactUnits K] (h : Model.Built ws o config plans t m) :
    m.yields.eval m.neutralPoint = .ok (ws.channels.flatMap (·.nominalTotal)) := by
  have hchannels : List.Forall₂ (fun c y => c.nominalTotal =
      y.yields o.additive fun i => m.neutralPoint.getD i 0) ws.channels m.yields.channels :=
    forall₂_imp_of_mem h.compiles fun c hc y hy =>
      (h.yields_neutralPoint hc hy o.additive).symm
  have hlength : m.neutralPoint.length = m.parameters.length := List.length_map _
  rw [h.eval_eq hlength, List.flatMap_def, List.flatMap_def, map_eq_map_of_forall₂ hchannels]

end Model.Built

/-- Without settings a parameter starts at the neutral value of its kind, if the interval of the
options is not a single point. A pinned factor is moved to one, which is its neutral value. -/
theorem Entry.init_eq_neutral {e : Entry K} {o : Options K} {k : ℕ} {p : Parameter K}
    (hinterval : ¬ Scalar.Agrees o.freeInterval.1 o.freeInterval.2)
    (h : e.parameter none o k = .ok p) : p.init = p.kind.neutral := by
  obtain ⟨prior, hprior, ⟨hpin, -⟩ | ⟨-, rfl⟩⟩ := parameter_eq_ok_iff.mp h
  · cases hpin
  change prior.settle e.kind.neutral = e.kind.neutral
  rcases prior_cases hprior with ⟨ends, hends, hflat⟩ | ⟨-, ⟨mu, sigma, hnormal⟩ | ⟨hone, hflat⟩⟩
  · obtain ⟨-, rfl⟩ := ModifierKind.eq_of_freeEnds? rfl hends
    rw [Prior.eq_flat_of_mkFlat hflat]
    exact if_neg hinterval
  · rw [Prior.eq_normal_of_mkNormal hnormal]
    rfl
  · rw [Prior.eq_flat_of_mkFlat hflat, hone]
    exact ite_self _

/-- If no parameter has settings, a model starts at its neutral point, unless the interval of the
options is a single point. -/
theorem Model.Built.inits_eq_of_unset {ws : Workspace K} {o : Options K}
    {config : Option (MeasurementConfig K)} {plans : List (ChannelPlan K)}
    {t : ParameterTable K} {m : Model K} (h : Model.Built ws o config plans t m)
    (hunset : ∀ name, (config.bind fun c => c.parameter? name) = none)
    (hinterval : ¬ Scalar.Agrees o.freeInterval.1 o.freeInterval.2) :
    m.inits = m.neutralPoint := by
  refine List.map_congr_left fun p hp => ?_
  obtain ⟨i, hi⟩ := List.mem_iff_getElem?.mp hp
  obtain ⟨e, k, -, -, -, -, hparameter⟩ := h.exists_parameter hi
  rw [hunset] at hparameter
  exact Entry.init_eq_neutral hinterval hparameter

/-- Without settings a model starts at its neutral point, if the interval of the options is not
a single point. -/
theorem Model.Built.inits_eq {ws : Workspace K} {o : Options K} {plans : List (ChannelPlan K)}
    {t : ParameterTable K} {m : Model K} (h : Model.Built ws o none plans t m)
    (hinterval : ¬ Scalar.Agrees o.freeInterval.1 o.freeInterval.2) :
    m.inits = m.neutralPoint :=
  h.inits_eq_of_unset (fun _ => rfl) hinterval

/-- Over exact scalars a model that has been built has, at its neutral point, the nominal yields
of the channels of its workspace one after the other: those of the plans that its build reads,
which are the sums over the samples bin by bin. Over any scalars a model without measurements
starts at its neutral point under the standard options, if zero is not ten. -/
theorem Model.neutralPoint_nominal {ws : Workspace K} {o : Options K} {m : Model K}
    (hbuild : Model.build ws o = .ok m) :
    (Scalar.ExactUnits K →
      m.yields.eval m.neutralPoint = .ok (ws.channels.flatMap (·.nominalTotal))) ∧
    (∃ config registry plans, ws.settings o = .ok config ∧
      planChannels 0 [] ws.channels (Registry.empty config) = .ok (registry, plans) ∧
      plans.map (·.nominalTotal) = ws.channels.map (·.nominalTotal)) ∧
    (ws.measurements = [] → o = Options.standard → ¬ Scalar.Agrees (0 : K) ((10 : ℕ) : K) →
      m.inits = m.neutralPoint) := by
  obtain ⟨config, plans, t, h⟩ := Model.build_eq_ok_iff.mp hbuild
  refine ⟨fun _ => h.eval_neutralPoint_eq,
    ⟨config, _, plans, h.settings, h.planChannels_eq, ?_⟩, fun hnone hstandard hten => ?_⟩
  · exact (map_eq_map_of_forall₂ (h.reads.imp fun _ _ hc => hc.nominalTotal_eq.symm)).symm
  · subst hstandard
    obtain ⟨-, hconfig⟩ := Workspace.settings_eq_ok_iff.mp h.settings
    have hfirst : ws.measurement? (Options.standard : Options K).measurement = none := by
      change ws.measurements.head? = none
      rw [hnone]
      rfl
    rw [hfirst] at hconfig
    subst hconfig
    exact h.inits_eq hten

/-- For doubles zero is not ten. -/
example : ¬ Scalar.Agrees (0 : Float) ((10 : ℕ) : Float) := by decide +kernel

/-- Two regions with every kind of modifier and no measurement; a shared factor is negative at
its down variation in one region and vanishes at its up variation in the other. -/
def Workspace.unmeasured (K : Type) [Scalar K] : Workspace K :=
  let n (k : ℕ) : K := (k : K)
  { channels :=
      [⟨"signal region",
        [⟨"signal", [n 3, n 5],
          [.normfactor "mu", .lumi "luminosity", .staterror "counts" [n 1, n 2]]⟩,
        ⟨"background", [n 40, n 50],
          [.histosys "scale" [n 38, n 49] [n 42, n 51], .staterror "counts" [n 4, n 5],
            .normsys "rate" (-n 1) (n 2)]⟩]⟩,
      ⟨"control region",
        [⟨"background", [n 100],
          [.normsys "rate" (n 3) (n 0), .lumi "luminosity", .shapefactor "shape",
            .shapesys "uncorrelated" [n 10]]⟩]⟩]
    observations := []
    measurements := []
    version := none }

/-- From the regions without a measurement a model over the real numbers is built. -/
theorem Model.exists_build_unmeasured :
    ∃ m, Model.build (Workspace.unmeasured ℝ) Options.standard = .ok m :=
  Model.exists_build_of_unset (List.cons_ne_nil _ _) rfl (fun _ => rfl) ⟨_, _, rfl⟩

/-- The model of the regions without a measurement starts at its neutral point and has the
nominal yields there. -/
theorem Model.neutralPoint_unmeasured :
    ∃ m, Model.build (Workspace.unmeasured ℝ) Options.standard = .ok m ∧
      m.inits = m.neutralPoint ∧ m.yields.eval m.inits = .ok [43, 55, 100] := by
  obtain ⟨m, hbuild⟩ := Model.exists_build_unmeasured
  obtain ⟨hyields, -, hinits⟩ := Model.neutralPoint_nominal hbuild
  have hten : ¬ Scalar.Agrees (0 : ℝ) ((10 : ℕ) : ℝ) := by
    intro h
    have hle : ((10 : ℕ) : ℝ) ≤ 0 := h.2
    norm_num at hle
  have hstart := hinits rfl rfl hten
  have htotal : (Workspace.unmeasured ℝ).channels.flatMap (·.nominalTotal) = [43, 55, 100] := by
    change [(0 : ℝ) + (3 : ℕ) + (40 : ℕ), 0 + (5 : ℕ) + (50 : ℕ), 0 + (100 : ℕ)] = [43, 55, 100]
    norm_num
  have heval := hyields inferInstance
  rw [htotal, ← hstart] at heval
  exact ⟨m, hbuild, hstart, heval⟩

end BinnedModel
