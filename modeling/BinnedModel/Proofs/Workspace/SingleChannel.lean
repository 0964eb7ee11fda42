import Mathlib
import BinnedModel.Proofs.Interpolation.ShiftContact
import BinnedModel.Proofs.Model.Confinement
import BinnedModel.Proofs.Model.NeutralPoint
import BinnedModel.Proofs.Modifier.Declared
import BinnedModel.Workspace.SingleChannel

/-!
# Models of one channel

The ready-made workspaces exist exactly if all histograms have as many bins as the signal, and the
signal has one. A model is built from each of them: its first parameter is the signal strength,
which is the parameter of interest, and the others are those of the background's modifier. Over the
real numbers the yields are the signal times its strength plus the background as its modifier
varies it, and the model expects the observed counts where it starts.
-/

namespace BinnedModel

variable {K : Type} [Scalar K]

namespace Workspace

omit [Scalar K] in
/-- Histograms pass the check exactly if the signal has a bin and all of them have as many bins as
the signal. -/
theorem checkHistograms_eq_ok_iff {signal : List K} {others : List (String × List K)} :
    checkHistograms signal others = .ok () ↔
      signal ≠ [] ∧ ∀ h ∈ others, h.2.length = signal.length := by
  unfold checkHistograms
  cases signal with
  | nil => simp
  | cons x xs =>
    rw [List.isEmpty_cons, if_neg Bool.false_ne_true]
    cases hfind : others.find? fun h => h.2.length != (x :: xs).length with
    | none =>
      have hall := List.find?_eq_none.mp hfind
      simp only [bne_iff_ne, ne_eq, not_not] at hall
      exact iff_of_true rfl ⟨List.cons_ne_nil x xs, hall⟩
    | some h =>
      have hlength := List.find?_some hfind
      rw [bne_iff_ne] at hlength
      exact iff_of_false (fun hok => by cases hok)
        fun hall => hlength (hall.2 h (List.mem_of_find?_eq_some hfind))

omit [Scalar K] in
/-- What follows a check is given exactly if the check succeeds. -/
theorem map_const_eq_ok_iff {α : Type} {check : Except (Fault K) Unit} {x y : α} :
    check.map (fun _ => x) = .ok y ↔ check = .ok () ∧ y = x := by
  cases check with
  | error f => exact iff_of_false (fun h => by cases h) fun h => by cases h.1
  | ok u =>
    refine Iff.trans ?_ (and_iff_right rfl).symm
    exact ⟨fun h => (Except.ok.inj h).symm, fun h => congrArg Except.ok h.symm⟩

omit [Scalar K] in
/-- What is given under a condition only is else a fault. -/
theorem exists_error_iff {α : Type} {r : Except (Fault K) α} {p : Prop} {x : α}
    (h : ∀ y, r = .ok y ↔ p ∧ y = x) : (∃ f, r = .error f) ↔ ¬ p := by
  cases r with
  | error f => exact iff_of_true ⟨f, rfl⟩ fun hp => by cases (h x).mpr ⟨hp, rfl⟩
  | ok y => exact iff_of_false (fun ⟨f, hf⟩ => by cases hf) (not_not.mpr ((h y).mp rfl).1)

end Workspace

/-- The settings of the ready-made workspaces: a parameter of interest, and none of a parameter. -/
def MeasurementConfig.ofStrength : MeasurementConfig K :=
  ⟨"mu", []⟩

/-- Two registrations of different names have an entry each. -/
theorem Registry.entries_pair (config : Option (MeasurementConfig K)) {x y : Registration K}
    (h : x.modifier.name ≠ y.modifier.name) :
    ((empty config).enterAll [x, y]).entries = [x.start.join x, y.start.join y] := by
  have hfirst : ((empty config).enter x).entries = [x.start.join x] := rfl
  have hname : (x.start.join x).name = x.modifier.name := Entry.join_name _ _
  have hname' : (y.start.join y).name = y.modifier.name := Entry.join_name _ _
  have hother : ¬ ((x.start.join x).name == y.modifier.name) = true := by
    rw [hname, beq_iff_eq]
    exact h
  have hnone : [x.start.join x].find? (fun e => e.name == y.modifier.name) = none := by
    rw [List.find?_eq_none]
    intro e he
    rw [List.mem_singleton.mp he]
    exact hother
  change (((empty config).enter x).enter y).entries = _
  rw [enter, Registry.entry?, hfirst, hnone, Option.getD_none]
  dsimp only
  rw [putEntry, hname', if_neg hother]
  rfl

/-- What the two samples of a ready-made workspace need for a model: the signal has a bin, the
background has as many, and the declaration of the background says a modifier under another name
than the signal strength. -/
structure Workspace.Underlies (signal background : List K) (d : Declaration K)
    (md : Modifier K) : Prop where
  /-- The signal has a bin. -/
  signal_ne : signal ≠ []
  /-- The background has as many bins as the signal. -/
  length_eq : background.length = signal.length
  /-- The declaration says the modifier. -/
  stated : d.Says (some MeasurementConfig.ofStrength) background.length md
  /-- The modifier is not the signal strength. -/
  name_ne : md.name ≠ "mu"

namespace Workspace

/-- From a workspace a model with parameters of these names is built under the standard options, and
the first of them is the parameter of interest. -/
def BuildsWith (ws : Workspace K) (names : List String) : Prop :=
  ∃ m, Model.build ws Options.standard = .ok m ∧ m.poiIndex? = some 0 ∧ m.names = names

/-- The registration of the signal strength. -/
def strength (signal : List K) : Registration K :=
  ⟨⟨"mu", .normfactor⟩, signal, 0⟩

/-- The reading of the channel of a ready-made workspace. -/
def backgroundPlan (signal background : List K) (md : Modifier K) : ChannelPlan K :=
  ⟨channelName, 0, signal.length,
    [("signal", ⟨signal, [⟨"mu", .normfactor⟩]⟩), ("background", ⟨background, [md]⟩)]⟩

omit [Scalar K] in
/-- The channel registers the signal strength and the modifier of the background. -/
theorem registrations_backgroundPlan (signal background : List K) (md : Modifier K) :
    [backgroundPlan signal background md].flatMap (·.registrations) =
      [strength signal, ⟨md, background, 0⟩] :=
  rfl

namespace Underlies

variable {signal background : List K} {d : Declaration K} {md : Modifier K}

/-- The channel is read as signal and background. -/
theorem reads (h : Underlies signal background d md) :
    List.Forall₂ (Channel.Reads (some MeasurementConfig.ofStrength))
      (ofBackground signal background d).channels [backgroundPlan signal background md] := by
  have hstrength : (Declaration.normfactor "mu" : Declaration K).Says
      (some MeasurementConfig.ofStrength) signal.length ⟨"mu", .normfactor⟩ :=
    ⟨⟨"mu", .normfactor⟩, rfl, fun _ hmem => (List.not_mem_nil hmem).elim, rfl⟩
  have hnames : (["signal", "background"] : List String).Nodup := by decide
  refine .cons ⟨⟨List.cons_ne_nil _ _, hnames, List.length_pos_of_ne_nil h.signal_ne, ?_⟩, rfl, rfl,
    .cons ⟨rfl, rfl, .cons hstrength .nil⟩ (.cons ⟨rfl, rfl, .cons h.stated .nil⟩ .nil)⟩ .nil
  intro s hs
  rcases List.mem_cons.mp hs with rfl | hs
  · rfl
  · rw [List.mem_singleton.mp hs]
    exact h.length_eq

/-- A model is built, if the standard options are admissible. -/
theorem exists_built [Scalar.OrdersFinite K] (h : Underlies signal background d md)
    (hstandard : (Options.standard : Options K).check = .ok ()) :
    ∃ t m, Model.Built (ofBackground signal background d) Options.standard
      (some MeasurementConfig.ofStrength) [backgroundPlan signal background md] t m := by
  have hagree : ∀ x ∈ [strength signal, ⟨md, background, 0⟩],
      ∀ y ∈ [strength signal, ⟨md, background, 0⟩], x.Agrees y := by
    have hdiffer : (strength signal).Agrees ⟨md, background, 0⟩ :=
      fun hname => absurd hname.symm h.name_ne
    simp only [List.forall_mem_cons, List.not_mem_nil, false_implies, implies_true, and_true]
    exact ⟨⟨.refl _, hdiffer⟩, hdiffer.symm, .refl _⟩
  obtain ⟨t, htable⟩ := (Registry.exists_table_iff (r := (Registry.empty
      (some (MeasurementConfig.ofStrength : MeasurementConfig K))).enterAll
        [strength signal, ⟨md, background, 0⟩]) (o := Options.standard)).mpr
    fun e _ k _ => Entry.exists_parameter_iff.mpr <| by
      rw [Registry.settings?, Registry.enterAll_config]
      exact ModifierKind.admissible_of_unset hstandard e.kind k
  exact ⟨t, _, hstandard, List.cons_ne_nil _ _, rfl, List.nodup_singleton _, h.reads, rfl, hagree,
    htable, rfl⟩

section Built

variable {o : Options K} {t : ParameterTable K} {m : Model K}
  (h : Underlies signal background d md)
  (hm : Model.Built (ofBackground signal background d) o (some MeasurementConfig.ofStrength)
    [backgroundPlan signal background md] t m)

include h hm

/-- The parameters of a model are the signal strength and, behind it, those of the background's
modifier. -/
theorem names_and_modifiers :
    m.names = "mu" :: (List.range (md.slotsIn signal.length)).map
        (fun k => md.kind.slotName md.name k) ∧
      m.parameters.map (·.modifier) =
        "mu" :: List.replicate (md.slotsIn signal.length) md.name := by
  have hlabels := Registry.map_label_parameters hm.table
  have hdiffer : (strength signal).modifier.name ≠
      (⟨md, background, 0⟩ : Registration K).modifier.name := h.name_ne.symm
  rw [registrations_backgroundPlan, Registry.entries_pair _ hdiffer, ← hm.parameters_eq,
    List.flatMap_cons, List.flatMap_singleton] at hlabels
  have hslots : ((⟨md, background, 0⟩ : Registration K).start.join ⟨md, background, 0⟩).slots =
      md.slotsIn signal.length := by
    rw [Entry.join_slots, ← h.length_eq]
    rfl
  have hnames := congrArg (List.map (·.1)) hlabels
  have hmodifiers := congrArg (List.map (·.2.1)) hlabels
  rw [List.map_map, List.map_append, Entry.labels, Entry.labels, List.map_map, List.map_map,
    hslots] at hnames hmodifiers
  constructor
  · refine hnames.trans (congrArg (_ :: ·) (List.map_congr_left fun k _ => ?_))
    simp only [Function.comp_apply, Entry.slotName, Entry.join_kind, Entry.join_name,
      ModifierKind.slotName_eq]
    rfl
  · refine hmodifiers.trans (congrArg (_ :: ·) ?_)
    refine (List.map_congr_left fun k _ => Entry.join_name _ _).trans ?_
    rw [List.map_const', List.length_range]
    rfl

/-- The parameters of the background's modifier start behind the signal strength. -/
theorem slotOf_eq :
    m.slotOf "mu" = 0 ∧ m.slotOf md.name = 1 ∧
      m.parameters.length = 1 + md.slotsIn signal.length := by
  have hmodifiers := (h.names_and_modifiers hm).2
  have hslot : ∀ name, m.slotOf name =
      ("mu" :: List.replicate (md.slotsIn signal.length) md.name).findIdx (· == name) := by
    intro name
    rw [← hmodifiers, List.findIdx_map]
    rfl
  have hpositive : 0 < md.slotsIn signal.length := by
    unfold Modifier.slotsIn
    have hbins := List.length_pos_of_ne_nil h.signal_ne
    split <;> omega
  obtain ⟨n, hn⟩ := Nat.exists_eq_succ_of_ne_zero hpositive.ne'
  refine ⟨?_, ?_, ?_⟩
  · rw [hslot]
    rfl
  · have hne : ("mu" == md.name) = false := beq_eq_false_iff_ne.mpr h.name_ne.symm
    rw [hslot, hn, Nat.succ_eq_add_one, List.replicate_succ, List.findIdx_cons, hne, cond_false,
      List.findIdx_cons, beq_self_eq_true, cond_true]
  · have hlength := congrArg List.length hmodifiers
    rwa [List.length_map, List.length_cons, List.length_replicate, Nat.add_comm] at hlength

/-- The signal strength is the parameter of interest, and the first parameter. -/
theorem poiIndex?_eq : m.poiIndex? = some 0 := by
  have hpoi : m.poi = some "mu" := by
    rw [hm.model]
    rfl
  have hindex : ∀ name, m.index? name = m.names.findIdx? (· == name) := by
    intro name
    rw [Model.names, List.findIdx?_map]
    rfl
  rw [Model.poiIndex?, hpoi, Option.bind_some, hindex, (h.names_and_modifiers hm).1]
  rfl

/-- The yields of a bin are those of the signal, scaled by its strength, and those of the background
with the effect of its modifier. -/
theorem eval_eq {params : List K} (hparams : params.length = m.parameters.length) :
    m.yields.eval params = .ok ((List.range signal.length).map fun k => Scalar.total
      [SampleYields.yieldAt ⟨signal, [.scale 0]⟩ o.additive (fun i => params.getD i 0) k,
        SampleYields.yieldAt ⟨background, [md.effectAt o 1 background.length]⟩ o.additive
          (fun i => params.getD i 0) k]) := by
  obtain ⟨hstrength, hmodifier, -⟩ := h.slotOf_eq hm
  have hchannels : m.yields.channels =
      [(backgroundPlan signal background md).yieldsAt o m.slotOf] := by
    rw [hm.slotOf_eq, hm.model]
    rfl
  have hsamples : ((backgroundPlan signal background md).yieldsAt o m.slotOf).samples =
      [⟨signal, [.scale 0]⟩, ⟨background, [md.effectAt o 1 background.length]⟩] := by
    rw [← hstrength, ← hmodifier]
    rfl
  rw [hm.eval_eq hparams, hchannels, List.flatMap_singleton, ChannelYields.yields, hsamples]
  rfl

/-- The observed counts are background plus signal. -/
theorem observed_eq :
    m.observed (ofBackground signal background d) =
      .ok (List.zipWith (· + ·) background signal) := by
  have hlength : (List.zipWith (· + ·) background signal).length = signal.length := by
    rw [List.length_zipWith, h.length_eq, min_self]
  have hchannel : Model.observedIn (ofBackground signal background d)
      (backgroundPlan signal background md).layout =
        .ok (List.zipWith (· + ·) background signal) := by
    change (if (List.zipWith (· + ·) background signal).length ≠ signal.length then _ else _) = _
    rw [if_neg (not_not.mpr hlength)]
  unfold Model.observed
  rw [hm.layouts_eq, List.map_singleton, List.mapM_cons, hchannel]
  change Except.ok ([List.zipWith (· + ·) background signal].flatten) = _
  rw [List.flatten_singleton]

end Built

/-- A model that is built has the parts that the samples give it. -/
theorem built_of_build [Scalar.OrdersFinite K] {m : Model K}
    (h : Underlies signal background d md)
    (hstandard : (Options.standard : Options K).check = .ok ())
    (hbuild : Model.build (ofBackground signal background d) Options.standard = .ok m) :
    ∃ t, Model.Built (ofBackground signal background d) Options.standard
      (some MeasurementConfig.ofStrength) [backgroundPlan signal background md] t m := by
  obtain ⟨t, m', hm⟩ := h.exists_built hstandard
  have hsame := hbuild.symm.trans (Model.build_eq_ok_iff.mpr ⟨_, _, t, hm⟩)
  cases hsame
  exact ⟨t, hm⟩

/-- A model is built, with the signal strength as its parameter of interest and the parameters of
the background's modifier behind it. -/
theorem buildsWith [Scalar.OrdersFinite K] (h : Underlies signal background d md)
    (hstandard : (Options.standard : Options K).check = .ok ()) :
    (ofBackground signal background d).BuildsWith
      ("mu" :: (List.range (md.slotsIn signal.length)).map
        fun k => md.kind.slotName md.name k) := by
  obtain ⟨t, m, hm⟩ := h.exists_built hstandard
  exact ⟨m, Model.build_eq_ok_iff.mpr ⟨_, _, t, hm⟩, h.poiIndex?_eq hm,
    (h.names_and_modifiers hm).1⟩

end Underlies

end Workspace

namespace AdditiveCode

/-- The shift at one leads to the up histogram. -/
theorem add_shift_one (code : AdditiveCode) (lo nominal hi : ℝ) :
    nominal + code.shift lo nominal hi 1 = hi := by
  rw [shift_of_one_le_abs code (by norm_num), linear_of_nonneg zero_le_one, one_mul,
    add_sub_cancel]

/-- The shift at minus one leads to the down histogram. -/
theorem add_shift_neg_one (code : AdditiveCode) (lo nominal hi : ℝ) :
    nominal + code.shift lo nominal hi (-1) = lo := by
  rw [shift_of_one_le_abs code (by norm_num), linear_of_nonpos (by norm_num), neg_one_mul, neg_sub,
    add_sub_cancel]

end AdditiveCode

namespace SampleYields

variable {nominal : List ℝ} {code : AdditiveCode} {p : ℕ → ℝ} {k slot : ℕ}

/-- A sample under one factor of all bins is multiplied by it. -/
theorem yieldAt_scale :
    yieldAt ⟨nominal, [.scale slot]⟩ code p k = p slot * nominal.getD k 0 := by
  change (nominal.getD k 0 + 0) * (1 * p slot) = _
  rw [add_zero, one_mul, mul_comm]

/-- A sample under a factor per bin is multiplied by that of the bin. -/
theorem yieldAt_scaleBins {bins : ℕ} (hk : k < bins) :
    yieldAt ⟨nominal, [.scaleBins (List.range' slot bins)]⟩ code p k =
      p (slot + k) * nominal.getD k 0 := by
  have hfactor : Effect.factorAt? p k (.scaleBins (List.range' slot bins)) =
      some (p (slot + k)) := by
    rw [Effect.factorAt?, List.getElem?_range' hk, Nat.one_mul, Option.map_some]
  unfold yieldAt
  rw [List.filterMap_cons_some hfactor]
  change (nominal.getD k 0 + 0) * (1 * p (slot + k)) = _
  rw [add_zero, one_mul, mul_comm]

/-- A sample under a shift is moved by it. -/
theorem yieldAt_morph {lo hi : List ℝ} :
    yieldAt ⟨nominal, [.morph slot lo hi]⟩ code p k = nominal.getD k 0 +
      code.shift (lo.getD k 0) (nominal.getD k 0) (hi.getD k 0) (p slot) := by
  change (nominal.getD k 0 + (0 + code.shift _ _ _ _)) * 1 = _
  rw [zero_add, mul_one]

end SampleYields

namespace Workspace.Underlies

variable {signal background : List ℝ} {d : Declaration ℝ} {md : Modifier ℝ} {o : Options ℝ}
  {t : ParameterTable ℝ} {m : Model ℝ}

/-- With uncertainties per bin the background of a bin is multiplied by the factor of the bin. -/
theorem eval_shapesys {name : String} {delta : List ℝ}
    (h : Underlies signal background d ⟨name, .shapesys delta⟩)
    (hm : Model.Built (ofBackground signal background d) o (some MeasurementConfig.ofStrength)
      [backgroundPlan signal background ⟨name, .shapesys delta⟩] t m) (μ : ℝ) {γ : List ℝ}
    (hγ : γ.length = signal.length) :
    m.yields.eval (μ :: γ) = .ok ((List.range signal.length).map fun k =>
      μ * signal.getD k 0 + γ.getD k 0 * background.getD k 0) := by
  have hparams : (μ :: γ).length = m.parameters.length := by
    rw [(h.slotOf_eq hm).2.2, List.length_cons, hγ, Nat.add_comm]
    rfl
  rw [h.eval_eq hm hparams]
  refine congrArg _ (List.map_congr_left fun k hk => ?_)
  have hbin : k < background.length := by
    rw [h.length_eq]
    exact List.mem_range.mp hk
  change Scalar.total [_, SampleYields.yieldAt ⟨background,
    [.scaleBins (List.range' 1 background.length)]⟩ _ _ k] = _
  rw [SampleYields.yieldAt_scale, SampleYields.yieldAt_scaleBins hbin, Scalar.total_eq_sum,
    List.sum_pair, Nat.add_comm, List.getD_cons_zero, List.getD_cons_succ]

/-- With two varied histograms the background of a bin is moved between them. -/
theorem eval_histosys {name : String} {lo hi : List ℝ}
    (h : Underlies signal background d ⟨name, .histosys lo hi⟩)
    (hm : Model.Built (ofBackground signal background d) o (some MeasurementConfig.ofStrength)
      [backgroundPlan signal background ⟨name, .histosys lo hi⟩] t m) (μ α : ℝ) :
    m.yields.eval [μ, α] = .ok ((List.range signal.length).map fun k =>
      μ * signal.getD k 0 + (background.getD k 0 +
        o.additive.shift (lo.getD k 0) (background.getD k 0) (hi.getD k 0) α)) := by
  have hparams : [μ, α].length = m.parameters.length := by
    rw [(h.slotOf_eq hm).2.2]
    rfl
  rw [h.eval_eq hm hparams]
  refine congrArg _ (List.map_congr_left fun k _ => ?_)
  change Scalar.total [_, SampleYields.yieldAt ⟨background, [.morph 1 lo hi]⟩ _ _ k] = _
  rw [SampleYields.yieldAt_scale, SampleYields.yieldAt_morph, Scalar.total_eq_sum, List.sum_pair]
  rfl

/-- Where a model starts it expects the observed counts, if the interval of the options is not a
single point. -/
theorem eval_inits (h : Underlies signal background d md)
    (hm : Model.Built (ofBackground signal background d) o (some MeasurementConfig.ofStrength)
      [backgroundPlan signal background md] t m)
    (hinterval : ¬ Scalar.Agrees o.freeInterval.1 o.freeInterval.2) :
    m.yields.eval m.inits = m.observed (ofBackground signal background d) := by
  have hbins : (List.range signal.length).map
      (fun k => Scalar.total [signal.getD k 0, background.getD k 0]) =
        List.zipWith (· + ·) background signal := by
    refine List.ext_getElem (by simp [h.length_eq]) fun k hk hk' => ?_
    have hsignal : k < signal.length := by simpa using hk
    have hbackground : k < background.length := h.length_eq ▸ hsignal
    rw [List.getElem_map, List.getElem_range, List.getElem_zipWith, Scalar.total_eq_sum,
      List.sum_pair, List.getD_eq_getElem _ _ hsignal, List.getD_eq_getElem _ _ hbackground,
      add_comm]
  rw [h.observed_eq hm, hm.inits_eq_of_unset (fun _ => rfl) hinterval, hm.eval_neutralPoint_eq,
    ← hbins]
  exact congrArg Except.ok (List.append_nil _)

end Workspace.Underlies

namespace Workspace

/-- A background with independent uncertainties is made exactly if it and its uncertainties have as
many bins as the signal, which has some. -/
theorem uncorrelatedBackground_eq_ok_iff {signal background uncertainty : List K}
    {ws : Workspace K} :
    uncorrelatedBackground signal background uncertainty = .ok ws ↔
      (signal ≠ [] ∧ background.length = signal.length ∧ uncertainty.length = signal.length) ∧
        ws = ofBackground signal background (.shapesys "uncorr_bkguncrt" uncertainty) := by
  unfold uncorrelatedBackground
  rw [map_const_eq_ok_iff, checkHistograms_eq_ok_iff]
  simp only [List.forall_mem_cons, List.not_mem_nil, false_implies, implies_true, and_true]

/-- A background that varies between two histograms is made exactly if it and the two histograms
have as many bins as the signal, which has some. -/
theorem correlatedBackground_eq_ok_iff {signal background up down : List K} {ws : Workspace K} :
    correlatedBackground signal background up down = .ok ws ↔
      (signal ≠ [] ∧ background.length = signal.length ∧ up.length = signal.length ∧
        down.length = signal.length) ∧
        ws = ofBackground signal background (.histosys "corr_bkguncrt" down up) := by
  unfold correlatedBackground
  rw [map_const_eq_ok_iff, checkHistograms_eq_ok_iff]
  simp only [List.forall_mem_cons, List.not_mem_nil, false_implies, implies_true, and_true]

/-- Finite uncertainties of as many bins as the signal are the modifier of the background. -/
theorem underlies_shapesys {signal background uncertainty : List K} (hsignal : signal ≠ [])
    (hbackground : background.length = signal.length)
    (huncertainty : uncertainty.length = signal.length)
    (hfinite : ∀ x ∈ uncertainty, Scalar.isFinite x = true) :
    Underlies signal background (.shapesys "uncorr_bkguncrt" uncertainty)
      ⟨"uncorr_bkguncrt", .shapesys uncertainty⟩ where
  signal_ne := hsignal
  length_eq := hbackground
  stated :=
    (Declaration.Declares.shapesys uncertainty).stated hfinite (huncertainty.trans hbackground.symm)
  name_ne := by simp

/-- Two finite histograms of as many bins as the signal are the modifier of the background. -/
theorem underlies_histosys {signal background up down : List K} (hsignal : signal ≠ [])
    (hbackground : background.length = signal.length) (hup : up.length = signal.length)
    (hdown : down.length = signal.length) (hfinite : ∀ x ∈ up, Scalar.isFinite x = true)
    (hfinite' : ∀ x ∈ down, Scalar.isFinite x = true) :
    Underlies signal background (.histosys "corr_bkguncrt" down up)
      ⟨"corr_bkguncrt", .histosys down up⟩ where
  signal_ne := hsignal
  length_eq := hbackground
  stated :=
    (Declaration.Declares.histosys down up).stated (List.forall_mem_append.mpr ⟨hfinite', hfinite⟩)
      ⟨hdown.trans hbackground.symm, hup.trans hbackground.symm⟩
  name_ne := by simp

/-- The ready-made workspaces are refused exactly if the signal has no bin or one of the other
histograms has another number of bins. From each of them with finite variations a model is built;
its first parameter is the signal strength, which is the parameter of interest, and behind it stand
a factor per bin or the one parameter between the two histograms. Over the real numbers the yield of
a bin is the signal times its strength plus the background, times its factor or moved by the smooth
shift, which leads to the up histogram at one and to the down histogram at minus one; and the model
expects the observed counts, background plus signal, where it starts. -/
theorem single_channel_models :
    (∀ (K : Type) [Scalar K] [Scalar.OrdersFinite K],
      (Options.standard : Options K).check = .ok () →
      ∀ signal background uncertainty up down : List K,
      ((∃ f, uncorrelatedBackground signal background uncertainty = .error f) ↔
        signal = [] ∨ background.length ≠ signal.length ∨
          uncertainty.length ≠ signal.length) ∧
      ((∃ f, correlatedBackground signal background up down = .error f) ↔
        signal = [] ∨ background.length ≠ signal.length ∨ up.length ≠ signal.length ∨
          down.length ≠ signal.length) ∧
      (∀ ws, uncorrelatedBackground signal background uncertainty = .ok ws →
        (∀ x ∈ uncertainty, Scalar.isFinite x = true) →
        ws.BuildsWith ("mu" :: (List.range signal.length).map
          fun k => "uncorr_bkguncrt[" ++ toString k ++ "]")) ∧
      ∀ ws, correlatedBackground signal background up down = .ok ws →
        (∀ x ∈ up, Scalar.isFinite x = true) → (∀ x ∈ down, Scalar.isFinite x = true) →
        ws.BuildsWith ["mu", "corr_bkguncrt"]) ∧
    ∀ (signal background uncertainty up down : List ℝ) (ws : Workspace ℝ) (m : Model ℝ),
      Model.build ws Options.standard = .ok m →
      (uncorrelatedBackground signal background uncertainty = .ok ws →
        (∀ μ γ, γ.length = signal.length →
          m.yields.eval (μ :: γ) = .ok ((List.range signal.length).map fun k =>
            μ * signal.getD k 0 + γ.getD k 0 * background.getD k 0)) ∧
        m.yields.eval m.inits = m.observed ws ∧
        m.observed ws = .ok (List.zipWith (· + ·) background signal)) ∧
      (correlatedBackground signal background up down = .ok ws →
        (∀ μ α, m.yields.eval [μ, α] = .ok ((List.range signal.length).map fun k =>
          μ * signal.getD k 0 + (background.getD k 0 + AdditiveCode.code4p.shift
            (down.getD k 0) (background.getD k 0) (up.getD k 0) α))) ∧
        (∀ μ, m.yields.eval [μ, 1] = .ok ((List.range signal.length).map fun k =>
          μ * signal.getD k 0 + up.getD k 0)) ∧
        (∀ μ, m.yields.eval [μ, -1] = .ok ((List.range signal.length).map fun k =>
          μ * signal.getD k 0 + down.getD k 0)) ∧
        m.yields.eval m.inits = m.observed ws ∧
        m.observed ws = .ok (List.zipWith (· + ·) background signal)) := by
  constructor
  · intro K _ _ hstandard signal background uncertainty up down
    refine ⟨?_, ?_, fun ws hws hfinite => ?_, fun ws hws hup hdown => ?_⟩
    · rw [exists_error_iff fun _ => uncorrelatedBackground_eq_ok_iff]
      simp only [not_and_or, not_not, ne_eq]
    · rw [exists_error_iff fun _ => correlatedBackground_eq_ok_iff]
      simp only [not_and_or, not_not, ne_eq]
    · obtain ⟨⟨hsignal, hbackground, huncertainty⟩, rfl⟩ :=
        uncorrelatedBackground_eq_ok_iff.mp hws
      exact (underlies_shapesys hsignal hbackground huncertainty hfinite).buildsWith hstandard
    · obtain ⟨⟨hsignal, hbackground, hup', hdown'⟩, rfl⟩ :=
        correlatedBackground_eq_ok_iff.mp hws
      exact (underlies_histosys hsignal hbackground hup' hdown' hup hdown).buildsWith hstandard
  · intro signal background uncertainty up down ws m hbuild
    have hinterval : ¬ Scalar.Agrees (Options.standard : Options ℝ).freeInterval.1
        (Options.standard : Options ℝ).freeInterval.2 := by
      intro h
      have hle : ((10 : ℕ) : ℝ) ≤ 0 := h.2
      norm_num at hle
    refine ⟨fun hws => ?_, fun hws => ?_⟩
    · obtain ⟨⟨hsignal, hbackground, huncertainty⟩, rfl⟩ :=
        uncorrelatedBackground_eq_ok_iff.mp hws
      have h := underlies_shapesys hsignal hbackground huncertainty fun _ _ => rfl
      obtain ⟨t, hm⟩ := h.built_of_build Options.check_standard hbuild
      exact ⟨fun μ γ hγ => h.eval_shapesys hm μ hγ, h.eval_inits hm hinterval,
        h.observed_eq hm⟩
    · obtain ⟨⟨hsignal, hbackground, hup, hdown⟩, rfl⟩ :=
        correlatedBackground_eq_ok_iff.mp hws
      have h := underlies_histosys hsignal hbackground hup hdown (fun _ _ => rfl) fun _ _ => rfl
      obtain ⟨t, hm⟩ := h.built_of_build Options.check_standard hbuild
      refine ⟨h.eval_histosys hm, fun μ => ?_, fun μ => ?_, h.eval_inits hm hinterval,
        h.observed_eq hm⟩
      · rw [h.eval_histosys hm]
        refine congrArg _ (List.map_congr_left fun k _ => ?_)
        rw [AdditiveCode.add_shift_one]
      · rw [h.eval_histosys hm]
        refine congrArg _ (List.map_congr_left fun k _ => ?_)
        rw [AdditiveCode.add_shift_neg_one]

/-- Two bins of a signal over a background that is negative in the second one, where it has no
uncertainty: from doubles a model is built, and over the real numbers the model expects the sum of
both where it starts, and the varied backgrounds without the signal. -/
theorem single_channel_two_bins :
    (∃ ws : Workspace Float, uncorrelatedBackground [5, 10] [50, -60] [7, 0] = .ok ws ∧
      ws.BuildsWith ["mu", "uncorr_bkguncrt[0]", "uncorr_bkguncrt[1]"]) ∧
    (∃ ws m, uncorrelatedBackground [5, 10] [50, -60] [7, (0 : ℝ)] = .ok ws ∧
      Model.build ws Options.standard = .ok m ∧
      m.yields.eval [2, 3, 1] = .ok [160, -40] ∧ m.yields.eval m.inits = .ok [55, -50]) ∧
    ∃ ws m, correlatedBackground [5, 10] [50, -60] [57, -50] [45, (-80 : ℝ)] = .ok ws ∧
      Model.build ws Options.standard = .ok m ∧
      m.yields.eval [0, 1] = .ok [57, -50] ∧ m.yields.eval [0, -1] = .ok [45, -80] ∧
      m.yields.eval m.inits = .ok [55, -50] := by
  obtain ⟨hbuilds, hreal⟩ := single_channel_models
  refine ⟨⟨_, rfl, ?_⟩, ?_, ?_⟩
  · exact (hbuilds Float (by decide) [5, 10] [50, -60] [7, 0] [] []).2.2.1 _ rfl (by decide)
  · obtain ⟨-, -, huncorrelated, -⟩ :=
      hbuilds ℝ Options.check_standard [5, 10] [50, -60] [7, 0] [] []
    obtain ⟨m, hbuild, -, -⟩ := huncorrelated _ rfl fun _ _ => rfl
    obtain ⟨heval, hinits, hobserved⟩ :=
      (hreal [5, 10] [50, -60] [7, 0] [] [] _ m hbuild).1 rfl
    refine ⟨_, m, rfl, hbuild, (heval 2 [3, 1] rfl).trans ?_, (hinits.trans hobserved).trans ?_⟩
    · norm_num [List.range_succ]
    · norm_num
  · obtain ⟨-, -, -, hcorrelated⟩ :=
      hbuilds ℝ Options.check_standard [5, 10] [50, -60] [] [57, -50] [45, -80]
    obtain ⟨m, hbuild, -, -⟩ := hcorrelated _ rfl (fun _ _ => rfl) fun _ _ => rfl
    obtain ⟨-, hup, hdown, hinits, hobserved⟩ :=
      (hreal [5, 10] [50, -60] [] [57, -50] [45, -80] _ m hbuild).2 rfl
    refine ⟨_, m, rfl, hbuild, (hup 0).trans ?_, (hdown 0).trans ?_,
      (hinits.trans hobserved).trans ?_⟩
    · norm_num [List.range_succ]
    · norm_num [List.range_succ]
    · norm_num

end Workspace

end BinnedModel
