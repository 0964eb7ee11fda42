import Mathlib
import BinnedModel.Proofs.Likelihood.Parts
import BinnedModel.Proofs.Model.Frame

/-!
# Likelihoods of a built model

A likelihood can fail for three reasons: the vector of parameters has the wrong length, the
expected and the observed counts differ in number, or a prior refuses its parameter. Over a
model that has been built only the first one is left. The observed counts of a workspace are
collected channel by channel over the layout that also orders the yields, and every prior of
a table has passed the check of its kind, which is at least as strict as the one that its
density makes. So a likelihood is defined exactly at the vectors of the right length, and so
are its gradient, whose shifted points keep the length, and its values at many points.
-/

namespace BinnedModel

variable {K : Type} [Scalar K]

/-- A prior that one of the checks on Gaussian and flat priors has let through. -/
def Prior.Checked (p : Prior K) : Prop :=
  (∃ mu sigma, Prior.mkNormal mu sigma = .ok p) ∨ ∃ a b, Prior.mkFlat a b = .ok p

/-- A prior that has passed its check has a logarithmic density at every parameter. -/
theorem Prior.Checked.exists_logDensity {p : Prior K} (h : p.Checked) (x : K) :
    ∃ density, p.logDensity x = .ok density := by
  rcases h with ⟨mu, sigma, hnormal⟩ | ⟨a, b, hflat⟩
  · unfold mkNormal at hnormal
    split at hnormal
    · cases hnormal
    · split at hnormal
      · cases hnormal
      · next hwidth =>
        cases hnormal
        unfold logDensity
        dsimp only
        rw [if_neg hwidth]
        exact ⟨_, rfl⟩
  · unfold mkFlat at hflat
    split at hflat
    · cases hflat
    · cases hflat
      exact ⟨0, rfl⟩

/-- The prior of each kind has passed a check. -/
theorem Entry.prior_checked {e : Entry K} {settings : Option (ParameterConfig K)}
    {o : Options K} {k : ℕ} {p : Prior K} (h : e.prior settings o k = .ok p) : p.Checked := by
  have hfree : freePrior settings o k = .ok p → p.Checked := fun hp => .inr ⟨_, _, hp⟩
  unfold prior at h
  dsimp only at h
  split at h
  · exact hfree h
  · exact hfree h
  · exact .inl ⟨_, _, h⟩
  · exact .inl ⟨_, _, h⟩
  · split at h
    · exact .inl ⟨_, _, h⟩
    · exact .inr ⟨_, _, h⟩
  · split at h
    · exact .inl ⟨_, _, h⟩
    · exact .inr ⟨_, _, h⟩
  · split at h
    · exact .inl ⟨_, _, h⟩
    · exact hfree h

/-- The prior of a parameter has passed a check, also where the settings pin it. -/
theorem Entry.parameter_checked {e : Entry K} {settings : Option (ParameterConfig K)}
    {o : Options K} {k : ℕ} {p : Parameter K} (h : e.parameter settings o k = .ok p) :
    p.prior.Checked := by
  obtain ⟨prior, hprior, hcase⟩ := parameter_eq_ok_iff.mp h
  rcases hcase with ⟨-, pinned, hpinned, rfl⟩ | ⟨-, rfl⟩
  · exact .inr ⟨_, _, hpinned⟩
  · exact prior_checked hprior

namespace Likelihood

/-- Checked priors add their densities without a fault. -/
theorem exists_addDensities {xs : List (Prior K × K)} (h : ∀ x ∈ xs, x.1.Checked) (sum : K) :
    ∃ value, addDensities xs sum = .ok value := by
  induction xs generalizing sum with
  | nil => exact ⟨sum, rfl⟩
  | cons x xs ih =>
    have hfirst : x.1.Checked := h x List.mem_cons_self
    obtain ⟨density, hdensity⟩ := hfirst.exists_logDensity x.2
    unfold addDensities
    rw [hdensity]
    exact ih (fun y hy => h y (List.mem_cons_of_mem x hy)) (sum + density)

/-- A likelihood fits a number of parameters: its yields ask for this number, have one
entry per observed count then and report the lengths else, and its priors, if it has any,
are checked and of this number. -/
structure Fits (l : Likelihood K) (n : ℕ) : Prop where
  /-- The yields ask for the number of parameters. -/
  parameters : l.yields.parameters = n
  /-- At a vector of this length there is one yield per observed count. -/
  expected : ∀ params : List K, params.length = n → ∃ values,
    l.yields.expected params = .ok values ∧ values.length = l.observed.length
  /-- At a vector of another length the lengths are reported. -/
  mismatch : ∀ params : List K, params.length ≠ n →
    l.yields.expected params = .error (.parameterCountMismatch n params.length)
  /-- There is one prior per parameter. -/
  priors : ∀ ps, l.priors = some ps → ps.length = n
  /-- The priors have passed their checks. -/
  checked : ∀ p ∈ l.priors.getD [], p.Checked

namespace Fits

variable {l : Likelihood K} {n : ℕ} {params : List K}

/-- At a vector of the right length a likelihood is defined. -/
theorem exists_eval (h : l.Fits n) (hparams : params.length = n) :
    ∃ value, l.eval params = .ok value := by
  have hcounts : ∀ ps, l.priors = some ps → params.length = ps.length :=
    fun ps hps => hparams.trans (h.priors ps hps).symm
  obtain ⟨values, hvalues, hlength⟩ := h.expected params hparams
  have hchecked : ∀ x ∈ (l.priors.getD []).zip params, x.1.Checked :=
    fun x hx => h.checked x.1 (List.of_mem_zip hx).1
  obtain ⟨value, hvalue⟩ := exists_addDensities hchecked (dataTerm l.observed values)
  exact ⟨value, (eval_eq_ok_iff hvalues).mpr ⟨hcounts, hlength, hvalue⟩⟩

/-- At a vector of another length a likelihood reports the lengths, to its priors first. -/
theorem eval_eq_error (h : l.Fits n) (hparams : params.length ≠ n) :
    l.eval params = .error (if l.isConstrained then
      .dimensionMismatch .parametersToPriors n params.length
      else .parameterCountMismatch n params.length) := by
  have hmismatch := h.mismatch params hparams
  unfold eval checkParameters isConstrained
  cases hps : l.priors with
  | none =>
    dsimp only
    rw [hmismatch]
    rfl
  | some ps =>
    have hlength := h.priors ps hps
    dsimp only
    rw [hlength, if_pos hparams]
    rfl

/-- A likelihood is defined exactly at the vectors of the right length. -/
theorem exists_eval_iff (h : l.Fits n) :
    (∃ value, l.eval params = .ok value) ↔ params.length = n := by
  constructor
  · intro hvalue
    obtain ⟨value, hvalue⟩ := hvalue
    by_contra hne
    rw [h.eval_eq_error hne] at hvalue
    cases hvalue
  · exact h.exists_eval

/-- At a vector of the right length there is a central difference with respect to each
parameter, because both shifted vectors have this length. -/
theorem exists_slope (h : l.Fits n) (hparams : params.length = n) (i : ℕ) :
    ∃ slope, l.slope params i = .ok slope := by
  have hshifted : ∀ x : K, ∃ value, l.eval (params.set i x) = .ok value := by
    intro x
    exact h.exists_eval (List.length_set.trans hparams)
  obtain ⟨above, habove⟩ := hshifted (params.getD i 0 + stepAt (params.getD i 0))
  obtain ⟨below, hbelow⟩ := hshifted (params.getD i 0 - stepAt (params.getD i 0))
  unfold slope
  dsimp only
  rw [habove, hbelow]
  exact ⟨_, rfl⟩

/-- At a vector of the right length the gradient has one entry per parameter. -/
theorem exists_gradient (h : l.Fits n) (hparams : params.length = n) :
    ∃ slopes, l.gradient params = .ok slopes ∧ slopes.length = n := by
  have hcount : params.length = l.yields.parameters := hparams.trans h.parameters.symm
  obtain ⟨slopes, hslopes⟩ := exists_mapM_eq_ok_iff.mpr
    fun i (_ : i ∈ List.range params.length) => h.exists_slope hparams i
  refine ⟨slopes, ?_, ?_⟩
  · rw [gradient, if_neg (not_not.mpr hcount), hslopes]
  · rw [← (mapM_eq_ok_iff.mp hslopes).length_eq, List.length_range, hparams]

/-- At a vector of another length the gradient reports the lengths. -/
theorem gradient_eq_error (h : l.Fits n) (hparams : params.length ≠ n) :
    l.gradient params = .error (.parameterCountMismatch n params.length) := by
  rw [gradient, h.parameters, if_pos hparams]

/-- A likelihood is defined at many points exactly if all of them have the right length;
then its values are those at the points, in their order. -/
theorem evalMany_iff (h : l.Fits n) (points : List (List K)) :
    ((∃ values, l.evalMany points = .ok values) ↔ ∀ p ∈ points, p.length = n) ∧
      ∀ values, l.evalMany points = .ok values → points.map l.eval = values.map .ok := by
  constructor
  · unfold evalMany
    rw [exists_mapM_eq_ok_iff]
    exact forall₂_congr fun p _ => h.exists_eval_iff
  · intro values hvalues
    exact map_eq_map_of_forall₂ (mapM_eq_ok_iff.mp hvalues)

end Fits

end Likelihood

omit [Scalar K] in
/-- The observed counts of a channel are as many as its bins. -/
theorem Model.length_of_observedIn {ws : Workspace K} {c : ChannelLayout} {data : List K}
    (h : Model.observedIn ws c = .ok data) : data.length = c.bins := by
  unfold observedIn at h
  split at h
  · cases h
  · split at h
    · cases h
    · next hlength =>
      cases h
      exact not_not.mp hlength

namespace Model.Built

variable {ws : Workspace K} {o : Options K} {config : Option (MeasurementConfig K)}
  {plans : List (ChannelPlan K)} {t : ParameterTable K} {m : Model K}

/-- The observed counts for a model are as many as its bins. -/
theorem length_observed (h : Model.Built ws o config plans t m) {ws' : Workspace K}
    {observed : List K} (hobserved : m.observed ws' = .ok observed) :
    observed.length = m.bins := by
  have hbins : m.bins = blockTotal (plans.map (·.bins)) := by
    rw [h.model]
    rfl
  obtain ⟨data, hdata, rfl⟩ := map_eq_ok_iff.mp hobserved
  have hlengths : m.channels.map (·.bins) = data.map List.length :=
    map_eq_map_of_forall₂ ((mapM_eq_ok_iff.mp hdata).imp
      fun _ _ hc => (Model.length_of_observedIn hc).symm)
  rw [List.length_flatten, ← hlengths, hbins, blockTotal_eq_sum, h.layouts_eq, List.map_map]
  rfl

/-- The priors of a model have passed their checks. -/
theorem checked_of_mem_priors (h : Model.Built ws o config plans t m) {p : Prior K}
    (hp : p ∈ m.priors) : p.Checked := by
  obtain ⟨q, hq, rfl⟩ := List.mem_map.mp hp
  rw [h.parameters_eq] at hq
  obtain ⟨e, -, k, -, hparameter⟩ := Registry.exists_parameter_of_mem h.table hq
  exact Entry.parameter_checked hparameter

/-- Without priors or with those of the model, the likelihood of as many counts as there are
bins fits the parameters of the model. -/
theorem likelihood_fits (h : Model.Built ws o config plans t m) {observed : List K}
    (hobserved : observed.length = m.bins) {priors : Option (List (Prior K))}
    (hpriors : ∀ ps, priors = some ps → ps = m.priors) :
    Likelihood.Fits ⟨m.yields.toMap, observed, priors⟩ m.parameters.length := by
  have hcount : m.yields.parameters = m.parameters.length := by rw [h.model]
  refine ⟨hcount, fun params hparams => ?_, fun params hparams => ?_, fun ps hps => ?_,
    fun p hp => ?_⟩
  · refine ⟨_, h.eval_eq hparams, ?_⟩
    rw [h.length_yields, hobserved, h.bins_total]
  · change m.yields.eval params = _
    rw [YieldFunction.eval, hcount, if_pos hparams]
  · rw [hpriors ps hps]
    exact List.length_map _
  · cases priors with
    | none => cases hp
    | some ps =>
      rw [hpriors ps rfl] at hp
      exact h.checked_of_mem_priors hp

end Model.Built

/-- Over a model that has been built and the observed counts that a workspace has for it,
both likelihoods exist, the one of the counts alone and the one with the priors of the model.
They are defined at every vector with one entry per parameter, where their gradients have one
entry per parameter too. At any other vector they report the lengths, the one with priors
compares with these first. At many points they are defined exactly if all points have one
entry per parameter, and then have the values at the points in their order. -/
theorem Likelihood.defined_iff_wellSized {ws : Workspace K} {o : Options K} {m : Model K}
    {observed : List K} (hbuild : Model.build ws o = .ok m)
    (hobserved : m.observed ws = .ok observed) :
    ∃ counts constrained, Likelihood.ofCounts m.yields.toMap observed = .ok counts ∧
      Likelihood.withPriors m.yields.toMap observed m.priors = .ok constrained ∧
      (∀ params : List K, params.length = m.parameters.length →
        ∀ l ∈ [counts, constrained], (∃ value, l.eval params = .ok value) ∧
          ∃ slopes, l.gradient params = .ok slopes ∧ slopes.length = m.parameters.length) ∧
      (∀ params : List K, params.length ≠ m.parameters.length →
        counts.eval params =
          .error (.parameterCountMismatch m.parameters.length params.length) ∧
        constrained.eval params =
          .error (.dimensionMismatch .parametersToPriors m.parameters.length params.length) ∧
        ∀ l ∈ [counts, constrained], l.gradient params =
          .error (.parameterCountMismatch m.parameters.length params.length)) ∧
      ∀ l ∈ [counts, constrained], ∀ points : List (List K),
        ((∃ values, l.evalMany points = .ok values) ↔
          ∀ p ∈ points, p.length = m.parameters.length) ∧
        ∀ values, l.evalMany points = .ok values → points.map l.eval = values.map .ok := by
  obtain ⟨config, plans, t, hbuilt⟩ := Model.build_eq_ok_iff.mp hbuild
  have hbins : observed.length = m.yields.toMap.bins := hbuilt.length_observed hobserved
  have hpriors : m.priors.length = m.yields.toMap.parameters := by
    change m.priors.length = m.yields.parameters
    rw [Model.priors, List.length_map, hbuilt.model]
  have hcounts : Likelihood.Fits ⟨m.yields.toMap, observed, none⟩ m.parameters.length :=
    hbuilt.likelihood_fits hbins fun ps hps => by cases hps
  have hconstrained : Likelihood.Fits ⟨m.yields.toMap, observed, some m.priors⟩
      m.parameters.length :=
    hbuilt.likelihood_fits hbins fun ps hps => (Option.some.inj hps).symm
  have hboth : ∀ l ∈ [(⟨m.yields.toMap, observed, none⟩ : Likelihood K),
      ⟨m.yields.toMap, observed, some m.priors⟩], l.Fits m.parameters.length := by
    intro l hl
    rcases List.mem_pair.mp hl with rfl | rfl
    · exact hcounts
    · exact hconstrained
  refine ⟨⟨m.yields.toMap, observed, none⟩, ⟨m.yields.toMap, observed, some m.priors⟩, ?_, ?_,
    fun params hparams l hl => ?_, fun params hparams => ?_, fun l hl points => ?_⟩
  · rw [Likelihood.ofCounts, if_neg (not_not.mpr hbins)]
  · rw [Likelihood.withPriors, if_neg (not_not.mpr hbins), if_neg (not_not.mpr hpriors)]
  · exact ⟨(hboth l hl).exists_eval hparams, (hboth l hl).exists_gradient hparams⟩
  · refine ⟨hcounts.eval_eq_error hparams, hconstrained.eval_eq_error hparams, fun l hl => ?_⟩
    exact (hboth l hl).gradient_eq_error hparams
  · exact (hboth l hl).evalMany_iff points

/-- The two regions with observed counts, in another order than the channels. -/
def Workspace.observedRegions : Workspace Float :=
  { Workspace.twoRegions with
    observations := [⟨"control region", [104]⟩, ⟨"signal region", [44, 52]⟩] }

/-- The observed regions have a model and three observed counts for it. The likelihood with
priors is defined at the starting values, the one without refuses the empty vector, and of
two points neither one has a value if the second one is empty. -/
theorem Likelihood.defined_observedRegions :
    ∃ m observed, Model.build Workspace.observedRegions Options.standard = .ok m ∧
      m.observed Workspace.observedRegions = .ok observed ∧ ∃ counts constrained,
        Likelihood.ofCounts m.yields.toMap observed = .ok counts ∧
        Likelihood.withPriors m.yields.toMap observed m.priors = .ok constrained ∧
        (∃ value, constrained.eval m.inits = .ok value) ∧
        counts.eval [] = .error (.parameterCountMismatch 8 0) ∧
        ¬ ∃ values, constrained.evalMany [m.inits, []] = .ok values := by
  have hcount : ((Model.build Workspace.observedRegions Options.standard).toOption.bind fun m =>
      (m.observed Workspace.observedRegions).toOption.map fun observed =>
        (m.parameters.length, observed.length)) = some (8, 3) := by decide +kernel
  obtain ⟨m, hm, hobserved⟩ := Option.bind_eq_some_iff.mp hcount
  obtain ⟨observed, hobserved, hlengths⟩ := Option.map_eq_some_iff.mp hobserved
  have hbuild := toOption_eq_some_iff.mp hm
  have hdata := toOption_eq_some_iff.mp hobserved
  have hparameters : m.parameters.length = 8 := congrArg Prod.fst hlengths
  have hinits : m.inits.length = m.parameters.length := List.length_map _
  have hempty : ([] : List Float).length ≠ m.parameters.length := by
    rw [hparameters]
    decide
  obtain ⟨counts, constrained, hcounts, hconstrained, hdefined, hrefused, hmany⟩ :=
    Likelihood.defined_iff_wellSized hbuild hdata
  have heval := (hdefined m.inits hinits constrained (by simp)).1
  have hzero := (hrefused [] hempty).1
  rw [hparameters] at hzero
  refine ⟨m, observed, hbuild, hdata, counts, constrained, hcounts, hconstrained, heval, hzero,
    fun hvalues => ?_⟩
  have hall := (hmany constrained (by simp) [m.inits, []]).1.mp hvalues
  exact hempty (hall [] (by simp))

end BinnedModel
