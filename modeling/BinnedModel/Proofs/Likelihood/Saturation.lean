import Mathlib
import BinnedModel.Proofs.Likelihood.Parts
import BinnedModel.Proofs.Sequence

/-!
# Saturation

Over the real numbers no choice of yields and parameters makes a likelihood greater than that of a
saturated model, which expects in every bin what was observed there, with all constrained
parameters at their centres. In one bin this is the inequality `log x ≤ x - 1`, for one Gaussian it
says that a square is not negative, and each of the two is strict except at the observed count or
the centre. So a likelihood reaches the bound only if all bins and all Gaussians do.
-/

namespace BinnedModel

/-- If no term is above its bound, the sum is not above the sum of the bounds, and it is equal to it
only if every term is equal to its bound. -/
theorem sum_le_sum_with_equality {α : Type} {xs : List α} {f g : α → ℝ}
    (h : ∀ x ∈ xs, f x ≤ g x) :
    (xs.map f).sum ≤ (xs.map g).sum ∧
      ((xs.map f).sum = (xs.map g).sum ↔ ∀ x ∈ xs, f x = g x) := by
  refine ⟨List.sum_le_sum h, fun heq x hx => ?_, fun hall => ?_⟩
  · by_contra hne
    have hlt := List.sum_lt_sum f g h ⟨x, hx, (h x hx).lt_of_ne hne⟩
    exact hlt.ne heq
  · rw [List.map_congr_left hall]

namespace Poisson

variable {x rate : ℝ}

/-- The data term of a bin is greatest where the rate is the observed count, and only there. -/
theorem kernel_le_saturated (hx : 0 ≤ x) (hrate : 0 ≤ rate) (hpos : 0 < x → 0 < rate) :
    kernel x rate ≤ x * Real.log x - x ∧
      (kernel x rate = x * Real.log x - x ↔ rate = x) := by
  rcases hx.lt_or_eq with hfilled | rfl
  · have hrate' : 0 < rate := hpos hfilled
    have hratio : 0 < rate / x := div_pos hrate' hfilled
    have hlog : x * Real.log (rate / x) = x * Real.log rate - x * Real.log x := by
      rw [Real.log_div hrate'.ne' hfilled.ne', mul_sub]
    have hcancel : x * (rate / x - 1) = rate - x := by
      rw [mul_sub, mul_div_cancel₀ rate hfilled.ne', mul_one]
    rw [kernel_filled hfilled]
    rcases eq_or_ne rate x with rfl | hne
    · exact ⟨le_rfl, iff_of_true rfl rfl⟩
    · have hunequal : rate / x ≠ 1 := fun hone => hne ((div_eq_one_iff_eq hfilled.ne').mp hone)
      have hstrict := mul_lt_mul_of_pos_left (Real.log_lt_sub_one_of_pos hratio hunequal) hfilled
      rw [hlog, hcancel] at hstrict
      exact ⟨by linarith, iff_of_false (by linarith) hne⟩
  · rw [kernel_empty, zero_mul, sub_zero]
    exact ⟨neg_nonpos.mpr hrate, neg_eq_zero⟩

end Poisson

namespace Prior

/-- A Gaussian prior of positive width, or a flat one. -/
def GaussianOrFlat : Prior ℝ → Prop
  | normal _ sigma => 0 < sigma
  | poisson _ => False
  | flat _ _ => True

/-- The logarithmic density of a Gaussian prior at its centre, which is `- ln σ - ln √(2π)`. -/
noncomputable def peak? : Prior ℝ → Option ℝ
  | normal _ sigma => some (-Real.log sigma - Scalar.halfLogTwoPi)
  | _ => none

/-- The parameter is at the centre of the prior, if it has one. -/
def CentredAt (p : Prior ℝ) (x : ℝ) : Prop :=
  ∀ mu sigma, p = normal mu sigma → x = mu

/-- The density of a Gaussian prior falls with the square of the distance from the centre. -/
theorem logDensity_normal {sigma : ℝ} (h : 0 < sigma) (mu x : ℝ) :
    (normal mu sigma).logDensity x =
      .ok (-Real.log sigma - Scalar.halfLogTwoPi - ((x - mu) / sigma) ^ 2 / 2) := by
  have hwidth : ¬ (Scalar.isFinite sigma = false ∨ sigma ≤ 0) :=
    not_or.mpr ⟨nofun, not_le.mpr h⟩
  have hhalf : (Scalar.ratio (-1) 2 : ℝ) = -1 / 2 := by
    rw [Scalar.ratio]
    norm_num
  rw [logDensity, if_neg hwidth, hhalf]
  refine congrArg Except.ok ?_
  change -1 / 2 * ((x - mu) / sigma) * ((x - mu) / sigma) - Real.log sigma -
    Scalar.halfLogTwoPi = _
  ring

/-- A Gaussian or flat prior has a density everywhere. It is greatest at the centre and only there;
a flat prior adds nothing at any point. -/
theorem GaussianOrFlat.exists_logDensity_le {p : Prior ℝ} (h : p.GaussianOrFlat) (x : ℝ) :
    ∃ density, p.logDensity x = .ok density ∧ density ≤ p.peak?.getD 0 ∧
      (density = p.peak?.getD 0 ↔ p.CentredAt x) := by
  cases p with
  | poisson rate => exact h.elim
  | flat a b => exact ⟨0, rfl, le_rfl, iff_of_true rfl nofun⟩
  | normal mu sigma =>
    have hsigma : 0 < sigma := h
    have hcentre : (normal mu sigma).CentredAt x ↔ (x - mu) / sigma = 0 := by
      rw [div_eq_zero_iff, or_iff_left hsigma.ne', sub_eq_zero]
      constructor
      · intro hx
        exact hx mu sigma rfl
      · rintro hx mu' sigma' heq
        rw [hx, (normal.inj heq).1]
    refine ⟨_, logDensity_normal hsigma mu x, ?_, ?_⟩
    · exact sub_le_self _ (by positivity)
    · rw [hcentre, peak?, Option.getD_some, sub_eq_self, div_eq_zero_iff,
        or_iff_left two_ne_zero, sq_eq_zero_iff]

end Prior

namespace Likelihood

/-- The value of a saturated model: in every bin in which something was observed the data term at
the observed count, and the density of every Gaussian prior at its centre. -/
noncomputable def saturated (l : Likelihood ℝ) : ℝ :=
  ((l.observed.filter fun x => 0 < x).map fun x => x * Real.log x - x).sum +
    ((l.priors.getD []).filterMap Prior.peak?).sum

/-- Empty bins add nothing to the data term of a saturated model. -/
theorem sum_filled (observed : List ℝ) (h : ∀ x ∈ observed, 0 ≤ x) :
    ((observed.filter fun x => 0 < x).map fun x => x * Real.log x - x).sum =
      (observed.map fun x => x * Real.log x - x).sum := by
  induction observed with
  | nil => rfl
  | cons x xs ih =>
    have hrest := ih fun y hy => h y (List.mem_cons_of_mem x hy)
    rw [List.map_cons, List.sum_cons, ← hrest]
    rcases (h x List.mem_cons_self).lt_or_eq with hpos | rfl
    · rw [List.filter_cons_of_pos (by simpa using hpos), List.map_cons, List.sum_cons]
    · rw [List.filter_cons_of_neg (by simp), zero_mul, sub_zero, zero_add]

/-- Flat priors add nothing to the densities of a saturated model. -/
theorem sum_peaks (priors : List (Prior ℝ)) :
    (priors.filterMap Prior.peak?).sum = (priors.map fun p => p.peak?.getD 0).sum := by
  induction priors with
  | nil => rfl
  | cons p ps ih =>
    rw [List.filterMap_cons, List.map_cons, List.sum_cons, ← ih]
    cases p.peak? with
    | none => rw [Option.getD_none, zero_add]
    | some peak => rw [Option.getD_some, List.sum_cons]

/-- The data term is at most that of a saturated model, and equal to it only if every bin expects
what was observed in it. -/
theorem dataTerm_le_saturated {observed expected : List ℝ}
    (hlength : expected.length = observed.length) (hcounts : ∀ x ∈ observed, 0 ≤ x)
    (hrates : ∀ e ∈ expected, 0 ≤ e) (hpos : ∀ b ∈ observed.zip expected, 0 < b.1 → 0 < b.2) :
    dataTerm observed expected ≤ (observed.map fun x => x * Real.log x - x).sum ∧
      (dataTerm observed expected = (observed.map fun x => x * Real.log x - x).sum ↔
        expected = observed) := by
  have hterms : dataTerm observed expected =
      ((observed.zip expected).map fun b => Poisson.kernel b.1 b.2).sum := by
    rw [dataTerm, Scalar.total_eq_sum, ← List.map_uncurry_zip_eq_zipWith]
    rfl
  have hbounds : (observed.map fun x => x * Real.log x - x).sum =
      ((observed.zip expected).map fun b => b.1 * Real.log b.1 - b.1).sum := by
    rw [map_zip_left hlength.ge fun x => x * Real.log x - x]
  have hbins : ∀ b ∈ observed.zip expected, Poisson.kernel b.1 b.2 ≤ b.1 * Real.log b.1 - b.1 ∧
      (Poisson.kernel b.1 b.2 = b.1 * Real.log b.1 - b.1 ↔ b.2 = b.1) := by
    intro b hb
    obtain ⟨hcount, hrate⟩ := List.of_mem_zip hb
    exact Poisson.kernel_le_saturated (hcounts b.1 hcount) (hrates b.2 hrate) (hpos b hb)
  have hsame : (∀ b ∈ observed.zip expected, b.2 = b.1) ↔ expected = observed := by
    rw [eq_comm, ← List.forall₂_eq_eq_eq, List.forall₂_iff_zip]
    simp only [hlength, true_and, Prod.forall]
    exact forall₃_congr fun _ _ _ => eq_comm
  obtain ⟨hle, hiff⟩ := sum_le_sum_with_equality fun b hb => (hbins b hb).1
  rw [hterms, hbounds]
  refine ⟨hle, hiff.trans ?_⟩
  rw [← hsame]
  exact forall₂_congr fun b hb => (hbins b hb).2

/-- Densities of Gaussian and flat priors are defined and add at most their values at the centres,
and exactly these only if every constrained parameter is at its centre. -/
theorem addDensities_le_peaks {xs : List (Prior ℝ × ℝ)} (h : ∀ c ∈ xs, c.1.GaussianOrFlat)
    (start : ℝ) :
    ∃ densities, addDensities xs start = .ok (start + densities) ∧
      densities ≤ (xs.map fun c => c.1.peak?.getD 0).sum ∧
      (densities = (xs.map fun c => c.1.peak?.getD 0).sum ↔ ∀ c ∈ xs, c.1.CentredAt c.2) := by
  induction xs generalizing start with
  | nil => exact ⟨0, by rw [addDensities, add_zero], le_rfl, iff_of_true rfl nofun⟩
  | cons c xs ih =>
    obtain ⟨density, hdensity, hle, hiff⟩ :=
      (h c List.mem_cons_self).exists_logDensity_le c.2
    obtain ⟨densities, hrest, hle', hiff'⟩ :=
      ih (fun d hd => h d (List.mem_cons_of_mem c hd)) (start + density)
    refine ⟨density + densities, ?_, ?_, ?_⟩
    · rw [addDensities, hdensity]
      dsimp only
      rw [hrest, add_assoc]
    · rw [List.map_cons, List.sum_cons]
      exact add_le_add hle hle'
    · rw [List.map_cons, List.sum_cons, List.forall_mem_cons, ← hiff, ← hiff',
        add_eq_add_iff_eq_and_eq hle hle']

/-- Every parameter with a Gaussian prior is at the centre of this prior. -/
theorem centredAt_zip_iff {priors : List (Prior ℝ)} {params : List ℝ}
    (h : priors.length ≤ params.length) :
    (∀ c ∈ priors.zip params, c.1.CentredAt c.2) ↔
      ∀ (i : ℕ) (mu sigma : ℝ), priors[i]? = some (.normal mu sigma) → params[i]? = some mu := by
  constructor
  · intro hall i mu sigma hprior
    have hi : i < params.length := (List.getElem?_eq_some_iff.mp hprior).1.trans_le h
    have hparam : params[i]? = some params[i] := List.getElem?_eq_getElem hi
    have hmem : (Prior.normal mu sigma, params[i]) ∈ priors.zip params :=
      List.mem_of_getElem? (List.getElem?_zip_eq_some.mpr ⟨hprior, hparam⟩)
    have hcentre : params[i] = mu := hall _ hmem mu sigma rfl
    rw [hparam, hcentre]
  · intro hall c hc mu sigma hnormal
    obtain ⟨i, hi⟩ := List.mem_iff_getElem?.mp hc
    obtain ⟨hprior, hparam⟩ := List.getElem?_zip_eq_some.mp hi
    rw [hnormal] at hprior
    exact Option.some.inj (hparam.symm.trans (hall i mu sigma hprior))

/-- With Gaussian and flat priors a likelihood has a value wherever the lengths agree. -/
theorem exists_value {l : Likelihood ℝ} {params expected : List ℝ}
    (hpriors : ∀ p ∈ l.priors.getD [], p.GaussianOrFlat)
    (hparams : ∀ ps, l.priors = some ps → params.length = ps.length)
    (hexpected : l.yields.expected params = .ok expected)
    (hlength : expected.length = l.observed.length) : ∃ value, l.eval params = .ok value := by
  obtain ⟨densities, hdensities, -⟩ := addDensities_le_peaks
    (fun c hc => hpriors c.1 (List.of_mem_zip hc).1) (dataTerm l.observed expected)
  exact ⟨_, (eval_eq_ok_iff hexpected).mpr ⟨hparams, hlength, hdensities⟩⟩

/-- No likelihood of counts that are not negative, with Gaussian and flat priors or none, exceeds
the value of a saturated model, as long as the expected counts are not negative and are positive
where something was observed. It has this value exactly if every bin expects what was observed in
it and every parameter with a Gaussian prior is at the centre of this prior. -/
theorem eval_le_saturated {l : Likelihood ℝ} {params expected : List ℝ} {value : ℝ}
    (hcounts : ∀ x ∈ l.observed, 0 ≤ x) (hpriors : ∀ p ∈ l.priors.getD [], p.GaussianOrFlat)
    (hvalue : l.eval params = .ok value) (hexpected : l.yields.expected params = .ok expected)
    (hrates : ∀ e ∈ expected, 0 ≤ e) (hpos : ∀ b ∈ l.observed.zip expected, 0 < b.1 → 0 < b.2) :
    value ≤ l.saturated ∧
      (value = l.saturated ↔ expected = l.observed ∧
        ∀ (i : ℕ) (mu sigma : ℝ), (l.priors.getD [])[i]? = some (.normal mu sigma) →
          params[i]? = some mu) := by
  obtain ⟨hcheck, hlength, hsum⟩ := (eval_eq_ok_iff hexpected).mp hvalue
  have hparams : (l.priors.getD []).length ≤ params.length := by
    cases hps : l.priors with
    | none => exact Nat.zero_le _
    | some ps => exact (hcheck ps hps).ge
  have hzip : ∀ c ∈ (l.priors.getD []).zip params, c.1.GaussianOrFlat :=
    fun c hc => hpriors c.1 (List.of_mem_zip hc).1
  obtain ⟨densities, hdensities, hbelow, hpeak⟩ :=
    addDensities_le_peaks hzip (dataTerm l.observed expected)
  obtain ⟨hdata, hfit⟩ := dataTerm_le_saturated hlength hcounts hrates hpos
  have hparts : value = dataTerm l.observed expected + densities :=
    Except.ok.inj (hsum.symm.trans hdensities)
  have hpeaks : (((l.priors.getD []).zip params).map fun c => c.1.peak?.getD 0).sum =
      ((l.priors.getD []).filterMap Prior.peak?).sum := by
    have hfirst : ((l.priors.getD []).zip params).map Prod.fst = l.priors.getD [] :=
      List.map_fst_zip hparams
    rw [sum_peaks]
    nth_rewrite 2 [← hfirst]
    rw [List.map_map]
    rfl
  rw [hpeaks] at hbelow hpeak
  rw [hparts, saturated, sum_filled l.observed hcounts]
  refine ⟨add_le_add hdata hbelow, ?_⟩
  rw [add_eq_add_iff_eq_and_eq hdata hbelow, hfit, hpeak, centredAt_zip_iff hparams]

end Likelihood

/-- Two bins, of which the second one is empty, scaled by one parameter. -/
noncomputable def YieldFunction.scaled : YieldFunction ℝ :=
  { channels := [⟨2, [⟨[((3 : ℕ) : ℝ), 0], [.scale 0]⟩]⟩]
    parameters := 1
    bins := 2
    additive := .code4p }

/-- The yield of the first bin is a multiple of the parameter. -/
theorem YieldFunction.scaled_eval (x : ℝ) : scaled.eval [x] = .ok [3 * x, 0] := by
  have hvalue : scaled.eval [x] =
      .ok [0 + (((3 : ℕ) : ℝ) + 0) * (1 * x), 0 + (0 + 0) * (1 * x)] := rfl
  rw [hvalue]
  simp

namespace Likelihood

/-- The likelihood of three counts in the first bin and none in the second one, with a Gaussian
prior around one. -/
noncomputable def scaled : Likelihood ℝ :=
  ⟨YieldFunction.scaled.toMap, [((3 : ℕ) : ℝ), 0], some [.normal 1 1]⟩

/-- The likelihood has the value of a saturated model at its perfect fit, and a smaller one at
another parameter. -/
theorem scaled_at_fit :
    scaled.eval [1] = .ok scaled.saturated ∧
      ∃ value, scaled.eval [((2 : ℕ) : ℝ)] = .ok value ∧ value < scaled.saturated := by
  have hpriors : ∀ p ∈ scaled.priors.getD [], p.GaussianOrFlat := by
    intro p hp
    obtain rfl := List.mem_singleton.mp hp
    exact zero_lt_one (α := ℝ)
  have hbounded : ∀ x : ℝ, 0 < x → ∃ value, scaled.eval [x] = .ok value ∧
      value ≤ scaled.saturated ∧ (value = scaled.saturated ↔ x = 1) := by
    intro x hx
    have hyields : scaled.yields.expected [x] = .ok [3 * x, 0] := YieldFunction.scaled_eval x
    obtain ⟨value, hvalue⟩ := exists_value hpriors
      (fun ps hps => by cases hps; rfl) hyields rfl
    obtain ⟨hle, hiff⟩ := eval_le_saturated (by simp [scaled]) hpriors hvalue hyields
      (by simp [hx.le]) (by simp [scaled, hx])
    refine ⟨value, hvalue, hle, hiff.trans ?_⟩
    constructor
    · intro hfit
      exact Option.some.inj (hfit.2 0 1 1 rfl)
    · rintro rfl
      refine ⟨by simp [scaled], fun i mu sigma hprior => ?_⟩
      cases i with
      | zero =>
        cases hprior
        rfl
      | succ i => cases hprior
  obtain ⟨best, hbest, -, hreached⟩ := hbounded 1 zero_lt_one
  obtain ⟨other, hother, hle, hmissed⟩ := hbounded ((2 : ℕ) : ℝ) (by norm_num)
  refine ⟨?_, other, hother, hle.lt_of_ne fun heq => ?_⟩
  · rw [hbest, hreached.mpr rfl]
  · have hone := hmissed.mp heq
    norm_num at hone

end Likelihood

end BinnedModel
