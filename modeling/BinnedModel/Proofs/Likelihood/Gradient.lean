import Mathlib
import BinnedModel.Proofs.Likelihood.FullDensity
import BinnedModel.Proofs.Likelihood.Saturation
import BinnedModel.Proofs.Sequence

/-!
# Central differences of constraint terms

The gradient of a likelihood is taken by central differences, which are exact for polynomials of
degree two. The logarithm of a Gaussian density is one, and that of a flat density is constant. So
whatever the step, the priors add to the gradient of the counts exactly the derivatives of their
logarithmic densities, and in each parameter only that of its own prior: the terms of the other
parameters are the same at both points and cancel. The likelihood of the counts only has to be real
at the two points of each difference.
-/

namespace BinnedModel

open Extended

namespace Prior

/-- The prior over the extended real numbers. -/
def extended : Prior ℝ → Prior Extended
  | normal mu sigma => normal (real mu) (real sigma)
  | poisson rate => poisson (real rate)
  | flat a b => flat (real a) (real b)

/-- The logarithmic density of a Gaussian or flat prior. -/
noncomputable def constraint : Prior ℝ → ℝ → ℝ
  | normal mu sigma, x =>
    -((x - mu) / sigma * ((x - mu) / sigma)) / ((2 : ℕ) : ℝ) - Real.log sigma -
      Scalar.halfLogTwoPi
  | _, _ => 0

/-- The derivative of the logarithmic density of a Gaussian or flat prior: a Gaussian pulls a
parameter back to its centre. -/
noncomputable def pull : Prior ℝ → ℝ → ℝ
  | normal mu sigma, x => -(x - mu) / sigma ^ 2
  | _, _ => 0

variable {p : Prior ℝ}

/-- Over the extended real numbers a Gaussian or flat prior has a real logarithmic density at every
real parameter. -/
theorem GaussianOrFlat.logDensity_extended (h : p.GaussianOrFlat) (x : ℝ) :
    p.extended.logDensity (real x) = .ok (real (p.constraint x)) := by
  cases p with
  | poisson rate => exact h.elim
  | flat a b => rfl
  | normal mu sigma =>
    have hsigma : 0 < sigma := h
    have hwidth : ¬ (Scalar.isFinite (real sigma) = false ∨ real sigma ≤ 0) := by
      rw [zero_eq, real_le, not_or, not_le]
      exact ⟨nofun, hsigma⟩
    have hhalf : (Scalar.ratio (-1) 2 : ℝ) = -1 / 2 := by
      rw [Scalar.ratio]
      norm_num
    have hlog : (Scalar.halfLogTwoPi : Extended) = real Scalar.halfLogTwoPi := rfl
    rw [extended, logDensity, if_neg hwidth]
    dsimp only
    rw [ratio_eq (-1) two_ne_zero, log_of_pos hsigma, hlog, real_sub, real_div hsigma.ne', real_mul,
      real_mul, real_sub, real_sub, hhalf, constraint]
    congr 2
    push_cast
    ring

/-- The central difference of the logarithmic density is exact for every step. -/
theorem GaussianOrFlat.centralDifference (h : p.GaussianOrFlat) (x : ℝ) {step : ℝ}
    (hstep : step ≠ 0) :
    (p.constraint (x + step) - p.constraint (x - step)) / (2 * step) = p.pull x := by
  cases p with
  | poisson rate => exact h.elim
  | flat a b => simp only [constraint, pull, sub_zero, zero_div]
  | normal mu sigma =>
    have hsigma : sigma ≠ 0 := ne_of_gt h
    rw [constraint, constraint, pull]
    push_cast
    field_simp
    ring

end Prior

namespace Likelihood

/-- At a real parameter the step is a real number. -/
theorem stepAt_real (x : ℝ) : stepAt (real x) = real (stepAt x) := by
  have hratio : (0 : ℝ) ≤ Scalar.ratio 1 100000000 :=
    (Scalar.ratio_pos (by norm_num) (by norm_num)).le
  have hone : 1 ≤ real (Scalar.magnitude x) ↔ 1 ≤ Scalar.magnitude x := real_le
  unfold stepAt
  rw [ratio_eq 1 (by norm_num), sqrt_of_nonneg hratio, magnitude_real]
  by_cases h : 1 ≤ Scalar.magnitude x
  · rw [if_pos (hone.mpr h), if_pos h, real_mul]
    rfl
  · rw [if_neg (hone.not.mpr h), if_neg h, one_eq, real_mul]
    rfl

/-- The step is positive. -/
theorem stepAt_pos (x : ℝ) : 0 < stepAt x := by
  have hroot : (0 : ℝ) < Scalar.sqrt (Scalar.ratio 1 100000000) :=
    Real.sqrt_pos.mpr (Scalar.ratio_pos (by norm_num) (by norm_num))
  unfold stepAt
  split
  · next h => exact mul_pos hroot (zero_lt_one.trans_le h)
  · exact mul_pos hroot zero_lt_one

/-- Priors add their logarithmic densities at real parameters. -/
theorem addDensities_extended {xs : List (Prior ℝ × ℝ)} (h : ∀ c ∈ xs, c.1.GaussianOrFlat)
    (start : ℝ) :
    addDensities (xs.map (Prod.map Prior.extended real)) (real start) =
      .ok (real (start + (xs.map fun c => c.1.constraint c.2).sum)) := by
  induction xs generalizing start with
  | nil => rw [List.map_nil, List.map_nil, List.sum_nil, add_zero]; rfl
  | cons c xs ih =>
    have hfirst := (h c List.mem_cons_self).logDensity_extended c.2
    rw [List.map_cons, List.map_cons, List.sum_cons, ← add_assoc,
      ← ih fun d hd => h d (List.mem_cons_of_mem c hd), Prod.map, addDensities, hfirst]
    dsimp only
    rw [real_add]

/-- In a sum over two lists of one length an item of the second one enters through one term. -/
theorem exists_sum_zip_set {α β : Type} (f : α → β → ℝ) {as : List α} {bs : List β} {i : ℕ} {a : α}
    (ha : as[i]? = some a) (hi : i < bs.length) :
    ∃ rest, ∀ y, ((as.zip (bs.set i y)).map fun c => f c.1 c.2).sum = rest + f a y := by
  induction as generalizing bs i with
  | nil => cases ha
  | cons a' as ih =>
    cases bs with
    | nil => cases hi
    | cons b bs =>
      cases i with
      | zero =>
        obtain rfl := Option.some.inj ha
        refine ⟨((as.zip bs).map fun c => f c.1 c.2).sum, fun y => ?_⟩
        rw [List.set_cons_zero, List.zip_cons_cons, List.map_cons, List.sum_cons, add_comm]
      | succ i =>
        obtain ⟨rest, hrest⟩ := ih ha (Nat.lt_of_succ_lt_succ hi)
        refine ⟨f a' b + rest, fun y => ?_⟩
        rw [List.set_cons_succ, List.zip_cons_cons, List.map_cons, List.sum_cons, hrest, add_assoc]

/-- The likelihood of the counts alone. -/
def dataOnly {K : Type} (l : Likelihood K) : Likelihood K :=
  { l with priors := none }

/-- A likelihood is real at both points between which the difference in one parameter is taken. -/
def RealAround (l : Likelihood Extended) (params : List Extended) (i : ℕ) : Prop :=
  let x := params.getD i 0
  ∃ above below : ℝ, l.eval (params.set i (x + stepAt x)) = .ok (real above) ∧
    l.eval (params.set i (x - stepAt x)) = .ok (real below)

variable {l : Likelihood Extended} {priors : List (Prior ℝ)} {params : List ℝ}

/-- The priors add their logarithmic densities to the likelihood of the counts. -/
theorem eval_eq_dataOnly_add (hpriors : l.priors = some (priors.map Prior.extended))
    (hkinds : ∀ p ∈ priors, p.GaussianOrFlat) (hlength : params.length = priors.length) {data : ℝ}
    (hdata : l.dataOnly.eval (params.map real) = .ok (real data)) :
    l.eval (params.map real) =
      .ok (real (data + ((priors.zip params).map fun c => c.1.constraint c.2).sum)) := by
  obtain ⟨expected, hexpected⟩ := exists_expected_of_eval hdata
  obtain ⟨-, hcounts, hterm⟩ := (eval_eq_ok_iff hexpected).mp hdata
  have hyields : l.yields.expected (params.map real) = .ok expected := hexpected
  have hdataTerm : dataTerm l.observed expected = real data := Except.ok.inj hterm
  refine (eval_eq_ok_iff hyields).mpr ⟨fun ps hps => ?_, hcounts, ?_⟩
  · obtain rfl := Option.some.inj (hpriors.symm.trans hps)
    rw [List.length_map, List.length_map, hlength]
  · rw [hdataTerm, hpriors, Option.getD_some, List.zip_map]
    exact addDensities_extended (fun c hc => hkinds c.1 (List.of_mem_zip hc).1) data

/-- A real parameter is read as such. -/
theorem getD_map_real {i : ℕ} {x : ℝ} (hx : params[i]? = some x) :
    (params.map real).getD i 0 = real x := by
  rw [List.getD_eq_getElem?_getD, List.getElem?_map, hx]
  rfl

/-- The points of a difference at real parameters are real. -/
theorem realAround_iff {i : ℕ} {x : ℝ} (hx : params[i]? = some x) :
    l.RealAround (params.map real) i ↔
      ∃ above below : ℝ, l.eval ((params.set i (x + stepAt x)).map real) = .ok (real above) ∧
        l.eval ((params.set i (x - stepAt x)).map real) = .ok (real below) := by
  unfold RealAround
  dsimp only
  rw [getD_map_real hx, stepAt_real, real_add, real_sub, List.map_set, List.map_set]

/-- Between real values the difference in one parameter is the real one. -/
theorem slope_eq_real {i : ℕ} {x above below : ℝ} (hx : params[i]? = some x)
    (habove : l.eval ((params.set i (x + stepAt x)).map real) = .ok (real above))
    (hbelow : l.eval ((params.set i (x - stepAt x)).map real) = .ok (real below)) :
    l.slope (params.map real) i = .ok (real ((above - below) / (2 * stepAt x))) := by
  have hdivisor : ((2 : ℕ) : Extended) * real (stepAt x) = real (2 * stepAt x) := by
    rw [natCast_eq, real_mul, Nat.cast_ofNat]
  have hnonzero : 2 * stepAt x ≠ 0 := mul_ne_zero two_ne_zero (stepAt_pos x).ne'
  rw [List.map_set] at habove hbelow
  unfold slope
  dsimp only
  rw [getD_map_real hx, stepAt_real, real_add, real_sub, habove, hbelow]
  change Except.ok ((real above - real below) / (((2 : ℕ) : Extended) * real (stepAt x))) = _
  rw [hdivisor, real_sub, real_div hnonzero]

/-- In one parameter the difference of the likelihood of the counts and that of the whole likelihood
are real, and the second one is greater by the pull of the prior of this parameter: the terms of the
other parameters do not depend on its value. -/
theorem exists_slopes (hpriors : l.priors = some (priors.map Prior.extended))
    (hkinds : ∀ p ∈ priors, p.GaussianOrFlat) (hlength : params.length = priors.length) {i : ℕ}
    {p : Prior ℝ} {x : ℝ} (hp : priors[i]? = some p) (hx : params[i]? = some x)
    (hreal : l.dataOnly.RealAround (params.map real) i) :
    ∃ d : ℝ, l.dataOnly.slope (params.map real) i = .ok (real d) ∧
      l.slope (params.map real) i = .ok (real (d + p.pull x)) := by
  have hi : i < params.length := (List.getElem?_eq_some_iff.mp hx).1
  have hset : ∀ y, (params.set i y).length = priors.length := fun y => by
    rw [List.length_set, hlength]
  obtain ⟨above, below, habove, hbelow⟩ := (realAround_iff hx).mp hreal
  have hslope := slope_eq_real hx (eval_eq_dataOnly_add hpriors hkinds (hset _) habove)
    (eval_eq_dataOnly_add hpriors hkinds (hset _) hbelow)
  refine ⟨_, slope_eq_real hx habove hbelow, ?_⟩
  obtain ⟨rest, hrest⟩ := exists_sum_zip_set Prior.constraint hp hi
  have hpull := (hkinds p (List.mem_of_getElem? hp)).centralDifference x (stepAt_pos x).ne'
  rw [hslope, hrest, hrest, ← hpull, ← add_div]
  congr 3
  ring

/-- The gradient consists of the differences in the single parameters. -/
theorem gradient_eq_ok {K : Type} [Scalar K] {l : Likelihood K} {params slopes : List K}
    (hparams : params.length = l.yields.parameters)
    (h : List.Forall₂ (fun i s => l.slope params i = .ok s) (List.range params.length) slopes) :
    l.gradient params = .ok slopes := by
  rw [gradient, if_neg (not_not.mpr hparams)]
  exact mapM_eq_ok_iff.mpr h

/-- With Gaussian and flat priors, one per parameter, and at real parameters around which the
likelihood of the counts is real at the two points of every difference, the gradient of the whole
likelihood and that of the counts are real vectors with one entry per parameter. Every step is
positive, and whatever it is, the first gradient less the second one is exactly the derivative of
the logarithmic density of the prior of the same parameter: the distance from the centre, divided by
the square of the width and with the opposite sign, for a Gaussian prior, and zero for a flat
one. -/
theorem gradient_sub_gradient_dataOnly
    (hpriors : l.priors = some (priors.map Prior.extended))
    (hkinds : ∀ p ∈ priors, p.GaussianOrFlat) (hcount : priors.length = l.yields.parameters)
    (hparams : params.length = l.yields.parameters)
    (hreal : ∀ i < params.length, l.dataOnly.RealAround (params.map real) i) :
    ∃ slopes dataSlopes : List ℝ,
      l.gradient (params.map real) = .ok (slopes.map real) ∧
      l.dataOnly.gradient (params.map real) = .ok (dataSlopes.map real) ∧
      slopes.length = l.yields.parameters ∧ dataSlopes.length = l.yields.parameters ∧
      ∀ (i : ℕ) (x s d : ℝ), params[i]? = some x → slopes[i]? = some s → dataSlopes[i]? = some d →
        (∃ step : ℝ, stepAt (real x) = real step ∧ 0 < step) ∧
        (∀ mu sigma, priors[i]? = some (.normal mu sigma) → s - d = -(x - mu) / sigma ^ 2) ∧
        ∀ a b, priors[i]? = some (.flat a b) → s - d = 0 := by
  have hlength : params.length = priors.length := hparams.trans hcount.symm
  have hpoint : ∀ i ∈ List.range params.length, ∃ z : ℝ × ℝ,
      l.dataOnly.slope (params.map real) i = .ok (real z.2) ∧
      l.slope (params.map real) i = .ok (real z.1) ∧
      ∀ p x, priors[i]? = some p → params[i]? = some x → z.1 - z.2 = p.pull x := by
    intro i hi
    have hparam : i < params.length := List.mem_range.mp hi
    have hprior : i < priors.length := hparam.trans_eq hlength
    have hx : params[i]? = some params[i] := List.getElem?_eq_getElem hparam
    have hp : priors[i]? = some priors[i] := List.getElem?_eq_getElem hprior
    obtain ⟨d, hdata, hslope⟩ := exists_slopes hpriors hkinds hlength hp hx (hreal i hparam)
    refine ⟨(d + _, d), hdata, hslope, fun p x hp' hx' => ?_⟩
    obtain rfl := Option.some.inj (hp.symm.trans hp')
    obtain rfl := Option.some.inj (hx.symm.trans hx')
    exact add_sub_cancel_left d _
  obtain ⟨zs, hzs⟩ := exists_forall₂_iff.mpr hpoint
  have hcountZs : zs.length = params.length := by
    rw [← hzs.length_eq, List.length_range]
  have hsizes : (params.map real).length = l.yields.parameters := by
    rw [List.length_map, hparams]
  refine ⟨zs.map Prod.fst, zs.map Prod.snd, gradient_eq_ok hsizes ?_, gradient_eq_ok hsizes ?_, ?_,
    ?_, fun i x s d hx hs hd => ?_⟩
  · rw [List.length_map, List.forall₂_map_right_iff, List.forall₂_map_right_iff]
    exact hzs.imp fun i z h => h.2.1
  · rw [List.length_map, List.forall₂_map_right_iff, List.forall₂_map_right_iff]
    exact hzs.imp fun i z h => h.1
  · rw [List.length_map, hcountZs, hparams]
  · rw [List.length_map, hcountZs, hparams]
  · have hi : i < params.length := (List.getElem?_eq_some_iff.mp hx).1
    obtain ⟨z, hz, -, -, hpull⟩ := getElem?_of_forall₂_left hzs (List.getElem?_range hi)
    rw [List.getElem?_map, hz] at hs hd
    obtain rfl := Option.some.inj hs
    obtain rfl := Option.some.inj hd
    exact ⟨⟨_, stepAt_real x, stepAt_pos x⟩, fun mu sigma hp => hpull _ x hp hx,
      fun a b hp => hpull _ x hp hx⟩

/-- From one on the step is smaller than the parameter. -/
theorem stepAt_lt {x : ℝ} (h : 1 ≤ x) : stepAt x < x := by
  have hpos : 0 < x := zero_lt_one.trans_le h
  have hmagnitude : Scalar.magnitude x = x := if_neg hpos.not_gt
  have hroot : (Scalar.sqrt (Scalar.ratio 1 100000000) : ℝ) < 1 := by
    refine (Real.sqrt_lt' zero_lt_one).mpr ?_
    rw [Scalar.ratio]
    norm_num
  rw [stepAt, hmagnitude, if_pos h]
  exact mul_lt_of_lt_one_left hpos hroot

/-- At parameters from one on the likelihood of the counts is real around the point. -/
theorem realAround_scaledTwice {x y : ℝ} (hx : 1 ≤ x) (hy : 1 ≤ y) {i : ℕ} (hi : i < 2) :
    (scaledTwice none).RealAround [real x, real y] i := by
  have hxpos : 0 < x := zero_lt_one.trans_le hx
  have hypos : 0 < y := zero_lt_one.trans_le hy
  have hright : ∀ {z : ℝ}, 1 ≤ z → 0 < z + stepAt z := fun {z} hz =>
    add_pos (zero_lt_one.trans_le hz) (stepAt_pos z)
  have hleft : ∀ {z : ℝ}, 1 ≤ z → 0 < z - stepAt z := fun hz => sub_pos.mpr (stepAt_lt hz)
  match i, hi with
  | 0, _ =>
    have hparam : [x, y][0]? = some x := rfl
    exact (realAround_iff hparam).mpr
      ⟨_, _, scaledTwice_eval (hright hx) hypos, scaledTwice_eval (hleft hx) hypos⟩
  | 1, _ =>
    have hparam : [x, y][1]? = some y := rfl
    exact (realAround_iff hparam).mpr
      ⟨_, _, scaledTwice_eval hxpos (hright hy), scaledTwice_eval hxpos (hleft hy)⟩

/-- A Gaussian prior around one of width one half takes four from the slope at two, and a flat prior
leaves the slope in the other parameter as it is. -/
theorem gradient_scaledTwice :
    ∃ s s' d d' : ℝ,
      (scaledTwice (some ([.normal 1 (1 / 2), .flat 0 10].map Prior.extended))).gradient
        [real 2, real 1] = .ok [real s, real s'] ∧
      (scaledTwice none).gradient [real 2, real 1] = .ok [real d, real d'] ∧
      s - d = -4 ∧ s' - d' = 0 := by
  have hkinds : ∀ p ∈ [Prior.normal (1 : ℝ) (1 / 2), .flat 0 10], p.GaussianOrFlat := by
    intro p hp
    rcases List.mem_pair.mp hp with rfl | rfl
    · exact one_half_pos
    · trivial
  have hparams : [(2 : ℝ), 1].length =
      (scaledTwice (some ([.normal 1 (1 / 2), .flat 0 10].map Prior.extended))).yields.parameters :=
    rfl
  obtain ⟨slopes, dataSlopes, hslopes, hdataSlopes, hcount, hdataCount, hpull⟩ :=
    gradient_sub_gradient_dataOnly rfl hkinds rfl hparams
      fun i hi => realAround_scaledTwice one_le_two le_rfl hi
  obtain ⟨s, s', rfl⟩ := List.length_eq_two.mp hcount
  obtain ⟨d, d', rfl⟩ := List.length_eq_two.mp hdataCount
  refine ⟨s, s', d, d', hslopes, hdataSlopes, ?_, ?_⟩
  · rw [(hpull 0 2 s d rfl rfl rfl).2.1 1 (1 / 2) rfl]
    norm_num
  · exact (hpull 1 1 s' d' rfl rfl rfl).2.2 0 10 rfl

end Likelihood

end BinnedModel
