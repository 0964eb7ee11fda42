import Mathlib
import BinnedModel.Proofs.Interpolation.Monotone

/-!
# Knots and contact

Over the real numbers a factor takes the down variation, one and the up variation as its values at
`-1`, `0` and `1`, whatever the signs of the variations, and it is continuous. Outside of the knots
all codes agree. Between positive variations the polynomial meets the powers smoothly: at each of
the two outer knots value, slope and curvature are the same, which is what its six coefficients are
made for.
-/

namespace BinnedModel

/-- Two curves meet smoothly at a point if they have the same value, the same slope and the same
curvature there. -/
structure MeetsSmoothly (f g : ℝ → ℝ) (x : ℝ) : Prop where
  /-- The values are the same. -/
  value : f x = g x
  /-- The first derivatives exist and are the same. -/
  slope : ∃ d, HasDerivAt f d x ∧ HasDerivAt g d x
  /-- The second derivatives exist and are the same. -/
  curvature : ∃ d, HasDerivAt (deriv f) d x ∧ HasDerivAt (deriv g) d x

/-- Two curves with known derivatives meet smoothly where value and slope are the same and the
slopes have the same derivative. -/
theorem MeetsSmoothly.of_hasDerivAt {f g f' g' : ℝ → ℝ} {d x : ℝ}
    (hf : ∀ α, HasDerivAt f (f' α) α) (hg : ∀ α, HasDerivAt g (g' α) α) (hvalue : f x = g x)
    (hslope : f' x = g' x) (hf' : HasDerivAt f' d x) (hg' : HasDerivAt g' d x) :
    MeetsSmoothly f g x := by
  have hderivf : deriv f = f' := funext fun α => (hf α).deriv
  have hderivg : deriv g = g' := funext fun α => (hg α).deriv
  refine ⟨hvalue, ⟨f' x, hf x, ?_⟩, d, ?_, ?_⟩
  · rw [hslope]
    exact hg x
  · rwa [hderivf]
  · rwa [hderivg]

/-- A curve that consists of a continuous piece between the outer knots and a continuous one outside
is continuous, since both pieces are the curve itself at the knots. -/
theorem continuous_of_pieces {f outer inner : ℝ → ℝ} (houter : Continuous outer)
    (hinner : Continuous inner) (hf : ∀ α, 1 ≤ |α| → f α = outer α)
    (hf' : ∀ α, |α| ≤ 1 → f α = inner α) : Continuous f := by
  have hpieces : f = fun α => if 1 ≤ |α| then outer α else inner α := by
    funext α
    split
    · next h => exact hf α h
    · next h => exact hf' α (not_le.mp h).le
  rw [hpieces]
  refine Continuous.if_le houter hinner continuous_const continuous_abs fun α hα => ?_
  rw [← hf α hα.le, hf' α hα.ge]

namespace Quintic

/-- The polynomial `1 + Σ cₖ α ^ (k + 1)`. -/
def curve (c : Quintic ℝ) (α : ℝ) : ℝ :=
  1 + (c.c0 * α + c.c1 * α ^ 2 + c.c2 * α ^ 3 + c.c3 * α ^ 4 + c.c4 * α ^ 5 + c.c5 * α ^ 6)

/-- The polynomial by Horner's rule. -/
theorem curve_eq (c : Quintic ℝ) : c.curve = fun α => 1 + c.horner α * α := by
  funext α
  simp only [curve, horner]
  ring

/-- Second derivative at `α` of the polynomial `1 + Σ cₖ α ^ (k + 1)`. -/
def curvature (c : Quintic ℝ) (α : ℝ) : ℝ :=
  let n (k : ℕ) : ℝ := (k : ℝ)
  n 2 * c.c1 + n 6 * c.c2 * α + n 12 * c.c3 * α ^ 2 + n 20 * c.c4 * α ^ 3 + n 30 * c.c5 * α ^ 4

/-- The slope is the derivative of the polynomial. -/
theorem hasDerivAt_curve (c : Quintic ℝ) (α : ℝ) : HasDerivAt c.curve (c.slope α) α := by
  rw [curve_eq]
  exact hasDerivAt_meeting c α

/-- The curvature is the derivative of the slope. -/
theorem hasDerivAt_slope (c : Quintic ℝ) (α : ℝ) : HasDerivAt c.slope (c.curvature α) α := by
  let n (k : ℕ) : ℝ := (k : ℝ)
  have h5 : HasDerivAt (fun _ => n 6 * c.c5) 0 α := hasDerivAt_const α (n 6 * c.c5)
  have h4 := hasDerivAt_hornerStep h5 (n 5 * c.c4)
  have h3 := hasDerivAt_hornerStep h4 (n 4 * c.c3)
  have h2 := hasDerivAt_hornerStep h3 (n 3 * c.c2)
  have h1 := hasDerivAt_hornerStep h2 (n 2 * c.c1)
  have h0 := hasDerivAt_hornerStep h1 c.c0
  refine (h0.congr_deriv ?_).congr_of_eventuallyEq (.of_forall fun x => ?_)
  · simp only [curvature, n]
    push_cast
    ring
  · simp only [slope, n]
    ring

/-- The slope of a power with a positive base. -/
theorem hasDerivAt_power {b : ℝ} (hb : 0 < b) (x : ℝ) :
    HasDerivAt (fun α => b ^ α) (b ^ x * Real.log b) x :=
  (Real.hasStrictDerivAt_const_rpow hb x).hasDerivAt

/-- The polynomial meets a power smoothly where it has the value, the slope and the curvature of
this power. -/
theorem meetsSmoothly_power {c : Quintic ℝ} {b x : ℝ} (hb : 0 < b) (hvalue : c.curve x = b ^ x)
    (hslope : c.slope x = b ^ x * Real.log b)
    (hcurvature : c.curvature x = b ^ x * Real.log b * Real.log b) :
    MeetsSmoothly c.curve (fun α : ℝ => b ^ α) x := by
  refine .of_hasDerivAt (hasDerivAt_curve c) (hasDerivAt_power hb) hvalue hslope
    (hasDerivAt_slope c x) ?_
  rw [hcurvature]
  exact (hasDerivAt_power hb x).mul_const (Real.log b)

/-- At one the slope and the curvature are those of the power of the up factor. -/
theorem derivatives_meeting_at_one (lo hi : ℝ) :
    (meeting lo hi).slope 1 = hi * Real.log hi ∧
      (meeting lo hi).curvature 1 = hi * Real.log hi * Real.log hi := by
  have hlog : (Scalar.log hi : ℝ) = Real.log hi := rfl
  constructor
  · simp only [slope, meeting, sixteenths, Scalar.ratio, hlog]
    push_cast
    ring
  · simp only [curvature, meeting, sixteenths, Scalar.ratio, hlog]
    push_cast
    ring

/-- At minus one the slope and the curvature are those of the power of the inverse down factor. -/
theorem derivatives_meeting_at_neg_one (lo hi : ℝ) :
    (meeting lo hi).slope (-1) = -(lo * Real.log lo) ∧
      (meeting lo hi).curvature (-1) = lo * Real.log lo * Real.log lo := by
  have hlog : (Scalar.log lo : ℝ) = Real.log lo := rfl
  constructor
  · simp only [slope, meeting, sixteenths, Scalar.ratio, hlog]
    push_cast
    ring
  · simp only [curvature, meeting, sixteenths, Scalar.ratio, hlog]
    push_cast
    ring

/-- The polynomial meets the power of the up factor smoothly at one. -/
theorem meeting_meets_at_one (lo : ℝ) {hi : ℝ} (hhi : 0 < hi) :
    MeetsSmoothly (meeting lo hi).curve (fun α : ℝ => hi ^ α) 1 := by
  obtain ⟨hslope, hcurvature⟩ := derivatives_meeting_at_one lo hi
  have hone : hi ^ (1 : ℝ) = hi := Real.rpow_one hi
  refine meetsSmoothly_power hhi ?_ ?_ ?_
  · rw [curve_eq, hone]
    exact MultiplicativeCode.meeting_at_one lo hi
  · rw [hslope, hone]
  · rw [hcurvature, hone]

/-- The polynomial meets the power of the down factor smoothly at minus one, since downwards the
powers are those of the inverse factor. -/
theorem meeting_meets_at_neg_one {lo : ℝ} (hlo : 0 < lo) (hi : ℝ) :
    MeetsSmoothly (meeting lo hi).curve (fun α : ℝ => lo ^ (-α)) (-1) := by
  obtain ⟨hslope, hcurvature⟩ := derivatives_meeting_at_neg_one lo hi
  have hinverse : (fun α : ℝ => lo ^ (-α)) = fun α => lo⁻¹ ^ α := by
    funext α
    rw [Real.inv_rpow hlo.le, Real.rpow_neg hlo.le]
  have hone : lo⁻¹ ^ (-1 : ℝ) = lo := by
    rw [Real.rpow_neg_one, inv_inv]
  rw [hinverse]
  refine meetsSmoothly_power (inv_pos.mpr hlo) ?_ ?_ ?_
  · rw [curve_eq, hone]
    exact MultiplicativeCode.meeting_at_neg_one lo hi
  · rw [hslope, hone, Real.log_inv, mul_neg]
  · rw [hcurvature, hone, Real.log_inv]
    ring

end Quintic

namespace MultiplicativeCode

variable {lo hi : ℝ}

/-- Outside of the knots and at them no factor depends on the code. -/
theorem factor_outside (settled settled' : MultiplicativeCode) {α : ℝ} (h : 1 ≤ |α|) :
    settled.factor lo hi α = settled'.factor lo hi α := by
  have hcode : ∀ code : MultiplicativeCode, code.factor lo hi α = code1.factor lo hi α := by
    intro code
    cases code with
    | code1 => rfl
    | code4 => simp only [factor, polynomial_of_one_le_abs h]
  rw [hcode settled, hcode settled']

/-- A factor takes the up variation as its value at one. -/
theorem factor_one (settled : MultiplicativeCode) (lo hi : ℝ) : settled.factor lo hi 1 = hi := by
  rw [factor_outside settled code1 (abs_one (α := ℝ)).ge, factor]
  split
  · rw [blend_of_nonneg zero_le_one]
    ring
  · rw [exponential_of_nonneg zero_le_one, Real.rpow_one]

/-- A factor takes the down variation as its value at minus one. -/
theorem factor_neg_one (settled : MultiplicativeCode) (lo hi : ℝ) :
    settled.factor lo hi (-1) = lo := by
  have hneg : (-1 : ℝ) ≤ 0 := by norm_num
  have hknot : 1 ≤ |(-1 : ℝ)| := by norm_num
  rw [factor_outside settled code1 hknot, factor]
  split
  · rw [blend_of_nonpos hneg]
    ring
  · rw [exponential_of_nonpos hneg, neg_neg, Real.rpow_one]

/-- Straight lines through the knots are continuous. -/
theorem continuous_blend (lo hi : ℝ) : Continuous (blend lo hi) := by
  refine Continuous.if_le (by fun_prop) (by fun_prop) continuous_const continuous_id ?_
  intro α hα
  simp [← hα]

/-- Powers of positive variations are continuous, also where they are joined. -/
theorem continuous_exponential (hlo : 0 < lo) (hhi : 0 < hi) : Continuous (exponential lo hi) := by
  have hup : Continuous fun α : ℝ => hi ^ α := Real.continuous_const_rpow hhi.ne'
  have hdown : Continuous fun α : ℝ => lo ^ (-α) :=
    (Real.continuous_const_rpow hlo.ne').comp continuous_neg
  refine Continuous.if_le hup hdown continuous_const continuous_id fun α hα => ?_
  rw [← hα, neg_zero]
  exact (Real.rpow_zero hi).trans (Real.rpow_zero lo).symm

/-- The polynomial of positive variations and the powers outside are continuous, also where they
are joined. -/
theorem continuous_polynomial (hlo : 0 < lo) (hhi : 0 < hi) : Continuous (polynomial lo hi) := by
  have hcurve : Continuous (Quintic.meeting lo hi).curve := by
    unfold Quintic.curve
    fun_prop
  refine continuous_of_pieces (continuous_exponential hlo hhi) hcurve
    (fun α hα => polynomial_of_one_le_abs hα) fun α hα => ?_
  rw [polynomial_of_abs_le_one hα, Quintic.curve_eq]

/-- A factor is continuous, under each code and for variations of any sign. -/
theorem continuous_factor (settled : MultiplicativeCode) (lo hi : ℝ) :
    Continuous (settled.factor lo hi) := by
  by_cases hsign : hi ≤ 0 ∨ lo ≤ 0
  · have hfactor : settled.factor lo hi = blend lo hi := by
      funext α
      exact if_pos hsign
    rw [hfactor]
    exact continuous_blend lo hi
  · obtain ⟨hhi, hlo⟩ := not_or.mp hsign
    rw [not_le] at hhi hlo
    cases settled with
    | code1 =>
      have hfactor : code1.factor lo hi = exponential lo hi := by
        funext α
        exact if_neg hsign
      rw [hfactor]
      exact continuous_exponential hlo hhi
    | code4 =>
      have hfactor : code4.factor lo hi = polynomial lo hi := by
        funext α
        exact if_neg hsign
      rw [hfactor]
      exact continuous_polynomial hlo hhi

/-- Under each requested code the factor of two variations, whatever their signs, takes the down
variation, one and the up variation as its values at the three knots, is continuous on the whole
line, and agrees outside of the outer knots with the factor under any settled code. Between positive
variations for which the polynomial is settled on, it is this polynomial between the knots, and the
polynomial of positive variations meets the powers of both of them smoothly at the outer knots. -/
theorem interpolate_knots_and_contact (code : MultiplicativeCode) (lo hi : ℝ) :
    (code.interpolate lo hi (-1) = lo ∧ code.interpolate lo hi 0 = 1 ∧
      code.interpolate lo hi 1 = hi) ∧
    Continuous (code.interpolate lo hi) ∧
    (∀ (settled : MultiplicativeCode) (α : ℝ), 1 ≤ |α| →
      code.interpolate lo hi α = settled.factor lo hi α) ∧
    (0 < lo → 0 < hi →
      (code.effective lo hi = code4 → ∀ α, |α| ≤ 1 →
        code.interpolate lo hi α = (Quintic.meeting lo hi).curve α) ∧
      MeetsSmoothly (Quintic.meeting lo hi).curve (fun α : ℝ => hi ^ α) 1 ∧
      MeetsSmoothly (Quintic.meeting lo hi).curve (fun α : ℝ => lo ^ (-α)) (-1)) := by
  refine ⟨⟨factor_neg_one _ lo hi, factor_zero _ lo hi, factor_one _ lo hi⟩,
    continuous_factor _ lo hi, fun settled α hα => factor_outside _ settled hα, fun hlo hhi =>
    ⟨fun hcode α hα => ?_, Quintic.meeting_meets_at_one lo hhi,
      Quintic.meeting_meets_at_neg_one hlo hi⟩⟩
  have hsign : ¬ (hi ≤ 0 ∨ lo ≤ 0) := not_or.mpr ⟨not_le.mpr hhi, not_le.mpr hlo⟩
  rw [interpolate, hcode, factor, if_neg hsign,
    polynomial_of_abs_le_one hα, Quintic.curve_eq]

/-- The polynomial of one half and two meets the powers of two and of one half smoothly, and the
factor between a negative variation and zero is the same under both codes beyond the knots. -/
theorem contact_half_two :
    MeetsSmoothly (Quintic.meeting (1 / 2) 2).curve (fun α : ℝ => 2 ^ α) 1 ∧
      MeetsSmoothly (Quintic.meeting (1 / 2) 2).curve (fun α : ℝ => (1 / 2) ^ (-α)) (-1) ∧
      code1.interpolate (-1) 0 (3 : ℝ) = code4.factor (-1) 0 3 := by
  obtain ⟨-, -, -, hcontact⟩ := interpolate_knots_and_contact code4 (1 / 2) 2
  obtain ⟨-, hup, hdown⟩ := hcontact (by norm_num) (by norm_num)
  refine ⟨hup, hdown, (interpolate_knots_and_contact code1 (-1) 0).2.2.1 code4 3 ?_⟩
  norm_num

end MultiplicativeCode

end BinnedModel
