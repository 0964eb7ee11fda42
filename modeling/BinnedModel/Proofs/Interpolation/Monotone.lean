import Mathlib
import BinnedModel.Proofs.Interpolation.Bernstein
import BinnedModel.Proofs.Interpolation.Mirror

/-!
# Monotonic factors

Over the real numbers the factor between two variations on different sides of one is monotonic on
the whole line, under each code and also for variations that are not positive. Lines and powers
are monotonic on each side of zero. The polynomial is used only if its slope has passed the test,
and a slope that has passed it is nonnegative between the variations; at the knots the polynomial
meets the powers. Falling variations are the mirror image of rising ones.
-/

namespace BinnedModel

namespace Quintic

/-- One step of Horner's rule, with its slope. -/
theorem hasDerivAt_hornerStep {f : ℝ → ℝ} {f' α : ℝ} (h : HasDerivAt f f' α) (c : ℝ) :
    HasDerivAt (fun x => f x * x + c) (f' * α + f α) α := by
  have hproduct := h.mul (hasDerivAt_id' α)
  rw [mul_one] at hproduct
  exact hproduct.add_const c

/-- The slope is the derivative of the polynomial. -/
theorem hasDerivAt_meeting (c : Quintic ℝ) (α : ℝ) :
    HasDerivAt (fun x => 1 + c.horner x * x) (c.slope α) α := by
  have h5 : HasDerivAt (fun _ => c.c5) 0 α := hasDerivAt_const α c.c5
  have h4 := hasDerivAt_hornerStep h5 c.c4
  have h3 := hasDerivAt_hornerStep h4 c.c3
  have h2 := hasDerivAt_hornerStep h3 c.c2
  have h1 := hasDerivAt_hornerStep h2 c.c1
  have h0 := hasDerivAt_hornerStep h1 c.c0
  have hvalue := hasDerivAt_hornerStep h0 1
  refine (hvalue.congr_deriv ?_).congr_of_eventuallyEq (.of_forall fun x => add_comm _ _)
  simp only [slope]
  push_cast
  ring

/-- A polynomial whose slope is nonnegative between the variations rises there. -/
theorem monotoneOn_of_slope_nonneg {c : Quintic ℝ}
    (h : ∀ α, -1 ≤ α → α ≤ 1 → 0 ≤ c.slope α) :
    MonotoneOn (fun x => 1 + c.horner x * x) (Set.Icc (-1) 1) := by
  apply monotoneOn_of_hasDerivWithinAt_nonneg (convex_Icc (-1) 1)
  · intro α _
    exact (hasDerivAt_meeting c α).continuousAt.continuousWithinAt
  · intro α _
    exact (hasDerivAt_meeting c α).hasDerivWithinAt
  · intro α hα
    rw [interior_Icc] at hα
    exact h α hα.1.le hα.2.le

end Quintic

namespace MultiplicativeCode

variable {lo hi : ℝ}

/-- Straight lines through rising variations rise. -/
theorem monotone_blend (hlo : lo < 1) (hhi : 1 < hi) : Monotone (blend lo hi) := by
  refine MonotoneOn.Iic_union_Ici (a := 0) (fun x hx y hy hxy => ?_) fun x hx y hy hxy => ?_
  · rw [blend_of_nonpos hx, blend_of_nonpos hy]
    have hstep := mul_le_mul_of_nonneg_left hxy (sub_nonneg.mpr hlo.le)
    linarith
  · rw [blend_of_nonneg hx, blend_of_nonneg hy]
    have hstep := mul_le_mul_of_nonneg_left hxy (sub_nonneg.mpr hhi.le)
    linarith

/-- Powers of rising variations rise. -/
theorem monotone_exponential (hpos : 0 < lo) (hlo : lo < 1) (hhi : 1 < hi) :
    Monotone (exponential lo hi) := by
  refine MonotoneOn.Iic_union_Ici (a := 0) (fun x hx y hy hxy => ?_) fun x hx y hy hxy => ?_
  · rw [exponential_of_nonpos hx, exponential_of_nonpos hy]
    exact Real.rpow_le_rpow_of_exponent_ge hpos hlo.le (neg_le_neg hxy)
  · rw [exponential_of_nonneg hx, exponential_of_nonneg hy]
    exact Real.rpow_le_rpow_of_exponent_le hhi.le hxy

/-- If the polynomial is used between rising variations, its slope has passed the test. -/
theorem isNonneg_slope_of_effective {code : MultiplicativeCode} (hpos : 0 < lo) (hlo : lo < 1)
    (hhi : 1 < hi) (h : code.effective lo hi = code4) :
    ((Quintic.meeting lo hi).slopeBernstein 1).isNonneg slopeDepth = true := by
  cases code with
  | code1 => cases h
  | code4 =>
    have hkeeps : keepsPolynomial lo hi = true := by
      by_contra hfallback
      rw [effective, if_pos ⟨hpos, zero_lt_one.trans hhi⟩, if_neg hfallback] at h
      cases h
    rw [keepsPolynomial, if_pos ⟨hlo, hhi⟩] at hkeeps
    exact hkeeps

/-- The polynomial between rising variations, with the powers outside, rises if its slope passes
the test: the three pieces share the knots, where the polynomial and the powers agree. -/
theorem monotone_polynomial (hpos : 0 < lo) (hlo : lo < 1) (hhi : 1 < hi) {depth : ℕ}
    (hslope : ((Quintic.meeting lo hi).slopeBernstein 1).isNonneg depth = true) :
    Monotone (polynomial lo hi) := by
  have hpowers : Monotone (exponential lo hi) := monotone_exponential hpos hlo hhi
  have hleft : MonotoneOn (polynomial lo hi) (Set.Iic (-1)) := by
    refine (hpowers.monotoneOn _).congr fun α hα => ?_
    have hneg : α ≤ -1 := hα
    rw [polynomial_of_one_le_abs]
    exact le_abs.mpr (.inr (le_neg_of_le_neg hneg))
  have hinner : MonotoneOn (polynomial lo hi) (Set.Icc (-1) 1) := by
    have hrises : MonotoneOn (fun x => 1 + (Quintic.meeting lo hi).horner x * x)
        (Set.Icc (-1) 1) := by
      refine Quintic.monotoneOn_of_slope_nonneg fun α hα hα' => ?_
      have hsigned := Quintic.signed_slope_nonneg hslope hα hα'
      rwa [one_mul] at hsigned
    refine hrises.congr fun α hα => ?_
    rw [polynomial_of_abs_le_one (abs_le.mpr hα)]
  have hright : MonotoneOn (polynomial lo hi) (Set.Ici 1) := by
    refine (hpowers.monotoneOn _).congr fun α hα => ?_
    have hone : 1 ≤ α := hα
    rw [polynomial_of_one_le_abs]
    exact le_abs.mpr (.inl hone)
  have hupper : MonotoneOn (polynomial lo hi) (Set.Ici (-1)) := by
    rw [← Set.Icc_union_Ici_eq_Ici (show (-1 : ℝ) ≤ 1 by norm_num)]
    exact hinner.union_right hright (isGreatest_Icc (by norm_num)) isLeast_Ici
  exact hleft.Iic_union_Ici hupper

/-- Between rising variations the factor rises, whichever code is used for them. -/
theorem monotone_interpolate (code : MultiplicativeCode) (hlo : lo < 1) (hhi : 1 < hi) :
    Monotone (code.interpolate lo hi) := by
  by_cases hpos : 0 < lo
  · have hsign : ¬ (hi ≤ 0 ∨ lo ≤ 0) := by
      rw [not_or, not_le, not_le]
      exact ⟨zero_lt_one.trans hhi, hpos⟩
    cases heffective : code.effective lo hi with
    | code1 =>
      have hfactor : code.interpolate lo hi = exponential lo hi := by
        funext α
        rw [interpolate, heffective, factor, if_neg hsign]
      rw [hfactor]
      exact monotone_exponential hpos hlo hhi
    | code4 =>
      have hfactor : code.interpolate lo hi = polynomial lo hi := by
        funext α
        rw [interpolate, heffective, factor, if_neg hsign]
      rw [hfactor]
      exact monotone_polynomial hpos hlo hhi
        (isNonneg_slope_of_effective hpos hlo hhi heffective)
  · have hfactor : code.interpolate lo hi = blend lo hi := by
      funext α
      exact if_pos (.inr (not_lt.mp hpos))
    rw [hfactor]
    exact monotone_blend hlo hhi

/-- The factor between two variations on different sides of one is monotonic on the whole line,
under each requested code: it rises if the down variation is below one and the up variation above,
and falls if they are the other way round. -/
theorem interpolate_monotone_and_antitone (code : MultiplicativeCode) (lo hi : ℝ) :
    (lo < 1 → 1 < hi → Monotone (code.interpolate lo hi)) ∧
      (hi < 1 → 1 < lo → Antitone (code.interpolate lo hi)) := by
  refine ⟨fun hlo hhi => monotone_interpolate code hlo hhi, fun hhi hlo x y hxy => ?_⟩
  rw [← interpolate_swap code lo hi x, ← interpolate_swap code lo hi y]
  exact monotone_interpolate code hhi hlo (neg_le_neg hxy)

/-- The factor rises between a negative variation and one above one, and between one half and
three under the polynomial code; it falls between the same variations exchanged. -/
theorem monotone_half_three :
    Monotone (code1.interpolate (-1 : ℝ) 2) ∧ Monotone (code4.interpolate (1 / 2 : ℝ) 3) ∧
      Antitone (code4.interpolate (3 : ℝ) (1 / 2)) := by
  refine ⟨(interpolate_monotone_and_antitone code1 (-1) 2).1 ?_ ?_,
    (interpolate_monotone_and_antitone code4 (1 / 2) 3).1 ?_ ?_,
    (interpolate_monotone_and_antitone code4 3 (1 / 2)).2 ?_ ?_⟩ <;> norm_num

end MultiplicativeCode

end BinnedModel
