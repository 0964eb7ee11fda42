import Mathlib
import BinnedModel.Proofs.Scalar.Exact
import BinnedModel.Interpolation.Multiplicative

/-!
# Pieces of a factor

Over the real numbers a factor is a straight line or a power on each side of zero, and the two
pieces meet at one. The polynomial code has the same powers outside of the variations; between
them it is a polynomial, which takes the variations as its values at the two knots. That a factor is
one at parameter zero takes exact arithmetic with zero and one only.
-/

namespace BinnedModel.MultiplicativeCode

open Scalar (ExactUnits)

/-- A factor is one at zero, for variations of any sign. -/
theorem factor_zero {K : Type} [Scalar K] [ExactUnits K] (code : MultiplicativeCode) (lo hi : K) :
    code.factor lo hi 0 = 1 := by
  unfold factor
  by_cases hsign : hi ≤ 0 ∨ lo ≤ 0
  · rw [if_pos hsign, blend, if_pos ExactUnits.zero_le_zero, ExactUnits.mul_zero,
      ExactUnits.sub_zero, ExactUnits.zero_add]
  · have hpos : 0 < hi := ExactUnits.pos_of_not_nonpos hi fun h => hsign (.inl h)
    rw [if_neg hsign]
    cases code with
    | code1 =>
      dsimp only
      rw [exponential, if_pos ExactUnits.zero_le_zero, ExactUnits.pow_zero hi hpos]
    | code4 =>
      dsimp only
      rw [polynomial, Scalar.magnitude_zero, if_neg ExactUnits.not_one_le_zero,
        ExactUnits.mul_zero, ExactUnits.add_zero]

variable {lo hi α : ℝ}

/-- The absolute value of a scalar is that of a real number. -/
theorem magnitude_eq_abs (x : ℝ) : Scalar.magnitude x = |x| := by
  unfold Scalar.magnitude
  split_ifs with h
  · exact (abs_of_neg h).symm
  · exact (abs_of_nonneg (not_lt.mp h)).symm

/-- The line on the right of zero leads to the up factor. -/
theorem blend_of_nonneg (h : 0 ≤ α) : blend lo hi α = 1 + (hi - 1) * α := by
  rw [blend, if_pos h]
  ring

/-- The line on the left of zero leads to the down factor. -/
theorem blend_of_nonpos (h : α ≤ 0) : blend lo hi α = 1 + (1 - lo) * α := by
  rcases h.lt_or_eq with h | rfl
  · rw [blend, if_neg (not_le.mpr h)]
    ring
  · rw [blend_of_nonneg le_rfl, mul_zero, mul_zero]

/-- On the right of zero the factor is a power of the up factor. -/
theorem exponential_of_nonneg (h : 0 ≤ α) : exponential lo hi α = hi ^ α :=
  if_pos h

/-- On the left of zero the factor is a power of the down factor. -/
theorem exponential_of_nonpos (h : α ≤ 0) : exponential lo hi α = lo ^ (-α) := by
  rcases h.lt_or_eq with h | rfl
  · exact if_neg (not_le.mpr h)
  · rw [exponential_of_nonneg le_rfl, neg_zero, Real.rpow_zero, Real.rpow_zero]

/-- Outside of the variations the polynomial code is the exponential one. -/
theorem polynomial_of_one_le_abs (h : 1 ≤ |α|) : polynomial lo hi α = exponential lo hi α := by
  rw [polynomial, magnitude_eq_abs, if_pos h]
  rcases le_total 0 α with hα | hα
  · rw [exponential_of_nonneg hα, if_pos hα, abs_of_nonneg hα]
    rfl
  · have hneg : α < 0 := by
      refine hα.lt_of_ne fun hzero => ?_
      rw [hzero, abs_zero] at h
      exact not_le.mpr zero_lt_one h
    rw [exponential_of_nonpos hα, if_neg (not_le.mpr hneg), abs_of_nonpos hα]
    rfl

/-- The polynomial meets the up factor at one. -/
theorem meeting_at_one (lo hi : ℝ) : 1 + (Quintic.meeting lo hi).horner 1 * 1 = hi := by
  simp only [Quintic.meeting, Quintic.sixteenths, Quintic.horner, Scalar.ratio]
  push_cast
  ring

/-- The polynomial meets the down factor at minus one. -/
theorem meeting_at_neg_one (lo hi : ℝ) :
    1 + (Quintic.meeting lo hi).horner (-1) * -1 = lo := by
  simp only [Quintic.meeting, Quintic.sixteenths, Quintic.horner, Scalar.ratio]
  push_cast
  ring

/-- Between the variations, the knots included, the factor is the polynomial. -/
theorem polynomial_of_abs_le_one (h : |α| ≤ 1) :
    polynomial lo hi α = 1 + (Quintic.meeting lo hi).horner α * α := by
  rcases h.lt_or_eq with h | h
  · rw [polynomial, magnitude_eq_abs, if_neg (not_le.mpr h)]
  · rw [polynomial_of_one_le_abs h.ge]
    rcases eq_or_eq_neg_of_abs_eq h with rfl | rfl
    · rw [exponential_of_nonneg zero_le_one, Real.rpow_one, meeting_at_one]
    · rw [exponential_of_nonpos (by norm_num), neg_neg, Real.rpow_one, meeting_at_neg_one]

end BinnedModel.MultiplicativeCode
