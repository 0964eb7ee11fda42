import Mathlib
import BinnedModel.Interpolation.Additive
import BinnedModel.Interpolation.Bernstein
import BinnedModel.Proofs.Scalar.Exact

/-!
# Pieces of a shift

Over the real numbers a shift is a straight line on each side of zero, and the two lines meet there.
The smooth code has the same lines outside of the variations; between them it is a polynomial whose
odd part is the mean of the two lines, and whose even part bends it from one to the other. That a
shift is zero at parameter zero takes exact arithmetic with zero and one only.
-/

namespace BinnedModel.AdditiveCode

open Scalar (ExactUnits)

/-- A shift is zero at zero, for variations of any sign. -/
theorem shift_zero {K : Type} [Scalar K] [ExactUnits K] (code : AdditiveCode) (lo nominal hi : K) :
    code.shift lo nominal hi 0 = 0 := by
  cases code with
  | code0 =>
    rw [shift, linear, if_pos ExactUnits.zero_le_zero, ExactUnits.zero_mul]
  | code4p =>
    rw [shift, smooth, if_neg ExactUnits.not_one_le_zero,
      if_neg ExactUnits.not_zero_le_neg_one]
    dsimp only
    rw [ExactUnits.zero_mul, ExactUnits.zero_mul, ExactUnits.zero_mul, ExactUnits.zero_mul,
      ExactUnits.zero_add]

variable {lo nominal hi α : ℝ}

/-- The line on the right of zero leads to the up histogram. -/
theorem linear_of_nonneg (h : 0 ≤ α) : linear lo nominal hi α = α * (hi - nominal) :=
  if_pos h

/-- The line on the left of zero leads to the down histogram. -/
theorem linear_of_nonpos (h : α ≤ 0) : linear lo nominal hi α = α * (nominal - lo) := by
  rcases h.lt_or_eq with h | rfl
  · exact if_neg (not_le.mpr h)
  · rw [linear_of_nonneg le_rfl, zero_mul, zero_mul]

/-- Coefficients of the polynomial `Σ cₖ α ^ (k + 1)` between the variations: half the sum of the
two differences for the odd part, and a sixteenth of their difference times `15, -10, 3` for the
even part. -/
noncomputable def bridge (lo nominal hi : ℝ) : Quintic ℝ :=
  let n (k : ℕ) : ℝ := (k : ℝ)
  let odd := Scalar.ratio 1 2 * (hi - nominal + (nominal - lo))
  let even := Scalar.ratio 1 16 * (hi - nominal - (nominal - lo))
  ⟨odd, n 15 * even, 0, -(n 10 * even), 0, n 3 * even⟩

/-- The polynomial meets the up variation at one. -/
theorem bridge_at_one (lo nominal hi : ℝ) :
    (bridge lo nominal hi).horner 1 * 1 = hi - nominal := by
  simp only [bridge, Quintic.horner, Scalar.ratio]
  push_cast
  ring

/-- The polynomial meets the down variation at minus one. -/
theorem bridge_at_neg_one (lo nominal hi : ℝ) :
    (bridge lo nominal hi).horner (-1) * -1 = lo - nominal := by
  simp only [bridge, Quintic.horner, Scalar.ratio]
  push_cast
  ring

/-- Outside of the variations the smooth code has the straight lines. -/
theorem smooth_of_one_le_abs (h : 1 ≤ |α|) : smooth lo nominal hi α = linear lo nominal hi α := by
  rw [smooth]
  dsimp only
  rcases le_abs.mp h with hright | hleft
  · rw [if_pos hright, linear_of_nonneg (zero_le_one.trans hright), mul_comm]
  · have hneg : α ≤ -1 := le_neg_of_le_neg hleft
    have hnotRight : ¬ 1 ≤ α := by linarith
    rw [if_neg hnotRight, if_pos hneg, linear_of_nonpos (by linarith), mul_comm]

/-- Between the variations, the knots included, the smooth code has the polynomial. -/
theorem smooth_of_abs_le_one (h : |α| ≤ 1) :
    smooth lo nominal hi α = (bridge lo nominal hi).horner α * α := by
  rcases h.lt_or_eq with h | h
  · obtain ⟨hleft, hright⟩ := abs_lt.mp h
    rw [smooth]
    dsimp only
    rw [if_neg (not_le.mpr hright), if_neg (not_le.mpr hleft)]
    simp only [bridge, Quintic.horner]
    push_cast
    ring
  · rw [smooth_of_one_le_abs h.ge]
    rcases eq_or_eq_neg_of_abs_eq h with rfl | rfl
    · rw [linear_of_nonneg zero_le_one, bridge_at_one, one_mul]
    · rw [linear_of_nonpos (by norm_num), bridge_at_neg_one]
      ring

end BinnedModel.AdditiveCode
