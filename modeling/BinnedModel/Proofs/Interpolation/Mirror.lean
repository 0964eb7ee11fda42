import Mathlib
import BinnedModel.Proofs.Interpolation.Pieces
import BinnedModel.Proofs.Interpolation.ShiftPieces

/-!
# Exchanged variations

Over the real numbers the two variations of a factor play the same part, up to the sign of the
parameter: exchanging them replaces each code by its mirror image, and the code that is used stays
the same. For the polynomial code this means that its coefficients change sign in turn, and the
coefficients on which its slope is tested come in reverse order. The two variations of a shift play
the same part too; there the coefficients of the polynomial between them change sign in turn.
-/

namespace BinnedModel

namespace Quintic

/-- Coefficients in reverse order: the Bernstein form of the mirrored polynomial. -/
def reverse (b : Quintic ℝ) : Quintic ℝ :=
  ⟨b.c5, b.c4, b.c3, b.c2, b.c1, b.c0⟩

/-- Coefficients of `1 + Σ cₖ α ^ (k + 1)` at the negated parameter. -/
def mirror (c : Quintic ℝ) : Quintic ℝ :=
  ⟨-c.c0, c.c1, -c.c2, c.c3, -c.c4, c.c5⟩

/-- Signs do not depend on the order of the coefficients. -/
theorem allNonneg_reverse (b : Quintic ℝ) : b.reverse.AllNonneg ↔ b.AllNonneg := by
  unfold AllNonneg reverse
  tauto

/-- The halves of a reversed polynomial are the reversed halves, exchanged. -/
theorem halves_reverse (b : Quintic ℝ) :
    b.reverse.halves = (b.halves.2.reverse, b.halves.1.reverse) := by
  simp only [halves, middles, middle, reverse, Scalar.ratio]
  congr 2 <;> ring

/-- The test gives a polynomial and its reverse the same answer. -/
theorem isNonneg_reverse (depth : ℕ) (b : Quintic ℝ) :
    b.reverse.isNonneg depth = b.isNonneg depth := by
  induction depth generalizing b with
  | zero => exact decide_eq_decide.mpr (allNonneg_reverse b)
  | succ depth ih =>
    have hends : b.reverse.c0 < 0 ∨ b.reverse.c5 < 0 ↔ b.c0 < 0 ∨ b.c5 < 0 := or_comm
    have hhalves : (b.reverse.halves.1.isNonneg depth && b.reverse.halves.2.isNonneg depth) =
        (b.halves.1.isNonneg depth && b.halves.2.isNonneg depth) := by
      rw [halves_reverse, ih, ih, Bool.and_comm]
    rw [isNonneg, isNonneg, hhalves]
    simp only [allNonneg_reverse, hends]

/-- The polynomial of exchanged variations is the mirrored one. -/
theorem meeting_swap (lo hi : ℝ) : meeting hi lo = (meeting lo hi).mirror := by
  simp only [meeting, mirror, sixteenths, Scalar.ratio]
  congr 1 <;> push_cast <;> ring

/-- A mirrored polynomial takes the values of the polynomial at the negated parameter. -/
theorem horner_mirror (c : Quintic ℝ) (α : ℝ) :
    c.mirror.horner α * α = c.horner (-α) * -α := by
  simp only [mirror, horner]
  ring

/-- The slope of a mirrored polynomial has the coefficients of the opposite slope, reversed. -/
theorem slopeBernstein_mirror (sign : ℝ) (c : Quintic ℝ) :
    c.mirror.slopeBernstein (-sign) = (c.slopeBernstein sign).reverse := by
  simp only [slopeBernstein, signedSlope, recentre, toBernstein, mirror, reverse, Scalar.ratio]
  congr 1 <;> push_cast <;> ring

/-- The slope of the polynomial of exchanged variations passes the test exactly if the opposite
slope does. -/
theorem isNonneg_slope_swap (depth : ℕ) (sign lo hi : ℝ) :
    ((meeting hi lo).slopeBernstein (-sign)).isNonneg depth =
      ((meeting lo hi).slopeBernstein sign).isNonneg depth := by
  rw [meeting_swap, slopeBernstein_mirror, isNonneg_reverse]

end Quintic

namespace MultiplicativeCode

/-- The polynomial is used for two variations exactly if it is used for the exchanged ones. -/
theorem keepsPolynomial_swap (lo hi : ℝ) : keepsPolynomial hi lo = keepsPolynomial lo hi := by
  have hup := Quintic.isNonneg_slope_swap slopeDepth 1 lo hi
  have hdown := Quintic.isNonneg_slope_swap slopeDepth (-1) lo hi
  rw [neg_neg] at hdown
  unfold keepsPolynomial
  dsimp only
  by_cases hrising : lo < 1 ∧ 1 < hi
  · have hfalling : ¬ (hi < 1 ∧ 1 < lo) := fun h => lt_asymm h.1 hrising.2
    rw [if_pos hrising, if_neg hfalling, if_pos hrising]
    exact hup
  · by_cases hfalling : hi < 1 ∧ 1 < lo
    · rw [if_pos hfalling, if_neg hrising, if_pos hfalling]
      exact hdown
    · rw [if_neg hfalling, if_neg hrising, if_neg hrising, if_neg hfalling]

/-- The code that is used does not depend on which variation is up. -/
theorem effective_swap (code : MultiplicativeCode) (lo hi : ℝ) :
    code.effective hi lo = code.effective lo hi := by
  cases code with
  | code1 => rfl
  | code4 =>
    have hpositive : 0 < hi ∧ 0 < lo ↔ 0 < lo ∧ 0 < hi := and_comm
    simp only [effective, keepsPolynomial_swap lo hi, hpositive]

/-- Exchanged variations are blended to the mirror image. -/
theorem blend_swap (lo hi α : ℝ) : blend hi lo (-α) = blend lo hi α := by
  rcases le_total 0 α with h | h
  · rw [blend_of_nonneg h, blend_of_nonpos (neg_nonpos.mpr h)]
    ring
  · rw [blend_of_nonpos h, blend_of_nonneg (neg_nonneg.mpr h)]
    ring

/-- Exponentials of exchanged variations are mirror images. -/
theorem exponential_swap (lo hi α : ℝ) : exponential hi lo (-α) = exponential lo hi α := by
  rcases le_total 0 α with h | h
  · rw [exponential_of_nonneg h, exponential_of_nonpos (neg_nonpos.mpr h), neg_neg]
  · rw [exponential_of_nonpos h, exponential_of_nonneg (neg_nonneg.mpr h)]

/-- Polynomials of exchanged variations, with the exponentials outside, are mirror images. -/
theorem polynomial_swap (lo hi α : ℝ) : polynomial hi lo (-α) = polynomial lo hi α := by
  rcases le_total 1 |α| with h | h
  · have hneg : 1 ≤ |-α| := by rwa [abs_neg]
    rw [polynomial_of_one_le_abs h, polynomial_of_one_le_abs hneg, exponential_swap]
  · have hneg : |-α| ≤ 1 := by rwa [abs_neg]
    rw [polynomial_of_abs_le_one h, polynomial_of_abs_le_one hneg, Quintic.meeting_swap,
      Quintic.horner_mirror, neg_neg]

/-- The factor of exchanged variations is the one at the negated parameter. -/
theorem interpolate_swap (code : MultiplicativeCode) (lo hi α : ℝ) :
    code.interpolate hi lo (-α) = code.interpolate lo hi α := by
  have hpositive : lo ≤ 0 ∨ hi ≤ 0 ↔ hi ≤ 0 ∨ lo ≤ 0 := or_comm
  simp only [interpolate, factor, effective_swap code lo hi, blend_swap, exponential_swap,
    polynomial_swap, hpositive]

end MultiplicativeCode

namespace AdditiveCode

/-- Straight lines of exchanged variations are mirror images. -/
theorem linear_swap (lo nominal hi α : ℝ) : linear hi nominal lo (-α) = linear lo nominal hi α := by
  rcases le_total 0 α with h | h
  · rw [linear_of_nonneg h, linear_of_nonpos (neg_nonpos.mpr h)]
    ring
  · rw [linear_of_nonpos h, linear_of_nonneg (neg_nonneg.mpr h)]
    ring

/-- The polynomial of exchanged variations is the mirrored one. -/
theorem bridge_swap (lo nominal hi : ℝ) : bridge hi nominal lo = (bridge lo nominal hi).mirror := by
  simp only [bridge, Quintic.mirror, Scalar.ratio]
  congr 1 <;> push_cast <;> ring

/-- Polynomials of exchanged variations, with the straight lines outside, are mirror images. -/
theorem smooth_swap (lo nominal hi α : ℝ) : smooth hi nominal lo (-α) = smooth lo nominal hi α := by
  rcases le_total 1 |α| with h | h
  · have hneg : 1 ≤ |-α| := by rwa [abs_neg]
    rw [smooth_of_one_le_abs h, smooth_of_one_le_abs hneg, linear_swap]
  · have hneg : |-α| ≤ 1 := by rwa [abs_neg]
    rw [smooth_of_abs_le_one h, smooth_of_abs_le_one hneg, bridge_swap, Quintic.horner_mirror,
      neg_neg]

/-- The shift of exchanged variations is the one at the negated parameter. -/
theorem shift_swap (code : AdditiveCode) (lo nominal hi α : ℝ) :
    code.shift hi nominal lo (-α) = code.shift lo nominal hi α := by
  cases code with
  | code0 => exact linear_swap lo nominal hi α
  | code4p => exact smooth_swap lo nominal hi α

end AdditiveCode

/-- Exchanging the two variations is the same as negating the parameter, for factors of any
variations and for shifts, under each code. The code that is settled on for a pair of factors does
not depend on which of the two is up. -/
theorem exchanged_variations :
    (∀ (code : MultiplicativeCode) (lo hi α : ℝ),
      code.effective lo hi = code.effective hi lo ∧
        code.interpolate lo hi α = code.interpolate hi lo (-α)) ∧
    ∀ (code : AdditiveCode) (lo nominal hi α : ℝ),
      code.shift lo nominal hi α = code.shift hi nominal lo (-α) := by
  refine ⟨fun code lo hi α => ⟨?_, ?_⟩, fun code lo nominal hi α => ?_⟩
  · exact (code.effective_swap lo hi).symm
  · exact (code.interpolate_swap lo hi α).symm
  · exact (code.shift_swap lo nominal hi α).symm

end BinnedModel
