import Mathlib
import BinnedModel.Proofs.Likelihood.Parts
import BinnedModel.Proofs.Scalar.Extended

/-!
# Where a likelihood diverges

The data term takes the logarithm of the expected count wherever something was observed. Over the
extended real numbers this has three outcomes at real counts, and the signs of the expected counts
in these bins tell which one: if all of them are positive, the likelihood is a real number; if one
is zero and none is negative, it is minus infinity; and if one is negative, it is undefined,
whatever the other bins contribute. Bins in which nothing was observed take no part in this, their
expected counts may have any sign.
-/

namespace BinnedModel

open Extended

namespace Poisson

/-- The data term of a bin in which nothing was observed is real. -/
theorem kernel_nothing (rate : ℝ) : kernel (real 0) (real rate) = real (kernel 0 rate) := by
  have hextended : kernel (real 0) (real rate) = -real rate := if_pos (agrees_real.mpr rfl)
  rw [hextended, kernel_empty, neg_real]

variable {x rate : ℝ}

/-- Where something was observed, the data term is made with the logarithm of the rate. -/
theorem kernel_something (hx : 0 < x) (rate : Extended) :
    kernel (real x) rate = real x * Scalar.log rate - rate :=
  if_neg fun hzero => hx.ne' (agrees_real.mp hzero)

/-- Something was observed at a positive rate: the data term is real. -/
theorem kernel_of_pos (hx : 0 < x) (hrate : 0 < rate) :
    kernel (real x) (real rate) = real (kernel x rate) := by
  rw [kernel_something hx, kernel_filled hx, log_of_pos hrate, real_mul, real_sub]

/-- Something was observed at rate zero: the data term is minus infinity. -/
theorem kernel_of_zero (hx : 0 < x) : kernel (real x) (real 0) = minusInfinity := by
  rw [kernel_something hx, log_zero, real_mul_minusInfinity hx]
  rfl

/-- Something was observed at a negative rate: the data term is undefined. -/
theorem kernel_of_neg (hx : 0 < x) (hrate : rate < 0) :
    kernel (real x) (real rate) = undefined := by
  rw [kernel_something hx, log_of_neg hrate, mul_undefined, undefined_sub]

end Poisson

namespace Likelihood

variable {observed expected : List ℝ}

/-- The data term at real counts, bin by bin. -/
theorem dataTerm_eq_total (observed expected : List ℝ) :
    dataTerm (observed.map real) (expected.map real) =
      Scalar.total ((observed.zip expected).map fun b => Poisson.kernel (real b.1) (real b.2)) := by
  rw [dataTerm, List.zipWith_map, List.map_zip_eq_zipWith]
  rfl

/-- A negative expected count where something was observed makes the data term undefined. -/
theorem dataTerm_eq_undefined (h : ∃ b ∈ observed.zip expected, 0 < b.1 ∧ b.2 < 0) :
    dataTerm (observed.map real) (expected.map real) = undefined := by
  obtain ⟨b, hb, hcount, hrate⟩ := h
  rw [dataTerm_eq_total]
  refine total_eq_undefined (List.mem_map.mpr ⟨b, hb, ?_⟩)
  exact Poisson.kernel_of_neg hcount hrate

/-- With positive expected counts where something was observed, the data term is real. -/
theorem dataTerm_eq_real (hcounts : ∀ x ∈ observed, 0 ≤ x)
    (h : ∀ b ∈ observed.zip expected, 0 < b.1 → 0 < b.2) :
    dataTerm (observed.map real) (expected.map real) = real (dataTerm observed expected) := by
  have hterms : ((observed.zip expected).map fun b => Poisson.kernel (real b.1) (real b.2)) =
      (List.zipWith Poisson.kernel observed expected).map real := by
    rw [← List.map_uncurry_zip_eq_zipWith, List.map_map]
    refine List.map_congr_left fun b hb => ?_
    rcases (hcounts b.1 (List.of_mem_zip hb).1).lt_or_eq with hpos | hzero
    · exact Poisson.kernel_of_pos hpos (h b hb hpos)
    · change Poisson.kernel (real b.1) (real b.2) = real (Poisson.kernel b.1 b.2)
      rw [← hzero]
      exact Poisson.kernel_nothing b.2
  rw [dataTerm_eq_total, hterms, total_map_real]
  rfl

/-- An expected count of zero where something was observed makes the data term minus infinity, if
no expected count there is negative. -/
theorem dataTerm_eq_minusInfinity (hcounts : ∀ x ∈ observed, 0 ≤ x)
    (hnonneg : ∀ b ∈ observed.zip expected, 0 < b.1 → 0 ≤ b.2)
    (hzero : ∃ b ∈ observed.zip expected, 0 < b.1 ∧ b.2 = 0) :
    dataTerm (observed.map real) (expected.map real) = minusInfinity := by
  rw [dataTerm_eq_total]
  refine total_eq_minusInfinity (fun term hterm => ?_) ?_
  · obtain ⟨b, hb, rfl⟩ := List.mem_map.mp hterm
    rcases (hcounts b.1 (List.of_mem_zip hb).1).lt_or_eq with hpos | hempty
    · rcases (hnonneg b hb hpos).lt_or_eq with hrate | hrate
      · rw [Poisson.kernel_of_pos hpos hrate]
        trivial
      · rw [← hrate, Poisson.kernel_of_zero hpos]
        trivial
    · rw [← hempty, Poisson.kernel_nothing]
      trivial
  · obtain ⟨b, hb, hpos, hrate⟩ := hzero
    refine List.mem_map.mpr ⟨b, hb, ?_⟩
    rw [hrate, Poisson.kernel_of_zero hpos]

/-- At real counts, of which none that was observed is negative, a likelihood without priors has a
value. It is undefined exactly if an expected count is negative where something was observed; it is
minus infinity exactly if one is zero there and none is negative; and otherwise it is the real
likelihood. -/
theorem divergence_of_counts {l : Likelihood Extended} {params : List Extended}
    (hpriors : l.priors = none) (hobserved : l.observed = observed.map real)
    (hcounts : ∀ x ∈ observed, 0 ≤ x)
    (hexpected : l.yields.expected params = .ok (expected.map real))
    (hlength : expected.length = observed.length) :
    ∃ value, l.eval params = .ok value ∧
      (value = undefined ↔ ∃ b ∈ observed.zip expected, 0 < b.1 ∧ b.2 < 0) ∧
      (value = minusInfinity ↔ (∃ b ∈ observed.zip expected, 0 < b.1 ∧ b.2 = 0) ∧
        ∀ b ∈ observed.zip expected, 0 < b.1 → 0 ≤ b.2) ∧
      ((∀ b ∈ observed.zip expected, 0 < b.1 → 0 < b.2) →
        value = real (dataTerm observed expected)) := by
  have hlengths : (expected.map real).length = l.observed.length := by
    rw [hobserved, List.length_map, List.length_map, hlength]
  refine ⟨_, eval_eq_dataTerm hpriors hexpected hlengths, ?_⟩
  rw [hobserved]
  by_cases hnegative : ∃ b ∈ observed.zip expected, 0 < b.1 ∧ b.2 < 0
  · have hvalue := dataTerm_eq_undefined hnegative
    obtain ⟨b, hb, hpos, hrate⟩ := hnegative
    rw [hvalue]
    refine ⟨iff_of_true rfl ⟨b, hb, hpos, hrate⟩, iff_of_false nofun fun h => ?_, fun h => ?_⟩
    · exact not_le.mpr hrate (h.2 b hb hpos)
    · exact absurd (h b hb hpos) hrate.not_gt
  · have hnonneg : ∀ b ∈ observed.zip expected, 0 < b.1 → 0 ≤ b.2 := fun b hb hpos =>
      not_lt.mp fun hrate => hnegative ⟨b, hb, hpos, hrate⟩
    by_cases hzero : ∃ b ∈ observed.zip expected, 0 < b.1 ∧ b.2 = 0
    · rw [dataTerm_eq_minusInfinity hcounts hnonneg hzero]
      refine ⟨iff_of_false nofun hnegative, iff_of_true rfl ⟨hzero, hnonneg⟩, fun h => ?_⟩
      obtain ⟨b, hb, hpos, hrate⟩ := hzero
      exact absurd hrate (h b hb hpos).ne'
    · have hpositive : ∀ b ∈ observed.zip expected, 0 < b.1 → 0 < b.2 := fun b hb hpos =>
        (hnonneg b hb hpos).lt_of_ne fun hrate => hzero ⟨b, hb, hpos, hrate.symm⟩
      rw [dataTerm_eq_real hcounts hpositive]
      exact ⟨iff_of_false nofun hnegative, iff_of_false nofun fun h => hzero h.1, fun _ => rfl⟩

end Likelihood

/-- One bin with a nominal yield of five, between one and nine under its only parameter. -/
noncomputable def YieldFunction.steep : YieldFunction Extended :=
  { channels :=
      [⟨1, [⟨[((5 : ℕ) : Extended)],
        [.morph 0 [((1 : ℕ) : Extended)] [((9 : ℕ) : Extended)]]⟩]⟩]
    parameters := 1
    bins := 1
    additive := .code4p }

/-- Below the lower variation the yield falls along a straight line, also below zero. -/
theorem YieldFunction.steep_eval {x : ℝ} (h : x ≤ -1) :
    steep.eval [real x] = .ok [real (5 + 4 * x)] := by
  have hshift : AdditiveCode.code4p.shift ((1 : ℕ) : Extended) ((5 : ℕ) : Extended)
      ((9 : ℕ) : Extended) (real x) = real (4 * x) := by
    have hright : ¬ (1 : Extended) ≤ real x := by
      rw [one_eq, real_le]
      linarith
    have hleft : real x ≤ -1 := by
      rwa [one_eq, neg_real, real_le]
    rw [AdditiveCode.shift, AdditiveCode.smooth]
    dsimp only
    rw [if_neg hright, if_pos hleft, natCast_eq, natCast_eq, real_sub, real_mul]
    congr 2
    norm_num
  have hvalue : steep.eval [real x] = .ok [0 + (((5 : ℕ) : Extended) +
      (0 + AdditiveCode.code4p.shift ((1 : ℕ) : Extended) ((5 : ℕ) : Extended)
        ((9 : ℕ) : Extended) (real x))) * 1] := rfl
  rw [hvalue, hshift, zero_eq, one_eq, natCast_eq]
  simp

namespace Likelihood

/-- The likelihood of three observed counts in this bin. -/
noncomputable def steep : Likelihood Extended :=
  ⟨YieldFunction.steep.toMap, [((3 : ℕ) : Extended)], none⟩

/-- Where the yield has fallen to zero the likelihood is minus infinity. -/
theorem steep_at_zero : steep.eval [real (-5 / 4)] = .ok minusInfinity := by
  have hyields : steep.yields.expected [real (-5 / 4)] = .ok ([0].map real) := by
    have hvalue := YieldFunction.steep_eval (show (-5 / 4 : ℝ) ≤ -1 by norm_num)
    rwa [show (5 + 4 * (-5 / 4) : ℝ) = 0 by norm_num] at hvalue
  obtain ⟨value, hvalue, -, hinfinite, -⟩ :=
    divergence_of_counts rfl (show steep.observed = [3].map real from rfl) (by simp) hyields rfl
  rw [hvalue, hinfinite.mpr]
  simp

/-- Where the yield has fallen below zero the likelihood is not minus infinity but undefined, even
though counts were observed and the expected count is negative. -/
theorem steep_below_zero :
    steep.yields.expected [real (-2)] = .ok [real (-3)] ∧ steep.observed = [real 3] ∧
      steep.priors = none ∧ steep.eval [real (-2)] = .ok undefined ∧
      steep.eval [real (-2)] ≠ .ok minusInfinity := by
  have hyields : steep.yields.expected [real (-2)] = .ok ([-3].map real) := by
    have hvalue := YieldFunction.steep_eval (show (-2 : ℝ) ≤ -1 by norm_num)
    rwa [show (5 + 4 * (-2) : ℝ) = -3 by norm_num] at hvalue
  have hterm : dataTerm ([3].map real) ([-3].map real) = undefined :=
    dataTerm_eq_undefined ⟨(3, -3), by simp⟩
  have hvalue : steep.eval [real (-2)] = .ok undefined := by
    rw [← hterm]
    exact eval_eq_dataTerm rfl hyields rfl
  refine ⟨hyields, rfl, rfl, hvalue, ?_⟩
  rw [hvalue]
  exact nofun

end Likelihood

end BinnedModel
