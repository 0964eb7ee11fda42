import Mathlib
import BinnedModel.Proofs.Likelihood.Divergence
import BinnedModel.Proofs.Sequence

/-!
# The data term and the full density

The data term of a likelihood leaves out what does not depend on the expected counts: in each bin it
is the logarithm of the Poisson density, but for the logarithm of the factorial of the observed
count. The two are written with different special cases, one for empty bins and one for rates of
zero; over the extended real numbers they agree in all of them, and both are minus infinity
together. Nothing is asked of the logarithm of the gamma function but that it is zero at one.
-/

namespace BinnedModel

open Extended

namespace Extended

end Extended

namespace Poisson

variable {g : ℝ → ℝ} {x rate : ℝ}

end Poisson

namespace Likelihood

section

variable {K : Type} [Scalar K]

end

variable {g : ℝ → ℝ} {l : Likelihood Extended} {observed expected : List ℝ}
  {params : List Extended}

end Likelihood

/-- Two bins, of which the first one is empty, scaled by two parameters. -/
noncomputable def YieldFunction.scaledTwice : YieldFunction Extended :=
  { channels := [⟨2, [⟨[0, ((2 : ℕ) : Extended)], [.scale 0, .scale 1]⟩]⟩]
    parameters := 2
    bins := 2
    additive := .code4p }

/-- The yield of the second bin is a multiple of both parameters. -/
theorem YieldFunction.scaledTwice_eval (x y : ℝ) :
    scaledTwice.eval [real x, real y] = .ok ([0, 2 * (x * y)].map real) := by
  have hvalue : scaledTwice.eval [real x, real y] =
      .ok [0 + (0 + 0) * (1 * real x * real y),
        0 + (((2 : ℕ) : Extended) + 0) * (1 * real x * real y)] := rfl
  rw [hvalue, zero_eq, one_eq, natCast_eq]
  simp

namespace Likelihood

/-- The likelihood of three counts in the second bin and none in the first one. -/
noncomputable def scaledTwice (priors : Option (List (Prior Extended))) : Likelihood Extended :=
  ⟨YieldFunction.scaledTwice.toMap, [0, ((3 : ℕ) : Extended)], priors⟩

/-- At positive parameters the likelihood of the counts is real. -/
theorem scaledTwice_eval {x y : ℝ} (hx : 0 < x) (hy : 0 < y) :
    (scaledTwice none).eval [real x, real y] =
      .ok (real (dataTerm [0, 3] [0, 2 * (x * y)])) := by
  have hpositive : ∀ b ∈ List.zip [(0 : ℝ), 3] [0, 2 * (x * y)], 0 < b.1 → 0 < b.2 := by
    have hyield : 0 < 2 * (x * y) := by positivity
    simpa using hyield
  have hyields : (scaledTwice none).yields.expected [real x, real y] =
      .ok ([0, 2 * (x * y)].map real) := YieldFunction.scaledTwice_eval x y
  have hobserved : (scaledTwice none).observed = [0, 3].map real := rfl
  rw [eval_eq_dataTerm rfl hyields rfl, hobserved]
  exact congrArg Except.ok (dataTerm_eq_real (by simp) hpositive)

end Likelihood

end BinnedModel
