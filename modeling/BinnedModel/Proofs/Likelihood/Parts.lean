import Mathlib
import BinnedModel.Likelihood
import BinnedModel.Proofs.Scalar.Exact

/-!
# The parts of a likelihood

A likelihood has a value at a vector of parameters if this has one entry per prior, if the yields
are defined there with one entry per observed count, and if each prior has a density. The value is
then the data term at these yields with the densities added to it.
-/

namespace BinnedModel

namespace Poisson

/-- The data term of an empty bin. -/
theorem kernel_empty (rate : ℝ) : kernel 0 rate = -rate :=
  if_pos ⟨le_refl (0 : ℝ), le_refl (0 : ℝ)⟩

/-- The data term of a bin in which something was observed. -/
theorem kernel_filled {x : ℝ} (hx : 0 < x) (rate : ℝ) :
    kernel x rate = x * Real.log rate - rate :=
  if_neg fun hzero => hx.ne' (le_antisymm hzero.1 hzero.2)

end Poisson

namespace Likelihood

variable {K : Type} {l : Likelihood K} {params expected : List K} {value : K}

/-- The parameters are as many as the priors, if there are any. -/
theorem checkParameters_eq_ok_iff :
    l.checkParameters params = .ok () ↔ ∀ ps, l.priors = some ps → params.length = ps.length := by
  unfold checkParameters
  cases l.priors with
  | none => simp
  | some ps => simp

variable [Scalar K]

/-- Where the yields are defined, the value of a likelihood is the data term with the densities
added to it, if the lengths agree. -/
theorem eval_eq_ok_iff (hexpected : l.yields.expected params = .ok expected) :
    l.eval params = .ok value ↔ (∀ ps, l.priors = some ps → params.length = ps.length) ∧
      expected.length = l.observed.length ∧
        addDensities ((l.priors.getD []).zip params) (dataTerm l.observed expected) =
          .ok value := by
  rw [← checkParameters_eq_ok_iff]
  unfold eval
  cases l.checkParameters params with
  | error f => simp
  | ok u =>
    rw [hexpected]
    dsimp only
    unfold atYields
    by_cases hlength : expected.length = l.observed.length
    · simp [hlength]
    · simp [hlength]

/-- A likelihood has a value only where the yields are defined. -/
theorem exists_expected_of_eval (h : l.eval params = .ok value) :
    ∃ expected, l.yields.expected params = .ok expected := by
  unfold eval at h
  split at h
  · cases h
  · split at h
    · cases h
    · next expected hexpected => exact ⟨expected, hexpected⟩

/-- Without priors the value of a likelihood is its data term. -/
theorem eval_eq_dataTerm (hpriors : l.priors = none)
    (hexpected : l.yields.expected params = .ok expected)
    (hlength : expected.length = l.observed.length) :
    l.eval params = .ok (dataTerm l.observed expected) := by
  refine (eval_eq_ok_iff hexpected).mpr ⟨fun ps hps => ?_, hlength, ?_⟩
  · rw [hpriors] at hps
    cases hps
  · rw [hpriors]
    rfl

end Likelihood

end BinnedModel
