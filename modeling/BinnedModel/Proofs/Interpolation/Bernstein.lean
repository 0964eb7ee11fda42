import Mathlib
import BinnedModel.Proofs.Scalar.Exact
import BinnedModel.Interpolation.Multiplicative

/-!
# Nonnegative slopes

Over the real numbers the test of a slope is sound. Six Bernstein coefficients that are
nonnegative belong to a polynomial that is nonnegative on the unit interval, and the coefficients
of the two halves belong to the same polynomial there, so by induction on the halvings whatever
passes the test is nonnegative. The change of basis carries this over to the slope of the
polynomial between two variations, on the whole interval between them.
-/

namespace BinnedModel.Quintic

/-- The Bernstein polynomial of degree five with the given index. -/
def bernsteinBasis (i : ℕ) (t : ℝ) : ℝ :=
  (Nat.choose 5 i : ℝ) * t ^ i * (1 - t) ^ (5 - i)

/-- Value at `t` of the polynomial of degree five with the given Bernstein coefficients. -/
def bernstein (b : Quintic ℝ) (t : ℝ) : ℝ :=
  b.c0 * bernsteinBasis 0 t + b.c1 * bernsteinBasis 1 t + b.c2 * bernsteinBasis 2 t +
    b.c3 * bernsteinBasis 3 t + b.c4 * bernsteinBasis 4 t + b.c5 * bernsteinBasis 5 t

/-- The value in powers of `t` and of its complement. -/
theorem bernstein_eq (b : Quintic ℝ) (t : ℝ) :
    b.bernstein t = b.c0 * (1 - t) ^ 5 + 5 * b.c1 * t * (1 - t) ^ 4 +
      10 * b.c2 * t ^ 2 * (1 - t) ^ 3 + 10 * b.c3 * t ^ 3 * (1 - t) ^ 2 +
      5 * b.c4 * t ^ 4 * (1 - t) + b.c5 * t ^ 5 := by
  have h2 : Nat.choose 5 2 = 10 := rfl
  have h3 : Nat.choose 5 3 = 10 := rfl
  have h4 : Nat.choose 5 4 = 5 := rfl
  simp only [bernstein, bernsteinBasis, Nat.choose_zero_right, Nat.choose_one_right,
    Nat.choose_self, h2, h3, h4]
  push_cast
  ring

/-- A polynomial with nonnegative coefficients is nonnegative on the unit interval. -/
theorem bernstein_nonneg {b : Quintic ℝ} (h : b.AllNonneg) {t : ℝ} (ht : 0 ≤ t) (ht' : t ≤ 1) :
    0 ≤ b.bernstein t := by
  obtain ⟨h0, h1, h2, h3, h4, h5⟩ := h
  have hs : 0 ≤ 1 - t := sub_nonneg.mpr ht'
  rw [bernstein_eq]
  positivity

/-- The first coefficients of a halving are those of the left half. -/
theorem bernstein_halves_left (b : Quintic ℝ) (t : ℝ) :
    b.halves.1.bernstein t = b.bernstein (t / 2) := by
  simp only [bernstein_eq, halves, middles, middle, Scalar.ratio]
  push_cast
  ring

/-- The second coefficients of a halving are those of the right half. -/
theorem bernstein_halves_right (b : Quintic ℝ) (t : ℝ) :
    b.halves.2.bernstein t = b.bernstein ((1 + t) / 2) := by
  simp only [bernstein_eq, halves, middles, middle, Scalar.ratio]
  push_cast
  ring

/-- A polynomial that is nonnegative on both halves is nonnegative. -/
theorem bernstein_nonneg_of_halves {b : Quintic ℝ}
    (hleft : ∀ t, 0 ≤ t → t ≤ 1 → 0 ≤ b.halves.1.bernstein t)
    (hright : ∀ t, 0 ≤ t → t ≤ 1 → 0 ≤ b.halves.2.bernstein t) {t : ℝ} (ht : 0 ≤ t)
    (ht' : t ≤ 1) : 0 ≤ b.bernstein t := by
  rcases le_total t (1 / 2) with hhalf | hhalf
  · have hvalue := hleft (2 * t) (by linarith) (by linarith)
    rw [bernstein_halves_left] at hvalue
    have hpoint : 2 * t / 2 = t := by ring
    rwa [hpoint] at hvalue
  · have hvalue := hright (2 * t - 1) (by linarith) (by linarith)
    rw [bernstein_halves_right] at hvalue
    have hpoint : (1 + (2 * t - 1)) / 2 = t := by ring
    rwa [hpoint] at hvalue

/-- What is found nonnegative is nonnegative on the unit interval, whatever the number of halvings,
because each half is tested as a whole interval. -/
theorem bernstein_nonneg_of_isNonneg {depth : ℕ} {b : Quintic ℝ} (h : b.isNonneg depth = true)
    {t : ℝ} (ht : 0 ≤ t) (ht' : t ≤ 1) : 0 ≤ b.bernstein t := by
  induction depth generalizing b t with
  | zero => exact bernstein_nonneg (of_decide_eq_true h) ht ht'
  | succ depth ih =>
    rw [isNonneg] at h
    split_ifs at h with hall hends
    · exact bernstein_nonneg hall ht ht'
    · obtain ⟨hleft, hright⟩ := Bool.and_eq_true_iff.mp h
      exact bernstein_nonneg_of_halves (fun t => ih hleft) (fun t => ih hright) ht ht'

/-- Bernstein coefficients are determined by the values of the polynomial. Six points fix a
polynomial of degree five; at the six taken here the equations have whole coefficients. -/
theorem bernstein_inj {b b' : Quintic ℝ} : (∀ t, b.bernstein t = b'.bernstein t) ↔ b = b' := by
  constructor
  · intro h
    have h0 := h 0
    have h1 := h 1
    have hneg := h (-1)
    have h2 := h 2
    have h3 := h 3
    have hneg2 := h (-2)
    simp only [bernstein_eq] at h0 h1 hneg h2 h3 hneg2
    obtain ⟨c0, c1, c2, c3, c4, c5⟩ := b
    obtain ⟨d0, d1, d2, d3, d4, d5⟩ := b'
    dsimp only at h0 h1 hneg h2 h3 hneg2
    rw [Quintic.mk.injEq]
    refine ⟨?_, ?_, ?_, ?_, ?_, ?_⟩ <;> linarith
  · rintro rfl t
    rfl

/-- The halves are the only coefficients of the polynomial on the two halves of the interval. -/
theorem halves_eq_iff {b left right : Quintic ℝ} : b.halves = (left, right) ↔
    (∀ t, left.bernstein t = b.bernstein (t / 2)) ∧
      ∀ t, right.bernstein t = b.bernstein ((1 + t) / 2) := by
  have hleft : b.halves.1 = left ↔ ∀ t, left.bernstein t = b.bernstein (t / 2) := by
    simp only [eq_comm (a := b.halves.1), ← bernstein_inj, bernstein_halves_left]
  have hright : b.halves.2 = right ↔ ∀ t, right.bernstein t = b.bernstein ((1 + t) / 2) := by
    simp only [eq_comm (a := b.halves.2), ← bernstein_inj, bernstein_halves_right]
  rw [Prod.ext_iff]
  exact and_congr hleft hright

/-- The change to Bernstein coefficients keeps the polynomial. -/
theorem bernstein_toBernstein (p : Quintic ℝ) (t : ℝ) :
    p.toBernstein.bernstein t = p.horner t := by
  simp only [bernstein_eq, toBernstein, horner, Scalar.ratio]
  push_cast
  ring

/-- The change of the variable to the unit interval keeps the polynomial. -/
theorem horner_recentre (p : Quintic ℝ) (t : ℝ) :
    p.recentre.horner t = p.horner (2 * t - 1) := by
  simp only [recentre, horner]
  push_cast
  ring

/-- Slope at `α` of the polynomial `1 + Σ cₖ α ^ (k + 1)`. -/
def slope (c : Quintic ℝ) (α : ℝ) : ℝ :=
  let n (k : ℕ) : ℝ := (k : ℝ)
  c.c0 + n 2 * c.c1 * α + n 3 * c.c2 * α ^ 2 + n 4 * c.c3 * α ^ 3 + n 5 * c.c4 * α ^ 4 +
    n 6 * c.c5 * α ^ 5

/-- The signed power coefficients are those of the slope with its sign. -/
theorem horner_signedSlope (sign : ℝ) (c : Quintic ℝ) (α : ℝ) :
    (c.signedSlope sign).horner α = sign * c.slope α := by
  simp only [signedSlope, horner, slope]
  push_cast
  ring

/-- The Bernstein coefficients of a slope belong to the slope with its sign, over the unit
interval. -/
theorem bernstein_slopeBernstein (sign : ℝ) (c : Quintic ℝ) (t : ℝ) :
    (c.slopeBernstein sign).bernstein t = sign * c.slope (2 * t - 1) := by
  rw [slopeBernstein, bernstein_toBernstein, horner_recentre, horner_signedSlope]

/-- A slope that is found to have a sign has this sign between the variations. -/
theorem signed_slope_nonneg {sign : ℝ} {c : Quintic ℝ} {depth : ℕ}
    (h : (c.slopeBernstein sign).isNonneg depth = true) {α : ℝ} (hα : -1 ≤ α) (hα' : α ≤ 1) :
    0 ≤ sign * c.slope α := by
  have hvalue : 0 ≤ (c.slopeBernstein sign).bernstein ((α + 1) / 2) :=
    bernstein_nonneg_of_isNonneg h (by linarith) (by linarith)
  have hpoint : 2 * ((α + 1) / 2) - 1 = α := by ring
  rwa [bernstein_slopeBernstein, hpoint] at hvalue

/-- The test of a slope is sound. Whatever the coefficients of a polynomial, the sign and the number
of halvings, if the signed slope passes the test it is nonnegative at every parameter between the
variations. The coefficients that are tested are the Bernstein coefficients of the signed slope over
the unit interval, and those of a halving are the ones of the polynomial on the two halves of its
interval; in both cases there are no others. -/
theorem signed_slope_nonneg_of_test :
    (∀ (sign : ℝ) (c : Quintic ℝ) (depth : ℕ),
      (c.slopeBernstein sign).isNonneg depth = true →
        ∀ α, -1 ≤ α → α ≤ 1 → 0 ≤ sign * c.slope α) ∧
    (∀ (sign : ℝ) (c b : Quintic ℝ),
      b = c.slopeBernstein sign ↔ ∀ t, b.bernstein t = sign * c.slope (2 * t - 1)) ∧
    ∀ b left right : Quintic ℝ, b.halves = (left, right) ↔
      (∀ t, left.bernstein t = b.bernstein (t / 2)) ∧
        ∀ t, right.bernstein t = b.bernstein ((1 + t) / 2) := by
  refine ⟨fun sign c depth h α hα hα' => signed_slope_nonneg h hα hα', fun sign c b => ?_,
    fun b left right => halves_eq_iff⟩
  rw [← bernstein_inj]
  simp only [bernstein_slopeBernstein]

/-- The coefficients of `1 + α ^ 3`, whose slope is zero at zero. -/
def cube : Quintic ℝ :=
  ⟨0, 0, 1, 0, 0, 0⟩

/-- The slope of the cube passes the test after one halving and not before, since the Bernstein
coefficients in the middle are negative; by the test it is nonnegative between the variations. -/
theorem slope_cube_nonneg :
    (cube.slopeBernstein 1).isNonneg 0 = false ∧ (cube.slopeBernstein 1).isNonneg 1 = true ∧
      ∀ α, -1 ≤ α → α ≤ 1 → 0 ≤ 1 * cube.slope α := by
  have htest : (cube.slopeBernstein 1).isNonneg 1 = true := by
    norm_num [isNonneg, AllNonneg, cube, slopeBernstein, signedSlope, recentre, toBernstein, halves,
      middles, middle, Scalar.ratio]
  refine ⟨?_, htest, signed_slope_nonneg_of_test.1 1 cube 1 htest⟩
  norm_num [isNonneg, AllNonneg, cube, slopeBernstein, signedSlope, recentre, toBernstein,
    Scalar.ratio]

end BinnedModel.Quintic
