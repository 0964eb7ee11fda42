import Mathlib
import BinnedModel.Proofs.Interpolation.Mirror
import BinnedModel.Proofs.Interpolation.Bernstein

/-!
# Precision of the test of a slope

A test that refuses every polynomial would be sound too. This one refuses only what comes close to
zero: Bernstein coefficients lie above the values of the polynomial at the nodes, up to the greatest
second difference between neighbours, and each halving divides that difference by four. So a
polynomial is found nonnegative within a number of halvings if it keeps a margin that shrinks with
the same power of four. What is found nonnegative stays so with more halvings.
-/

namespace BinnedModel.Quintic

/-- One more halving loses nothing, over any scalars, because both halves gain one too. -/
theorem isNonneg_succ {K : Type} [Scalar K] {depth : ℕ} {b : Quintic K}
    (h : b.isNonneg depth = true) : b.isNonneg (depth + 1) = true := by
  induction depth generalizing b with
  | zero => exact if_pos (of_decide_eq_true h)
  | succ depth ih =>
    rw [isNonneg] at h ⊢
    split_ifs at h ⊢ with hall hends
    · rfl
    · obtain ⟨hleft, hright⟩ := Bool.and_eq_true_iff.mp h
      exact Bool.and_eq_true_iff.mpr ⟨ih hleft, ih hright⟩

/-- Any number of further halvings loses nothing. -/
theorem isNonneg_of_le {K : Type} [Scalar K] {depth depth' : ℕ} (hle : depth ≤ depth')
    {b : Quintic K} (h : b.isNonneg depth = true) : b.isNonneg depth' = true := by
  induction hle with
  | refl => exact h
  | step _ ih => exact isNonneg_succ ih

/-- The second difference of three neighbouring coefficients. -/
def secondDifference (x y z : ℝ) : ℝ :=
  x - ((2 : ℕ) : ℝ) * y + z

/-- The greatest absolute second difference of the coefficients. -/
def bend (b : Quintic ℝ) : ℝ :=
  max (max |secondDifference b.c0 b.c1 b.c2| |secondDifference b.c1 b.c2 b.c3|)
    (max |secondDifference b.c2 b.c3 b.c4| |secondDifference b.c3 b.c4 b.c5|)

/-- A number bounds the bend exactly if it bounds each second difference from both sides. -/
theorem bend_le_iff {b : Quintic ℝ} {m : ℝ} : b.bend ≤ m ↔
    ((-m ≤ b.c0 - 2 * b.c1 + b.c2 ∧ b.c0 - 2 * b.c1 + b.c2 ≤ m) ∧
      -m ≤ b.c1 - 2 * b.c2 + b.c3 ∧ b.c1 - 2 * b.c2 + b.c3 ≤ m) ∧
    (-m ≤ b.c2 - 2 * b.c3 + b.c4 ∧ b.c2 - 2 * b.c3 + b.c4 ≤ m) ∧
      -m ≤ b.c3 - 2 * b.c4 + b.c5 ∧ b.c3 - 2 * b.c4 + b.c5 ≤ m := by
  simp only [bend, secondDifference, max_le_iff, abs_le, Nat.cast_ofNat]

/-- A bend is not negative. -/
theorem bend_nonneg (b : Quintic ℝ) : 0 ≤ b.bend :=
  (abs_nonneg _).trans ((le_max_left _ _).trans (le_max_left _ _))

/-- Coefficients in reverse order bend as much. -/
theorem bend_reverse (b : Quintic ℝ) : b.reverse.bend = b.bend := by
  have hswap : ∀ x y z : ℝ, secondDifference z y x = secondDifference x y z := by
    intro x y z
    unfold secondDifference
    ring
  unfold bend reverse
  dsimp only
  rw [hswap b.c3, hswap b.c2, hswap b.c1, hswap b.c0]
  exact (max_comm _ _).trans (congrArg₂ max (max_comm _ _) (max_comm _ _))

/-- The second differences of the left half are weighted means of those of the whole, divided by
four. -/
theorem bend_left_le (b : Quintic ℝ) : b.halves.1.bend ≤ b.bend / 4 := by
  obtain ⟨⟨⟨h0, h0'⟩, h1, h1'⟩, ⟨h2, h2'⟩, h3, h3'⟩ := bend_le_iff.mp (le_refl b.bend)
  rw [bend_le_iff]
  simp only [halves, middles, middle, Scalar.ratio]
  push_cast
  refine ⟨⟨⟨?_, ?_⟩, ?_, ?_⟩, ⟨?_, ?_⟩, ?_, ?_⟩ <;> linarith

/-- The right half bends as little as the left one, since it is the left half of the reverse. -/
theorem bend_right_le (b : Quintic ℝ) : b.halves.2.bend ≤ b.bend / 4 := by
  have hleft := bend_left_le b.reverse
  rwa [halves_reverse, bend_reverse, bend_reverse] at hleft

/-- Each coefficient lies above the value of the polynomial at its node, up to the bend: the
difference of both is a sum of second differences with weights that add up to less than one. -/
theorem bernstein_node_sub_bend_le (b : Quintic ℝ) :
    b.bernstein 0 - b.bend ≤ b.c0 ∧ b.bernstein (1 / 5) - b.bend ≤ b.c1 ∧
      b.bernstein (2 / 5) - b.bend ≤ b.c2 ∧ b.bernstein (3 / 5) - b.bend ≤ b.c3 ∧
      b.bernstein (4 / 5) - b.bend ≤ b.c4 ∧ b.bernstein 1 - b.bend ≤ b.c5 := by
  have hbend := bend_nonneg b
  obtain ⟨⟨⟨h0, h0'⟩, h1, h1'⟩, ⟨h2, h2'⟩, h3, h3'⟩ := bend_le_iff.mp (le_refl b.bend)
  simp only [bernstein_eq]
  refine ⟨?_, ?_, ?_, ?_, ?_, ?_⟩ <;> linarith

/-- A polynomial that does not fall below its bend has no negative coefficient. -/
theorem allNonneg_of_bend_le {b : Quintic ℝ}
    (h : ∀ t, 0 ≤ t → t ≤ 1 → b.bend ≤ b.bernstein t) : b.AllNonneg := by
  obtain ⟨h0, h1, h2, h3, h4, h5⟩ := bernstein_node_sub_bend_le b
  have hnode : ∀ {t c : ℝ}, b.bernstein t - b.bend ≤ c → 0 ≤ t → t ≤ 1 → 0 ≤ c :=
    fun hc ht ht' => (sub_nonneg.mpr (h _ ht ht')).trans hc
  refine ⟨hnode h0 ?_ ?_, hnode h1 ?_ ?_, hnode h2 ?_ ?_, hnode h3 ?_ ?_, hnode h4 ?_ ?_,
    hnode h5 ?_ ?_⟩ <;> norm_num

/-- A polynomial that keeps its bend, divided by four for each halving, as a margin above zero is
found nonnegative. A half keeps the margin of the whole, and its bend is a quarter, so it needs one
halving less. -/
theorem isNonneg_of_margin {depth : ℕ} {b : Quintic ℝ}
    (h : ∀ t, 0 ≤ t → t ≤ 1 → b.bend / 4 ^ depth ≤ b.bernstein t) :
    b.isNonneg depth = true := by
  induction depth generalizing b with
  | zero =>
    refine decide_eq_true (allNonneg_of_bend_le fun t ht ht' => ?_)
    have hvalue := h t ht ht'
    rwa [pow_zero, div_one] at hvalue
  | succ depth ih =>
    have hpower : (0 : ℝ) < 4 ^ depth := by positivity
    have hmargin : ∀ half : Quintic ℝ, half.bend ≤ b.bend / 4 →
        half.bend / 4 ^ depth ≤ b.bend / 4 ^ (depth + 1) := by
      intro half hhalf
      calc half.bend / 4 ^ depth ≤ b.bend / 4 / 4 ^ depth :=
            div_le_div_of_nonneg_right hhalf hpower.le
        _ = b.bend / 4 ^ (depth + 1) := by rw [div_div, pow_succ, mul_comm]
    have hends : 0 ≤ b.bernstein 0 ∧ 0 ≤ b.bernstein 1 := by
      have hzero : 0 ≤ b.bend / 4 ^ (depth + 1) := div_nonneg (bend_nonneg b) (by positivity)
      exact ⟨hzero.trans (h 0 le_rfl zero_le_one), hzero.trans (h 1 zero_le_one le_rfl)⟩
    have hopen : ¬ (b.c0 < 0 ∨ b.c5 < 0) := by
      rw [bernstein_eq, bernstein_eq] at hends
      rw [not_or, not_lt, not_lt]
      constructor <;> linarith
    have hleft : b.halves.1.isNonneg depth = true := by
      refine ih fun t ht ht' => (hmargin _ (bend_left_le b)).trans ?_
      rw [bernstein_halves_left]
      exact h _ (by linarith) (by linarith)
    have hright : b.halves.2.isNonneg depth = true := by
      refine ih fun t ht ht' => (hmargin _ (bend_right_le b)).trans ?_
      rw [bernstein_halves_right]
      exact h _ (by linarith) (by linarith)
    rw [isNonneg, if_neg hopen, hleft, hright]
    exact ite_self true

/-- The test is precise up to the number of its halvings. It finds a polynomial nonnegative that
nowhere on the unit interval falls below the greatest absolute second difference of its Bernstein
coefficients, divided by four for each halving, and with further halvings it still does whatever it
did before. -/
theorem isNonneg_precise (b : Quintic ℝ) :
    (∀ depth : ℕ, (∀ t, 0 ≤ t → t ≤ 1 → b.bend / 4 ^ depth ≤ b.bernstein t) →
      b.isNonneg depth = true) ∧
    ∀ depth depth' : ℕ, depth ≤ depth' → b.isNonneg depth = true → b.isNonneg depth' = true :=
  ⟨fun _ h => isNonneg_of_margin h, fun _ _ hle h => isNonneg_of_le hle h⟩

/-- The coefficients of a parabola that comes down to one tenth in the middle. -/
noncomputable def shallow : Quintic ℝ :=
  ⟨Scalar.ratio 11 10, Scalar.ratio 3 10, Scalar.ratio (-1) 10, Scalar.ratio (-1) 10,
    Scalar.ratio 3 10, Scalar.ratio 11 10⟩

/-- The parabola has negative coefficients, but keeps a margin of a quarter of its bend, so one
halving is enough, and so are twelve. -/
theorem isNonneg_shallow : shallow.isNonneg 0 = false ∧ shallow.isNonneg 1 = true ∧
    shallow.isNonneg 12 = true := by
  have hvalue : ∀ t, shallow.bernstein t = (2 * t - 1) ^ 2 + 1 / 10 := by
    intro t
    simp only [bernstein_eq, shallow, Scalar.ratio]
    push_cast
    ring
  have hbend : shallow.bend = 2 / 5 := by
    norm_num [bend, secondDifference, shallow, Scalar.ratio]
  have htest : shallow.isNonneg 1 = true := by
    refine (isNonneg_precise shallow).1 1 fun t _ _ => ?_
    rw [hvalue, hbend]
    nlinarith [sq_nonneg (2 * t - 1)]
  refine ⟨?_, htest, (isNonneg_precise shallow).2 1 12 (by omega) htest⟩
  norm_num [isNonneg, AllNonneg, shallow, Scalar.ratio]

end BinnedModel.Quintic
