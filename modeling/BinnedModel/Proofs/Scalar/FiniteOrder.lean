import Mathlib
import BinnedModel.Options
import BinnedModel.Prior.Basic
import BinnedModel.Scalar.Binary64

/-!
# The order of finite scalars

The checks on intervals and widths are written so that an undefined scalar fails them. On
finite scalars they are the usual conditions, because there the two order tests are each
other's negation. Doubles have this property, although neither test is total on them: the
comparison of two finite doubles has an outcome, and exchanging the sides reverses it.
-/

namespace BinnedModel

/-- Scalars whose finite members are ordered by the two order tests. -/
class Scalar.OrdersFinite (K : Type) [Scalar K] : Prop where
  /-- Zero is finite. -/
  finite_zero : Scalar.isFinite (0 : K) = true
  /-- One is finite. -/
  finite_one : Scalar.isFinite (1 : K) = true
  /-- Zero is below one. -/
  zero_lt_one : (0 : K) < 1
  /-- No scalar is below itself. -/
  lt_irrefl : ∀ x : K, ¬ x < x
  /-- On finite scalars the order tests are each other's negation. -/
  le_iff_not_lt : ∀ x y : K, Scalar.isFinite x = true → Scalar.isFinite y = true →
    (x ≤ y ↔ ¬ y < x)

namespace Binary64

open Float.Model (UnpackedFloat)

/-- Exchanging the sides reverses a comparison of magnitudes. -/
theorem magnitude_swap (e e' : ℤ) (m m' : ℕ) :
    (compare e' e).then (compare m' m) = ((compare e e').then (compare m m')).swap := by
  rw [Ordering.swap_then, ← Std.OrientedOrd.eq_swap, ← Std.OrientedOrd.eq_swap]

/-- Exchanging the sides reverses a comparison. -/
theorem compare_swap (x y : UnpackedFloat) :
    y.compare x = (x.compare y).map Ordering.swap := by
  cases x with
  | notANumber => cases y <;> rfl
  | infinity s =>
    cases y with
    | notANumber => cases s <;> rfl
    | infinity s' => cases s <;> cases s' <;> rfl
    | zero s' => cases s <;> rfl
    | finite s' m' e' h' => cases s <;> cases s' <;> rfl
  | zero s =>
    cases y with
    | notANumber => rfl
    | infinity s' => cases s' <;> rfl
    | zero s' => rfl
    | finite s' m' e' h' => cases s' <;> rfl
  | finite s m e h =>
    cases y with
    | notANumber => cases s <;> rfl
    | infinity s' => cases s <;> cases s' <;> rfl
    | zero s' => cases s <;> rfl
    | finite s' m' e' h' =>
      cases s <;> cases s' <;>
        simp [UnpackedFloat.compare, magnitude_swap e e' m m']

/-- A comparison of finite doubles has an outcome. -/
theorem exists_compare {x y : UnpackedFloat} (hx : x.isFinite = true) (hy : y.isFinite = true) :
    ∃ c, x.compare y = some c := by
  cases x with
  | notANumber => cases hx
  | infinity s => cases hx
  | zero s =>
    cases y with
    | notANumber => cases hy
    | infinity s' => cases hy
    | zero s' => exact ⟨_, rfl⟩
    | finite s' m' e' h' => cases s' <;> exact ⟨_, rfl⟩
  | finite s m e h =>
    cases y with
    | notANumber => cases hy
    | infinity s' => cases hy
    | zero s' => cases s <;> exact ⟨_, rfl⟩
    | finite s' m' e' h' => cases s <;> cases s' <;> exact ⟨_, rfl⟩

/-- A double is at most another one if their comparison says so. -/
theorem le_iff_compare {x y : Float} {c : Ordering}
    (h : x.toModel.unpack.compare y.toModel.unpack = some c) : x ≤ y ↔ c.isLE = true := by
  change decide ((x.toModel.unpack.compare y.toModel.unpack).any Ordering.isLE = true) = true ↔ _
  rw [h, decide_eq_true_eq]
  rfl

/-- A double is below another one if their comparison says so. -/
theorem lt_iff_compare {x y : Float} :
    x < y ↔ x.toModel.unpack.compare y.toModel.unpack = some .lt := by
  change decide ((x.toModel.unpack.compare y.toModel.unpack == some .lt) = true) = true ↔ _
  rw [decide_eq_true_eq, beq_iff_eq]

/-- Finite doubles are ordered by the two order tests. -/
instance : Scalar.OrdersFinite Float where
  finite_zero := by decide
  finite_one := by decide
  zero_lt_one := by decide
  lt_irrefl := by
    intro x h
    have hlt := lt_iff_compare.mp h
    have hswap := compare_swap x.toModel.unpack x.toModel.unpack
    rw [hlt] at hswap
    cases hswap
  le_iff_not_lt := by
    intro x y hx hy
    obtain ⟨c, hc⟩ := exists_compare hx hy
    rw [le_iff_compare hc, lt_iff_compare, compare_swap x.toModel.unpack, hc]
    cases c <;> decide

end Binary64

variable {K : Type} [Scalar K]

/-- The ends of an interval that is finite and not reversed. -/
def Scalar.Interval (a b : K) : Prop :=
  Scalar.isFinite a = true ∧ Scalar.isFinite b = true ∧ a ≤ b

/-- The centre and the width of a Gaussian: both are finite, and the width is positive. -/
def Scalar.Gaussian (mu sigma : K) : Prop :=
  Scalar.isFinite mu = true ∧ Scalar.isFinite sigma = true ∧ 0 < sigma

variable [Scalar.OrdersFinite K]

/-- The test on the ends of an interval finds those that are infinite or reversed. -/
theorem Scalar.interval_iff {a b : K} : Scalar.Interval a b ↔
    ¬ (Scalar.isFinite a = false ∨ Scalar.isFinite b = false ∨ b < a) := by
  rw [not_or, not_or, Bool.not_eq_false, Bool.not_eq_false]
  refine and_congr_right fun ha => and_congr_right fun hb => ?_
  exact OrdersFinite.le_iff_not_lt a b ha hb

/-- A single finite point is an interval. -/
theorem Scalar.interval_self_iff {a : K} :
    Scalar.Interval a a ↔ Scalar.isFinite a = true := by
  constructor
  · intro h
    exact h.1
  · intro ha
    exact ⟨ha, ha, (OrdersFinite.le_iff_not_lt a a ha ha).mpr (OrdersFinite.lt_irrefl a)⟩

namespace Prior

/-- There is a flat prior on every interval, and on no other pair of ends. -/
theorem exists_mkFlat_iff {a b : K} :
    (∃ p, mkFlat a b = .ok p) ↔ Scalar.Interval a b := by
  rw [Scalar.interval_iff, mkFlat]
  split
  · next hbad => simp [hbad]
  · next hgood => simp [hgood]

/-- There is a Gaussian prior for every finite centre and every finite positive width. -/
theorem exists_mkNormal_iff {mu sigma : K} :
    (∃ p, mkNormal mu sigma = .ok p) ↔ Scalar.Gaussian mu sigma := by
  have hwidth : Scalar.isFinite sigma = true → (0 < sigma ↔ ¬ sigma ≤ 0) := by
    intro hsigma
    have hle := Scalar.OrdersFinite.le_iff_not_lt sigma 0 hsigma
      Scalar.OrdersFinite.finite_zero
    rw [hle, not_not]
  unfold mkNormal Scalar.Gaussian
  by_cases hmu : Scalar.isFinite mu = true
  · by_cases hsigma : Scalar.isFinite sigma = true
    · by_cases hpos : sigma ≤ 0 <;> simp [hmu, hsigma, hwidth hsigma, hpos]
    · simp [hmu, hsigma]
  · simp [hmu]

end Prior

/-- Options are admissible if their interval of free parameters is an interval. -/
theorem Options.check_eq_ok_iff {o : Options K} :
    o.check = .ok () ↔ Scalar.Interval o.freeInterval.1 o.freeInterval.2 := by
  rw [Scalar.interval_iff, check]
  dsimp only
  split
  · next hbad => simp [hbad]
  · next hgood => simp [hgood]

end BinnedModel
