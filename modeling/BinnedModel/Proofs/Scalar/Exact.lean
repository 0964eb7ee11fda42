import Mathlib
import BinnedModel.Proofs.Scalar.FiniteOrder

/-!
# Exact arithmetic

Over exact scalars sums and products may be taken in any order. Doubles are not of this
kind, since their sums are rounded after each summand; the real numbers are, and there the
elementary functions of the class are the ones that it approximates over doubles.
-/

namespace BinnedModel

/-- Scalars whose sums and products depend neither on order nor on grouping. -/
class Scalar.Exact (K : Type) [Scalar K] : Prop where
  /-- Sums may be grouped in any way. -/
  add_assoc : ∀ x y z : K, x + y + z = x + (y + z)
  /-- Summands may be exchanged. -/
  add_comm : ∀ x y : K, x + y = y + x
  /-- Products may be grouped in any way. -/
  mul_assoc : ∀ x y z : K, x * y * z = x * (y * z)
  /-- Factors may be exchanged. -/
  mul_comm : ∀ x y : K, x * y = y * x

/-- Scalars whose zero and one are exactly neutral, for sums, products and powers, and stand
in their order. Doubles are not of this kind, since zero times an infinite double is
undefined. -/
class Scalar.ExactUnits (K : Type) [Scalar K] : Prop where
  /-- Zero may be added on the left. -/
  zero_add : ∀ x : K, 0 + x = x
  /-- Zero may be added on the right. -/
  add_zero : ∀ x : K, x + 0 = x
  /-- Zero may be subtracted. -/
  sub_zero : ∀ x : K, x - 0 = x
  /-- Zero times a scalar is zero. -/
  zero_mul : ∀ x : K, 0 * x = 0
  /-- A scalar times zero is zero. -/
  mul_zero : ∀ x : K, x * 0 = 0
  /-- One is a factor without effect. -/
  mul_one : ∀ x : K, x * 1 = x
  /-- A positive scalar to the power of zero is one. -/
  pow_zero : ∀ x : K, 0 < x → Scalar.pow x 0 = 1
  /-- Zero is not above itself. -/
  zero_le_zero : (0 : K) ≤ 0
  /-- Zero is not below itself. -/
  not_zero_lt_zero : ¬ (0 : K) < 0
  /-- One is above zero. -/
  not_one_le_zero : ¬ (1 : K) ≤ 0
  /-- Minus one is below zero. -/
  not_zero_le_neg_one : ¬ (0 : K) ≤ -1
  /-- A scalar that is not at most zero is positive. -/
  pos_of_not_nonpos : ∀ x : K, ¬ x ≤ 0 → 0 < x

namespace Scalar

variable {K : Type} [Scalar K] [Scalar.Exact K]

/-- The last two summands may be exchanged. -/
theorem add_right_comm (x y z : K) : x + y + z = x + z + y := by
  rw [Exact.add_assoc, Exact.add_comm y z, Exact.add_assoc]

/-- The last two factors may be exchanged. -/
theorem mul_right_comm (x y z : K) : x * y * z = x * z * y := by
  rw [Exact.mul_assoc, Exact.mul_comm y z, Exact.mul_assoc]

/-- A sum of exact scalars does not depend on their order. -/
theorem total_perm {xs ys : List K} (h : xs.Perm ys) : total xs = total ys :=
  h.foldl_eq' (fun x _ y _ sum => add_right_comm sum x y) 0

/-- A product of exact scalars does not depend on their order. -/
theorem product_perm {xs ys : List K} (h : xs.Perm ys) : product xs = product ys :=
  h.foldl_eq' (fun x _ y _ product => mul_right_comm product x y) 1

end Scalar

namespace Scalar

variable {K : Type} [Scalar K] [Scalar.ExactUnits K]

/-- Zeros add up to zero. -/
theorem total_eq_zero {xs : List K} (h : ∀ x ∈ xs, x = 0) : total xs = 0 := by
  have hreplicate : xs = List.replicate xs.length 0 := List.eq_replicate_of_mem h
  rw [hreplicate, total]
  generalize xs.length = n
  induction n with
  | zero => rfl
  | succ n ih => rw [List.replicate_succ, List.foldl_cons, ExactUnits.zero_add, ih]

/-- Ones multiply to one. -/
theorem product_eq_one {xs : List K} (h : ∀ x ∈ xs, x = 1) : product xs = 1 := by
  have hreplicate : xs = List.replicate xs.length 1 := List.eq_replicate_of_mem h
  rw [hreplicate, product]
  generalize xs.length = n
  induction n with
  | zero => rfl
  | succ n ih => rw [List.replicate_succ, List.foldl_cons, ExactUnits.mul_one, ih]

/-- The absolute value of zero is zero. -/
theorem magnitude_zero : magnitude (0 : K) = 0 :=
  if_neg ExactUnits.not_zero_lt_zero

end Scalar

/-- The real numbers with their own logarithm, powers, roots and gamma function. -/
noncomputable instance : Scalar ℝ where
  decidableLE := fun x y => Real.decidableLE x y
  decidableLT := fun x y => Real.decidableLT x y
  log := Real.log
  pow := fun x y => x ^ y
  sqrt := Real.sqrt
  lnGamma := fun x => Real.log (Real.Gamma x)
  halfLogTwoPi := Real.log (Real.sqrt (2 * Real.pi))
  isFinite := fun _ => true

instance : Scalar.Exact ℝ where
  add_assoc := fun x y z => add_assoc x y z
  add_comm := fun x y => add_comm x y
  mul_assoc := fun x y z => mul_assoc x y z
  mul_comm := fun x y => mul_comm x y

/-- A sum of real numbers is their sum in the usual sense. -/
theorem Scalar.total_eq_sum (xs : List ℝ) : Scalar.total xs = xs.sum :=
  List.sum_eq_foldl.symm

/-- A ratio of positive whole numbers is a positive real number. -/
theorem Scalar.ratio_pos {n : ℤ} {d : ℕ} (hn : 0 < n) (hd : 0 < d) :
    (0 : ℝ) < Scalar.ratio n d :=
  div_pos (Int.cast_pos.mpr hn) (Nat.cast_pos.mpr hd)

instance : Scalar.ExactUnits ℝ where
  zero_add := fun x => zero_add x
  add_zero := fun x => add_zero x
  sub_zero := fun x => sub_zero x
  zero_mul := fun x => zero_mul x
  mul_zero := fun x => mul_zero x
  mul_one := fun x => mul_one x
  pow_zero := fun x _ => Real.rpow_zero x
  zero_le_zero := le_refl (0 : ℝ)
  not_zero_lt_zero := lt_irrefl (0 : ℝ)
  not_one_le_zero := not_le.mpr zero_lt_one
  not_zero_le_neg_one := by norm_num
  pos_of_not_nonpos := fun _ h => not_le.mp h

instance : Scalar.OrdersFinite ℝ where
  finite_zero := rfl
  finite_one := rfl
  zero_lt_one := zero_lt_one
  lt_irrefl := fun x => lt_irrefl x
  le_iff_not_lt := fun _ _ _ _ => not_lt.symm

end BinnedModel
