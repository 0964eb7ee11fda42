import Mathlib
import BinnedModel.Proofs.Scalar.Exact

/-!
# Extended real numbers

Arithmetic on doubles does not stop where the real numbers end. The logarithm of zero is minus
infinity, and the logarithm of a negative number is undefined, as is all that is made of it. The
extended real numbers have these outcomes too, and otherwise they are exact: a sum or a product of
real numbers is a real number, and there is one zero only. A sum is undefined as soon as one of its
summands is, and it is minus infinity if one of its summands is and the others are real.
-/

namespace BinnedModel

/-- A real number, or what arithmetic gives where there is no real number. -/
inductive Extended where
  /-- A real number. -/
  | real (x : ℝ)
  /-- Plus or minus infinity. -/
  | infinite (negative : Bool)
  /-- No number at all, not even an infinite one. -/
  | undefined

namespace Extended

/-- The infinity below all real numbers. -/
@[match_pattern] abbrev minusInfinity : Extended :=
  infinite true

/-- The infinity above all real numbers. -/
@[match_pattern] abbrev plusInfinity : Extended :=
  infinite false

/-- The negated number. -/
def neg : Extended → Extended
  | real x => real (-x)
  | infinite s => infinite (!s)
  | undefined => undefined

/-- The sum; infinities of different signs have none. -/
def add : Extended → Extended → Extended
  | real x, real y => real (x + y)
  | real _, infinite s => infinite s
  | infinite s, real _ => infinite s
  | infinite s, infinite t => if s = t then infinite s else undefined
  | _, _ => undefined

/-- The product; zero times an infinity has none. -/
noncomputable def mul : Extended → Extended → Extended
  | real x, real y => real (x * y)
  | real x, infinite s => if x = 0 then undefined else infinite (decide (x < 0) ^^ s)
  | infinite s, real y => if y = 0 then undefined else infinite (s ^^ decide (y < 0))
  | infinite s, infinite t => infinite (s ^^ t)
  | _, _ => undefined

/-- The quotient; it is infinite for a divisor zero, unless the dividend is zero too. -/
noncomputable def div : Extended → Extended → Extended
  | real x, real y =>
    if y = 0 then (if x = 0 then undefined else infinite (decide (x < 0))) else real (x / y)
  | real _, infinite _ => real 0
  | infinite s, real y => infinite (s ^^ decide (y < 0))
  | _, _ => undefined

/-- The order of the extended line; what is undefined compares with nothing. -/
def AtMost : Extended → Extended → Prop
  | real x, real y => x ≤ y
  | real _, infinite s => s = false
  | infinite s, real _ => s = true
  | infinite s, infinite t => s = true ∨ t = false
  | _, _ => False

/-- The strict order of the extended line. -/
def Below : Extended → Extended → Prop
  | real x, real y => x < y
  | real _, infinite s => s = false
  | infinite s, real _ => s = true
  | infinite s, infinite t => s = true ∧ t = false
  | _, _ => False

/-- The logarithm: minus infinity at zero, and undefined below. -/
noncomputable def log : Extended → Extended
  | real x => if x < 0 then undefined else if x = 0 then minusInfinity else real (Real.log x)
  | plusInfinity => plusInfinity
  | _ => undefined

/-- The power of a positive real number with a real exponent; no others are taken. -/
noncomputable def pow : Extended → Extended → Extended
  | real x, real y => if 0 < x then real (x ^ y) else undefined
  | _, _ => undefined

/-- The square root, undefined below zero. -/
noncomputable def sqrt : Extended → Extended
  | real x => if x < 0 then undefined else real (Real.sqrt x)
  | plusInfinity => plusInfinity
  | _ => undefined

/-- The logarithm of the gamma function. -/
noncomputable def lnGamma : Extended → Extended
  | real x => real (Scalar.lnGamma x)
  | plusInfinity => plusInfinity
  | _ => undefined

/-- Whether there is a real number. -/
def isReal : Extended → Bool
  | real _ => true
  | _ => false

open Classical in
noncomputable instance : Scalar Extended where
  add := add
  sub := fun x y => add x (neg y)
  mul := mul
  div := div
  neg := neg
  zero := real 0
  one := real 1
  natCast := fun n => real n
  intCast := fun i => real i
  le := AtMost
  lt := Below
  decidableLE := fun _ _ => inferInstance
  decidableLT := fun _ _ => inferInstance
  log := log
  pow := pow
  sqrt := sqrt
  lnGamma := lnGamma
  halfLogTwoPi := real Scalar.halfLogTwoPi
  isFinite := isReal

variable {x y : ℝ}

/-- Zero is a real number. -/
theorem zero_eq : (0 : Extended) = real 0 := rfl

/-- One is a real number. -/
theorem one_eq : (1 : Extended) = real 1 := rfl

/-- Natural numbers are real numbers. -/
theorem natCast_eq (n : ℕ) : (n : Extended) = real n := rfl

/-- Real numbers are added as such. -/
@[simp] theorem real_add : real x + real y = real (x + y) := rfl

/-- Real numbers are subtracted as such. -/
@[simp] theorem real_sub : real x - real y = real (x - y) := by
  rw [sub_eq_add_neg]
  rfl

/-- Real numbers are multiplied as such. -/
@[simp] theorem real_mul : real x * real y = real (x * y) := rfl

/-- Real numbers are negated as such. -/
@[simp] theorem neg_real : -real x = real (-x) := rfl

/-- Real numbers are divided as such, unless the divisor is zero. -/
theorem real_div (h : y ≠ 0) : real x / real y = real (x / y) :=
  if_neg h

/-- A ratio of whole numbers is a real number, unless the divisor is zero. -/
theorem ratio_eq (n : ℤ) {d : ℕ} (h : d ≠ 0) :
    (Scalar.ratio n d : Extended) = real (Scalar.ratio n d) :=
  real_div (Nat.cast_ne_zero.mpr h)

/-- Real numbers are compared as such. -/
@[simp] theorem real_le : real x ≤ real y ↔ x ≤ y := Iff.rfl

/-- Real numbers are compared as such, also strictly. -/
@[simp] theorem real_lt : real x < real y ↔ x < y := Iff.rfl

/-- Two real numbers denote one number only if they are equal. -/
@[simp] theorem agrees_real : Scalar.Agrees (real x) (real y) ↔ x = y :=
  (le_antisymm_iff (a := x)).symm

/-- The absolute value of a real number is a real number. -/
theorem magnitude_real (x : ℝ) : Scalar.magnitude (real x) = real (Scalar.magnitude x) := by
  have hsign : real x < 0 ↔ x < 0 := real_lt
  unfold Scalar.magnitude
  by_cases h : x < 0
  · rw [if_pos (hsign.mpr h), if_pos h, neg_real]
  · rw [if_neg (hsign.not.mpr h), if_neg h]

/-- The square root of a number that is not negative is a real one. -/
theorem sqrt_of_nonneg (h : 0 ≤ x) : Scalar.sqrt (real x) = real (Real.sqrt x) :=
  if_neg h.not_gt

/-- The logarithm of a positive number is a real one. -/
theorem log_of_pos (h : 0 < x) : Scalar.log (real x) = real (Real.log x) := by
  change (if x < 0 then _ else if x = 0 then _ else _) = _
  rw [if_neg h.not_gt, if_neg h.ne']

/-- The logarithm of zero is minus infinity. -/
theorem log_zero : Scalar.log (real 0) = minusInfinity := by
  change (if (0 : ℝ) < 0 then _ else if (0 : ℝ) = 0 then _ else _) = _
  rw [if_neg (lt_irrefl 0), if_pos rfl]

/-- The logarithm of a negative number is undefined. -/
theorem log_of_neg (h : x < 0) : Scalar.log (real x) = undefined :=
  if_pos h

/-- What is undefined stays so in every sum. -/
@[simp] theorem undefined_add (a : Extended) : undefined + a = undefined := by
  cases a <;> rfl

/-- What is undefined stays so in every sum, also as the second summand. -/
@[simp] theorem add_undefined (a : Extended) : a + undefined = undefined := by
  cases a <;> rfl

/-- What is undefined stays so in every product. -/
@[simp] theorem mul_undefined (a : Extended) : a * undefined = undefined := by
  cases a <;> rfl

/-- A positive multiple of minus infinity is minus infinity. -/
theorem real_mul_minusInfinity (h : 0 < x) : real x * minusInfinity = minusInfinity := by
  change (if x = 0 then undefined else infinite (decide (x < 0) ^^ true)) = _
  rw [if_neg h.ne', decide_eq_false h.not_gt]
  rfl

/-- What is undefined stays so in every difference. -/
@[simp] theorem undefined_sub (a : Extended) : undefined - a = undefined :=
  undefined_add (neg a)

/-- A sum with an undefined summand is undefined. -/
theorem total_eq_undefined {xs : List Extended} (h : undefined ∈ xs) :
    Scalar.total xs = undefined := by
  have hstart : ∀ ys : List Extended, ys.foldl (· + ·) undefined = undefined := by
    intro ys
    induction ys with
    | nil => rfl
    | cons y ys ih => rw [List.foldl_cons, undefined_add, ih]
  obtain ⟨before, after, rfl⟩ := List.append_of_mem h
  rw [Scalar.total, List.foldl_append, List.foldl_cons, add_undefined, hstart]

/-- Summands may be exchanged. -/
protected theorem add_comm (a b : Extended) : a + b = b + a := by
  match a, b with
  | real x, real y =>
    rw [real_add, real_add]
    congr 1
    ring
  | real x, infinite t => rfl
  | infinite s, real y => rfl
  | infinite s, infinite t => cases s <;> cases t <;> rfl
  | a, undefined => rw [add_undefined, undefined_add]
  | undefined, b => rw [add_undefined, undefined_add]

/-- Sums may be grouped in any way. -/
protected theorem add_assoc (a b c : Extended) : a + b + c = a + (b + c) := by
  match a, b, c with
  | real x, real y, real z =>
    rw [real_add, real_add, real_add, real_add]
    congr 1
    ring
  | real x, real y, infinite u => rfl
  | real x, infinite t, real z => rfl
  | infinite s, real y, real z => rfl
  | real x, infinite t, infinite u => cases t <;> cases u <;> rfl
  | infinite s, real y, infinite u => cases s <;> cases u <;> rfl
  | infinite s, infinite t, real z => cases s <;> cases t <;> rfl
  | infinite s, infinite t, infinite u => cases s <;> cases t <;> cases u <;> rfl
  | undefined, b, c => rw [undefined_add, undefined_add, undefined_add]
  | a, undefined, c => rw [add_undefined, undefined_add, add_undefined]
  | a, b, undefined => rw [add_undefined, add_undefined, add_undefined]

/-- A number that is neither plus infinity nor undefined. -/
def BelowInfinity : Extended → Prop
  | real _ => True
  | minusInfinity => True
  | _ => False

/-- A sum of two numbers below plus infinity is below it, and it is minus infinity exactly if one
of them is. -/
theorem belowInfinity_add {a b : Extended} (ha : a.BelowInfinity) (hb : b.BelowInfinity) :
    (a + b).BelowInfinity ∧ (a + b = minusInfinity ↔ a = minusInfinity ∨ b = minusInfinity) := by
  match a, b, ha, hb with
  | real x, real y, _, _ =>
    rw [real_add]
    exact ⟨trivial, by simp⟩
  | real x, minusInfinity, _, _ => exact ⟨trivial, iff_of_true rfl (.inr rfl)⟩
  | minusInfinity, real y, _, _ => exact ⟨trivial, iff_of_true rfl (.inl rfl)⟩
  | minusInfinity, minusInfinity, _, _ => exact ⟨trivial, iff_of_true rfl (.inl rfl)⟩

/-- A sum of numbers below plus infinity is minus infinity if one of them is: at each point the sum
so far is minus infinity, or such a summand follows. -/
theorem total_eq_minusInfinity {xs : List Extended} (h : ∀ x ∈ xs, x.BelowInfinity)
    (hmem : minusInfinity ∈ xs) : Scalar.total xs = minusInfinity := by
  have hstep : ∀ (xs : List Extended) (sum : Extended), sum.BelowInfinity →
      (∀ x ∈ xs, x.BelowInfinity) → (sum = minusInfinity ∨ minusInfinity ∈ xs) →
        xs.foldl (· + ·) sum = minusInfinity := by
    intro xs
    induction xs with
    | nil =>
      intro sum _ _ hcase
      exact hcase.resolve_right List.not_mem_nil
    | cons x xs ih =>
      intro sum hsum hxs hcase
      have hx : x.BelowInfinity := hxs x List.mem_cons_self
      obtain ⟨hbelow, hiff⟩ := belowInfinity_add hsum hx
      refine ih (sum + x) hbelow (fun y hy => hxs y (List.mem_cons_of_mem x hy)) ?_
      rw [hiff, or_assoc]
      refine hcase.imp_right fun hmem => ?_
      exact (List.mem_cons.mp hmem).imp_left Eq.symm
  exact hstep xs 0 trivial h (.inr hmem)

/-- A sum of real numbers is the real one. -/
theorem total_map_real (xs : List ℝ) :
    Scalar.total (xs.map real) = real (Scalar.total xs) := by
  have hstep : ∀ (xs : List ℝ) (sum : ℝ),
      (xs.map real).foldl (· + ·) (real sum) = real (xs.foldl (· + ·) sum) := by
    intro xs
    induction xs with
    | nil => intro sum; rfl
    | cons x xs ih => intro sum; exact ih (sum + x)
  exact hstep xs 0

end Extended

end BinnedModel
