import BinnedModel.Scalar

/-!
# Doubles as scalars

The program runs on binary64 numbers. The elementary functions are those of the
machine; the logarithm of the gamma function is a Lanczos sum of eleven terms,
good to about fifteen digits for arguments of at least one half.
-/

namespace BinnedModel.Binary64

/-- Base of the natural logarithm. -/
def euler : Float :=
  2.718281828459045

/-- Leading coefficient of the Lanczos sum. -/
def lanczosHead : Float :=
  2.48574089138753565546e-5

/-- Coefficients of the simple fractions of the Lanczos sum, in order. -/
def lanczosTerms : List Float :=
  [1.05142378581721974210, -3.45687097222016235469, 4.51227709466894823700,
    -2.98285225323576655721, 1.05639711577126713077, -1.95428773191645869583e-1,
    1.70970543404441224307e-2, -5.71926117404305781283e-4, 4.63399473359905636708e-6,
    -2.71994908488607703910e-9]

/-- The shift of the Lanczos approximation. -/
def lanczosShift : Float :=
  10.900511

/-- The additive constant `ln (2 √(e/π))`. -/
def lanczosConstant : Float :=
  0.6207822376352452223455184457816472

/-- The sum `c₀ + Σᵢ cᵢ / (x + i - 1)`, whose denominators start at `x`. -/
def lanczosSum (x : Float) : Float :=
  (lanczosTerms.zipIdx 1).foldl (fun s (c, i) => s + c / (x + Float.ofNat i - 1)) lanczosHead

/-- Logarithm of the gamma function for arguments of at least one half. -/
def lnGamma (x : Float) : Float :=
  Float.log (lanczosSum x) + lanczosConstant +
    (x - 0.5) * Float.log ((x - 0.5 + lanczosShift) / euler)

instance : Scalar Float where
  natCast := Float.ofNat
  intCast := Float.ofInt
  decidableLE := fun x y => inferInstanceAs (Decidable (x ≤ y))
  decidableLT := fun x y => inferInstanceAs (Decidable (x < y))
  log := Float.log
  pow := Float.pow
  sqrt := Float.sqrt
  lnGamma := lnGamma
  halfLogTwoPi := 0.9189385332046727
  isFinite := Float.isFinite

end BinnedModel.Binary64
