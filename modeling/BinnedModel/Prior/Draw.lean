import BinnedModel.Scalar.Binary64
import BinnedModel.Prior.Basic

/-!
# Random values of priors

A source of randomness is an endless sequence of 64-bit words. A draw reads words
from a position on and returns the value with the position of the next unread word,
so that draws in a row are independent and reproducible. Flat priors take one word
per draw and a degenerate one takes none; Gaussian priors take one word; Poisson
priors take as many as their product of uniforms, or their rejections, need.
-/

namespace BinnedModel

/-- An endless sequence of random words. -/
abbrev WordSource :=
  Nat → UInt64

namespace WordSource

/-- The words of a seed: the counter runs in steps of the golden ratio, and each
value is mixed by two multiplications with shifts. -/
def ofSeed (seed : UInt64) : WordSource := fun n =>
  let z := seed + (UInt64.ofNat n + 1) * 0x9E3779B97F4A7C15
  let z := (z ^^^ (z >>> 30)) * 0xBF58476D1CE4E5B9
  let z := (z ^^^ (z >>> 27)) * 0x94D049BB133111EB
  z ^^^ (z >>> 31)

/-- The words of a list, over and over. -/
def cycle (words : List UInt64) : WordSource := fun n =>
  words.getD (n % words.length) 0

/-- A fraction in `[0, 1)` from the upper `bits` bits of a word. -/
def fraction (w : UInt64) (bits : Nat) : Float :=
  Float.ofNat (w.toNat >>> (64 - bits)) / Float.ofNat (1 <<< bits)

end WordSource

namespace StandardNormal

/-- Value of a polynomial, its highest coefficient first. -/
def horner (cs : List Float) (x : Float) : Float :=
  cs.foldl (fun acc c => acc * x + c) 0

/-- The central part, for probabilities within `0.425` of one half: numerator. -/
def centreNumerator : List Float :=
  [2.5090809287301226727e+3, 3.3430575583588128105e+4, 6.7265770927008700853e+4,
    4.5921953931549871457e+4, 1.3731693765509461125e+4, 1.9715909503065514427e+3,
    1.3314166789178437745e+2, 3.3871328727963666080e+0]

/-- The central part: denominator. -/
def centreDenominator : List Float :=
  [5.2264952788528545610e+3, 2.8729085735721942674e+4, 3.9307895800092710610e+4,
    2.1213794301586595867e+4, 5.3941960214247511077e+3, 6.8718700749205790830e+2,
    4.2313330701600911252e+1, 1.0]

/-- The near tails: numerator. -/
def shoulderNumerator : List Float :=
  [7.74545014278341407640e-4, 2.27238449892691845833e-2, 2.41780725177450611770e-1,
    1.27045825245236838258e+0, 3.64784832476320460504e+0, 5.76949722146069140550e+0,
    4.63033784615654529590e+0, 1.42343711074968357734e+0]

/-- The near tails: denominator. -/
def shoulderDenominator : List Float :=
  [1.05075007164441684324e-9, 5.47593808499534494600e-4, 1.51986665636164571966e-2,
    1.48103976427480074590e-1, 6.89767334985100004550e-1, 1.67638483018380384940e+0,
    2.05319162663775882187e+0, 1.0]

/-- The far tails: numerator. -/
def tailNumerator : List Float :=
  [2.01033439929228813265e-7, 2.71155556874348757815e-5, 1.24266094738807843860e-3,
    2.65321895265761230930e-2, 2.96560571828504891230e-1, 1.78482653991729133580e+0,
    5.46378491116411436990e+0, 6.65790464350110377720e+0]

/-- The far tails: denominator. -/
def tailDenominator : List Float :=
  [2.04426310338993978564e-15, 1.42151175831644588870e-7, 1.84631831751005468180e-5,
    7.86869131145613259100e-4, 1.48753612908506148525e-2, 1.36929880922735805310e-1,
    5.99832206555887937690e-1, 1.0]

/-- The point below which the standard Gaussian has probability `u`, for `u` between
zero and one: three rational approximations, each good to sixteen digits. It is
exactly zero at one half. -/
def quantile (u : Float) : Float :=
  let q := u - 0.5
  if q.abs ≤ 0.425 then
    let r := 0.180625 - q * q
    q * horner centreNumerator r / horner centreDenominator r
  else
    let r := Float.sqrt (-Float.log (if q < 0 then u else 1 - u))
    let z :=
      if r ≤ 5 then horner shoulderNumerator (r - 1.6) / horner shoulderDenominator (r - 1.6)
      else horner tailNumerator (r - 5) / horner tailDenominator (r - 5)
    if q < 0 then -z else z

/-- The standard Gaussian value of a word: the quantile of its upper 53 bits, where
half of the smallest step stands for zero. -/
def ofWord (w : UInt64) : Float :=
  let u := WordSource.fraction w 53
  quantile (if u ≤ 0 then 1 / Float.ofNat (1 <<< 54) else u)

end StandardNormal

namespace Poisson

/-- Rates below this one are drawn by multiplying uniforms. -/
def smallRate : Float :=
  12

/-- The largest rate whose counts can still be drawn. -/
def largestRate : Float :=
  1.844e19

/-- Multiply uniforms until the product is at most `e ^ (-rate)`; the count is the
number of factors but one. Fuel bounds the number of factors. -/
def multiply (words : WordSource) (limit : Float) : Nat → Float → Float → Nat → Float × Nat
  | 0, _, count, position => (count, position)
  | fuel + 1, p, count, position =>
    if p > limit then
      multiply words limit fuel (p * WordSource.fraction (words position) 53) (count + 1)
        (position + 1)
    else (count, position)

/-- Transformed rejection for large rates: a candidate under a hat of two uniforms is
taken at once in the inner region, else by comparing logarithmic densities. -/
def reject (words : WordSource) (rate : Float) : Nat → Nat → Float × Nat
  | 0, position => (rate.floor, position)
  | fuel + 1, position =>
    let b := 0.931 + 2.53 * rate.sqrt
    let a := -0.059 + 0.02483 * b
    let u := WordSource.fraction (words position) 53 - 0.5
    let v := WordSource.fraction (words (position + 1)) 53
    let room := 0.5 - u.abs
    let k := ((2 * a / room + b) * u + rate + 0.43).floor
    let accepted :=
      if room ≥ 0.07 && v ≤ 0.9277 - 3.6224 / (b - 2) then true
      else if k < 0 || (room < 0.013 && v > room) then false
      else
        Float.log v + Float.log (1.1239 + 1.1328 / (b - 3.4)) - Float.log (a / (room * room) + b)
          ≤ k * Float.log rate - rate - Scalar.lnGamma (k + 1)
    if accepted then (k, position + 2) else reject words rate fuel (position + 2)

/-- A count of the given positive rate. -/
def draw (words : WordSource) (rate : Float) (position : Nat) : Float × Nat :=
  if rate < smallRate then
    multiply words (Float.exp (-rate)) 1000000 (WordSource.fraction (words position) 53) 0
      (position + 1)
  else reject words rate 10000 position

end Poisson

namespace Prior

/-- One random value, with the position behind the words that it took. -/
def draw (p : Prior Float) (words : WordSource) (position : Nat) :
    Except (Fault Float) (Float × Nat) :=
  match p with
  | normal mu sigma =>
    if sigma.isFinite then
      .ok (mu + sigma * StandardNormal.ofWord (words position), position + 1)
    else .error (.invalid (.draw .normalWidth))
  | poisson rate =>
    if rate == 0 then .ok (0, position)
    else if !rate.isFinite then .error (.invalid (.draw .poissonRateNotFinite))
    else if rate < 0 then .error (.invalid (.draw .poissonRateNotPositive))
    else if rate > Poisson.largestRate then .error (.invalid (.draw .poissonRateTooLarge))
    else .ok (Poisson.draw words rate position)
  | flat a b =>
    if a == b then .ok (a, position)
    else .ok (WordSource.fraction (words position) 52 * (b - a) + a, position + 1)

/-- The given number of random values, one after the other; the first fault ends it. -/
def draws (p : Prior Float) (words : WordSource) :
    Nat → Nat → Except (Fault Float) (List Float × Nat)
  | 0, position => .ok ([], position)
  | n + 1, position =>
    match p.draw words position with
    | .error f => .error f
    | .ok (x, next) => (draws p words n next).map fun (xs, last) => (x :: xs, last)

end Prior

end BinnedModel
