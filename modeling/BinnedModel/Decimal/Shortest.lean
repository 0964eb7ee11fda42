import BinnedModel.Decimal.Basic

/-!
# Shortest decimals

The shortest decimal of a double is the one with the fewest digits that still reads
back as that double, and of those the one nearest to it. Decimal grids are tried
from the coarsest to the finest. On a grid it is enough to test the two neighbours
of the value: if any grid point reads back, one of them does.
-/

namespace BinnedModel

/-- Which of two equally near decimals is taken. -/
inductive Tie where
  /-- The one of larger magnitude. -/
  | up
  /-- The one whose last digit is even. -/
  | even
deriving DecidableEq, Repr

namespace Binary

/-- Numerator and denominator of `10 ^ e`. -/
def tenPower (e : Int) : Nat × Nat :=
  if 0 ≤ e then (Nat.pow 10 e.toNat, 1) else (1, Nat.pow 10 (-e).toNat)

/-- Numerator and denominator of `2 ^ e`. -/
def twoPower (e : Int) : Nat × Nat :=
  if 0 ≤ e then (Nat.pow 2 e.toNat, 1) else (1, Nat.pow 2 (-e).toNat)

/-- A value and the interval of numbers that round to it, all measured in integer
multiples of one common unit, together with one grid step in that unit. -/
structure Scale where
  /-- Lower end of the interval. -/
  low : Nat
  /-- The value itself. -/
  mid : Nat
  /-- Upper end of the interval. -/
  high : Nat
  /-- Whether the ends of the interval round to the value. -/
  closed : Bool
  /-- Distance of neighbouring grid points. -/
  step : Nat

/-- The rounding interval of a double against the grid of step `10 ^ e`. The interval
reaches half a unit in the last place to either side, but only a quarter below a
power of two, where the doubles get denser. -/
def scale (b : Binary) (e : Int) : Scale :=
  let (ten, tenth) := tenPower e
  let (two, half) := twoPower (b.exponent - 2)
  let unit := two * tenth
  let below := if b.mantissa = hiddenBit ∧ leastExponent < b.exponent then 1 else 2
  { low := (4 * b.mantissa - below) * unit
    mid := 4 * b.mantissa * unit
    high := (4 * b.mantissa + 2) * unit
    closed := b.mantissa % 2 = 0
    step := ten * half }

/-- Whether the `n`-th grid point rounds to the value. -/
def Scale.reads (s : Scale) (n : Nat) : Bool :=
  let x := n * s.step
  if s.closed then s.low ≤ x && x ≤ s.high else s.low < x && x < s.high

/-- The grid neighbour of the value that reads back, the nearer one if both do. -/
def Scale.nearest? (s : Scale) (tie : Tie) : Option Nat :=
  let n := s.mid / s.step
  let down := s.mid - n * s.step
  let up := (n + 1) * s.step - s.mid
  match decide (0 < n) && s.reads n, s.reads (n + 1) with
  | false, false => none
  | true, false => some n
  | false, true => some (n + 1)
  | true, true =>
    if down < up then some n
    else if up < down then some (n + 1)
    else match tie with
      | .up => some (n + 1)
      | .even => some (if n % 2 = 0 then n else n + 1)

/-- Try the grids `10 ^ e`, `10 ^ (e - 1)`, … and keep the first point that reads
back; when the grids run out, the last grid's lower neighbour stands. -/
def firstReading (b : Binary) (tie : Tie) : Nat → Int → Nat × Int
  | 0, e => let s := b.scale e; (s.mid / s.step, e)
  | grids + 1, e =>
    match (b.scale e).nearest? tie with
    | some n => (n, e)
    | none => firstReading b tie grids (e - 1)

/-- Exponent of a power of ten that is not far above the value. -/
def coarsest (b : Binary) : Int :=
  (b.exponent + b.mantissa.log2 + 1) * 30103 / 100000 + 1

/-- Shortest decimal that reads back as the value; seventeen digits always do. -/
def shortest (b : Binary) (tie : Tie) : Decimal :=
  if b.mantissa = 0 then ⟨b.negative, 0, 0⟩
  else
    let (digits, exponent) := firstReading b tie 20 b.coarsest
    ⟨b.negative, digits, exponent⟩

end Binary

end BinnedModel
