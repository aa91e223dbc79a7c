namespace BatchFlow

/-!
# Shortest decimals

The shortest decimal form of a double is the one that a reader needs to find the double again.

* `Decimal` — a natural number times a power of ten.
* `binaryParts x` — sign, mantissa `m` and exponent `q` with `|x| = m * 2 ^ q`.
* `Decimal.shortest tie m q` — among the multiples of `10 ^ e` that lie in the interval of reals
  rounding to `m * 2 ^ q`, for the largest `e` that has one, the nearest to `m * 2 ^ q`. Of two at
  the same distance `tie` chooses one.

All comparisons are between natural numbers: both sides are brought over one denominator.
-/

/-- The number `significand * 10 ^ exponent`. -/
structure Decimal where
  significand : Nat
  exponent : Int
deriving Repr, DecidableEq

/-- The exponent of the spacing of the subnormal doubles. -/
def leastBinaryExponent : Int := -1074

/-- Sign, mantissa and exponent of a finite double. -/
def binaryParts (x : Float) : Bool × Nat × Int :=
  let bits := x.toBits.toNat
  let biased : Nat := bits / Nat.pow 2 52 % Nat.pow 2 11
  let fraction : Nat := bits % Nat.pow 2 52
  let negative := bits / Nat.pow 2 63 == 1
  if biased = 0 then (negative, fraction, leastBinaryExponent)
  else (negative, Nat.pow 2 52 + fraction, (biased : Int) - 1075)

namespace Decimal

/-- Which of two neighbouring numbers at the same distance is taken. -/
inductive Tie where
  | toEven
  /-- The greater one; of signed numbers the one farther from zero. -/
  | up
deriving Repr, DecidableEq

/-- The choice between `below` and its successor. -/
def Tie.choose (tie : Tie) (below : Nat) : Nat :=
  match tie with
  | .toEven => if below % 2 = 0 then below else below + 1
  | .up => below + 1

/-- The reals that round to `mantissa * 2 ^ exponent`, measured in quarters of the spacing
    `2 ^ exponent`: the value is `4 * mantissa`. -/
structure Interval where
  mantissa : Nat
  exponent : Int

namespace Interval

/-- The upper end lies half a spacing above the value. -/
def upper (i : Interval) : Nat := 4 * i.mantissa + 2

/-- The lower end lies half a spacing below the value, a quarter at a power of two, where the
    spacing below is half as wide. -/
def lower (i : Interval) : Nat :=
  if i.mantissa = Nat.pow 2 52 ∧ leastBinaryExponent < i.exponent then 4 * i.mantissa - 1
  else 4 * i.mantissa - 2

/-- What one unit of the grid `10 ^ e` counts, and what a quarter spacing counts, in a common
    unit. -/
def scales (i : Interval) (e : Int) : Nat × Nat :=
  (Nat.pow 10 e.toNat * Nat.pow 2 (2 - i.exponent).toNat,
    Nat.pow 10 (-e).toNat * Nat.pow 2 (i.exponent - 2).toNat)

/-- Whether `c * 10 ^ e` rounds to the value; the ends do when the mantissa is even. -/
def holds (i : Interval) (e : Int) (c : Nat) : Bool :=
  let (grid, quarter) := i.scales e
  if i.mantissa % 2 = 0 then
    decide (i.lower * quarter ≤ c * grid) && decide (c * grid ≤ i.upper * quarter)
  else decide (i.lower * quarter < c * grid) && decide (c * grid < i.upper * quarter)

/-- The multiple of `10 ^ e` in the interval that is nearest to the value, if there is one. -/
def nearest? (i : Interval) (tie : Tie) (e : Int) : Option Nat :=
  let (grid, quarter) := i.scales e
  let value := 4 * i.mantissa * quarter
  let below := value / grid
  -- a grid that meets the interval has a neighbour of the value in it
  match i.holds e below, i.holds e (below + 1) with
  | false, false => none
  | true, false => some below
  | false, true => some (below + 1)
  | true, true =>
    let down := value - below * grid
    let up := (below + 1) * grid - value
    if down < up then some below
    else if up < down then some (below + 1)
    else some (tie.choose below)

/-- The first grid that meets the interval, from `10 ^ e` on towards finer ones. -/
def search (i : Interval) (tie : Tie) : Nat → Int → Decimal
  | 0, e => ⟨4 * i.mantissa * (i.scales e).2 / (i.scales e).1, e⟩
  | steps + 1, e =>
    match i.nearest? tie e with
    | some c => ⟨c, e⟩
    | none => i.search tie steps (e - 1)

end Interval

/-- A power of ten above `m * 2 ^ q`; 30103 / 100000 is just above the logarithm of two. -/
def ceilingExponent (m : Nat) (q : Int) : Int :=
  ((m.log2 : Int) + 1 + q) * 30103 / 100000 + 1

/-- The shortest decimal that rounds to `m * 2 ^ q`. Seventeen digits always suffice, so the
    search ends well before its last step. -/
def shortest (tie : Tie) (m : Nat) (q : Int) : Decimal :=
  if m = 0 then ⟨0, 0⟩ else Interval.search ⟨m, q⟩ tie 24 (ceilingExponent m q)

end Decimal

end BatchFlow
