import BatchFlow.Decimal.Layout

namespace BatchFlow

/-!
# Numbers

A JSON number is an integer or a finite double, and the two kinds stay apart: `1` and `1.0` are
different numbers with the same value.

* `FiniteFloat` — a double that is neither infinite nor NaN.
* `Number.toFloat` — the double nearest to the number.
* `Number.ofFloat?` — a double as a number: whole numbers below 2⁶³ become integers.
* `Number.same` — equality of the representation, up to the sign of zero.
-/

/-- A double that is neither infinite nor NaN. -/
structure FiniteFloat where
  value : Float
  isFinite : value.isFinite = true
deriving DecidableEq

/-- A double, unless it is infinite or NaN. -/
def FiniteFloat.ofFloat? (x : Float) : Option FiniteFloat :=
  if h : x.isFinite = true then some ⟨x, h⟩ else none

/-- A number of a JSON value. -/
inductive Number where
  | int (value : Int)
  | float (value : FiniteFloat)
deriving DecidableEq

instance : Inhabited Number := ⟨.int 0⟩

/-- The nearest double to an integer of at most 64 bits. -/
def floatOfInt (i : Int) : Float :=
  if i < 0 then -i.natAbs.toUInt64.toFloat else i.natAbs.toUInt64.toFloat

/-- The integer that a finite double denotes, if it is whole. -/
def wholeOfFloat? (x : Float) : Option Int :=
  let (negative, m, q) := binaryParts x
  let magnitude : Option Nat :=
    if 0 ≤ q then some (m * Nat.pow 2 q.toNat)
    else if m % Nat.pow 2 (-q).toNat = 0 then some (m / Nat.pow 2 (-q).toNat)
    else none
  magnitude.map fun n => if negative then -(n : Int) else n

namespace Number

/-- The double nearest to the number. -/
def toFloat : Number → Float
  | .int i => floatOfInt i
  | .float x => x.value

/-- A double as a number. Whole numbers of magnitude below 2⁶³ become integers. -/
def ofFloat? (x : Float) : Option Number := do
  let finite ← FiniteFloat.ofFloat? x
  match wholeOfFloat? x with
  | some i => if i.natAbs < Nat.pow 2 63 then return .int i else return .float finite
  | none => return .float finite

/-- Equality of the representation; the two zeros of the doubles are one number. -/
def same : Number → Number → Bool
  | .int a, .int b => a == b
  | .float a, .float b => a.value == b.value
  | _, _ => false

/-- The text of a number in JSON. -/
def text : Number → String
  | .int i => toString i
  | .float x => Decimal.Layout.json.write x.value

end Number

end BatchFlow
