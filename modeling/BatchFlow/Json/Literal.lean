import BatchFlow.Decimal.Reading
import BatchFlow.Json.Number

namespace BatchFlow.Json

/-!
# Number literals

* `Literal.ofChars?` — the grammar of a JSON number: an optional minus, a whole part without
  leading zeros, and optional fraction and exponent parts with at least one digit each.
* `Literal.number?` — the number that a literal denotes. A literal without fraction and exponent
  that fits 64 bits is an integer, and so is no `-0`; all others are doubles. A literal whose
  double would be infinite denotes nothing.

The double is found in double arithmetic: the leading digits that fit 64 bits, times or over one
exact power of ten.
-/

/-- The parts of a number literal. -/
structure Literal where
  negative : Bool
  whole : List Char
  fraction : Option (List Char)
  exponent : Option Int

namespace Literal

/-- A fraction part and what follows it: nothing is taken when there is no point. -/
def readFraction? : List Char → Option (Option (List Char) × List Char)
  | '.' :: rest =>
    let digits := rest.takeWhile Char.isDigit
    if digits.isEmpty then none else some (some digits, rest.dropWhile Char.isDigit)
  | rest => some (none, rest)

/-- The parts of a literal that takes up the whole text. -/
def ofChars? (text : List Char) : Option Literal := do
  let (negative, body) := match text with
    | '-' :: rest => (true, rest)
    | rest => (false, rest)
  let whole := body.takeWhile Char.isDigit
  guard (!whole.isEmpty && (whole.length == 1 || whole.head? != some '0'))
  let (fraction, rest) ← readFraction? (body.dropWhile Char.isDigit)
  let exponent ← readExponent? rest
  return ⟨negative, whole, fraction, if rest.isEmpty then none else some exponent⟩

/-- Reads digits into a significand for as long as it fits 64 bits; the other digits are left. -/
def accumulate (significand : Nat) : List Char → Nat × List Char
  | [] => (significand, [])
  | c :: rest =>
    let next := 10 * significand + (c.toNat - '0'.toNat)
    if next < Nat.pow 2 64 then accumulate next rest else (significand, c :: rest)

/-- The double nearest to a power of ten up to 10³⁰⁸. -/
def powerOfTen (n : Nat) : Float := Float.ofScientific 1 false n

/-- A significand times a power of ten, in double arithmetic; nothing if that is infinite. -/
def scale? (significand : Nat) (exponent : Int) : Option Float :=
  let x := significand.toUInt64.toFloat
  if 308 < exponent then if significand = 0 then some x else none
  else if 0 ≤ exponent then
    let y := x * powerOfTen exponent.toNat
    if y.isInf then none else some y
  else if -308 ≤ exponent then some (x / powerOfTen (-exponent).toNat)
  -- two exact powers of ten reach down to the smallest doubles
  else if -616 ≤ exponent then
    some (x / powerOfTen 308 / powerOfTen (-exponent - 308).toNat)
  else some 0.0

/-- The double that a literal denotes. -/
def float? (l : Literal) : Option FiniteFloat := do
  let (significand, surplus) := accumulate 0 l.whole
  let fraction := l.fraction.getD []
  -- digits of the whole part that did not fit count as zeros, those of the fraction not at all
  let (significand, dropped) := accumulate significand fraction
  let shift : Int := surplus.length - (fraction.length - dropped.length : Nat)
  let x ← scale? significand (shift + l.exponent.getD 0)
  FiniteFloat.ofFloat? (if l.negative then -x else x)

/-- The integer that a literal denotes, if it has neither fraction nor exponent and fits. -/
def int? (l : Literal) : Option Int :=
  match l.fraction, l.exponent, accumulate 0 l.whole with
  | none, none, (n, []) =>
    if !l.negative then some n
    else if 0 < n ∧ n ≤ Nat.pow 2 63 then some (-n)
    else none
  | _, _, _ => none

/-- The number that a literal denotes. -/
def number? (l : Literal) : Option Number :=
  match l.int? with
  | some i => some (.int i)
  | none => l.float?.map .float

end Literal

end BatchFlow.Json
