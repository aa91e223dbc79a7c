import BatchFlow.Decimal.Shortest

namespace BatchFlow

/-!
# Layout of doubles

* `Decimal.Layout` — where positional writing ends, what a whole number looks like, and which of
  two equally good decimals is written.
* `Decimal.Layout.json`, `Decimal.Layout.plain` — the layout of JSON documents and the layout of
  messages.
* `Decimal.Layout.write layout x` — the shortest decimal of `x` in that layout.
-/

namespace Decimal

/-- How the decimal form of a double is written. The exponent of a number is that of its leading
    digit. -/
structure Layout where
  /-- The least and the greatest exponent that are written positionally; `none` when all are. -/
  positional : Option (Int × Int)
  /-- Whether a whole number in positional writing keeps `.0`. -/
  keepsPoint : Bool
  /-- Which of two shortest decimals at the same distance from the double is written. -/
  tie : Tie

namespace Layout

/-- JSON text: positional from 10⁻⁵ up to below 10¹⁶, and a float is told from an integer by its
    point or its exponent. Ties go to the even decimal. -/
def json : Layout := ⟨some (-5, 15), true, .toEven⟩

/-- Messages: always positional, whole numbers bare. Ties go away from zero. -/
def plain : Layout := ⟨none, false, .up⟩

/-- Digits with the point after the digit of exponent zero. -/
def point (layout : Layout) (digits : List Char) (exponent : Int) : List Char :=
  if 0 ≤ exponent then
    digits ++ List.replicate exponent.toNat '0' ++ (if layout.keepsPoint then ['.', '0'] else [])
  else
    let whole := (digits.length : Int) + exponent
    if 0 < whole then digits.take whole.toNat ++ '.' :: digits.drop whole.toNat
    else '0' :: '.' :: List.replicate (-whole).toNat '0' ++ digits

/-- One digit, the others after the point, and the exponent with its sign. -/
def scientific (digits : List Char) (leading : Int) : List Char :=
  let fraction := digits.drop 1
  digits.take 1 ++ (if fraction.isEmpty then [] else '.' :: fraction) ++
    'e' :: (if leading < 0 then '-' else '+') :: (toString leading.natAbs).toList

/-- The text of an unsigned decimal. -/
def writeDecimal (layout : Layout) (d : Decimal) : List Char :=
  let digits := (toString d.significand).toList
  let leading := d.exponent + digits.length - 1
  match layout.positional with
  | none => layout.point digits d.exponent
  | some (low, high) =>
    if low ≤ leading && leading ≤ high then layout.point digits d.exponent
    else scientific digits leading

/-- The text of a double. -/
def write (layout : Layout) (x : Float) : String :=
  if x.isNaN then "NaN"
  else
    let (negative, m, q) := binaryParts x
    let magnitude := if x.isInf then "inf".toList else layout.writeDecimal (shortest layout.tie m q)
    String.ofList (if negative then '-' :: magnitude else magnitude)

end Layout

end Decimal

end BatchFlow
