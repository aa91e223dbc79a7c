import BatchFlow.Text.Blank

namespace BatchFlow

/-!
# Reading decimals

* `nearestFloat digits exponent` — the double nearest to `digits * 10 ^ exponent`.
* `readFloat? text` — the double that a text names: an optional sign, then `inf`, `infinity` or
  `nan` in any case, or digits with an optional point and an optional exponent.
-/

/-- The double nearest to `digits * 10 ^ exponent`. Far outside the range of the doubles the
    answer is infinite or zero, whatever the digits are. -/
def nearestFloat (digits : Nat) (exponent : Int) : Float :=
  let magnitude := (toString digits).length + exponent
  if digits = 0 ∨ magnitude < -330 then 0.0
  else if 310 < magnitude then 1.0 / 0.0
  else Float.ofScientific digits (exponent < 0) exponent.natAbs

/-- The value of a run of ASCII digits read on from `start`. -/
def readDigits (start : Nat) (digits : List Char) : Nat :=
  digits.foldl (fun n c => 10 * n + (c.toNat - '0'.toNat)) start

/-- An optional sign in front of a text. -/
def readSign : List Char → Bool × List Char
  | '-' :: rest => (true, rest)
  | '+' :: rest => (false, rest)
  | text => (false, text)

/-- The exponent part of a number: nothing, or `e`, an optional sign and at least one digit. -/
def readExponent? : List Char → Option Int
  | [] => some 0
  | mark :: rest =>
    if mark = 'e' ∨ mark = 'E' then
      let (negative, digits) := readSign rest
      if !digits.isEmpty && digits.all Char.isDigit then
        let n : Int := readDigits 0 digits
        some (if negative then -n else n)
      else none
    else none

/-- The double that an unsigned text names. -/
def readUnsigned? (text : List Char) : Option Float :=
  let lower := text.map Char.toLower
  if lower = "inf".toList ∨ lower = "infinity".toList then some (1.0 / 0.0)
  else if lower = "nan".toList then some (0.0 / 0.0)
  else
    let whole := text.takeWhile Char.isDigit
    let rest := text.dropWhile Char.isDigit
    let (fraction, rest) := match rest with
      | '.' :: rest => (rest.takeWhile Char.isDigit, rest.dropWhile Char.isDigit)
      | rest => ([], rest)
    if whole.isEmpty && fraction.isEmpty then none
    else do
      let exponent ← readExponent? rest
      return nearestFloat (readDigits (readDigits 0 whole) fraction) (exponent - fraction.length)

/-- The double that a text names. -/
def readFloat? (text : List Char) : Option Float :=
  let (negative, rest) := readSign text
  (readUnsigned? rest).map fun x => if negative then -x else x

end BatchFlow
