import BatchFlow.Decimal.Reading
import BatchFlow.Engine.Basic

namespace BatchFlow

/-!
# Limits from the environment

* `readCount?` — a number of at most 64 bits: ASCII digits, perhaps after a plus.
* `Settings.ofEnvironment` — the settings when a variable may override the limit. A value that is no
  positive number is passed over.
-/

/-- The number that a text denotes. -/
def readCount? (text : List Char) : Option Nat :=
  let digits := match text with
    | '+' :: rest => rest
    | text => text
  let n := readDigits 0 digits
  if !digits.isEmpty && digits.all Char.isDigit && n < Nat.pow 2 64 then some n else none

namespace Settings

/-- The variable that overrides the limit. -/
def limitVariable : String := "RETINA_MAX_CONCURRENT_STEPS"

/-- The settings for a value of the variable. -/
def ofEnvironment : Option String → Settings
  | none => {}
  | some raw =>
    match readCount? (Text.trim raw.toList) with
    | some (n + 1) => ofLimit (n + 1)
    | _ => {}

end Settings

end BatchFlow
