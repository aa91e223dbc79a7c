import BatchFlow.Json.Basic

namespace BatchFlow.Vision

/-!
# Faults of data

* `DataFault` — data that has not the shape of a detection or an image, or a result that is no
  number.
* `asObject`, `asArray`, `floatField`, `ofFloat` — access that reports such faults.
-/

/-- What is wrong with data. -/
inductive DataFault where
  | unexpectedShape (expected found : String)
  | missingField (field : String)
  | notANumber (field : String)
  | nonFinite (value : Float)
deriving DecidableEq

/-- What is shown for a fault in data. -/
def DataFault.message : DataFault → String
  | .unexpectedShape expected found => s!"expected {expected}, found {found}"
  | .missingField field => s!"missing field '{field}'"
  | .notANumber field => s!"field '{field}' is not a number"
  | .nonFinite value =>
    s!"value {Decimal.Layout.plain.write value} cannot be represented as a number"

/-- The members of an object. -/
def asObject (expected : String) (j : Json) : Except DataFault (Table String Json) :=
  match j.object? with
  | some members => .ok members
  | none => .error (.unexpectedShape expected j.typeName)

/-- The items of a list. -/
def asArray (expected : String) (j : Json) : Except DataFault (List Json) :=
  match j.array? with
  | some items => .ok items
  | none => .error (.unexpectedShape expected j.typeName)

/-- The items of a list are found for a list, and for nothing else. -/
theorem asArray_eq_ok_iff {expected : String} {j : Json} {items : List Json} :
    asArray expected j = .ok items ↔ j = .array items := by
  rw [← Json.array?_eq_some_iff, asArray]
  cases j.array? <;> simp

/-- A member that is a number. -/
def floatField (members : Table String Json) (field : String) : Except DataFault Float :=
  match members.get? field with
  | none => .error (.missingField field)
  | some j => match j.float? with
    | some x => .ok x
    | none => .error (.notANumber field)

/-- A member that is a text. -/
def textField? (members : Table String Json) (field : String) : Option String := do
  (← members.get? field).string?

/-- A double as a JSON number. -/
def ofFloat (x : Float) : Except DataFault Json :=
  match Number.ofFloat? x with
  | some n => .ok (.number n)
  | none => .error (.nonFinite x)

end BatchFlow.Vision
