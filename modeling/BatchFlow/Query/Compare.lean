import BatchFlow.Json.Equality
import BatchFlow.Query.Fault
import BatchFlow.Query.Statement

namespace BatchFlow.Query

/-!
# Comparisons

* `alike a b` — equality of values in which a number is equal to another one of the same value,
  at the top and inside lists. Objects are compared as they stand.
* `Comparator.compare`, `UnaryOperator.check` — what the comparators and checks mean.
-/

mutual

/-- Equality in which `1` and `1.0` are one number. -/
def alike : Json → Json → Bool
  | .number a, .number b => a.toFloat == b.toFloat
  | .array a, .array b => alikeItems a b
  -- inside objects numbers keep their kind
  | a, b => a.same b

/-- Lists of which the items are equal, one by one. -/
def alikeItems : List Json → List Json → Bool
  | [], [] => true
  | x :: a, y :: b => alike x y && alikeItems a b
  | _, _ => false

end

/-- Whether the first text occurs in the second. -/
def occursIn (part : List Char) : List Char → Bool
  | [] => part.isEmpty
  | c :: rest => part.isPrefixOf (c :: rest) || occursIn part rest

namespace Comparator

/-- A value of the wrong type on one side of a comparator. -/
def mismatch {α : Type} (c : Comparator) (expected : String) (j : Json) : Except QueryFault α :=
  .error (.typeMismatch c.name expected j.typeName)

/-- The number a comparator asks for. -/
def number (c : Comparator) (j : Json) : Except QueryFault Float :=
  match j.float? with
  | some x => .ok x
  | none => c.mismatch "number" j

/-- The characters of the text a comparator asks for. -/
def text (c : Comparator) (j : Json) : Except QueryFault (List Char) :=
  match j.string? with
  | some s => .ok s.toList
  | none => c.mismatch "string" j

/-- The list a comparator asks for. -/
def sequence (c : Comparator) (j : Json) : Except QueryFault (List Json) :=
  match j.array? with
  | some items => .ok items
  | none => c.mismatch "sequence" j

/-- Compares two numbers; the left side is looked at first. -/
def compareNumbers (c : Comparator) (test : Float → Float → Bool) (left right : Json) :
    Except QueryFault Bool := do
  let a ← c.number left
  let b ← c.number right
  return test a b

/-- Compares two texts; the left side is looked at first. -/
def compareTexts (c : Comparator) (test : List Char → List Char → Bool) (left right : Json) :
    Except QueryFault Bool := do
  let a ← c.text left
  let b ← c.text right
  return test a b

/-- Whether the comparator holds between two values. -/
def compare (c : Comparator) (left right : Json) : Except QueryFault Bool :=
  match c with
  | .equal => .ok (alike left right)
  | .notEqual => .ok (!alike left right)
  | .numberEqual => c.compareNumbers (· == ·) left right
  | .numberNotEqual => c.compareNumbers (· != ·) left right
  | .numberGreater => c.compareNumbers (fun a b => decide (b < a)) left right
  | .numberGreaterOrEqual => c.compareNumbers (fun a b => decide (b ≤ a)) left right
  | .numberLower => c.compareNumbers (fun a b => decide (a < b)) left right
  | .numberLowerOrEqual => c.compareNumbers (fun a b => decide (a ≤ b)) left right
  | .isIn => do return (← c.sequence right).any (alike left ·)
  | .contains => do return (← c.sequence left).any (alike · right)
  | .startsWith => c.compareTexts (fun a b => b.isPrefixOf a) left right
  | .endsWith => c.compareTexts (fun a b => b.isSuffixOf a) left right
  | .containsText => c.compareTexts (fun a b => occursIn b a) left right

end Comparator

namespace UnaryOperator

/-- Whether a sequence is empty. -/
def empty? : Json → Option Bool
  | .array items => some items.isEmpty
  | .object members => some members.isEmpty
  | .string s => some s.isEmpty
  | _ => none

/-- A check that is only defined on values of one type. -/
def checked (o : UnaryOperator) (expected : String) (j : Json) (outcome : Option Bool) :
    Except QueryFault Bool :=
  match outcome with
  | some b => .ok b
  | none => .error (.typeMismatch o.name expected j.typeName)

/-- Whether a value passes the check. -/
def check (o : UnaryOperator) (j : Json) : Except QueryFault Bool :=
  match o with
  | .exists => .ok (!j.isNull)
  | .doesNotExist => .ok j.isNull
  | .isTrue => o.checked "boolean" j j.bool?
  | .isFalse => o.checked "boolean" j (j.bool?.map (!·))
  | .isEmpty => o.checked "sequence" j (empty? j)
  | .isNotEmpty => o.checked "sequence" j ((empty? j).map (!·))

end UnaryOperator

end BatchFlow.Query
