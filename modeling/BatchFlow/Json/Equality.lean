import BatchFlow.Json.Basic

namespace BatchFlow.Json

/-!
# Equality of values

* `same a b` — two values are the same when they have the same type and content. Numbers keep
  their kind, so `1` differs from `1.0`; the order of an object's members does not count. An
  object stands for the first value of each of its keys.
-/

mutual

/-- Whether two values have the same type and content. -/
def same : Json → Json → Bool
  | .null, .null => true
  | .bool a, .bool b => a == b
  | .number a, .number b => a.same b
  | .string a, .string b => a == b
  | .array a, .array b => sameItems a b
  | .object a, .object b => sameMembers [] a b && b.all fun (key, _) => Table.contains a key
  | _, _ => false

/-- Lists are the same when they are so item by item. -/
def sameItems : List Json → List Json → Bool
  | [], [] => true
  | x :: a, y :: b => same x y && sameItems a b
  | _, _ => false

/-- Whether every member finds the same value in the other object. Keys that were `seen` before
    are passed over. -/
def sameMembers (seen : List String) : List (String × Json) → List (String × Json) → Bool
  | [], _ => true
  | (key, x) :: rest, other =>
    (seen.contains key || match Table.get? other key with
      | some y => same x y
      | none => false) && sameMembers (key :: seen) rest other

end

end BatchFlow.Json
