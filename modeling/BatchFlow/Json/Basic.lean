import BatchFlow.Json.Number
import BatchFlow.Table

namespace BatchFlow

/-!
# JSON values

* `Json` — the data that flows through a workflow and the documents that describe it. The members
  of an object keep their order.
* `Json.typeName` — the name of a value's type in messages.
* `Json.height` — how deep arrays and objects are nested in a value.
* `Json.member?` — the value of an object's member.
-/

/-- A JSON value. -/
inductive Json where
  | null
  | bool (value : Bool)
  | number (value : Number)
  | string (value : String)
  | array (items : List Json)
  | object (members : List (String × Json))

instance : Inhabited Json := ⟨.null⟩

namespace Json

/-- A whole number. -/
def ofInt (i : Int) : Json := .number (.int i)

/-- A count. -/
def ofNat (n : Nat) : Json := .number (.int n)

/-- A list of texts. -/
def ofStrings (texts : List String) : Json := .array (texts.map .string)

/-- An optional value; `null` when it is absent. -/
def ofOption (value : Option Json) : Json := value.getD .null

/-- The name of a value's type. -/
def typeName : Json → String
  | .null => "null"
  | .bool _ => "boolean"
  | .number _ => "number"
  | .string _ => "string"
  | .array _ => "array"
  | .object _ => "object"

/-- Whether a value is null. -/
def isNull : Json → Bool
  | .null => true
  | _ => false

/-- The truth value of a Boolean. -/
def bool? : Json → Option Bool
  | .bool b => some b
  | _ => none

/-- The number of a numeric value. -/
def number? : Json → Option Number
  | .number n => some n
  | _ => none

/-- The value of a number as a double. -/
def float? (j : Json) : Option Float := j.number?.map Number.toFloat

/-- The value of a natural number written as an integer. -/
def nat? : Json → Option Nat
  | .number (.int i) => i.toNat?
  | _ => none

/-- The characters of a text. -/
def string? : Json → Option String
  | .string s => some s
  | _ => none

/-- The items of an array. -/
def array? : Json → Option (List Json)
  | .array items => some items
  | _ => none

/-- Only an array has items. -/
theorem array?_eq_some_iff {j : Json} {items : List Json} :
    j.array? = some items ↔ j = .array items := by
  cases j <;> simp [array?]

/-- The members of an object. -/
def object? : Json → Option (Table String Json)
  | .object members => some members
  | _ => none

/-- The texts of a list of strings. -/
def strings? (j : Json) : Option (List String) := do
  (← j.array?).mapM string?

/-- The member of an object under a name. -/
def member? : Json → String → Option Json
  | .object members, name => Table.get? members name
  | _, _ => none

mutual

/-- How many arrays and objects lie around the deepest scalar. -/
def height : Json → Nat
  | .array items => heightItems items + 1
  | .object members => heightMembers members + 1
  | _ => 0

/-- The height of the highest item. -/
def heightItems : List Json → Nat
  | [] => 0
  | j :: rest => max j.height (heightItems rest)

/-- The height of the highest member. -/
def heightMembers : List (String × Json) → Nat
  | [] => 0
  | (_, j) :: rest => max j.height (heightMembers rest)

end

/-- An item of an array is less high than the array. -/
theorem height_lt_of_mem {items : List Json} {j : Json} (h : j ∈ items) :
    j.height < (Json.array items).height := by
  have le : j.height ≤ heightItems items := by
    induction items with
    | nil => cases h
    | cons i rest ih =>
      rw [heightItems]
      rcases List.mem_cons.1 h with rfl | h
      · exact Nat.le_max_left ..
      · exact Nat.le_trans (ih h) (Nat.le_max_right ..)
  rw [height]
  omega

/-- A member of an object is less high than the object. -/
theorem height_lt_of_mem_members {members : List (String × Json)} {name : String} {j : Json}
    (h : (name, j) ∈ members) : j.height < (Json.object members).height := by
  have le : j.height ≤ heightMembers members := by
    induction members with
    | nil => cases h
    | cons m rest ih =>
      obtain ⟨k, i⟩ := m
      rw [heightMembers]
      rcases List.mem_cons.1 h with h | h
      · cases h
        exact Nat.le_max_left ..
      · exact Nat.le_trans (ih h) (Nat.le_max_right ..)
  rw [height]
  omega

mutual

/-- Equality of values can be decided, with members compared in order. -/
def decEq : (a b : Json) → Decidable (a = b)
  | .null, .null => isTrue rfl
  | .bool a, .bool b => if h : a = b then isTrue (by rw [h]) else isFalse (by simpa using h)
  | .number a, .number b => if h : a = b then isTrue (by rw [h]) else isFalse (by simpa using h)
  | .string a, .string b => if h : a = b then isTrue (by rw [h]) else isFalse (by simpa using h)
  | .array a, .array b =>
    match decEqItems a b with
    | isTrue h => isTrue (by rw [h])
    | isFalse h => isFalse (by simpa using h)
  | .object a, .object b =>
    match decEqMembers a b with
    | isTrue h => isTrue (by rw [h])
    | isFalse h => isFalse (by simpa using h)
  | .null, .bool _ | .null, .number _ | .null, .string _ | .null, .array _ | .null, .object _
  | .bool _, .null | .bool _, .number _ | .bool _, .string _ | .bool _, .array _
  | .bool _, .object _ | .number _, .null | .number _, .bool _ | .number _, .string _
  | .number _, .array _ | .number _, .object _ | .string _, .null | .string _, .bool _
  | .string _, .number _ | .string _, .array _ | .string _, .object _ | .array _, .null
  | .array _, .bool _ | .array _, .number _ | .array _, .string _ | .array _, .object _
  | .object _, .null | .object _, .bool _ | .object _, .number _ | .object _, .string _
  | .object _, .array _ => isFalse (by simp)

/-- Decides equality of items, one by one. -/
def decEqItems : (a b : List Json) → Decidable (a = b)
  | [], [] => isTrue rfl
  | [], _ :: _ | _ :: _, [] => isFalse (by simp)
  | x :: a, y :: b =>
    match decEq x y, decEqItems a b with
    | isTrue h, isTrue t => isTrue (by rw [h, t])
    | isFalse h, _ => isFalse (by simp [h])
    | _, isFalse t => isFalse (by simp [t])

/-- Decides equality of members, which includes their order. -/
def decEqMembers : (a b : List (String × Json)) → Decidable (a = b)
  | [], [] => isTrue rfl
  | [], _ :: _ | _ :: _, [] => isFalse (by simp)
  | (k, x) :: a, (l, y) :: b =>
    match decEq x y, decEqMembers a b with
    | isTrue h, isTrue t =>
      if e : k = l then isTrue (by rw [h, t, e]) else isFalse (by simp [e])
    | isFalse h, _ => isFalse (by simp [h])
    | _, isFalse t => isFalse (by simp [t])

end

instance : DecidableEq Json := decEq

end Json

end BatchFlow
