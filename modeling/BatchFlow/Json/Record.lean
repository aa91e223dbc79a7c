import BatchFlow.Json.Basic

namespace BatchFlow.Json

/-!
# Records

A record with named fields is written as an object; unknown members do not count. It may also be
written as the list of its fields in their order, and a choice among records as a record with the
name of the alternative under `type` in front.

* `record? names j` — the fields that a record sets.
* `tagged? j` — the alternative that a value names, and the value without the tag; `taggedBy?` for
  a tag under another name than `type`.
* `choice? j` — one of several bare names.
* `presentValue? j` — an optional value, which null leaves out.
* `innerTagged? names j`, `innerChoice? j` — the same inside a tagged record, where more spellings
  are understood.
-/

/-- The fields that a record with these field names sets. -/
def record? (names : List String) : Json → Option (Table String Json)
  | .object members => some members
  | .array items => if items.length ≤ names.length then some (names.zip items) else none
  | _ => none

/-- The value of the tag, and the record that goes with it. -/
def untag? (key : String) : Json → Option (Json × Json)
  | .object members => do
    let tag ← Table.get? members key
    return (tag, .object (members.filter fun (name, _) => name != key))
  | .array (tag :: items) => some (tag, .array items)
  | _ => none

/-- The alternative that a value names under a key, and the record that goes with it. -/
def taggedBy? (key : String) (j : Json) : Option (String × Json) := do
  let (tag, body) ← j.untag? key
  return (← tag.string?, body)

/-- The alternative that a value names under `type`, and the record that goes with it. -/
def tagged? (j : Json) : Option (String × Json) := j.taggedBy? "type"

/-- The alternative of a value inside a tagged record. It may also be given by its position among
    the names. -/
def innerTagged? (names : List String) (j : Json) : Option (String × Json) := do
  let (tag, body) ← j.untag? "type"
  match tag with
  | .string name => return (name, body)
  | tag => return (← names[← tag.nat?]?, body)

/-- A bare name: a text, or an object with that one member set to null. -/
def choice? : Json → Option String
  | .string name => some name
  | .object [(name, .null)] => some name
  | _ => none

/-- A bare name inside a tagged record, where the one member may also be an empty object. -/
def innerChoice? : Json → Option String
  | .object [(name, .object [])] => some name
  | j => j.choice?

/-- The value of a field in which null stands for no value. -/
def presentValue? : Json → Option (Option Json)
  | .null => some none
  | j => some (some j)

end BatchFlow.Json

namespace BatchFlow.Table

/-- A field that has to be there. -/
def require? {α : Type} (fields : Table String Json) (name : String) (read : Json → Option α) :
    Option α := do
  read (← fields.get? name)

/-- A field with a default for when it is not there. -/
def optional? {α : Type} (fields : Table String Json) (name : String) (default : α)
    (read : Json → Option α) : Option α :=
  match fields.get? name with
  | none => some default
  | some j => read j

section Fields

variable {α : Type} {key name : String} {j : Json} {fields : Table String Json} {default : α}
  {read : Json → Option α}

/-- A required field is read where it stands, if it is the first one. -/
@[simp] theorem require?_cons : require? ((key, j) :: fields) name read =
    if key = name then read j else fields.require? name read := by
  by_cases h : key = name <;> simp [require?, h]

/-- A missing field has its default. -/
@[simp] theorem optional?_nil : optional? [] name default read = some default := rfl

/-- An optional field is read where it stands, if it is the first one. -/
@[simp] theorem optional?_cons : optional? ((key, j) :: fields) name default read =
    if key = name then read j else fields.optional? name default read := by
  by_cases h : key = name <;> simp [optional?, h]

end Fields

end BatchFlow.Table
