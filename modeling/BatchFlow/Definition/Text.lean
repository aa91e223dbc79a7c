import BatchFlow.Definition.Basic
import BatchFlow.Distinct
import BatchFlow.Json.Document
import BatchFlow.Json.Printer

namespace BatchFlow

/-!
# Definitions as texts

A text is stricter than a value: no field may be written twice. And it is laxer: a member that no
field is named after is not read, so it may hold anything that follows the grammar.

* `Definition.ofText?` — the definition that a text denotes.
* `Definition.text` — the text of a definition without blanks.
-/

namespace Json.Document

/-- The members of an object whose names are among the given ones, unless one occurs twice or is no
    text. Parts that are no objects stay as they are. -/
def known? (names : List String) : Document → Option Document
  | .object members => do
    let keys ← members.mapM (·.1)
    let kept := members.filter fun (key, _) => names.any fun name => key == some name
    guard (firstRepeat? (keys.filter names.contains)).isNone
    return .object kept
  | document => some document

/-- An object without a repetition of one of the names. -/
def once? (names : List String) : Document → Option Document
  | .object members => do
    let keys ← members.mapM (·.1)
    guard (firstRepeat? (keys.filter names.contains)).isNone
    return .object members
  | document => some document

/-- An object with at most one member, or no object. -/
def single? : Document → Option Document
  | .object (_ :: _ :: _) => none
  | document => some document

/-- Changes the items of a list. -/
def mapItems? (f : Document → Option Document) : Document → Option Document
  | .array items => (items.mapM f).map .array
  | document => some document

end Json.Document

open Json (Document)

/-- The fields of an input besides `type`, by its type. -/
def InputDef.fieldNames : String → List String
  | "WorkflowParameter" => ["name", "default_value", "kind"]
  | "WorkflowBatchInput" => ["name", "dimensionality", "kind"]
  | _ => ["name"]

/-- An input in which no field is written twice. -/
def InputDef.checkOnce? (document : Document) : Option Document := do
  let document ← document.once? ["type"]
  match document.value?.bind Json.tagged? with
  | some (tag, _) => document.once? (InputDef.fieldNames tag)
  | none => return document

/-- What an output reads of a document. A type that is written as an object has one member. -/
def OutputDef.readDocument? (document : Document) : Option Document := do
  match ← document.known? fieldNames with
  | .object members =>
    return .object (← members.mapM fun (key, field) =>
      return (key, ← if key == some "type" then field.single? else some field))
  | .array (type :: rest) => return .array ((← type.single?) :: rest)
  | document => return document

/-- What a definition reads of one of its fields. -/
def Definition.readField? (name : String) (document : Document) : Option Document :=
  match name with
  | "inputs" => document.mapItems? InputDef.checkOnce?
  | "steps" => document.mapItems? (Document.once? ["type", "name"])
  | "outputs" => document.mapItems? OutputDef.readDocument?
  | _ => some document

/-- What a definition reads of a document. -/
def Definition.readDocument? (document : Document) : Option Document := do
  match ← document.known? fieldNames with
  | .object members =>
    return .object (← members.mapM fun (key, field) =>
      return (key, ← readField? (key.getD "") field))
  | .array items =>
    guard (items.length ≤ fieldNames.length)
    return .array (← (fieldNames.zip items).mapM fun (name, field) => readField? name field)
  | document => return document

/-- The definition that a text denotes. -/
def Definition.ofText? (text : String) : Option Definition := do
  Definition.ofJson? (← (← Definition.readDocument? (← Document.parse? text)).value?)

/-- The text of a definition. -/
def Definition.text (d : Definition) : String := d.toJson.compact

end BatchFlow
