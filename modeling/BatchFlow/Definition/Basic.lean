import BatchFlow.Json.Equality
import BatchFlow.Json.Record
import BatchFlow.Text.Split

namespace BatchFlow

/-!
# Definitions

A definition declares the inputs, steps and outputs of a workflow. What a property of a step means
is left open here: the manifest of the step's block decides.

* `InputDef`, `StepDef`, `OutputDef`, `Definition` — the declarations.
* `Definition.ofJson?`, `Definition.toJson` — the definition as a JSON value, in which absent
  defaults and empty lists of kinds are left out.
* `Definition.same` — equality in which the order of a step's properties does not count.
-/

/-- A declared input. -/
inductive InputDef where
  /-- One image per element of the batch. -/
  | image (name : String)
  /-- One value for the whole batch. -/
  | parameter (name : String) (default : Option Json) (kinds : List String)
  /-- Data that is nested `depth` levels deep. -/
  | batch (name : String) (depth : Nat) (kinds : List String)
deriving DecidableEq

namespace InputDef

/-- The name under which a value is supplied. -/
def name : InputDef → String
  | .image name | .parameter name .. | .batch name .. => name

/-- The number of nesting levels of the input's values. -/
def depth : InputDef → Nat
  | .image _ => 1
  | .parameter .. => 0
  | .batch _ depth _ => depth

/-- The declared kinds; none means any. -/
def kinds : InputDef → List String
  | .image _ => ["image"]
  | .parameter _ _ kinds | .batch _ _ kinds => kinds

/-- The value of an input that is not supplied. -/
def default? : InputDef → Option Json
  | .parameter _ default _ => default
  | _ => none

end InputDef

/-- A declared step. -/
structure StepDef where
  blockType : String
  name : String
  properties : Table String Json
deriving DecidableEq

/-- A declared output. -/
structure OutputDef where
  name : String
  selector : String
deriving DecidableEq

/-- The declaration of a workflow. -/
structure Definition where
  version : String
  inputs : List InputDef
  steps : List StepDef
  outputs : List OutputDef
deriving DecidableEq

/-- The first part of the versions that are understood. -/
def supportedVersion : String := "1"

namespace Definition

/-- Whether the version belongs to the supported line. -/
def isSupported (d : Definition) : Bool :=
  (Text.pieces '.' d.version).head? == some supportedVersion

/-- The first input of a name. -/
def input? (d : Definition) (name : String) : Option InputDef :=
  d.inputs.find? (·.name == name)

/-- The first step of a name. -/
def step? (d : Definition) (name : String) : Option StepDef := d.steps.find? (·.name == name)

end Definition

/-! ### JSON form -/

/-- An input from a record tagged by its type. -/
def InputDef.ofJson? (j : Json) : Option InputDef := do
  let (tag, body) ← j.tagged?
  match tag with
  | "WorkflowImage" =>
    let fields ← body.record? ["name"]
    return .image (← fields.require? "name" Json.string?)
  | "WorkflowParameter" =>
    let fields ← body.record? ["name", "default_value", "kind"]
    return .parameter (← fields.require? "name" Json.string?)
      (← fields.optional? "default_value" none Json.presentValue?)
      (← fields.optional? "kind" [] Json.strings?)
  | "WorkflowBatchInput" =>
    let fields ← body.record? ["name", "dimensionality", "kind"]
    return .batch (← fields.require? "name" Json.string?)
      (← fields.optional? "dimensionality" 1 Json.nat?)
      (← fields.optional? "kind" [] Json.strings?)
  | _ => none

/-- The member for kinds, left out when there are none. -/
def kindMembers (kinds : List String) : List (String × Json) :=
  if kinds.isEmpty then [] else [("kind", .ofStrings kinds)]

/-- An input as a record tagged by its type; a missing default and an empty list of kinds are left
    out. -/
def InputDef.toJson : InputDef → Json
  | .image name => .object [("type", .string "WorkflowImage"), ("name", .string name)]
  | .parameter name default kinds => .object
    ([("type", .string "WorkflowParameter"), ("name", .string name)] ++
      (default.map (("default_value", ·))).toList ++ kindMembers kinds)
  | .batch name depth kinds => .object
    ([("type", .string "WorkflowBatchInput"), ("name", .string name),
      ("dimensionality", .ofNat depth)] ++ kindMembers kinds)

/-- A step is an object: `type` and `name` are its own, all other members are properties. -/
def StepDef.ofJson? (j : Json) : Option StepDef := do
  let members ← j.object?
  return {
    blockType := ← members.require? "type" Json.string?
    name := ← members.require? "name" Json.string?
    properties := members.filter fun (key, _) => key != "type" && key != "name" }

/-- A step as a record; its properties stand beside its type and name. -/
def StepDef.toJson (s : StepDef) : Json :=
  .object ([("type", .string s.blockType), ("name", .string s.name)] ++ s.properties)

/-- The fields of an output in their order. -/
def OutputDef.fieldNames : List String := ["type", "name", "selector"]

/-- An output from a record. -/
def OutputDef.ofJson? (j : Json) : Option OutputDef := do
  let fields ← j.record? fieldNames
  guard ((← fields.optional? "type" "JsonField" Json.choice?) = "JsonField")
  return { name := ← fields.require? "name" Json.string?
           selector := ← fields.require? "selector" Json.string? }

/-- An output as a record. -/
def OutputDef.toJson (o : OutputDef) : Json :=
  .object [("type", .string "JsonField"), ("name", .string o.name),
    ("selector", .string o.selector)]

namespace Definition

/-- The fields of a definition in their order. -/
def fieldNames : List String := ["version", "inputs", "steps", "outputs"]

/-- A definition from a record. -/
def ofJson? (j : Json) : Option Definition := do
  let fields ← j.record? fieldNames
  return {
    version := ← fields.require? "version" Json.string?
    inputs := ← fields.optional? "inputs" [] fun j => do (← j.array?).mapM InputDef.ofJson?
    steps := ← fields.optional? "steps" [] fun j => do (← j.array?).mapM StepDef.ofJson?
    outputs := ← fields.optional? "outputs" [] fun j => do (← j.array?).mapM OutputDef.ofJson? }

/-- A definition as a record. -/
def toJson (d : Definition) : Json :=
  .object [("version", .string d.version), ("inputs", .array (d.inputs.map InputDef.toJson)),
    ("steps", .array (d.steps.map StepDef.toJson)),
    ("outputs", .array (d.outputs.map OutputDef.toJson))]

end Definition

/-! ### Equality -/

/-- Equality in which the order of the properties does not count. -/
def StepDef.same (a b : StepDef) : Bool :=
  a.blockType == b.blockType && a.name == b.name &&
    (Json.object a.properties).same (.object b.properties)

/-- Whether two inputs are equal, defaults up to the order of members. -/
def InputDef.same : InputDef → InputDef → Bool
  | .image a, .image b => a == b
  | .parameter a x k, .parameter b y l =>
    a == b && k == l && (match x, y with
      | some x, some y => x.same y
      | none, none => true
      | _, _ => false)
  | .batch a d k, .batch b e l => a == b && d == e && k == l
  | _, _ => false

/-- Equality in which the order of a step's properties does not count. -/
def Definition.same (a b : Definition) : Bool :=
  a.version == b.version && a.outputs == b.outputs &&
    a.inputs.length == b.inputs.length && (a.inputs.zip b.inputs).all (fun (x, y) => x.same y) &&
    a.steps.length == b.steps.length && (a.steps.zip b.steps).all fun (x, y) => x.same y

end BatchFlow
