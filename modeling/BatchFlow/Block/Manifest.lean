import BatchFlow.Block.Kind
import BatchFlow.Json.Record

namespace BatchFlow

/-!
# Manifests

* `Manifest` — what a block declares: its properties and outputs, whether it takes whole batches
  and empty values, whether it decides about other steps, and how it changes the nesting depth.
* `Manifest.property?`, `Manifest.output?` — the first property or output of a name.
* `Manifest.ofJson?`, `Manifest.toJson` — the manifest as a JSON value.
-/

/-- How a block changes the nesting depth of its data. -/
inductive Transform where
  /-- The outputs are as deep as the inputs. -/
  | identity
  /-- Every element fans out into a nested batch. -/
  | increment
  /-- Every nested batch is folded into one value. -/
  | decrement
deriving DecidableEq, Repr

/-- The change of depth as a number. -/
def Transform.offset : Transform → Int
  | .identity => 0
  | .increment => 1
  | .decrement => -1

/-- What a property may hold. -/
inductive PropertyKind where
  /-- A literal or a selector to data of these kinds. -/
  | data (kinds : List Kind) (batch : Bool)
  /-- Named values, each a literal or a selector to data of these kinds. -/
  | dataMap (kinds : List Kind) (batch : Bool)
  /-- References to steps about which the block decides. -/
  | stepTargets
  /-- A literal. -/
  | config
deriving DecidableEq, Repr

/-- A declared property. -/
structure PropertySpec where
  name : String
  kind : PropertyKind
  required : Bool := true
  default : Option Json := none
deriving DecidableEq

namespace PropertySpec

/-- Whether batch-oriented data may go into the property. -/
def acceptsBatch (spec : PropertySpec) : Bool :=
  match spec.kind with
  | .data _ batch | .dataMap _ batch => batch
  | .stepTargets | .config => false

/-- The kinds of data that may go into the property. -/
def acceptedKinds (spec : PropertySpec) : List Kind :=
  match spec.kind with
  | .data kinds _ | .dataMap kinds _ => kinds
  | .stepTargets | .config => []

/-- The property with a default, which makes it optional. -/
def withDefault (spec : PropertySpec) (default : Json) : PropertySpec :=
  { spec with required := false, default := some default }

/-- The property made optional without a default. -/
def optional (spec : PropertySpec) : PropertySpec := { spec with required := false }

end PropertySpec

/-- A declared output. -/
structure OutputSpec where
  name : String
  kinds : List Kind
deriving DecidableEq, Repr

/-- What a block declares about itself. -/
structure Manifest where
  blockType : String
  description : String := ""
  properties : List PropertySpec := []
  outputs : List OutputSpec := []
  /-- The block receives all elements in one call. -/
  acceptsBatchInput : Bool := false
  /-- Missing values are passed as null and do not make the block skip the element. -/
  acceptsEmptyValues : Bool := false
  /-- The block decides which steps run and produces no data. -/
  flowControl : Bool := false
  transform : Transform := .identity
  /-- Parameters that have to be given before the workflow runs. -/
  initParameters : List String := []
deriving DecidableEq

namespace Manifest

/-- The first property of a name. -/
def property? (manifest : Manifest) (name : String) : Option PropertySpec :=
  manifest.properties.find? (·.name == name)

/-- The first output of a name. -/
def output? (manifest : Manifest) (name : String) : Option OutputSpec :=
  manifest.outputs.find? (·.name == name)

end Manifest

/-! ### Manifests as JSON values -/

/-- The name of a transform in a document. -/
def Transform.name : Transform → String
  | .identity => "identity"
  | .increment => "increment"
  | .decrement => "decrement"

/-- The transform with a name. -/
def Transform.ofName? : String → Option Transform
  | "identity" => some .identity
  | "increment" => some .increment
  | "decrement" => some .decrement
  | _ => none

/-- A list of kinds from their names. -/
def Kind.ofJsonList? (j : Json) : Option (List Kind) := j.strings?.map (·.map Kind.mk)

/-- What a property holds, from a tagged record. -/
def PropertyKind.ofJson? (j : Json) : Option PropertyKind := do
  let (tag, body) ← j.tagged?
  match tag with
  | "data" =>
    let fields ← body.record? ["kinds", "batch"]
    return .data (← fields.require? "kinds" Kind.ofJsonList?)
      (← fields.require? "batch" Json.bool?)
  | "data_map" =>
    let fields ← body.record? ["kinds", "batch"]
    return .dataMap (← fields.require? "kinds" Kind.ofJsonList?)
      (← fields.require? "batch" Json.bool?)
  | "step_targets" =>
    let _ ← body.record? []
    return .stepTargets
  | "config" =>
    let _ ← body.record? []
    return .config
  | _ => none

/-- What a property holds, as a tagged record. -/
def PropertyKind.toJson : PropertyKind → Json
  | .data kinds batch => .object
    [("type", .string "data"), ("kinds", .ofStrings (kinds.map (·.name))), ("batch", .bool batch)]
  | .dataMap kinds batch => .object
    [("type", .string "data_map"), ("kinds", .ofStrings (kinds.map (·.name))),
      ("batch", .bool batch)]
  | .stepTargets => .object [("type", .string "step_targets")]
  | .config => .object [("type", .string "config")]

/-- The declaration of a property from a record. -/
def PropertySpec.ofJson? (j : Json) : Option PropertySpec := do
  let fields ← j.record? ["name", "kind", "required", "default"]
  return {
    name := ← fields.require? "name" Json.string?
    kind := ← fields.require? "kind" PropertyKind.ofJson?
    required := ← fields.require? "required" Json.bool?
    default := ← fields.optional? "default" none Json.presentValue? }

/-- The declaration of a property as a record; a missing default is left out. -/
def PropertySpec.toJson (spec : PropertySpec) : Json :=
  .object ([("name", .string spec.name), ("kind", spec.kind.toJson),
    ("required", .bool spec.required)] ++ (spec.default.map (("default", ·))).toList)

/-- The declaration of an output from a record. -/
def OutputSpec.ofJson? (j : Json) : Option OutputSpec := do
  let fields ← j.record? ["name", "kinds"]
  return { name := ← fields.require? "name" Json.string?
           kinds := ← fields.require? "kinds" Kind.ofJsonList? }

/-- The declaration of an output as a record. -/
def OutputSpec.toJson (spec : OutputSpec) : Json :=
  .object [("name", .string spec.name), ("kinds", .ofStrings (spec.kinds.map (·.name)))]

namespace Manifest

/-- The fields of a manifest in their order. -/
def fieldNames : List String :=
  ["block_type", "description", "properties", "outputs", "accepts_batch_input",
    "accepts_empty_values", "flow_control", "dimensionality", "init_parameters"]

/-- A manifest from a record. -/
def ofJson? (j : Json) : Option Manifest := do
  let fields ← j.record? fieldNames
  return {
    blockType := ← fields.require? "block_type" Json.string?
    description := ← fields.optional? "description" "" Json.string?
    properties := ← fields.require? "properties" fun j => do
      (← j.array?).mapM PropertySpec.ofJson?
    outputs := ← fields.require? "outputs" fun j => do (← j.array?).mapM OutputSpec.ofJson?
    acceptsBatchInput := ← fields.require? "accepts_batch_input" Json.bool?
    acceptsEmptyValues := ← fields.require? "accepts_empty_values" Json.bool?
    flowControl := ← fields.require? "flow_control" Json.bool?
    transform := ← fields.require? "dimensionality" fun j => do Transform.ofName? (← j.choice?)
    initParameters := ← fields.optional? "init_parameters" [] Json.strings? }

/-- A manifest as a record. -/
def toJson (m : Manifest) : Json :=
  .object [("block_type", .string m.blockType), ("description", .string m.description),
    ("properties", .array (m.properties.map PropertySpec.toJson)),
    ("outputs", .array (m.outputs.map OutputSpec.toJson)),
    ("accepts_batch_input", .bool m.acceptsBatchInput),
    ("accepts_empty_values", .bool m.acceptsEmptyValues),
    ("flow_control", .bool m.flowControl), ("dimensionality", .string m.transform.name),
    ("init_parameters", .ofStrings m.initParameters)]

end Manifest

end BatchFlow
