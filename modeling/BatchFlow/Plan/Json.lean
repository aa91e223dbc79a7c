import BatchFlow.Plan.Basic

namespace BatchFlow.Plan

/-!
# Plans as JSON values

* `Source.toJson`, `Binding.toJson` — the place from which a value comes.
* `toJson` — a whole plan with the manifests of its blocks.
-/

/-- A source as a tagged record. -/
def Source.toJson : Source → Json
  | .literal value => .object [("type", .string "literal"), ("value", value)]
  | .input name depth => .object
    [("type", .string "input"), ("name", .string name), ("dimensionality", .ofNat depth)]
  | .step name property depth => .object
    [("type", .string "step_output"), ("step", .string name),
      ("property", .ofOption (property.map .string)), ("dimensionality", .ofNat depth)]

/-- A binding as a tagged record. -/
def Binding.toJson : Binding → Json
  | .source s => s.toJson
  | .map entries => .object [("type", .string "map"),
      ("entries", .object (entries.map fun (name, s) => (name, s.toJson)))]

/-- An input as a record; a missing default is left out. -/
def Input.toJson (input : Input) : Json :=
  .object ([("name", .string input.name), ("dimensionality", .ofNat input.depth),
    ("lineage", .ofStrings input.lineage)] ++ (input.default.map (("default_value", ·))).toList)

/-- Depths and lineages as a record. -/
def alignmentJson (a : Workflow.Alignment) : Json :=
  .object [("input", .ofNat a.input), ("output", .ofNat a.output),
    ("lineage", .ofStrings a.lineage), ("output_lineage", .ofStrings a.outputLineage)]

/-- A step as a record. -/
def Step.toJson (step : Step) : Json :=
  .object [("name", .string step.name), ("block_type", .string step.blockType),
    ("manifest", step.manifest.toJson),
    ("bindings", .object (step.bindings.map fun (name, b) => (name, b.toJson))),
    ("flow_targets", .ofStrings step.targets), ("governed_by", .ofStrings step.governedBy),
    ("depends_on", .ofStrings step.dependsOn), ("dimensionality", alignmentJson step.alignment)]

/-- An output as a record. -/
def Output.toJson (output : Output) : Json :=
  .object [("name", .string output.name), ("selector", .string output.selector.text),
    ("source", output.source.toJson), ("lineage", .ofStrings output.lineage)]

end BatchFlow.Plan

/-- The JSON form of a plan. The init parameters, which may be secret, stay out of it. -/
def BatchFlow.Plan.toJson (p : BatchFlow.Plan) : BatchFlow.Json :=
  .object [("version", .string p.version), ("inputs", .array (p.inputs.map (·.toJson))),
    ("steps", .array (p.steps.map (·.toJson))), ("outputs", .array (p.outputs.map (·.toJson)))]
