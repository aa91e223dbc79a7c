import BatchFlow.Block.Basic
import BatchFlow.Definition.Basic
import BatchFlow.Graph.Cycle
import BatchFlow.Workflow.References

namespace BatchFlow

/-!
# Resolution

* `interpret` — what a value means as an argument, by the kind of its property.
* `resolveStep` — a step with its block's manifest and its arguments.
* `Definition.resolve` — the workflow that a definition describes, or the first reason why it is
  none: the version, the names, the steps, the outputs, the references and cycles are looked at in
  this order.
-/

/-- Refuses a name that occurs twice. -/
def checkUnique (kind : String) (names : List String) : Except Rejection Unit :=
  match firstRepeat? names with
  | some name => .error (.duplicateName kind name)
  | none => .ok ()

/-- Reads a value, or refuses it as a malformed selector. -/
def orMalformed {α : Type} : Except MalformedSelector α → Except Rejection α
  | .ok a => .ok a
  | .error m => .error m.toRejection

/-- The step that a value references as a target of a decision. -/
def interpretTarget (step property : String) : Json → Except Rejection String
  | .string raw => do
    match ← orMalformed (readSelector raw) with
    | .step target => return target
    | _ => .error (.reference raw .dataAsTarget)
  | _ => .error (.property step property .notReferences)

/-- What a value means as an argument for a property of some kind. -/
def interpret (step : String) (spec : PropertySpec) (raw : Json) : Except Rejection Argument := do
  match spec.kind with
  | .data .. =>
    let term ← orMalformed (Term.read raw)
    match term.selectors.find? (!·.isData) with
    | some s => .error (.reference s.text .stepAsData)
    | none => return .term term
  | .dataMap .. =>
    match raw with
    | .object members =>
      let entries ← orMalformed (readTerms members)
      match (Argument.map entries).selectors.find? (!·.isData) with
      | some s => .error (.reference s.text .stepInMap)
      | none => return .map entries
    | _ => .error (.property step spec.name .notAnObject)
  | .stepTargets =>
    let raws := match raw with
      | .array items => items
      | raw => [raw]
    return .targets (← raws.mapM (interpretTarget step spec.name))
  | .config =>
    match raw with
    | .string s =>
      if looksLikeSelector s then .error (.property step spec.name (.refusesSelectors s))
      else return .term (.literal raw)
    | raw => return .term (.literal raw)

/-- The value that a step gives for a property: its own, else the default. -/
def rawValue? (properties : Table String Json) (spec : PropertySpec) : Option Json :=
  (properties.get? spec.name).or spec.default

/-- The arguments for some properties, in their order. -/
def readArguments (step : StepDef) :
    List PropertySpec → Except Rejection (List (String × Argument))
  | [] => .ok []
  | spec :: rest => do
    match rawValue? step.properties spec with
    | some raw =>
      let argument ← interpret step.name spec raw
      return (spec.name, argument) :: (← readArguments step rest)
    | none =>
      if spec.required then .error (.property step.name spec.name .missing)
      else readArguments step rest

/-- Looks a step's block up and interprets the step's properties by its manifest. -/
def resolveStep (registry : Registry) (step : StepDef) : Except Rejection Workflow.Step := do
  match registry.manifest? step.blockType with
  | none => .error (.unknownBlockType step.name step.blockType)
  | some manifest =>
    match step.properties.keys.find? fun name => (manifest.property? name).isNone with
    | some name => .error (.property step.name name (.notDeclared manifest.blockType))
    | none =>
      return {
        name := step.name
        blockType := step.blockType
        manifest
        arguments := Table.ofList (← readArguments step manifest.properties) }

/-- An input with the kinds of its values. -/
def resolveInput (input : InputDef) : Workflow.Input where
  name := input.name
  depth := input.depth
  kinds := input.kinds.map Kind.mk
  default := input.default?

/-- Reads the selector of an output, which has to address data. -/
def resolveOutput (output : OutputDef) : Except Rejection Workflow.Output := do
  let selector ← orMalformed (readSelector output.selector)
  if selector.isData then return { name := output.name, selector }
  else .error (.reference output.selector .stepAsOutput)

/-- A result on graphs as a result on workflows. -/
def orGraphFault {α : Type} : Except GraphFault α → Except Rejection α
  | .ok a => .ok a
  | .error fault => .error fault.toRejection

/-- The workflow that a definition describes. -/
def Definition.resolve (registry : Registry) (d : Definition) : Except Rejection Workflow := do
  if !d.isSupported then throw (.unsupportedVersion d.version)
  checkUnique "input" (d.inputs.map (·.name))
  checkUnique "step" (d.steps.map (·.name))
  checkUnique "output" (d.outputs.map (·.name))
  let inputs := d.inputs.map resolveInput
  let steps ← d.steps.mapM (resolveStep registry)
  let outputs ← d.outputs.mapM resolveOutput
  steps.forM (Workflow.checkStep inputs steps)
  outputs.forM fun output => do let _ ← Workflow.producedKinds inputs steps output.selector
  -- names are unique and references point somewhere, so only a cycle is left to be found
  let graph ← orGraphFault (Workflow.graphOf inputs steps outputs)
  orGraphFault graph.checkAcyclic
  return { version := d.version, inputs, steps, outputs, graph }

end BatchFlow
