import BatchFlow.Graph.Order
import BatchFlow.Plan.Basic
import BatchFlow.Workflow.Resolve

namespace BatchFlow

/-!
# Compilation

* `Plan.bind` — where the value of an argument comes from.
* `Workflow.plan` — the plan of a workflow.
* `Definition.compile` — the plan of a definition, or the first reason why there is none: after
  resolution, missing init parameters and data that does not line up.
-/

namespace Plan

/-- The source at which a selector of a step points, given the steps compiled before it. -/
def bindSelector (w : Workflow) (compiled : List Step) (s : Selector) : Except Rejection Source :=
  let unbound : Except Rejection Source := .error (.reference s.text .unbound)
  let ofStep (owner : String) (property : Option String) : Except Rejection Source :=
    match compiled.find? (·.name == owner) with
    | some step => .ok (.step owner property step.alignment.output)
    | none => unbound
  match s with
  | .input name =>
    match w.input? name with
    | some input => .ok (.input name input.depth)
    | none => unbound
  | .output owner property => ofStep owner (some property)
  | .allOutputs owner => ofStep owner none
  | .step _ => unbound

/-- The source of a term: itself, or what its selector names. -/
def bindTerm (w : Workflow) (compiled : List Step) : Term → Except Rejection Source
  | .literal value => .ok (.literal value)
  | .selector s => bindSelector w compiled s

/-- Where the value of an argument comes from. Targets are passed as the list of their names. -/
def bind (w : Workflow) (compiled : List Step) : Argument → Except Rejection Binding
  | .term t => do return .source (← bindTerm w compiled t)
  | .targets steps => .ok (.source (.literal (.ofStrings steps)))
  | .map entries => do
    return .map (← entries.mapM fun (name, t) => do return (name, ← bindTerm w compiled t))

/-- Whether a name stands no later in an order than another one. Those that are not there come
    first. -/
def standsBy (order : List String) (name other : String) : Bool :=
  match order.idxOf? name, order.idxOf? other with
  | some place, some place' => place ≤ place'
  | none, _ => true
  | some _, none => false

/-- Puts a name before the first one that does not stand before it. -/
def insertByPlace (order : List String) (name : String) : List String → List String
  | [] => [name]
  | other :: rest =>
    if standsBy order name other then name :: other :: rest
    else other :: insertByPlace order name rest

/-- Sorts names by their places in an order. -/
def sortByPlace (order names : List String) : List String :=
  names.foldr (insertByPlace order) []

/-- The steps from which an edge leads to a step, each once, in the order of the plan. -/
def dependencies (g : Graph) (order : List String) (name : String) : List String :=
  dropRepeats (sortByPlace order ((g.predecessors (.step name)).filterMap (·.1.stepName?)))

/-- The steps that have a step among their targets, in the order of the plan. -/
def governors (w : Workflow) (order : List String) (name : String) : List String :=
  order.filter fun candidate => match w.step? candidate with
    | some step => step.targets.contains name
    | none => false

/-- Compiles a step after the steps compiled before it. -/
def compileStep (w : Workflow) (order : List String) (compiled : List Step)
    (alignment : Workflow.Alignment) (step : Workflow.Step) : Except Rejection Step := do
  return {
    name := step.name
    blockType := step.blockType
    manifest := step.manifest
    bindings := ← step.arguments.mapM fun (property, a) => do
      return (property, ← bind w compiled a)
    targets := step.targets
    governedBy := governors w order step.name
    dependsOn := dependencies w.graph order step.name
    alignment }

/-- Compiles steps one after another, after those compiled before them. -/
def compileSteps (w : Workflow) (order : List String)
    (aligned : Table String Workflow.Alignment) (compiled : List Step) :
    List String → Except Rejection (List Step)
  | [] => .ok compiled
  | name :: rest =>
    match w.step? name, aligned.get? name with
    | some step, some alignment => do
      let next ← compileStep w order compiled alignment step
      compileSteps w order aligned (compiled ++ [next]) rest
    | _, _ => compileSteps w order aligned compiled rest

/-- An input of a plan. Its lineage consists of levels of supplied batches. -/
def compileInput (input : Workflow.Input) : Input where
  name := input.name
  depth := input.depth
  lineage := .ofInput input.depth
  default := input.default

/-- The source of an output and its lineage. -/
def bindOutput (inputs : List Input) (steps : List Step) (s : Selector) :
    Except Rejection (Source × Lineage) :=
  let unbound : Except Rejection (Source × Lineage) :=
    .error (.reference s.text .unboundOutput)
  let ofStep (owner : String) (property : Option String) : Except Rejection (Source × Lineage) :=
    match steps.find? (·.name == owner) with
    | some step => .ok (.step owner property step.alignment.output, step.alignment.outputLineage)
    | none => unbound
  match s with
  | .input name =>
    match inputs.find? (·.name == name) with
    | some input => .ok (.input name input.depth, input.lineage)
    | none => unbound
  | .output owner property => ofStep owner (some property)
  | .allOutputs owner => ofStep owner none
  | .step _ => unbound

/-- Compiles an output, which has to be nested in the workflow input if it is nested at all. -/
def compileOutput (inputs : List Input) (steps : List Step) (output : Workflow.Output) :
    Except Rejection Output := do
  let (source, lineage) ← bindOutput inputs steps output.selector
  match lineage.head? with
  | some root =>
    if root ≠ Lineage.inputLevel then
      throw (.alignment (output.selector.stepName?.getD "") (.misalignedOutput output.name root))
  | none => pure ()
  return { name := output.name, selector := output.selector, source, lineage }

/-- Refuses a step whose block needs an init parameter that is not given. -/
def checkInitParameters (given : Table String Json) (step : Workflow.Step) :
    Except Rejection Unit :=
  match step.manifest.initParameters.find? fun parameter => !given.contains parameter with
  | some parameter => .error (.missingInitParameter step.name parameter)
  | none => .ok ()

end Plan

/-- The names of the steps in topological order. -/
def Workflow.stepOrder (w : Workflow) : Except Rejection (List String) := do
  return (← orGraphFault w.graph.topologicalOrder).filterMap Node.stepName?

/-- The plan of a workflow. -/
def Workflow.plan (w : Workflow) (initParameters : Table String Json) : Except Rejection Plan := do
  w.steps.forM (Plan.checkInitParameters initParameters)
  let order ← w.stepOrder
  let aligned ← w.align order
  let inputs := w.inputs.map Plan.compileInput
  let steps ← Plan.compileSteps w order aligned [] order
  let outputs ← w.outputs.mapM (Plan.compileOutput inputs steps)
  return { version := w.version, inputs, steps, outputs, initParameters }

/-- The plan of a definition. -/
def Definition.compile (registry : Registry) (initParameters : Table String Json)
    (d : Definition) : Except Rejection Plan := do
  (← d.resolve registry).plan initParameters

end BatchFlow
