import BatchFlow.Argument
import BatchFlow.Block.Manifest
import BatchFlow.Distinct
import BatchFlow.Graph.Basic

namespace BatchFlow

/-!
# Workflows

A workflow is a definition whose references have all been checked against the blocks it uses.

* `Workflow.Input`, `Workflow.Step`, `Workflow.Output`, `Workflow` — its parts.
* `Workflow.Step.targets` — the steps about which a step decides.
* `Workflow.graphOf` — the graph of the flow of data and of decisions.
-/

namespace Workflow

/-- An input with the nesting depth of its values. -/
structure Input where
  name : String
  depth : Nat
  kinds : List Kind
  default : Option Json
deriving DecidableEq

/-- A step with its block's manifest. The arguments are in the order of the manifest; those of
    optional properties without a value are left out. -/
structure Step where
  name : String
  blockType : String
  manifest : Manifest
  arguments : Table String Argument
deriving DecidableEq

/-- An output and the data that it shows. -/
structure Output where
  name : String
  selector : Selector
deriving DecidableEq

namespace Step

/-- The steps that an argument names as targets. -/
def targetsOf : Argument → List String
  | .targets steps => steps
  | _ => []

/-- The steps about which the step decides, each once. -/
def targets (step : Step) : List String :=
  distinct (step.arguments.values.flatMap targetsOf)

end Step

/-- The edges of one argument: data flows into the step, decisions flow out of it. -/
def argumentEdges (owner : String) (argument : Argument) : List Edge :=
  if argument.isTargets then
    argument.selectors.map fun s => ⟨.step owner, s.node, .control⟩
  else argument.selectors.map fun s => ⟨s.node, .step owner, .data⟩

/-- The edges of a step. -/
def stepEdges (step : Step) : List Edge :=
  step.arguments.values.flatMap (argumentEdges step.name)

/-- The edge into an output. -/
def outputEdge (output : Output) : Edge := ⟨output.selector.node, .output output.name, .data⟩

/-- The graph of the flow of data and of decisions. -/
def graphOf (inputs : List Input) (steps : List Step) (outputs : List Output) :
    Except GraphFault Graph :=
  Graph.ofEdges
    (inputs.map (fun i => .input i.name) ++ steps.map (fun s => .step s.name) ++
      outputs.map (fun o => .output o.name))
    (steps.flatMap stepEdges ++ outputs.map outputEdge)

end Workflow

/-- A definition whose references have all been checked. -/
structure Workflow where
  version : String
  inputs : List Workflow.Input
  steps : List Workflow.Step
  outputs : List Workflow.Output
  graph : Graph

namespace Workflow

/-- The first input of a name. -/
def input? (w : Workflow) (name : String) : Option Input := w.inputs.find? (·.name == name)

/-- The first step of a name. -/
def step? (w : Workflow) (name : String) : Option Step := w.steps.find? (·.name == name)

end Workflow

end BatchFlow
