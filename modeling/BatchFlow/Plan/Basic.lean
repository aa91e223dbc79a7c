import BatchFlow.Workflow.Alignment

namespace BatchFlow

/-!
# Plans

A plan is what is executed: the steps in topological order, each with the places from which its
values come and with the steps for which it has to wait.

* `Plan.Source`, `Plan.Binding` — where one value comes from, and where a property's does.
* `Plan.Input`, `Plan.Step`, `Plan.Output`, `Plan` — the parts of a plan.
-/

namespace Plan

/-- Where a value comes from. -/
inductive Source where
  | literal (value : Json)
  | input (name : String) (depth : Nat)
  /-- One output of a step, or an object of all of them. -/
  | step (name : String) (property : Option String) (depth : Nat)
deriving DecidableEq

/-- The nesting depth of data; a literal has none. -/
def Source.depth? : Source → Option Nat
  | .literal _ => none
  | .input _ depth | .step _ _ depth => some depth

/-- Where the value of a property comes from. -/
inductive Binding where
  | source (source : Source)
  | map (entries : Table String Source)
deriving DecidableEq

/-- The places at which a binding looks, in order. -/
def Binding.sources : Binding → List Source
  | .source s => [s]
  | .map entries => entries.values

/-- An input with its depth, the lineage of its values and the value it has when none is given. -/
structure Input where
  name : String
  depth : Nat
  lineage : Lineage
  default : Option Json
deriving DecidableEq

/-- Whether a value has to be supplied. Parameters fall back on their default. -/
def Input.isRequired (input : Input) : Bool := 0 < input.depth

/-- A step with everything a run has to know of it. -/
structure Step where
  name : String
  blockType : String
  manifest : Manifest
  bindings : Table String Binding
  /-- The steps about which the step decides. -/
  targets : List String
  /-- The steps that decide about this one, in the order of the plan. -/
  governedBy : List String
  /-- The steps for which this one waits, in the order of the plan. -/
  dependsOn : List String
  alignment : Workflow.Alignment
deriving DecidableEq

/-- The places at which a step looks for its values. -/
def Step.sources (step : Step) : List Source := step.bindings.values.flatMap Binding.sources

/-- An output with the source of its values and the lineage along which they are nested. -/
structure Output where
  name : String
  selector : Selector
  source : Source
  lineage : Lineage
deriving DecidableEq

end Plan

/-- A workflow made ready to run. -/
structure Plan where
  version : String
  inputs : List Plan.Input
  /-- The steps in topological order. -/
  steps : List Plan.Step
  outputs : List Plan.Output
  initParameters : Table String Json
deriving DecidableEq

namespace Plan

/-- The first step of a name. -/
def step? (p : Plan) (name : String) : Option Step := p.steps.find? (·.name == name)

/-- The first input of a name. -/
def input? (p : Plan) (name : String) : Option Input := p.inputs.find? (·.name == name)

/-- The names of the steps in order. -/
def stepNames (p : Plan) : List String := p.steps.map (·.name)

end Plan

end BatchFlow
