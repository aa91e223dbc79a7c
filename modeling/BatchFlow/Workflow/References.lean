import BatchFlow.Rejection
import BatchFlow.Workflow.Basic

namespace BatchFlow.Workflow

/-!
# References

* `producedKinds` — the kinds of the data at which a selector points, if it points at something.
* `checkStep` — whether all references of a step point at something of a kind that fits.
-/

/-- The kinds of the data at which a selector points. -/
def producedKinds (inputs : List Input) (steps : List Step) (s : Selector) :
    Except Rejection (List Kind) :=
  let missing (fault : ReferenceFault) : Except Rejection (List Kind) :=
    .error (.reference s.text fault)
  match s with
  | .input name =>
    match inputs.find? (·.name == name) with
    | some input => .ok input.kinds
    | none => missing (.undeclaredInput name)
  | .output owner property =>
    match steps.find? (·.name == owner) with
    | none => missing (.undeclaredStep owner)
    | some step =>
      match step.manifest.output? property with
      | some output => .ok output.kinds
      | none => missing (.noSuchOutput owner step.blockType property)
  | .allOutputs owner | .step owner =>
    match steps.find? (·.name == owner) with
    | some _ => .ok [.wildcard]
    | none => missing (.undeclaredStep owner)

/-- The kinds that a step accepts in a property. -/
def acceptedKinds (step : Step) (property : String) : List Kind :=
  ((step.manifest.property? property).map (·.acceptedKinds)).getD []

/-- Checks one selector of an argument. -/
def checkSelector (inputs : List Input) (steps : List Step) (step : Step) (property : String)
    (isTarget : Bool) (s : Selector) : Except Rejection Unit := do
  let produced ← producedKinds inputs steps s
  let accepted := acceptedKinds step property
  if isTarget then
    if s.stepName? = some step.name then .error (.reference s.text (.selfTarget step.name))
    else return
  else if Kind.compatible produced accepted then return
  else .error (.incompatibleKinds s.text property step.name accepted produced)

/-- Checks all selectors of a step in order. -/
def checkStep (inputs : List Input) (steps : List Step) (step : Step) : Except Rejection Unit :=
  step.arguments.forM fun (property, argument) =>
    argument.selectors.forM (checkSelector inputs steps step property argument.isTargets)

end BatchFlow.Workflow
