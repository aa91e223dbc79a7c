import BatchFlow.Argument
import BatchFlow.Graph.Basic
import BatchFlow.Block.Kind

namespace BatchFlow

/-!
# Rejections

* `Rejection` — every reason for which a workflow is refused before it runs.
* `PropertyFault`, `ReferenceFault`, `AlignmentFault` — what is wrong with a property, with a
  reference, and with the batches that meet in a step.
* `Rejection.message` — the reason in words. A reference is quoted as the user wrote it.
-/

/-- What is wrong with the value of a property. -/
inductive PropertyFault where
  | notDeclared (blockType : String)
  | missing
  | notAnObject
  | notReferences
  | refusesSelectors (raw : String)
deriving DecidableEq, Repr

/-- What is wrong with a reference. -/
inductive ReferenceFault where
  | malformed (fault : SelectorFault)
  | stepAsData
  | stepInMap
  | dataAsTarget
  | stepAsOutput
  | undeclaredInput (name : String)
  | undeclaredStep (name : String)
  | noSuchOutput (step blockType output : String)
  | selfTarget (step : String)
  | notYetCompiled (step : String)
  | unbound
  | unboundOutput
deriving DecidableEq, Repr

/-- What is wrong with the nesting of the data that meets in a step. -/
inductive AlignmentFault where
  | refusesBatch (property selector : String) (depth : Nat)
  | differentBatches (deepest other : String) (deepestLineage otherLineage : List String)
  | decidesOnBatch (blockType : String) (depth : Nat)
  | nothingToCollapse (blockType : String)
  | governsElsewhere (governor : String) (governorDepth depth : Nat)
  | misalignedOutput (output root : String)
deriving DecidableEq, Repr

/-- Why a workflow is refused before it runs. -/
inductive Rejection where
  | malformedDefinition
  | unresolvedStep (step : String)
  | unsupportedVersion (version : String)
  | duplicateName (kind name : String)
  | unknownBlockType (step blockType : String)
  | property (step property : String) (fault : PropertyFault)
  | reference (selector : String) (fault : ReferenceFault)
  | incompatibleKinds (selector property step : String) (accepted produced : List Kind)
  | danglingEdge (edge : Edge) (missing : Node)
  | cycle (node : Option Node)
  | alignment (step : String) (fault : AlignmentFault)
  | missingInitParameter (step parameter : String)
deriving DecidableEq, Repr

/-- What is shown for a fault in a property. -/
def PropertyFault.message : PropertyFault → String
  | .notDeclared blockType => s!"block '{blockType}' has no such property"
  | .missing => "missing required property"
  | .notAnObject => "expected an object of named values"
  | .notReferences => "expected '$steps.<name>' references"
  | .refusesSelectors raw => s!"property does not accept selectors, got '{raw}'"

/-- What is shown for a text that spells no selector. -/
def SelectorFault.message : SelectorFault → String
  | .badSegment => "selector segments must be non-empty names"
  | .badShape => "expected '$inputs.<name>', '$steps.<name>', '$steps.<name>.<property>' or " ++
      "'$steps.<name>.*'"

/-- What is shown for a reference that is refused. -/
def ReferenceFault.message : ReferenceFault → String
  | .malformed fault => fault.message
  | .stepAsData => "a step reference can only be used as a flow-control target; " ++
      "select one of its outputs instead"
  | .stepInMap => "a step reference can only be used as a flow-control target"
  | .dataAsTarget => "flow-control targets must reference a step as '$steps.<name>'"
  | .stepAsOutput =>
    "outputs must select data: use '$steps.<name>.<property>' or '$steps.<name>.*'"
  | .undeclaredInput name => s!"input '{name}' is not declared"
  | .undeclaredStep name => s!"step '{name}' is not declared"
  | .noSuchOutput owner blockType output =>
    s!"step '{owner}' of type '{blockType}' has no output '{output}'"
  | .selfTarget owner => s!"step '{owner}' cannot target itself"
  | .notYetCompiled owner => s!"step '{owner}' is not compiled before its consumers"
  | .unbound => "reference cannot be bound"
  | .unboundOutput => "output reference cannot be bound"

/-- A lineage in messages. -/
def lineageText (lineage : List String) : String := "[" ++ ", ".intercalate lineage ++ "]"

/-- What is shown for data that does not line up. -/
def AlignmentFault.message : AlignmentFault → String
  | .refusesBatch property selector depth =>
    s!"property '{property}' does not accept batch-oriented data, but '{selector}' has " ++
      s!"dimensionality {depth}"
  | .differentBatches deepest other deepestLineage otherLineage =>
    s!"'{deepest}' and '{other}' come from different batches (lineage " ++
      s!"{lineageText deepestLineage} vs {lineageText otherLineage})"
  | .decidesOnBatch blockType depth =>
    s!"flow-control block '{blockType}' does not operate on batches but receives data of " ++
      s!"dimensionality {depth}"
  | .nothingToCollapse blockType =>
    s!"block '{blockType}' collapses one level of nesting but receives non-batch data"
  | .governsElsewhere governor governorDepth depth =>
    s!"flow-control step '{governor}' operates at dimensionality {governorDepth} and cannot " ++
      s!"govern a step at dimensionality {depth} in another batch"
  | .misalignedOutput output root =>
    s!"output '{output}' is nested under '{root}', which is not aligned with the workflow " ++
      "input batch"

/-- The reason in words. -/
def Rejection.message : Rejection → String
  | .malformedDefinition => "invalid definition"
  | .unresolvedStep step => s!"invalid definition: step '{step}' missing from resolved workflow"
  | .unsupportedVersion version => s!"unsupported workflow definition version '{version}'"
  | .duplicateName kind name => s!"duplicate {kind} name '{name}'"
  | .unknownBlockType step blockType =>
    s!"step '{step}' uses unknown block type '{blockType}'"
  | .property step name fault =>
    s!"invalid property '{name}' of step '{step}': {fault.message}"
  | .reference selector fault => s!"invalid reference target '{selector}': {fault.message}"
  | .incompatibleKinds selector name step accepted produced =>
    s!"reference '{selector}' has incompatible kind: property '{name}' of step '{step}' " ++
      s!"accepts [{Kind.join accepted}] but the reference provides [{Kind.join produced}]"
  | .danglingEdge edge missing =>
    s!"invalid execution graph structure: edge {edge.source.text} -> {edge.target.text} " ++
      s!"references unknown node {missing.text}"
  | .cycle node =>
    let text := (node.map Node.text).getD ""
    s!"invalid execution graph structure: cycle detected involving {text}"
  | .alignment step fault => s!"dimensionality conflict in step '{step}': {fault.message}"
  | .missingInitParameter step parameter =>
    s!"step '{step}' requires init parameter '{parameter}'"

/-- A fault of the graph as a rejection. -/
def GraphFault.toRejection : GraphFault → Rejection
  | .repeatedNode node => .duplicateName node.kindName node.name
  | .danglingEdge edge missing => .danglingEdge edge missing
  | .cycle node => .cycle (some node)
  | .unnamedCycle => .cycle none

/-- A malformed selector as a rejection. -/
def MalformedSelector.toRejection (m : MalformedSelector) : Rejection :=
  .reference m.raw (.malformed m.fault)

end BatchFlow
