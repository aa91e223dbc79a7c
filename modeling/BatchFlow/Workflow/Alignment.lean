import BatchFlow.Lineage
import BatchFlow.Rejection
import BatchFlow.Workflow.Basic

namespace BatchFlow.Workflow

/-!
# Alignment

* `Alignment` — the depth and the lineage of what a step takes and of what it produces.
* `alignStep` — the alignment of a step from those of the steps before it. The deepest source sets
  the lineage, and all other sources have to lie on it.
* `align` — the alignments of all steps in topological order. A step may only decide about steps
  that lie on its own lineage.
-/

/-- The depth and lineage of what a step takes and of what it produces. -/
structure Alignment where
  input : Nat
  output : Nat
  lineage : Lineage
  outputLineage : Lineage
deriving DecidableEq, Repr

/-- Data that goes into a step. -/
structure Source where
  selector : String
  depth : Nat
  lineage : Lineage
deriving DecidableEq, Repr

/-- The depth and lineage of the data at which a selector points. -/
def sourceOf (w : Workflow) (aligned : Table String Alignment) (s : Selector) :
    Except Rejection Source :=
  match s with
  | .input name =>
    match w.input? name with
    | some input => .ok ⟨s.text, input.depth, .ofInput input.depth⟩
    | none => .error (.reference s.text (.undeclaredInput name))
  | .output owner _ | .allOutputs owner | .step owner =>
    match aligned.get? owner with
    | some a => .ok ⟨s.text, a.output, a.outputLineage⟩
    | none => .error (.reference s.text (.notYetCompiled owner))

/-- Whether a step takes batch-oriented data in a property. -/
def acceptsBatch (step : Step) (property : String) : Bool :=
  ((step.manifest.property? property).map (·.acceptsBatch)).getD false

/-- A source of a property, which has to take batches if the source is one. -/
def checkedSource (w : Workflow) (aligned : Table String Alignment) (step : Step)
    (property : String) (s : Selector) : Except Rejection Source := do
  let source ← sourceOf w aligned s
  if 0 < source.depth && !acceptsBatch step property then
    .error (.alignment step.name (.refusesBatch property source.selector source.depth))
  else return source

/-- The sources of the arguments that are data, in order. -/
def sourcesOf (w : Workflow) (aligned : Table String Alignment) (step : Step) :
    Except Rejection (List Source) := do
  let perArgument ← (step.arguments.filter fun (_, a) => !a.isTargets).mapM fun (property, a) =>
    a.selectors.mapM (checkedSource w aligned step property)
  return perArgument.flatten

/-- The deepest source; of several the first. -/
def deepest? : List Source → Option Source
  | [] => none
  | source :: rest =>
    some (rest.foldl (fun best s => if s.depth ≤ best.depth then best else s) source)

/-- The lineage on which all sources lie. -/
def commonLineage (step : Step) (sources : List Source) : Except Rejection Lineage :=
  match deepest? sources with
  | none => .ok []
  | some deepest =>
    match sources.find? fun s => !deepest.lineage.extendsTo s.lineage with
    | some other => .error (.alignment step.name
        (.differentBatches deepest.selector other.selector deepest.lineage other.lineage))
    | none => .ok deepest.lineage

/-- The alignment of a step whose inputs have some depth and lineage. -/
def alignOn (step : Step) (depth : Nat) (lineage : Lineage) : Except Rejection Alignment :=
  if step.manifest.flowControl && !step.manifest.acceptsBatchInput && 0 < depth then
    .error (.alignment step.name (.decidesOnBatch step.blockType depth))
  else match step.manifest.transform with
    | .identity => .ok ⟨depth, depth, lineage, lineage⟩
    | .increment => .ok ⟨depth, depth + 1, lineage, lineage ++ [step.name]⟩
    | .decrement =>
      if depth = 0 then .error (.alignment step.name (.nothingToCollapse step.blockType))
      else .ok ⟨depth, depth - 1, lineage, lineage.take (depth - 1)⟩

/-- The alignment of a step from those of the steps before it. -/
def alignStep (w : Workflow) (aligned : Table String Alignment) (step : Step) :
    Except Rejection Alignment := do
  let sources ← sourcesOf w aligned step
  let lineage ← commonLineage step sources
  alignOn step (((deepest? sources).map (·.depth)).getD 0) lineage

/-- The alignments of some steps after those that are there. -/
def alignAll (w : Workflow) (aligned : Table String Alignment) :
    List String → Except Rejection (Table String Alignment)
  | [] => .ok aligned
  | name :: rest =>
    match w.step? name with
    | none => .error (.unresolvedStep name)
    | some step => do alignAll w (aligned.put name (← alignStep w aligned step)) rest

/-- Whether a step lies on the lineage of a step that decides about it. -/
def governs (governor governed : Alignment) : Bool :=
  governor.input ≤ governed.input && governed.lineage.extendsTo governor.lineage

/-- Refuses a decision about a step in another batch. -/
def checkGovernance (aligned : Table String Alignment) (step : Step) : Except Rejection Unit :=
  match aligned.get? step.name with
  | none => .ok ()
  | some governor => step.targets.forM fun target =>
    match aligned.get? target with
    | none => .ok ()
    | some governed =>
      if governs governor governed then .ok ()
      else .error (.alignment target
        (.governsElsewhere step.name governor.input governed.input))

/-- The alignments of all steps. -/
def align (w : Workflow) (order : List String) : Except Rejection (Table String Alignment) := do
  let aligned ← alignAll w [] order
  w.steps.forM (checkGovernance aligned)
  return aligned

end BatchFlow.Workflow
