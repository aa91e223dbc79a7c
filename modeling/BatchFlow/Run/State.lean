import BatchFlow.Engine.Basic
import BatchFlow.Run.Fault
import BatchFlow.Run.Inputs
import BatchFlow.Run.Invocation

namespace BatchFlow

/-!
# The state of a run

* `Task` — a step under way, with the elements at which it runs.
* `RunState` — which steps wait, are ready and are under way, what has been recorded, the first
  failure, and what was reported.
* `RunState.take` — what happens when a ready step is taken: it is started, or passed over when no
  element can run.
* `RunState.finish` — what happens when a task is done: its results are recorded, or the failure is
  noted. Results are written one after another, so those before a refused one stay. After a failure
  nothing is recorded.
-/

/-- A step under way. -/
structure Task where
  step : Plan.Step
  elements : Invocation

/-- The state of a run between two of its actions. -/
structure RunState where
  /-- Steps that wait, each with the dependencies that are not done. -/
  waiting : List (Plan.Step × List String)
  /-- Steps that wait for nothing, in the order in which they became ready. -/
  ready : List Plan.Step
  inFlight : List Task := []
  shape : BatchStructure
  results : ResultStore := []
  branches : Branches := {}
  failure : Option RunFault := none
  /-- What was reported, in order. -/
  events : List Event := []

/-- What does not change during a run. -/
structure RunContext where
  engine : Engine
  inputs : InputStore
  /-- The draw of each step for its random choice. -/
  draw : String → Float

/-- What the block of a task returns. -/
def Task.outcome (context : RunContext) (task : Task) :
    Except Failure (List Output) :=
  match context.engine.blocks.get? task.step.blockType with
  | some block =>
    -- the plan knows whether the step takes whole batches
    block.executeAll task.step.manifest.acceptsBatchInput {
      step := task.step.name
      initParameters := context.engine.plan.initParameters
      draw := context.draw task.step.name } (task.elements.map (·.2))
  | none => .error (.reported (.backend s!"no block registered for type '{task.step.blockType}'"))

namespace RunState

/-- The state in which a run of a plan starts. -/
def initial (plan : Plan) (shape : BatchStructure) : RunState where
  waiting := (plan.steps.filter (!·.dependsOn.isEmpty)).map fun step => (step, step.dependsOn)
  ready := plan.steps.filter (·.dependsOn.isEmpty)
  shape

/-- What is known when a step is prepared. -/
def view (s : RunState) (context : RunContext) : View where
  inputs := context.inputs
  results := s.results
  shape := s.shape
  branches := s.branches

/-- Reports events. -/
def report (s : RunState) (events : List Event) : RunState :=
  { s with events := s.events ++ events }

/-- Notes a failure, unless there was one before. -/
def fail (s : RunState) (fault : RunFault) : RunState :=
  { s with failure := s.failure.or (some fault) }

/-- Lets the steps go on that waited for nothing but a step that is done. -/
def release (s : RunState) (done : String) : RunState :=
  let waiting := s.waiting.map fun (step, others) => (step, others.filter (· ≠ done))
  { s with
    waiting := waiting.filter (!·.2.isEmpty)
    ready := s.ready ++ (waiting.filter (·.2.isEmpty)).map (·.1) }

/-- Closes the branches that restrict a step. -/
def closeBranches (s : RunState) (governing : List BranchId) : RunState :=
  { s.report (s.branches.closeEvents governing) with branches := s.branches.close governing }

/-- Opens a branch per target of a step. -/
def openBranches (s : RunState) (step : Plan.Step) (governing : List BranchId)
    (decisions : List (Index × List String)) : RunState :=
  let depth := step.alignment.input
  { s.report (s.branches.openEvents step.name governing depth step.targets decisions) with
    branches := s.branches.openAll step.name governing depth step.targets decisions }

/-- The branches that restrict a step. -/
def governing (s : RunState) (step : Plan.Step) : List BranchId :=
  s.branches.governing step.name step.governedBy

/-! ### Taking a ready step -/

/-- Passes over a step. One that decides selects none of its targets. -/
def skip (s : RunState) (step : Plan.Step) (reason : SkipReason) : RunState :=
  let governing := s.governing step
  let s := (s.report [.stepSkipped step.name reason]).closeBranches governing
  -- the targets of a step that did not decide run nowhere
  let s := if step.manifest.flowControl then s.openBranches step governing [] else s
  s.release step.name

/-- Starts a step. -/
def start (s : RunState) (step : Plan.Step) (elements : Invocation) : RunState :=
  let s := (s.closeBranches (s.governing step)).report
    [.stepStarted step.name step.blockType elements.length]
  { s with inFlight := s.inFlight ++ [⟨step, elements⟩] }

/-- Takes a ready step. A step is passed over when a branch that restricts it is exhausted, or when
    no element can run. -/
def take (context : RunContext) (s : RunState) (step : Plan.Step) : RunState :=
  let governing := s.governing step
  match governing.find? fun id => (s.branches.get id).isExhausted with
  | some id => s.skip step (.exhausted (s.branches.get id).name)
  | none =>
    match (s.view context).invocation governing step with
    | [] => s.skip step .noElement
    | elements => s.start step elements

/-! ### Finishing a task -/

/-- What is gathered while the outputs of a step are recorded. -/
structure Recording where
  shape : BatchStructure
  results : ResultStore
  decisions : List (Index × List String) := []

namespace Recording

/-- Records the nested outputs of one element. -/
def putNested (r : Recording) (step : String) (index : Index) (items : List Values) : Recording :=
  { r with results := items.zipIdx.foldl (fun results (values, position) =>
      results.put (step, index ++ [position]) values) r.results }

/-- Records the output of one element, which has to fit the manifest of the step. -/
def add (step : Plan.Step) (r : Recording) (index : Index) (output : Output) :
    Except OutputFault Recording :=
  match step.manifest.flowControl, output, step.manifest.transform with
  | true, .decision next, _ =>
    match next.find? fun name => !step.targets.contains name with
    | some name => .error (.unknownTarget name)
    | none => .ok { r with decisions := r.decisions ++ [(index, next)] }
  | true, _, _ => .error .noDecision
  | false, .values values, .identity | false, .values values, .decrement =>
    .ok { r with results := r.results.put (step.name, index) values }
  | false, .nested items, .increment =>
    match r.shape.register step.alignment.outputLineage index items.length with
    | .error conflict => .error (.differentCount conflict)
    | .ok shape => .ok ({ r with shape }.putNested step.name index items)
  | false, .values _, .increment => .error .notNested
  | false, _, _ => .error .unexpectedShape

end Recording

/-- Why the outputs of a step are refused. What had been recorded before stays recorded. -/
structure Refusal where
  fault : OutputFault
  kept : Recording

/-- Records the outputs of several elements, up to the first one that is refused. -/
def Recording.addAll (step : Plan.Step) (r : Recording) :
    List (Index × Output) → Except Refusal Recording
  | [] => .ok r
  | (index, output) :: rest =>
    match r.add step index output with
    | .ok r => addAll step r rest
    | .error fault => .error ⟨fault, r⟩

/-- Writes what has been recorded into the state. -/
def keep (s : RunState) (r : Recording) : RunState :=
  { s with shape := r.shape, results := r.results }

/-- Records the outputs of a step, opens branches for its decisions, and lets the steps go on that
    waited for it. -/
def record (s : RunState) (task : Task) (outputs : List Output) : Except Refusal RunState :=
  let step := task.step
  let before : Recording := { shape := s.shape, results := s.results }
  -- a block that takes whole batches may return too few or too many results
  if outputs.length ≠ task.elements.length then
    .error ⟨.wrongCount task.elements.length outputs.length, before⟩
  else do
    let recording ← before.addAll step ((task.elements.map (·.1)).zip outputs)
    let s := (s.keep recording).report [.stepCompleted step.name]
    let s := if step.manifest.flowControl then
        s.openBranches step (s.governing step) recording.decisions
      else s
    return s.release step.name

/-- Finishes a task that is no longer under way. -/
def finish (context : RunContext) (s : RunState) (task : Task) : RunState :=
  match task.outcome context with
  | .error .crashed => s.fail .crashed
  | .error (.reported fault) =>
    -- reported also after a failure, which then stays the first one
    (s.report [.stepFailed task.step.name]).fail (.block task.step.name fault)
  | .ok outputs =>
    if s.failure.isSome then s
    else match s.record task outputs with
      | .ok s => s
      -- nothing is taken back
      | .error refusal => (s.keep refusal.kept).fail (.output task.step.name refusal.fault)

end RunState

end BatchFlow
