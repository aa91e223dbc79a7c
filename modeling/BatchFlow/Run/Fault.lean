import BatchFlow.Batch.Structure
import BatchFlow.Block.Fault

namespace BatchFlow

/-!
# Faults of runs

* `InputFault` — what is wrong with the values supplied for an input.
* `OutputFault` — what is wrong with what a block returned.
* `RunFault` — why a run has no result.
-/

/-- What is wrong with the values supplied for an input. -/
inductive InputFault where
  | missing
  | notNested (depth : Nat)
  | differentSize (size expected : Nat) (first : String)
  | notAList (index : Index) (depth : Nat)
  | differentShape (conflict : CountConflict)
deriving DecidableEq, Repr

/-- What is shown for a supplied value that does not fit. -/
def InputFault.message : InputFault → String
  | .missing => "missing required input"
  | .notNested depth => s!"expected a nested list of depth {depth}"
  | .differentSize size expected first =>
    s!"batch of {size} elements does not match batch of {expected} elements in '{first}'"
  | .notAList index depth =>
    s!"element {index.text} must be a list to reach dimensionality {depth}"
  | .differentShape conflict =>
    s!"nested batch shape differs from another input: {conflict.message}"

/-- What is wrong with what a block returned. -/
inductive OutputFault where
  | wrongCount (expected given : Nat)
  | unknownTarget (step : String)
  | noDecision
  | notNested
  | unexpectedShape
  | differentCount (conflict : CountConflict)
deriving DecidableEq, Repr

/-- What is shown for an output that does not fit the manifest. -/
def OutputFault.message : OutputFault → String
  | .wrongCount expected given => s!"expected {expected} results, got {given}"
  | .unknownTarget step => s!"selected step '{step}' is not one of its declared targets"
  | .noDecision => "flow-control blocks must return a decision"
  | .notNested => "blocks that increase dimensionality must return a nested batch"
  | .unexpectedShape => "unexpected output shape for this block"
  | .differentCount conflict => conflict.message

/-- Why a run has no result. -/
inductive RunFault where
  | input (name : String) (fault : InputFault)
  | block (step : String) (fault : BlockFault)
  | output (step : String) (fault : OutputFault)
  | cancelled
  /-- The call of a block broke off. -/
  | crashed
  /-- A run that waits for its result was started where waiting is not possible. -/
  | cannotWait
deriving DecidableEq

/-- What is shown for a run that failed. -/
def RunFault.message : RunFault → String
  | .input name fault => s!"invalid runtime input '{name}': {fault.message}"
  | .block step fault => s!"step '{step}' failed: {fault.message}"
  | .output step fault => s!"step '{step}' produced invalid output: {fault.message}"
  | .cancelled => "execution cancelled"
  | .crashed => "step task failed to complete"
  | .cannotWait => "failed to set up runtime: blocking run called from within an async runtime; " ++
      "use run_async"

end BatchFlow
