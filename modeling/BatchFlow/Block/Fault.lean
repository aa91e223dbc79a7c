import BatchFlow.Query.Fault

namespace BatchFlow

/-!
# Faults of blocks

* `BlockFault` — a fault that a block reports: an input that it cannot work with, an evaluation
  without a result, or a backend that failed.
* `Failure` — how a call of a block goes wrong: with a fault, or by breaking off without one.
-/

open Query (QueryFault)
open Vision (DataFault)

/-- A fault that a block reports. -/
inductive BlockFault where
  /-- The properties have not the shape that the block reads. -/
  | malformedInput
  | required (field : String)
  | badData (field : String) (fault : DataFault)
  | notChildren
  | probability (value : Float)
  | evaluation (fault : QueryFault)
  | notDetections
  | backend (message : String)
deriving DecidableEq

/-- What is shown for a fault of a block. -/
def BlockFault.message : BlockFault → String
  | .malformedInput => "invalid input 'input'"
  | .required field => s!"invalid input '{field}': value is required"
  | .badData field fault => s!"invalid input '{field}': {fault.message}"
  | .notChildren => "invalid input 'data': expected the list of children"
  | .probability value =>
    s!"invalid input 'probability': must be within [0, 1], got {Decimal.Layout.plain.write value}"
  | .evaluation fault => s!"evaluation failed: {fault.message}"
  | .notDetections => "evaluation failed: operations must produce a list of detections"
  | .backend message => s!"backend failure: {message}"

/-- How a call of a block goes wrong. -/
inductive Failure where
  | reported (fault : BlockFault)
  /-- The call breaks off without a result and without a fault. -/
  | crashed
deriving DecidableEq

end BatchFlow
