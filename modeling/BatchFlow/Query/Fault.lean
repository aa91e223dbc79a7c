import BatchFlow.Vision.Fault

namespace BatchFlow.Query

/-!
# Faults of statements

* `QueryFault` — why a statement or an operation has no result.
-/

open Vision (DataFault)

/-- Why a statement or an operation has no result. -/
inductive QueryFault where
  | unknownOperand (name : String)
  | typeMismatch (context expected found : String)
  | conversion (value target : String)
  | divisionByZero
  | data (fault : DataFault)
deriving DecidableEq

/-- What is shown for a fault. -/
def QueryFault.message : QueryFault → String
  | .unknownOperand name => s!"operand '{name}' is not provided"
  | .typeMismatch context expected found => s!"{context} expects {expected}, found {found}"
  | .conversion value target => s!"cannot convert '{value}' to {target}"
  | .divisionByZero => "division by zero"
  | .data fault => fault.message

/-- A result of reading data, as a result of a query. -/
def ofData {α : Type} : Except DataFault α → Except QueryFault α
  | .ok a => .ok a
  | .error fault => .error (.data fault)

end BatchFlow.Query
