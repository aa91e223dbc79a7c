namespace BatchFlow

/-!
# Nodes

* `Node` — a part of a workflow: an input, a step or an output, each with its name.
* `Node.text` — the node as it is written in messages.
-/

/-- An input, a step or an output of a workflow. -/
inductive Node where
  | input (name : String)
  | step (name : String)
  | output (name : String)
deriving DecidableEq, Repr

namespace Node

/-- The name without the sort. -/
def name : Node → String
  | .input name | .step name | .output name => name

/-- The name of the sort of node. -/
def kindName : Node → String
  | .input _ => "INPUT_NODE"
  | .step _ => "STEP_NODE"
  | .output _ => "OUTPUT_NODE"

/-- The name of a step. -/
def stepName? : Node → Option String
  | .step name => some name
  | _ => none

/-- The node in messages. -/
def text : Node → String
  | .input name => "$inputs." ++ name
  | .step name => "$steps." ++ name
  | .output name => "$outputs." ++ name

end Node

end BatchFlow
