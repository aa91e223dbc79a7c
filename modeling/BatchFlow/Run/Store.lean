import BatchFlow.Batch.Structure
import BatchFlow.Block.Basic
import BatchFlow.Plan.Basic

namespace BatchFlow

/-!
# Stores

* `InputStore`, `ResultStore` — the values of inputs, and the outputs of steps, by index.
* `lookup?` — the value to which a source points at an element: the one at the element's index, cut
  to the depth of the source.
-/

/-- Input values, one entry per element. -/
abbrev InputStore := Table (String × Index) Json

/-- Outputs of steps, one entry per element at which the step produced some. -/
abbrev ResultStore := Table (String × Index) Values

/-- One of several outputs, null if it was not produced, or an object of all of them. -/
def selectOutput (outputs : Values) : Option String → Json
  | some property => .ofOption (outputs.get? property)
  | none => .object outputs

/-- The value to which a source points at an element. -/
def lookup? (inputs : InputStore) (results : ResultStore) (index : Index) :
    Plan.Source → Option Json
  | .literal value => some value
  | .input name depth => inputs.get? (name, index.take depth)
  | .step name property depth =>
    (results.get? (name, index.take depth)).map (selectOutput · property)

end BatchFlow
