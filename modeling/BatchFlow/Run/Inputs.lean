import BatchFlow.Run.Fault
import BatchFlow.Run.Store

namespace BatchFlow

/-!
# Inputs of a run

* `Laid` — the input values by index, and the structure of the batch.
* `layOut` — lays one element of a batch out, down to the depth of its input.
* `prepare` — lays all inputs out. Batches have the same number of elements, or one element that is
  repeated; inputs that are nested deeper agree on the shape.
-/

/-- Input values by index and the structure that they have. -/
structure Laid where
  store : InputStore := []
  shape : BatchStructure := {}
deriving DecidableEq

/-- The inputs of a run, laid out. -/
structure Prepared extends Laid where
  batchSize : Nat
deriving DecidableEq

/-- The value supplied for an input, else its default. -/
def supplied (parameters : Table String Json) (input : Plan.Input) :
    Except RunFault (Plan.Input × Json) :=
  match parameters.get? input.name with
  | some value => .ok (input, value)
  | none =>
    if input.isRequired then .error (.input input.name .missing)
    else .ok (input, .ofOption input.default)

/-- The elements of an input of some depth. One value is a batch of one when one level of nesting
    is asked for. -/
def elementsOf (input : Plan.Input) : Json → Except RunFault (List Json)
  | .array items => .ok items
  | value =>
    if input.depth = 1 then .ok [value]
    else .error (.input input.name (.notNested input.depth))

/-- The first batch size other than one, with the input that has it; all others have to agree. -/
def commonSize : Option (Nat × String) → List (Plan.Input × List Json) → Except RunFault Nat
  | size, [] => .ok ((size.map (·.1)).getD 1)
  | size, (input, elements) :: rest =>
    -- a single element fits every size
    if elements.length = 1 then commonSize size rest
    else match size with
      | none => commonSize (some (elements.length, input.name)) rest
      | some (expected, first) =>
        if elements.length = expected then commonSize size rest
        else .error (.input input.name (.differentSize elements.length expected first))

/-- Lays out a value that has to be nested some levels deeper. -/
def layOut (input : Plan.Input) : (levels : Nat) → Index → Json → Laid → Except RunFault Laid
  | 0, index, value, laid =>
    .ok { laid with store := laid.store.put (input.name, index) value }
  | levels + 1, index, .array items, laid => do
    -- inputs of the same depth share the levels below the workflow input
    let level := input.lineage.take (index.length + 1)
    match laid.shape.register level index items.length with
    | .error conflict => .error (.input input.name (.differentShape conflict))
    | .ok shape =>
      items.zipIdx.foldlM (fun laid (item, position) =>
        layOut input levels (index ++ [position]) item laid) { laid with shape }
  | _ + 1, index, _, _ => .error (.input input.name (.notAList index input.depth))

/-- The elements of a batch brought to a size: a single one is repeated. -/
def broadcast (size : Nat) (elements : List Json) : List Json :=
  match elements with
  | [element] => List.replicate size element
  | elements => elements

/-- Lays out all elements of an input. -/
def layOutAll (size : Nat) (laid : Laid) (batch : Plan.Input × List Json) :
    Except RunFault Laid :=
  (broadcast size batch.2).zipIdx.foldlM (fun laid (element, position) =>
    layOut batch.1 (batch.1.depth - 1) [position] element laid) laid

/-- Lays out the inputs of a run. -/
def prepare (inputs : List Plan.Input) (parameters : Table String Json) :
    Except RunFault Prepared := do
  let given ← inputs.mapM (supplied parameters)
  let scalars := given.filter fun (input, _) => !input.isRequired
  let batches ← (given.filter fun (input, _) => input.isRequired).mapM fun (input, value) => do
    return (input, ← elementsOf input value)
  let size ← commonSize none batches
  let laid : Laid := {
    store := scalars.foldl (fun store (input, value) => store.put (input.name, []) value) []
    shape := ⟨[(([Lineage.inputLevel], []), size)]⟩ }
  let laid ← batches.foldlM (layOutAll size) laid
  return { laid with batchSize := size }

end BatchFlow
