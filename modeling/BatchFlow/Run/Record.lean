import BatchFlow.Run.Store

namespace BatchFlow

/-!
# Records

* `nest` — the values of an output below an index, nested as the batch is.
* `assemble` — one record of named outputs per element of the batch. Data that is not nested is the
  same in every record; an element without a value is null.
-/

/-- Named outputs for one element of the batch, in the order of their declaration. -/
abbrev Record := Table String Json

/-- The values below an index, for the levels of a lineage that remain; `above` are the levels down
    to the index. A level without registered children is an empty list. -/
def nest (shape : BatchStructure) (leaf : Index → Json) (above : Lineage) :
    Lineage → Index → Json
  | [], index => leaf index
  | level :: rest, index =>
    .array ((List.range ((shape.children? (above ++ [level]) index).getD 0)).map fun position =>
      nest shape leaf (above ++ [level]) rest (index ++ [position]))

/-- The value of an output in one record. -/
def outputValue (inputs : InputStore) (results : ResultStore) (shape : BatchStructure)
    (position : Nat) (output : Plan.Output) : Json :=
  let leaf (index : Index) : Json := .ofOption (lookup? inputs results index output.source)
  match output.source.depth? with
  | none | some 0 => leaf []
  | some _ => nest shape leaf (output.lineage.take 1) (output.lineage.drop 1) [position]

/-- One record per element of the batch. -/
def assemble (outputs : List Plan.Output) (batchSize : Nat) (inputs : InputStore)
    (results : ResultStore) (shape : BatchStructure) : List Record :=
  (List.range batchSize).map fun position =>
    outputs.map fun output => (output.name, outputValue inputs results shape position output)

end BatchFlow
