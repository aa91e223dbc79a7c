import BatchFlow.Run.Branch
import BatchFlow.Run.Store

namespace BatchFlow

/-!
# Invocations

* `View` — what is known when a step is prepared.
* `isAdmissible` — whether an element runs in view of which of its sources have a value.
* `View.invocation` — the elements at which a step runs, each with the values of its properties.

A step that folds nested batches runs once per parent. It sees data of its own depth as the list of
the parent's children, in which missing and excluded children are null.
-/

/-- The values of a step at the elements at which it runs. -/
abbrev Invocation := List (Index × Values)

/-- What is known when a step is prepared. -/
structure View where
  inputs : InputStore
  results : ResultStore
  shape : BatchStructure
  branches : Branches

/-- Where a source is looked up. -/
inductive Cursor where
  /-- At one element. -/
  | element (index : Index)
  /-- At a parent, whose children at some depth are gathered. -/
  | parent (index : Index) (children depth : Nat)
deriving DecidableEq, Repr

/-- Whether an element runs. Each source is given with its depth and with whether it has a value.
    An element never runs when all its batch sources are missing, or all its sources if none is a
    batch; otherwise missing sources have to be acceptable. -/
def isAdmissible (acceptsEmpty : Bool) (found : List (Nat × Bool)) : Bool :=
  let batch := found.filter fun (depth, _) => 0 < depth
  let relevant := if batch.isEmpty then found else batch
  (relevant.isEmpty || relevant.any (·.2)) && (acceptsEmpty || found.all (·.2))

/-- A value that may be missing, and whether it is there. -/
def orNull : Option Json → Json × Bool
  | some value => (value, true)
  | none => (.null, false)

namespace View

/-- The value of a source at an element. -/
def at? (view : View) (index : Index) (source : Plan.Source) : Option Json :=
  lookup? view.inputs view.results index source

/-- The value of a source at a child, if no branch excludes the child. -/
def child? (view : View) (governing : List BranchId) (index : Index) (source : Plan.Source) :
    Option Json :=
  if view.branches.admits governing index then view.at? index source else none

/-- The values of a source at the children of a parent. -/
def children (view : View) (governing : List BranchId) (parent : Index) (count : Nat)
    (source : Plan.Source) : List (Option Json) :=
  (List.range count).map fun position => view.child? governing (parent ++ [position]) source

/-- The value of a source, and whether it has one. -/
def resolve (view : View) (governing : List BranchId) (cursor : Cursor) (source : Plan.Source) :
    Json × Bool :=
  match cursor with
  | .element index => orNull (view.at? index source)
  | .parent index count depth =>
    -- sources above the folded level are the same for all children
    if source.depth? = some depth then
      let values := view.children governing index count source
      (.array (values.map .ofOption), values.any Option.isSome)
    else orNull (view.at? index source)

/-- The value of a binding. -/
def bindingValue (view : View) (governing : List BranchId) (cursor : Cursor) :
    Plan.Binding → Json
  | .source s => (view.resolve governing cursor s).1
  | .map entries => .object (entries.map fun (name, s) =>
      (name, (view.resolve governing cursor s).1))

/-- The depths of a step's sources, with whether each has a value. Literals do not count. -/
def foundSources (view : View) (governing : List BranchId) (cursor : Cursor) (step : Plan.Step) :
    List (Nat × Bool) :=
  step.sources.filterMap fun s => s.depth?.map fun depth =>
    (depth, (view.resolve governing cursor s).2)

/-- The values of a step's properties, if the element runs. -/
def values? (view : View) (governing : List BranchId) (cursor : Cursor) (step : Plan.Step)
    (keepEmpty : Bool) : Option Values :=
  if keepEmpty || isAdmissible step.manifest.acceptsEmptyValues
      (view.foundSources governing cursor step) then
    some (step.bindings.map fun (name, b) => (name, view.bindingValue governing cursor b))
  else none

/-- The elements of a step that runs once per element. -/
def elementwise (view : View) (governing : List BranchId) (step : Plan.Step) : Invocation :=
  ((view.shape.indices step.alignment.lineage).filter (view.branches.admits governing)).filterMap
    fun index => (view.values? governing (.element index) step false).map (index, ·)

/-- The elements of a step that runs once per parent. A step that accepts empty values runs for
    every parent with children. -/
def collapsing (view : View) (governing : List BranchId) (step : Plan.Step) : Invocation :=
  let depth := step.alignment.input
  let lineage := step.alignment.lineage
  let parents := view.shape.indices (lineage.take (depth - 1))
  (parents.filter (view.branches.admits governing)).filterMap fun index =>
    let count := (view.shape.children? lineage index).getD 0
    (view.values? governing (.parent index count depth) step
      (0 < count && step.manifest.acceptsEmptyValues)).map (index, ·)

/-- The elements at which a step runs. -/
def invocation (view : View) (governing : List BranchId) (step : Plan.Step) : Invocation :=
  match step.manifest.transform with
  | .identity | .increment => view.elementwise governing step
  | .decrement => view.collapsing governing step

end View

end BatchFlow
