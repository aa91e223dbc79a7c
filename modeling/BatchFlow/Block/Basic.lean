import BatchFlow.Block.Fault
import BatchFlow.Block.Manifest

namespace BatchFlow

/-!
# Blocks

* `Block` — a manifest, and what the block makes of the resolved properties of one element.
* `Output` — one set of values, a nested batch of them, or a decision about other steps.
* `Block.executeAll` — a call for several elements, which ends at the first one that fails.
* `Registry` — blocks by the type in their manifests, each type once.
-/

/-- What a block knows of the step for which it is called. -/
structure Call where
  step : String := ""
  /-- The parameters given when the workflow was compiled. -/
  initParameters : Table String Json := []
  /-- A number in `[0, 1)` by which random choices are made. -/
  draw : Float := 0.5

/-- Values by property or output name. -/
abbrev Values := Table String Json

/-- The result of a call for one element. -/
inductive Output where
  | values (values : Values)
  | nested (items : List Values)
  /-- The names of the steps to run next. -/
  | decision (next : List String)
deriving DecidableEq

/-- A unit of work with a declared contract. -/
structure Block where
  manifest : Manifest
  execute : Call → Values → Except Failure Output
  /-- The call for all elements at once. Unless a block has its own, it is made element by
      element. -/
  executeBatch : Call → List Values → Except Failure (List Output) :=
    fun call inputs => inputs.mapM (execute call)

namespace Block

/-- The results for several elements, in one call for the whole batch or one after another. -/
def executeAll (block : Block) (wholeBatch : Bool) (call : Call) (inputs : List Values) :
    Except Failure (List Output) :=
  if wholeBatch then block.executeBatch call inputs
  else inputs.mapM (block.execute call)

end Block

/-- A property that must be there and not be null. -/
def requireValue (inputs : Values) (name : String) : Except Failure Json :=
  match inputs.get? name with
  | none | some .null => .error (.reported (.required name))
  | some value => .ok value

/-- The properties as a record, read by `read`. -/
def readInputs {α : Type} (inputs : Values) (read : Values → Option α) : Except Failure α :=
  match read inputs with
  | some a => .ok a
  | none => .error (.reported .malformedInput)

/-- The result of reading data as the result of a block. -/
def reportData {α : Type} (field : String) : Except Vision.DataFault α → Except Failure α
  | .ok a => .ok a
  | .error fault => .error (.reported (.badData field fault))

/-- The result of a query as the result of a block. -/
def reportQuery {α : Type} : Except Query.QueryFault α → Except Failure α
  | .ok a => .ok a
  | .error fault => .error (.reported (.evaluation fault))

/-! ### Registries -/

/-- Blocks by type, in the order of their registration. -/
abbrev Registry := Table String Block

/-- Why a registry refuses a request. -/
inductive RegistryFault where
  | alreadyRegistered (blockType : String)
  | notFound (blockType : String)
deriving DecidableEq, Repr

/-- What is shown for a fault of a registry. -/
def RegistryFault.message : RegistryFault → String
  | .alreadyRegistered blockType => s!"block type already registered: {blockType}"
  | .notFound blockType => s!"block type not found: {blockType}"

namespace Registry

/-- Adds a block under its type, unless the type is taken. -/
def register (registry : Registry) (block : Block) : Except RegistryFault Registry :=
  let blockType := block.manifest.blockType
  if registry.contains blockType then .error (.alreadyRegistered blockType)
  else .ok (registry.put blockType block)

/-- The block of a type. -/
def block (registry : Registry) (blockType : String) : Except RegistryFault Block :=
  match registry.get? blockType with
  | some block => .ok block
  | none => .error (.notFound blockType)

/-- The manifest of a type. -/
def manifest? (registry : Registry) (blockType : String) : Option Manifest :=
  (registry.get? blockType).map (·.manifest)

/-- The types in the order of their code points. -/
def blockTypes (registry : Registry) : List String := registry.keys.mergeSort (· ≤ ·)

/-- Adds blocks one after another; those before a refused one stay. -/
def registerAll (registry : Registry) : List Block → Registry × Option RegistryFault
  | [] => (registry, none)
  | block :: rest =>
    match registry.register block with
    | .ok registry => registerAll registry rest
    | .error fault => (registry, some fault)

end Registry

end BatchFlow
