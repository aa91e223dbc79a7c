import BatchFlow.Plan.Compile

namespace BatchFlow

/-!
# Engines

* `Settings` — how many steps may run at once.
* `Engine` — a plan with the blocks of its steps, ready to run any number of times.
* `Engine.ofPlan`, `Engine.ofDefinition` — the engine of a plan or of a definition.
-/

/-- How many steps run at once when nothing is said. -/
def defaultLimit : Nat := 8

/-- The settings of an engine. -/
structure Settings where
  /-- The greatest number of steps that run at once; below one it acts as one. -/
  maxConcurrentSteps : Nat := defaultLimit
deriving DecidableEq, Repr

namespace Settings

/-- Settings with a limit of at least one. -/
def ofLimit (limit : Nat) : Settings := ⟨max limit 1⟩

/-- The number of steps that may run at once. -/
def limit (s : Settings) : Nat := max s.maxConcurrentSteps 1

end Settings

/-- A plan with the blocks of its steps. -/
structure Engine where
  plan : Plan
  blocks : Table String Block
  settings : Settings

/-- Looks up the blocks of some steps, after those that have been found. -/
def bindBlocks (registry : Registry) (found : Table String Block) :
    List Plan.Step → Except Rejection (Table String Block)
  | [] => .ok found
  | step :: rest =>
    if found.contains step.blockType then bindBlocks registry found rest
    else match registry.get? step.blockType with
      | some block => bindBlocks registry (found.put step.blockType block) rest
      | none => .error (.unknownBlockType step.name step.blockType)

namespace Engine

/-- The engine of a plan. -/
def ofPlan (registry : Registry) (settings : Settings) (plan : Plan) : Except Rejection Engine := do
  return { plan, blocks := ← bindBlocks registry [] plan.steps, settings }

/-- The engine of a definition. -/
def ofDefinition (registry : Registry) (settings : Settings) (initParameters : Table String Json)
    (d : Definition) : Except Rejection Engine := do
  ofPlan registry settings (← d.compile registry initParameters)

end Engine

end BatchFlow
