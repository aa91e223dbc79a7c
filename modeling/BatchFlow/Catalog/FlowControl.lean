import BatchFlow.Block.Basic
import BatchFlow.Query.Evaluate

namespace BatchFlow.Catalog

/-!
# Blocks that decide

* `condition` — runs one list of steps or another, depending on a statement.
* `continueIf` — runs its steps only where a statement holds.
* `abTest` — runs one of two lists of steps, chosen at random for the whole batch.
-/

open Query (Statement)

/-- The values to which a statement refers. -/
def readParameters? (inputs : Values) (name : String) : Option Values :=
  inputs.optional? name [] Json.object?

/-- Whether the statement of a block holds. -/
def holds (statement : Statement) (parameters : Values) : Except Failure Bool :=
  reportQuery (statement.evaluate { parameters })

/-- The properties of a block with a statement. -/
def statementProperties : List PropertySpec :=
  [{ name := "condition_statement", kind := .config },
    PropertySpec.withDefault { name := "evaluation_parameters", kind := .dataMap [.wildcard] true }
      (.object [])]

/-- What `condition` reads. -/
structure ConditionInputs where
  statement : Statement
  parameters : Values
  ifTrue : List String
  ifFalse : List String

/-- Reads the properties of a condition; missing targets are empty. -/
def ConditionInputs.read? (inputs : Values) : Option ConditionInputs := do
  return {
    statement := ← inputs.require? "condition_statement" Statement.ofJson?
    parameters := ← readParameters? inputs "evaluation_parameters"
    ifTrue := ← inputs.optional? "steps_if_true" [] Json.strings?
    ifFalse := ← inputs.optional? "steps_if_false" [] Json.strings? }

/-- Branching on a statement, decided for every element. -/
def condition : Block where
  manifest := {
    blockType := "Condition"
    description := "Runs `steps_if_true` or `steps_if_false` depending on a statement"
    acceptsBatchInput := true
    flowControl := true
    properties := statementProperties ++
      [PropertySpec.withDefault { name := "steps_if_true", kind := .stepTargets } (.array []),
        PropertySpec.withDefault { name := "steps_if_false", kind := .stepTargets } (.array [])] }
  execute _ inputs := do
    let read ← readInputs inputs ConditionInputs.read?
    let outcome ← holds read.statement read.parameters
    return .decision (if outcome then read.ifTrue else read.ifFalse)

/-- What `continueIf` reads. -/
structure ContinueInputs where
  statement : Statement
  parameters : Values
  next : List String

/-- Reads the properties of a gate. -/
def ContinueInputs.read? (inputs : Values) : Option ContinueInputs := do
  return {
    statement := ← inputs.require? "condition_statement" Statement.ofJson?
    parameters := ← readParameters? inputs "evaluation_parameters"
    next := ← inputs.require? "next_steps" Json.strings? }

/-- Stops elements for which a statement does not hold. -/
def continueIf : Block where
  manifest := {
    blockType := "ContinueIf"
    description := "Stops execution of `next_steps` for elements failing a statement"
    acceptsBatchInput := true
    flowControl := true
    properties := statementProperties ++ [{ name := "next_steps", kind := .stepTargets }] }
  execute _ inputs := do
    let read ← readInputs inputs ContinueInputs.read?
    let outcome ← holds read.statement read.parameters
    return .decision (if outcome then read.next else [])

/-- The probability of the first choice when none is given. -/
def defaultProbability : Float := 0.5

/-- What `abTest` reads. -/
structure AbTestInputs where
  a : List String
  b : List String
  probability : Float

/-- Reads the properties of a random choice. -/
def AbTestInputs.read? (inputs : Values) : Option AbTestInputs := do
  return {
    a := ← inputs.require? "a_step" Json.strings?
    b := ← inputs.require? "b_step" Json.strings?
    probability := ← inputs.optional? "probability" defaultProbability Json.float? }

/-- The JSON form of a probability. -/
def probabilityJson (p : Float) : Json := (FiniteFloat.ofFloat? p).elim .null (.number <| .float ·)

/-- One of two lists of steps. The draw of the call is below a probability of one and not below a
    probability of zero. -/
def abTest : Block where
  manifest := {
    blockType := "ABTest"
    description := "Runs `a_step` with the given probability, `b_step` otherwise"
    flowControl := true
    properties := [{ name := "a_step", kind := .stepTargets },
      { name := "b_step", kind := .stepTargets },
      PropertySpec.withDefault { name := "probability", kind := .config }
        (probabilityJson defaultProbability)] }
  execute call inputs := do
    let read ← readInputs inputs AbTestInputs.read?
    if 0.0 ≤ read.probability ∧ read.probability ≤ 1.0 then
      return .decision (if call.draw < read.probability then read.a else read.b)
    else .error (.reported (.probability read.probability))

end BatchFlow.Catalog
