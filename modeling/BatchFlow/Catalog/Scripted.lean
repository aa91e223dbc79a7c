import BatchFlow.Block.Basic
import BatchFlow.Json.Equality
import BatchFlow.Json.Printer
import BatchFlow.Json.Record

namespace BatchFlow.Catalog

/-!
# Scripted blocks

* `Behavior` — what a scripted block does, whatever its manifest promises.
* `scripted manifest behavior` — the block with that manifest and behavior.
* `Behavior.ofJson?` — the behavior that a value describes.
-/

/-- What a scripted block does. -/
inductive Behavior where
  /-- Every declared output is the property of the same name, or null. -/
  | echo
  /-- The first output is an object of all properties. -/
  | inputs
  /-- One nested element per item of a list. -/
  | split (property : String)
  /-- Selects the steps that a property names. -/
  | route (property : String)
  /-- Fails where a property has a value. -/
  | failIf (property : String) (equals : Json)
  /-- Needs a property that is not null. -/
  | require (property : String)
  /-- The first output is an init parameter, or null. -/
  | init (parameter : String)
  /-- The same output always. -/
  | constant (output : Output)
  /-- Loses the last results of a batch. -/
  | drop (count : Nat)

namespace Behavior

/-- The properties as outputs of the same names. -/
def echoOutputs (manifest : Manifest) (properties : Values) : Output :=
  .values (Table.ofList (manifest.outputs.map fun o =>
    (o.name, .ofOption (properties.get? o.name))))

/-- The name of the first output. -/
def firstOutput (manifest : Manifest) : String := (manifest.outputs.head?.map (·.name)).getD ""

/-- What the behavior makes of one element. -/
def execute (manifest : Manifest) (behavior : Behavior) (call : Call) (properties : Values) :
    Except Failure Output :=
  match behavior with
  | .echo | .drop _ => .ok (echoOutputs manifest properties)
  | .inputs => .ok (.values [(firstOutput manifest, .object properties)])
  | .split property =>
    let items := ((properties.get? property).bind Json.array?).getD []
    .ok (.nested (items.map fun item => [(firstOutput manifest, item)]))
  | .route property => .ok (.decision (match properties.get? property with
    | some (.string name) => [name]
    | some (.array names) => names.filterMap Json.string?
    | _ => []))
  | .failIf property equals =>
    match properties.get? property with
    | some value =>
      if value.same equals then .error (.reported (.backend (property ++ " is " ++ equals.compact)))
      else .ok (echoOutputs manifest properties)
    | none => .ok (echoOutputs manifest properties)
  | .require property => do
    let _ ← requireValue properties property
    return echoOutputs manifest properties
  | .init parameter =>
    .ok (.values [(firstOutput manifest, .ofOption (call.initParameters.get? parameter))])
  | .constant output => .ok output

/-- What the behavior makes of a whole batch. -/
def executeBatch (manifest : Manifest) (behavior : Behavior) (call : Call)
    (batch : List Values) : Except Failure (List Output) := do
  let outputs ← batch.mapM (behavior.execute manifest call)
  match behavior with
  | .drop count => return outputs.take (outputs.length - count)
  | _ => return outputs

/-- The behavior that a value describes. -/
def ofJson? (j : Json) : Option Behavior := do
  let (kind, body) ← j.taggedBy? "kind"
  let text (name : String) : Option String := do
    (← body.record? [name]).require? name Json.string?
  match kind with
  | "echo" =>
    let _ ← body.record? []
    return .echo
  | "inputs" =>
    let _ ← body.record? []
    return .inputs
  | "split" => return .split (← text "property")
  | "route" => return .route (← text "property")
  | "fail_if" =>
    let fields ← body.record? ["property", "equals"]
    return .failIf (← fields.require? "property" Json.string?) (← fields.require? "equals" some)
  | "require" => return .require (← text "property")
  | "init" => return .init (← text "parameter")
  | "values" =>
    let fields ← body.record? ["values"]
    return .constant (.values (← fields.require? "values" Json.object?))
  | "nested" =>
    let fields ← body.record? ["items"]
    return .constant (.nested (← fields.require? "items" fun j => do
      (← j.array?).mapM Json.object?))
  | "flow" =>
    let fields ← body.record? ["next_steps"]
    return .constant (.decision (← fields.require? "next_steps" Json.strings?))
  | "drop" =>
    let fields ← body.record? ["count"]
    return .drop (← fields.require? "count" Json.nat?)
  | _ => none

end Behavior

/-- The block with a manifest and a behavior. -/
def scripted (manifest : Manifest) (behavior : Behavior) : Block where
  manifest
  execute := behavior.execute manifest
  executeBatch := behavior.executeBatch manifest

end BatchFlow.Catalog
