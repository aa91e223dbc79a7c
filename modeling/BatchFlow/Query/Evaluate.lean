import BatchFlow.Decimal.Reading
import BatchFlow.Json.Printer
import BatchFlow.Query.Compare
import BatchFlow.Vision.Detection
import BatchFlow.Vision.Image

namespace BatchFlow.Query

/-!
# Evaluation

* `Scope` — the values to which operands refer by name, and the element under evaluation.
* `Statement.evaluate` — whether a statement holds.
* `Change.apply`, `Operation.apply`, `applyAll` — the value after a change, after an operation, and
  after a chain of operations.

Operands are resolved from left to right and a group stops at the first statement that settles it,
so of several faults the first is reported.
-/

open Vision

/-- The values to which operands refer. -/
structure Scope where
  parameters : Table String Json
  current : Option Json := none

namespace Scope

/-- The scope inside a filter, with `_` bound to an element. -/
def withCurrent (scope : Scope) (element : Json) : Scope := { scope with current := some element }

/-- The value of a name. The element under evaluation goes before a parameter named `_`. -/
def lookup (scope : Scope) (name : String) : Except QueryFault Json :=
  match if name = currentName then scope.current else none with
  | some element => .ok element
  | none => match scope.parameters.get? name with
    | some value => .ok value
    | none => .error (.unknownOperand name)

end Scope

/-! ### Changes -/

/-- A property of a detection, read off its members or computed from its box. -/
def extractDetection (property : DetectionProperty) (j : Json) : Except DataFault Json := do
  let d ← Detection.ofJson j
  match property with
  | .className => return .string (← d.className)
  | .confidence => ofFloat (← d.confidence)
  | .classId => ofFloat (← d.classId)
  | .size => ofFloat (← d.area)
  | .xMin => ofFloat (← d.box).xMin
  | .yMin => ofFloat (← d.box).yMin
  | .xMax => ofFloat (← d.box).xMax
  | .yMax => ofFloat (← d.box).yMax
  | .center =>
    let (x, y) ← d.center
    return .array [← ofFloat x, ← ofFloat y]

/-- A property of an image. The ratio of its sides is not defined for a height of 0. -/
def extractImage (property : ImageProperty) (j : Json) : Except QueryFault Json := do
  let image ← ofData (Image.ofJson j)
  match property with
  | .width => ofData (do ofFloat (← image.width))
  | .height => ofData (do ofFloat (← image.height))
  | .size => ofData (do
    let width ← image.width
    let height ← image.height
    ofFloat (width * height))
  | .aspectRatio =>
    let height ← ofData image.height
    if height == 0.0 then .error .divisionByZero
    else ofData (do ofFloat ((← image.width) / height))

/-- A number changed by a function on doubles. -/
def arithmetic (name : String) (f : Float → Float) (j : Json) : Except QueryFault Json :=
  match j.float? with
  | some x => ofData (ofFloat (f x))
  | none => .error (.typeMismatch name "number" j.typeName)

/-- The number of items, members or characters. -/
def sequenceLength (name : String) : Json → Except QueryFault Json
  | .array items => .ok (.ofNat items.length)
  | .object members => .ok (.ofNat members.length)
  | .string s => .ok (.ofNat s.length)
  | j => .error (.typeMismatch name "sequence" j.typeName)

/-- A value as a number: truth as 1 or 0, a text as the number it spells. -/
def toNumber (name : String) : Json → Except QueryFault Json
  | .number n => .ok (.number n)
  | .bool b => .ok (.ofNat (if b then 1 else 0))
  | .string s => match readFloat? (Text.trim s.toList) with
    | some x => ofData (ofFloat x)
    | none => .error (.conversion s "number")
  | j => .error (.typeMismatch name "number, boolean or string" j.typeName)

/-- A value as a text: its compact form, unless it is a text already. -/
def toText : Json → Json
  | .string s => .string s
  | j => .string j.compact

/-- Every detection of a list with its box grown. -/
def offsetAll (byWidth byHeight : Float) (j : Json) : Except DataFault Json := do
  let grown ← (← asArray "list of detections" j).mapM fun d => do
    return Json.object (← (← Detection.ofJson d).grow byWidth byHeight).fields
  return .array grown

/-- The value after a change. -/
def Change.apply (change : Change) (j : Json) : Except QueryFault Json :=
  match change with
  | .detectionProperty property => ofData (extractDetection property j)
  | .imageProperty property => extractImage property j
  | .sequenceLength => Query.sequenceLength change.name j
  | .multiply other => arithmetic change.name (· * other) j
  | .divide other =>
    if other == 0.0 then .error .divisionByZero else arithmetic change.name (· / other) j
  | .add other => arithmetic change.name (· + other) j
  | .subtract other => arithmetic change.name (· - other) j
  | .offset byWidth byHeight => ofData (offsetAll byWidth byHeight j)
  | .toNumber => Query.toNumber change.name j
  | .toText => .ok (Query.toText j)

/-! ### Statements -/

mutual

/-- Whether a statement holds. -/
def Statement.evaluate : Statement → Scope → Except QueryFault Bool
  | .group .and statements, scope => allHold statements scope
  | .group .or statements, scope => anyHolds statements scope
  | .binary left comparator right negate, scope => do
    let l ← left.resolve scope
    let r ← right.resolve scope
    return (← comparator.compare l r) != negate
  | .unary operand operator negate, scope => do
    return (← operator.check (← operand.resolve scope)) != negate

/-- Whether all statements hold; those after one that does not are not looked at. -/
def allHold : List Statement → Scope → Except QueryFault Bool
  | [], _ => .ok true
  | s :: rest, scope => do if ← s.evaluate scope then allHold rest scope else return false

/-- Whether some statement holds; those after it are not looked at. -/
def anyHolds : List Statement → Scope → Except QueryFault Bool
  | [], _ => .ok false
  | s :: rest, scope => do if ← s.evaluate scope then return true else anyHolds rest scope

/-- The value of an operand after its operations. -/
def Operand.resolve : Operand → Scope → Except QueryFault Json
  | .literal value operations, scope => applyAll operations scope value
  | .named name operations, scope => do applyAll operations scope (← scope.lookup name)

/-- The value after a chain of operations. -/
def applyAll : List Operation → Scope → Json → Except QueryFault Json
  | [], _, j => .ok j
  | o :: rest, scope, j => do applyAll rest scope (← o.apply scope j)

/-- The value after an operation. -/
def Operation.apply : Operation → Scope → Json → Except QueryFault Json
  | .filter keep, scope, j => do
    let detections ← ofData (asArray "list of detections" j)
    return .array (← detections.filterM fun d => keep.evaluate (scope.withCurrent d))
  | .change c, _, j => c.apply j

end

end BatchFlow.Query
