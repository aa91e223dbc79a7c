import BatchFlow.Json.Record

namespace BatchFlow.Query

/-!
# Statements

Conditions over the data of a workflow.

* `Statement` — a comparison, a check of one operand, or a group of statements.
* `Operand` — a literal or a named value, changed by a chain of operations.
* `Change` — one change of a value; `Operation` — a change, or a filter of a list by a statement
  on its elements.
* `Statement.ofJson?`, `Operation.ofJson?` — the documents in which they are written.
-/

/-- The name of the element under evaluation. -/
def currentName : String := "_"

/-- How the members of a group are joined. -/
inductive GroupOperator where
  | and
  | or
deriving DecidableEq, Repr

/-- How two values are compared. -/
inductive Comparator where
  | equal
  | notEqual
  | numberEqual
  | numberNotEqual
  | numberGreater
  | numberGreaterOrEqual
  | numberLower
  | numberLowerOrEqual
  | isIn
  | contains
  | startsWith
  | endsWith
  | containsText
deriving DecidableEq, Repr

/-- What is checked of a single value. -/
inductive UnaryOperator where
  | exists
  | doesNotExist
  | isTrue
  | isFalse
  | isEmpty
  | isNotEmpty
deriving DecidableEq, Repr

/-- What can be read off a detection. -/
inductive DetectionProperty where
  | className
  | confidence
  | xMin
  | yMin
  | xMax
  | yMax
  | classId
  | size
  | center
deriving DecidableEq, Repr

/-- What can be read off an image. -/
inductive ImageProperty where
  | size
  | height
  | width
  | aspectRatio
deriving DecidableEq, Repr

/-- One change of a value. -/
inductive Change where
  | detectionProperty (property : DetectionProperty)
  | imageProperty (property : ImageProperty)
  | sequenceLength
  | multiply (other : Float)
  | divide (other : Float)
  | add (other : Float)
  | subtract (other : Float)
  /-- Grows every box around its center. -/
  | offset (byWidth byHeight : Float)
  | toNumber
  | toText
deriving DecidableEq

mutual

/-- A condition. -/
inductive Statement where
  | group (operator : GroupOperator) (statements : List Statement)
  | binary (left : Operand) (comparator : Comparator) (right : Operand) (negate : Bool)
  | unary (operand : Operand) (operator : UnaryOperator) (negate : Bool)

/-- A value and the operations that change it. -/
inductive Operand where
  | literal (value : Json) (operations : List Operation)
  | named (name : String) (operations : List Operation)

/-- A change, or a filter. -/
inductive Operation where
  | change (change : Change)
  /-- Keeps the detections for which the statement holds. -/
  | filter (keep : Statement)

end

/-! ### Names -/

/-- The tag of a comparator in a document, and its name in faults. -/
def Comparator.name : Comparator → String
  | .equal => "=="
  | .notEqual => "!="
  | .numberEqual => "(Number) =="
  | .numberNotEqual => "(Number) !="
  | .numberGreater => "(Number) >"
  | .numberGreaterOrEqual => "(Number) >="
  | .numberLower => "(Number) <"
  | .numberLowerOrEqual => "(Number) <="
  | .isIn => "in (Sequence)"
  | .contains => "contains (Sequence)"
  | .startsWith => "(String) startsWith"
  | .endsWith => "(String) endsWith"
  | .containsText => "(String) contains"

/-- Every comparator, for the look-up by name. -/
def Comparator.all : List Comparator :=
  [.equal, .notEqual, .numberEqual, .numberNotEqual, .numberGreater, .numberGreaterOrEqual,
    .numberLower, .numberLowerOrEqual, .isIn, .contains, .startsWith, .endsWith, .containsText]

/-- The comparator of a tag. -/
def Comparator.ofName? (name : String) : Option Comparator :=
  Comparator.all.find? (·.name == name)

/-- The tag of a check in a document, and its name in faults. -/
def UnaryOperator.name : UnaryOperator → String
  | .exists => "Exists"
  | .doesNotExist => "DoesNotExist"
  | .isTrue => "(Boolean) is True"
  | .isFalse => "(Boolean) is False"
  | .isEmpty => "(Sequence) is empty"
  | .isNotEmpty => "(Sequence) is not empty"

/-- Every check, for the look-up by name. -/
def UnaryOperator.all : List UnaryOperator :=
  [.exists, .doesNotExist, .isTrue, .isFalse, .isEmpty, .isNotEmpty]

/-- The check of a tag. -/
def UnaryOperator.ofName? (name : String) : Option UnaryOperator :=
  UnaryOperator.all.find? (·.name == name)

/-- The property of a detection with a name. -/
def DetectionProperty.ofName? : String → Option DetectionProperty
  | "class_name" => some .className
  | "confidence" => some .confidence
  | "x_min" => some .xMin
  | "y_min" => some .yMin
  | "x_max" => some .xMax
  | "y_max" => some .yMax
  | "class_id" => some .classId
  | "size" => some .size
  | "center" => some .center
  | _ => none

/-- The property of an image with a name. -/
def ImageProperty.ofName? : String → Option ImageProperty
  | "size" => some .size
  | "height" => some .height
  | "width" => some .width
  | "aspect_ratio" => some .aspectRatio
  | _ => none

/-- The operator of a group with a name. -/
def GroupOperator.ofName? : String → Option GroupOperator
  | "and" => some .and
  | "or" => some .or
  | _ => none

/-- The tag of a change, and its name in faults. -/
def Change.name : Change → String
  | .detectionProperty _ => "ExtractDetectionProperty"
  | .imageProperty _ => "ExtractImageProperty"
  | .sequenceLength => "SequenceLength"
  | .multiply _ => "Multiply"
  | .divide _ => "Divide"
  | .add _ => "Add"
  | .subtract _ => "Subtract"
  | .offset .. => "DetectionsOffset"
  | .toNumber => "ToNumber"
  | .toText => "ToString"

/-- The tag of an operation, and its name in faults. -/
def Operation.name : Operation → String
  | .change c => c.name
  | .filter _ => "DetectionsFilter"

/-! ### Documents -/

/-- The comparator with a tag, which is all that it carries. -/
def Comparator.read? (tag : String) (body : Json) : Option Comparator := do
  let _ ← body.record? []
  Comparator.ofName? tag

/-- The check with a tag, which is all that it carries. -/
def UnaryOperator.read? (tag : String) (body : Json) : Option UnaryOperator := do
  let _ ← body.record? []
  UnaryOperator.ofName? tag

/-- Reads a value by its tag. -/
def readTagged? {α : Type} (read : String → Json → Option α) (j : Json) : Option α := do
  let (tag, body) ← j.tagged?
  read tag body

/-- Reads a value inside a tagged record by its tag, one of some names. -/
def readInner? {α : Type} (names : List String) (read : String → Json → Option α) (j : Json) :
    Option α := do
  let (tag, body) ← j.innerTagged? names
  read tag body

/-- A comparator from a tagged record. -/
def Comparator.ofJson? (j : Json) : Option Comparator := readTagged? Comparator.read? j

/-- A check from a tagged record. -/
def UnaryOperator.ofJson? (j : Json) : Option UnaryOperator := readTagged? UnaryOperator.read? j

/-- The change with a tag. -/
def Change.read? (tag : String) (body : Json) : Option Change := do
  let arithmetic (make : Float → Change) : Option Change := do
    return make (← (← body.record? ["other"]).require? "other" Json.float?)
  let bare (change : Change) : Option Change := do
    let _ ← body.record? []
    return change
  match tag with
  | "ExtractDetectionProperty" =>
    let fields ← body.record? ["property_name"]
    return .detectionProperty (← fields.require? "property_name" fun j => do
      DetectionProperty.ofName? (← j.innerChoice?))
  | "ExtractImageProperty" =>
    let fields ← body.record? ["property_name"]
    return .imageProperty (← fields.require? "property_name" fun j => do
      ImageProperty.ofName? (← j.innerChoice?))
  | "SequenceLength" => bare .sequenceLength
  | "Multiply" => arithmetic .multiply
  | "Divide" => arithmetic .divide
  | "Add" => arithmetic .add
  | "Subtract" => arithmetic .subtract
  | "DetectionsOffset" =>
    let fields ← body.record? ["offset_x", "offset_y"]
    return .offset (← fields.require? "offset_x" Json.float?)
      (← fields.require? "offset_y" Json.float?)
  | "ToNumber" => bare .toNumber
  | "ToString" => bare .toText
  | _ => none

/-- The sorts of statements in order. -/
def Statement.tags : List String := ["StatementGroup", "BinaryStatement", "UnaryStatement"]

/-- The sorts of operands in order. -/
def Operand.tags : List String := ["StaticOperand", "DynamicOperand"]

/-- The operations in order. -/
def Operation.tags : List String :=
  ["ExtractDetectionProperty", "ExtractImageProperty", "SequenceLength", "Multiply", "Divide",
    "Add", "Subtract", "DetectionsFilter", "DetectionsOffset", "ToNumber", "ToString"]

mutual

/-- The statement with a tag whose parts are nested at most `level` deep. -/
def Statement.read? : (level : Nat) → String → Json → Option Statement
  | 0, _, _ => none
  | level + 1, tag, body =>
    let operand (j : Json) : Option Operand := readInner? Operand.tags (Operand.read? level) j
    match tag with
    | "StatementGroup" => do
      let fields ← body.record? ["operator", "statements"]
      return .group
        (← fields.optional? "operator" .and fun j => do GroupOperator.ofName? (← j.innerChoice?))
        (← fields.require? "statements" fun j => do
          (← j.array?).mapM fun j => readInner? Statement.tags (Statement.read? level) j)
    | "BinaryStatement" => do
      let fields ← body.record? ["left_operand", "comparator", "right_operand", "negate"]
      return .binary (← fields.require? "left_operand" operand)
        (← fields.require? "comparator"
          (readInner? (Comparator.all.map Comparator.name) Comparator.read?))
        (← fields.require? "right_operand" operand)
        (← fields.optional? "negate" false Json.bool?)
    | "UnaryStatement" => do
      let fields ← body.record? ["operand", "operator", "negate"]
      return .unary (← fields.require? "operand" operand)
        (← fields.require? "operator"
          (readInner? (UnaryOperator.all.map UnaryOperator.name) UnaryOperator.read?))
        (← fields.optional? "negate" false Json.bool?)
    | _ => none

/-- The operand with a tag whose parts are nested at most `level` deep. -/
def Operand.read? : (level : Nat) → String → Json → Option Operand
  | 0, _, _ => none
  | level + 1, tag, body =>
    let operations (j : Json) : Option (List Operation) := do
      (← j.array?).mapM fun j => readInner? Operation.tags (Operation.read? level) j
    match tag with
    | "StaticOperand" => do
      let fields ← body.record? ["value", "operations"]
      return .literal (← fields.get? "value") (← fields.optional? "operations" [] operations)
    | "DynamicOperand" => do
      let fields ← body.record? ["operand_name", "operations"]
      return .named (← fields.optional? "operand_name" currentName Json.string?)
        (← fields.optional? "operations" [] operations)
    | _ => none

/-- The operation with a tag whose parts are nested at most `level` deep. -/
def Operation.read? : (level : Nat) → String → Json → Option Operation
  | 0, _, _ => none
  | level + 1, tag, body => do
    if tag = "DetectionsFilter" then
      let fields ← body.record? ["filter_operation"]
      return .filter (← fields.require? "filter_operation"
        (readInner? Statement.tags (Statement.read? level)))
    else return .change (← Change.read? tag body)

end

/-- The statement that a value denotes. -/
def Statement.ofJson? (j : Json) : Option Statement := readTagged? (Statement.read? j.height) j

/-- The operation that a value denotes. -/
def Operation.ofJson? (j : Json) : Option Operation := readTagged? (Operation.read? j.height) j

end BatchFlow.Query
