import BatchFlow.Vision.Box
import BatchFlow.Vision.Fault

namespace BatchFlow.Vision

/-!
# Detections

A detection is an object with a center (`x`, `y`), a box size (`width`, `height`), `confidence`,
`class`, `class_id` and perhaps a `detection_id`. Nothing is checked before it is asked for.
-/

/-- The fields of a detection. -/
structure Detection where
  fields : Table String Json
deriving DecidableEq

namespace Detection

/-- A detection is an object; its fields are read when they are asked for. -/
def ofJson (j : Json) : Except DataFault Detection := do
  return ⟨← asObject "detection object" j⟩

/-- The middle of the box. -/
def center (d : Detection) : Except DataFault (Float × Float) := do
  return (← floatField d.fields "x", ← floatField d.fields "y")

/-- The sides of the box. -/
def size (d : Detection) : Except DataFault (Float × Float) := do
  return (← floatField d.fields "width", ← floatField d.fields "height")

/-- The box around the center. -/
def box (d : Detection) : Except DataFault Box := do
  let (x, y) ← d.center
  let (width, height) ← d.size
  return {
    xMin := x - width / 2.0
    yMin := y - height / 2.0
    xMax := x + width / 2.0
    yMax := y + height / 2.0 }

/-- The area of the box, from its sides. -/
def area (d : Detection) : Except DataFault Float := do
  let (width, height) ← d.size
  return width * height

/-- How sure the model was. -/
def confidence (d : Detection) : Except DataFault Float := floatField d.fields "confidence"

/-- The class; one that is no text counts as missing. -/
def className (d : Detection) : Except DataFault String :=
  match textField? d.fields "class" with
  | some name => .ok name
  | none => .error (.missingField "class")

/-- The number of the class. -/
def classId (d : Detection) : Except DataFault Float := floatField d.fields "class_id"

/-- The identifier, if there is one and it is a text. -/
def detectionId? (d : Detection) : Option String := textField? d.fields "detection_id"

/-- The detection with its box grown around the same center. -/
def grow (d : Detection) (byWidth byHeight : Float) : Except DataFault Detection := do
  let (width, height) ← d.size
  let fields := d.fields.put "width" (← ofFloat (width + byWidth))
  return ⟨Table.put fields "height" (← ofFloat (height + byHeight))⟩

end Detection

end BatchFlow.Vision
