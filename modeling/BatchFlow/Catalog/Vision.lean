import BatchFlow.Block.Basic
import BatchFlow.Query.Evaluate

namespace BatchFlow.Catalog

/-!
# Blocks on images and detections

* `crop` — cuts one image per detection out of an image, as a nested batch.
* `detectionsFilter`, `detectionsTransformation` — change a list of detections.
* `dimensionCollapse` — folds a nested batch into one list per parent.
-/

open Query (Operation Scope Statement)
open Vision

/-- The result of a block with one output. -/
def single (name : String) (value : Json) : Output := .values [(name, value)]

/-! ### Crops -/

/-- The name of the image from which a crop comes: the id of the detection, else the id of the image
    with the position of the detection, else the position. -/
def cropParent (image : Image) (detection : Detection) (position : Nat) : String :=
  match detection.detectionId?, image.parentId? with
  | some id, _ => id
  | none, some id => id ++ "." ++ toString position
  | none, none => toString position

/-- An optional member of an object. -/
def textMember (name : String) (value : Option String) : List (String × Json) :=
  (value.map fun s => (name, Json.string s)).toList

/-- The crop at the box of a detection, cut to the image. -/
def cropOne (image : Image) (position : Nat) (j : Json) : Except Failure Json := do
  let data {α : Type} (result : Except DataFault α) : Except Failure α :=
    reportData "predictions" result
  let detection ← data (Detection.ofJson j)
  let imageWidth ← data image.width
  let imageHeight ← data image.height
  let box ← match (← data detection.box).clamp? imageWidth imageHeight with
    | some box => pure box
    | none => .error .crashed
  let width ← data (ofFloat box.width)
  let height ← data (ofFloat box.height)
  let left ← data (ofFloat box.xMin)
  let top ← data (ofFloat box.yMin)
  let parentWidth ← data (ofFloat imageWidth)
  let parentHeight ← data (ofFloat imageHeight)
  return .object (
    [("width", width), ("height", height),
      ("parent_id", .string (cropParent image detection position))] ++
    textMember "root_parent_id" image.rootParentId? ++
    textMember "detection_id" detection.detectionId? ++
    [("parent_coordinates", .object [("left", left), ("top", top),
        ("parent_width", parentWidth), ("parent_height", parentHeight)]),
      ("detection", j)])

/-- The crops of the detections from a position on. -/
def cropAll (image : Image) : Nat → List Json → Except Failure (List Values)
  | _, [] => .ok []
  | position, j :: rest => do
    let first ← cropOne image position j
    return [("crops", first)] :: (← cropAll image (position + 1) rest)

/-- Cuts every detected box out of its image. -/
def crop : Block where
  manifest := {
    blockType := "Crop"
    description := "Crops every detected box out of its image"
    acceptsBatchInput := true
    transform := .increment
    properties := [{ name := "image", kind := .data [.image] true },
      { name := "predictions", kind := .data [.objectDetection] true }]
    outputs := [⟨"crops", [.image]⟩] }
  execute _ inputs := do
    let (image, predictions) ← readInputs inputs fun inputs => do
      return (← inputs.get? "image", ← inputs.get? "predictions")
    let image ← reportData "image" (Image.ofJson image)
    let detections ← reportData "predictions" (asArray "list of detections" predictions)
    return .nested (← cropAll image 0 detections)

/-! ### Lists of detections -/

/-- The detections that a chain of operations leaves. -/
def transformDetections (operations : List Operation) (parameters : Values) (predictions : Json) :
    Except Failure Output := do
  let changed ← reportQuery (Query.applyAll operations { parameters } predictions)
  match changed with
  | .array items => return single "predictions" (.array items)
  | _ => .error (.reported .notDetections)

/-- Keeps the detections for which a statement holds. -/
def detectionsFilter : Block where
  manifest := {
    blockType := "DetectionsFilter"
    description := "Filters detections with a statement evaluated per detection"
    acceptsBatchInput := true
    properties := [{ name := "predictions", kind := .data [.objectDetection] true },
      { name := "filter_operation", kind := .config },
      PropertySpec.withDefault { name := "operands", kind := .dataMap [.wildcard] true }
        (.object [])]
    outputs := [⟨"predictions", [.objectDetection]⟩] }
  execute _ inputs := do
    let (predictions, keep, operands) ← readInputs inputs fun inputs => do
      return (← inputs.get? "predictions",
        ← inputs.require? "filter_operation" Statement.ofJson?,
        ← inputs.optional? "operands" [] Json.object?)
    transformDetections [.filter keep] operands predictions

/-- Changes a list of detections by a chain of operations. -/
def detectionsTransformation : Block where
  manifest := {
    blockType := "DetectionsTransformation"
    description := "Transforms detections with a chain of operations"
    acceptsBatchInput := true
    properties := [{ name := "predictions", kind := .data [.objectDetection] true },
      { name := "operations", kind := .config },
      PropertySpec.withDefault
        { name := "operations_parameters", kind := .dataMap [.wildcard] true } (.object [])]
    outputs := [⟨"predictions", [.objectDetection]⟩] }
  execute _ inputs := do
    let (predictions, operations, parameters) ← readInputs inputs fun inputs => do
      return (← inputs.get? "predictions",
        ← inputs.require? "operations" fun j => do (← j.array?).mapM Operation.ofJson?,
        ← inputs.optional? "operations_parameters" [] Json.object?)
    transformDetections operations parameters predictions

/-! ### Collapsing -/

/-- Folds each nested batch into one list per parent. Children without a value are null, so the list
    keeps one slot per child. -/
def dimensionCollapse : Block where
  manifest := {
    blockType := "DimensionCollapse"
    description := "Collapses a nested batch into a list per parent element"
    acceptsBatchInput := true
    acceptsEmptyValues := true
    transform := .decrement
    properties := [{ name := "data", kind := .data [.wildcard] true }]
    outputs := [⟨"output", [.listOfValues]⟩] }
  execute _ inputs := do
    match ← requireValue inputs "data" with
    | .array items => return single "output" (.array items)
    | _ => .error (.reported .notChildren)

end BatchFlow.Catalog
