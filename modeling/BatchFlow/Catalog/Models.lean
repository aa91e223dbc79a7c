import BatchFlow.Block.Basic
import BatchFlow.Json.Equality

namespace BatchFlow.Catalog

/-!
# Stand-ins for models

Deterministic blocks in place of models: an image carries the detections that a detector finds on
it.

* `objectDetection` — finds the detections that the image carries.
* `classification` — finds the same class on every image.
* `unavailable` — fails always.
-/

/-- The detections that an image carries: its own, else those of the detection from which it was
    cut. -/
def carriedDetections (image : Json) : List Json :=
  let carried := match image.member? "detections" with
    | some j => some j
    | none => (image.member? "detection").bind (·.member? "detections")
  (carried.bind Json.array?).getD []

/-- Whether a detection is of one of the classes. -/
def isOfClass (classes : List Json) (detection : Json) : Bool :=
  match detection.member? "class" with
  | some name => classes.any name.same
  | none => false

/-- Finds the detections that the image carries, of the wanted classes if some are wanted. -/
def objectDetection : Block where
  manifest := {
    blockType := "ObjectDetectionModel"
    acceptsBatchInput := true
    properties := [{ name := "image", kind := .data [.image] true },
      PropertySpec.optional { name := "model_id", kind := .config },
      PropertySpec.optional { name := "class_filter", kind := .config }]
    outputs := [⟨"predictions", [.objectDetection]⟩] }
  execute _ inputs := do
    let found := carriedDetections (← requireValue inputs "image")
    let kept := match (inputs.get? "class_filter").bind Json.array? with
      | some classes => found.filter (isOfClass classes)
      | none => found
    return .values [("predictions", .array kept)]

/-- Finds the same class on every image. -/
def classification : Block where
  manifest := {
    blockType := "ClassificationModel"
    acceptsBatchInput := true
    properties := [{ name := "image", kind := .data [.image] true },
      PropertySpec.optional { name := "model_id", kind := .config }]
    outputs := [⟨"predictions", [.classification]⟩] }
  execute _ inputs := do
    let image ← requireValue inputs "image"
    return .values [("predictions", .object [("top", .string "beagle"),
      ("parent_id", .ofOption (image.member? "parent_id"))])]

/-- Fails always. -/
def unavailable : Block where
  manifest := {
    blockType := "Fail"
    properties := [{ name := "value", kind := .data [.wildcard] false }]
    outputs := [⟨"value", [.wildcard]⟩] }
  execute _ _ := .error (.reported (.backend "model server unavailable"))

/-- The stand-ins. -/
def models : List Block := [objectDetection, classification, unavailable]

end BatchFlow.Catalog
