import BatchFlow.Vision.Fault

namespace BatchFlow.Vision

/-!
# Images

An image is an object with `width` and `height`. An image that was cut out of another one names it
under `parent_id`, and under `root_parent_id` the one from which all of them come.
-/

/-- The fields of an image. -/
structure Image where
  fields : Table String Json
deriving DecidableEq

namespace Image

/-- An image is an object; its fields are read when they are asked for. -/
def ofJson (j : Json) : Except DataFault Image := do return ⟨← asObject "image object" j⟩

/-- The extent from left to right. -/
def width (i : Image) : Except DataFault Float := floatField i.fields "width"

/-- The extent from top to bottom. -/
def height (i : Image) : Except DataFault Float := floatField i.fields "height"

/-- The image from which this one was cut, if there is one. -/
def parentId? (i : Image) : Option String := textField? i.fields "parent_id"

/-- The image from which this one comes in the end. -/
def rootParentId? (i : Image) : Option String :=
  (textField? i.fields "root_parent_id").or i.parentId?

end Image

end BatchFlow.Vision
