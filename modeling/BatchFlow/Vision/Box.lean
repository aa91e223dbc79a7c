namespace BatchFlow.Vision

/-!
# Boxes

* `Box` — an axis-aligned box in pixel coordinates.
* `Box.clamp? box width height` — the box cut to `[0, width] × [0, height]`. There is no such range
  when a bound is negative or NaN, and then there is no result.
-/

/-- An axis-aligned box. -/
structure Box where
  xMin : Float
  yMin : Float
  xMax : Float
  yMax : Float
deriving DecidableEq

/-- The number nearest to `x` in `[low, high]`; NaN stays NaN. -/
def clampTo (low high x : Float) : Float :=
  let x := if x < low then low else x
  if high < x then high else x

namespace Box

/-- The extent from left to right. -/
def width (b : Box) : Float := b.xMax - b.xMin

/-- The extent from top to bottom. -/
def height (b : Box) : Float := b.yMax - b.yMin

/-- The box cut to `[0, width] × [0, height]`. -/
def clamp? (b : Box) (width height : Float) : Option Box :=
  if 0.0 ≤ width ∧ 0.0 ≤ height then
    some {
      xMin := clampTo 0.0 width b.xMin
      yMin := clampTo 0.0 height b.yMin
      xMax := clampTo 0.0 width b.xMax
      yMax := clampTo 0.0 height b.yMax }
  else none

end Box

end BatchFlow.Vision
