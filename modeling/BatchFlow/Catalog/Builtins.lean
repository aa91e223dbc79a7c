import BatchFlow.Catalog.FlowControl
import BatchFlow.Catalog.Vision

namespace BatchFlow.Catalog

/-!
# Built-in blocks

* `builtins` — the blocks that are always there.
* `builtinRegistry` — the registry that holds them and no others.
-/

/-- The blocks that are always there. -/
def builtins : List Block :=
  [condition, continueIf, abTest, crop, detectionsFilter, detectionsTransformation,
    dimensionCollapse]

/-- The registry of the built-in blocks. -/
def builtinRegistry : Registry := (Registry.registerAll [] builtins).1

end BatchFlow.Catalog
