namespace BatchFlow

/-!
# Lineages

Nested data has one level for every list around it. A level is named after what brought it about:
a step that fans out, or the workflow input. The lineage of data names its levels from the
outermost on, and data of two lineages can meet in one step when one lineage begins the other.
-/

/-- The names of the levels around data, outermost first. -/
abbrev Lineage := List String

namespace Lineage

/-- The name of the levels that the workflow input brings along. -/
def inputLevel : String := "<workflow_input>"

/-- The lineage of a workflow input of some depth. Any depth has one: limits of allocation, at which
    a list of that many levels could not be made, are not modelled. -/
def ofInput (depth : Nat) : Lineage := List.replicate depth inputLevel

/-- Whether the levels of the second lineage are the first levels of this one. -/
def extendsTo (lineage other : Lineage) : Bool := other.isPrefixOf lineage

/-- An input has one level per unit of its depth. -/
@[simp] theorem length_ofInput (depth : Nat) : (ofInput depth).length = depth := by
  simp [ofInput]

/-- One lineage extends another exactly when the other one is a prefix of it. -/
theorem extendsTo_iff {lineage other : Lineage} : lineage.extendsTo other ↔ other <+: lineage :=
  List.isPrefixOf_iff_prefix

end Lineage

end BatchFlow
