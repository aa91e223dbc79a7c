import BatchFlow.Lineage
import BatchFlow.Table

namespace BatchFlow

/-!
# The structure of a batch

* `Index` — the position of an element: one number per level, outermost first.
* `BatchStructure` — how many children the elements of each level have. Levels are told apart by the
  lineage that leads to them, so batches nested by different steps share no counts.
* `BatchStructure.register` — notes a number of children, which never changes afterwards.
* `BatchStructure.indices` — all indices of a lineage in lexicographic order.
-/

/-- The position of an element, outermost level first. -/
abbrev Index := List Nat

/-- An index in messages. -/
def Index.text (index : Index) : String := "[" ++ ", ".intercalate (index.map toString) ++ "]"

/-- The numbers of children by the lineage of the level and the index of the parent. -/
structure BatchStructure where
  counts : Table (Lineage × Index) Nat := []
deriving DecidableEq, Repr

/-- Two different numbers of children for one parent. -/
structure CountConflict where
  parent : Index
  existing : Nat
  given : Nat
deriving DecidableEq, Repr

/-- What is shown for two counts at one place. -/
def CountConflict.message (c : CountConflict) : String :=
  s!"element {c.parent.text} already has {c.existing} children at this level, got {c.given}"

namespace BatchStructure

/-- The number of children of a parent at the last level of a lineage. -/
def children? (s : BatchStructure) (lineage : Lineage) (parent : Index) : Option Nat :=
  s.counts.get? (lineage, parent)

/-- Notes the number of children of a parent. -/
def register (s : BatchStructure) (lineage : Lineage) (parent : Index) (count : Nat) :
    Except CountConflict BatchStructure :=
  match s.children? lineage parent with
  | some existing =>
    if existing = count then .ok s else .error ⟨parent, existing, count⟩
  | none => .ok ⟨s.counts.put (lineage, parent) count⟩

/-- The children of some parents at the last level of a lineage. -/
def expand (s : BatchStructure) (lineage : Lineage) (parents : List Index) : List Index :=
  parents.flatMap fun parent =>
    (List.range ((s.children? lineage parent).getD 0)).map fun position => parent ++ [position]

/-- The indices below some parents, whose lineage is `above`, down to the last of further levels. -/
def indicesBelow (s : BatchStructure) (above : Lineage) (parents : List Index) :
    Lineage → List Index
  | [] => parents
  | level :: rest =>
    s.indicesBelow (above ++ [level]) (s.expand (above ++ [level]) parents) rest

/-- All indices of a lineage in lexicographic order. -/
def indices (s : BatchStructure) (lineage : Lineage) : List Index :=
  s.indicesBelow [] [[]] lineage

end BatchStructure

end BatchFlow
