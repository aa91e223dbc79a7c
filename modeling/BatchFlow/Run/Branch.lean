import BatchFlow.Batch.Structure
import BatchFlow.Distinct
import BatchFlow.Run.Event

namespace BatchFlow

/-!
# Branches

When a step has decided about its targets, one branch is opened for each of them. The branch admits
the elements for which the target was selected.

* `Branch.admits` — whether an element belongs to a branch.
* `Branches.governing` — the branches that restrict a step.
* `Branches.openAll`, `Branches.close` — the branches, and what is reported, when a step has decided
  and when a target has been dealt with.
-/

/-- The number of a branch in the order of opening. -/
abbrev BranchId := Nat

/-- What has become of a branch. -/
inductive BranchState where
  | active
  | exhausted
  | closed
deriving DecidableEq, Repr

/-- A set of admitted elements. -/
structure Branch where
  name : String
  parent : Option BranchId
  /-- The length of the indices in the mask. -/
  depth : Nat
  /-- The selected indices; `none` admits every element. -/
  mask : Option (List Index)
  state : BranchState
deriving DecidableEq, Repr

namespace Branch

/-- The branch in which every run starts. -/
def root : Branch := ⟨"Branch[root]", none, 0, none, .active⟩

/-- Whether an element belongs to the branch. Elements above the depth of the branch cannot be
    decided there and belong to it. -/
def admits (b : Branch) (index : Index) : Bool :=
  match b.mask with
  | none => true
  | some mask => index.length < b.depth || mask.contains (index.take b.depth)

/-- Whether no element was selected. -/
def isExhausted (b : Branch) : Bool :=
  match b.mask with
  | none => false
  | some mask => mask.isEmpty

end Branch

/-- All branches of a run, and the branch for each pair of a deciding step and a target. -/
structure Branches where
  list : List Branch := [.root]
  byEdge : Table (String × String) BranchId := []
deriving DecidableEq, Repr

namespace Branches

/-- The branch of a number. -/
def get (bs : Branches) (id : BranchId) : Branch := bs.list[id]?.getD .root

/-- The branches that restrict a step, one per step that decided about it. -/
def governing (bs : Branches) (step : String) (governedBy : List String) : List BranchId :=
  governedBy.filterMap fun governor => bs.byEdge.get? (governor, step)

/-- Whether an element belongs to all of some branches. -/
def admits (bs : Branches) (ids : List BranchId) (index : Index) : Bool :=
  ids.all fun id => (bs.get id).admits index

/-- The indices at which a target was selected, each once. -/
def selected (decisions : List (Index × List String)) (target : String) : List Index :=
  distinct ((decisions.filter fun (_, names) => names.contains target).map (·.1))

/-- The branch of one target of a step. -/
def branchFor (step : String) (parent : BranchId) (depth : Nat)
    (decisions : List (Index × List String)) (target : String) : Branch :=
  let mask := selected decisions target
  { name := s!"Branch[{step} -> {target}]"
    parent := some parent
    depth
    mask := some mask
    state := if mask.isEmpty then .exhausted else .active }

/-- Opens the branch of one target. -/
def openOne (step : String) (parent : BranchId) (depth : Nat)
    (decisions : List (Index × List String)) (bs : Branches) (target : String) : Branches where
  list := bs.list ++ [branchFor step parent depth decisions target]
  byEdge := bs.byEdge.put (step, target) bs.list.length

/-- The branch inside which the branches of a step are opened: the last that restricts it. -/
def parentOf (own : List BranchId) : BranchId := own.getLast?.getD 0

/-- Opens one branch per target of a step. `own` are the branches that restrict the step, and
    `decisions` lists the targets selected at each element. -/
def openAll (bs : Branches) (step : String) (own : List BranchId) (depth : Nat)
    (targets : List String) (decisions : List (Index × List String)) : Branches :=
  targets.foldl (openOne step (parentOf own) depth decisions) bs

/-- What is reported when branches are opened. -/
def openEvents (bs : Branches) (step : String) (own : List BranchId) (depth : Nat)
    (targets : List String) (decisions : List (Index × List String)) : List Event :=
  targets.map fun target =>
    let b := branchFor step (parentOf own) depth decisions target
    .branchCreated b.name (bs.get (parentOf own)).name ((b.mask.map (·.length)).getD 0)
      b.isExhausted

/-- Closes one branch. -/
def closeOne (bs : Branches) (id : BranchId) : Branches :=
  { bs with list := bs.list.modify id fun b => { b with state := .closed } }

/-- Closes branches when their target has been dealt with. -/
def close (bs : Branches) (ids : List BranchId) : Branches := ids.foldl closeOne bs

/-- What is reported when branches are closed: every branch that was open, once. -/
def closeEvents (bs : Branches) (ids : List BranchId) : List Event :=
  ((distinct ids).filter fun id => (bs.get id).state ≠ .closed).map fun id =>
    let b := bs.get id
    .branchClosed b.name ((b.parent.map fun p => (bs.get p).name).getD "")

end Branches

end BatchFlow
