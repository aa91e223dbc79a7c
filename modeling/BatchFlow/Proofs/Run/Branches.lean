import BatchFlow.Proofs.Table
import BatchFlow.Run.Branch

namespace BatchFlow.Branches

/-!
# What branches admit

* `gate?` — the depth and the mask of the branch of an edge, all by which it restricts its target.
* `gate?_openAll`, `gate?_close` — opening branches sets them, closing a branch leaves them.
* `admits_governing_iff`, `any_isExhausted_iff` — what the branches that restrict a step admit, and
  when one of them is exhausted, read off depths and masks.
-/

/-- The depth and the mask of the branch of a deciding step and a target. -/
def gate? (bs : Branches) (edge : String × String) : Option (Nat × Option (List Index)) :=
  (bs.byEdge.get? edge).map fun id => ((bs.get id).depth, (bs.get id).mask)

/-- Every edge has a branch that is there. -/
def Valid (bs : Branches) : Prop := ∀ edge id, bs.byEdge.get? edge = some id → id < bs.list.length

/-- Before anything is decided no edge has a branch. -/
theorem valid_initial : Valid {} := fun _ _ h => by cases h

/-! ### Opening branches -/

/-- When a branch is opened every edge still has one that is there. -/
theorem Valid.openOne {bs : Branches} (h : bs.Valid) (step : String) (parent : BranchId)
    (depth : Nat) (decisions : List (Index × List String)) (target : String) :
    (bs.openOne step parent depth decisions target).Valid := by
  intro edge id hget
  show id < (bs.list ++ [_]).length
  rw [List.length_append, List.length_singleton]
  have hget' : (bs.byEdge.put (step, target) bs.list.length).get? edge = some id := hget
  rw [Table.get?_put] at hget'
  split at hget'
  · cases hget'
    exact Nat.lt_succ_self _
  · exact Nat.lt_succ_of_lt (h edge id hget')

/-- Opening a branch sets the gate of its edge and no other. -/
theorem gate?_openOne {bs : Branches} (h : bs.Valid) (step : String) (parent : BranchId)
    (depth : Nat) (decisions : List (Index × List String)) (target : String)
    (edge : String × String) :
    (bs.openOne step parent depth decisions target).gate? edge =
      if (step, target) = edge then some (depth, some (selected decisions target))
      else bs.gate? edge := by
  have hget : (bs.openOne step parent depth decisions target).byEdge.get? edge =
      if (step, target) = edge then some bs.list.length else bs.byEdge.get? edge :=
    Table.get?_put _ _ _ _
  unfold gate?
  rw [hget]
  by_cases he : (step, target) = edge
  · rw [if_pos he, if_pos he, Option.map_some]
    simp [get, openOne, branchFor]
  · rw [if_neg he, if_neg he]
    cases hid : bs.byEdge.get? edge with
    | none => rfl
    | some id =>
      have hlt := h edge id hid
      simp [get, openOne, List.getElem?_append_left hlt]

/-- And so it is when the branches of all targets are opened. -/
theorem Valid.openAll {bs : Branches} (h : bs.Valid) (step : String) (own : List BranchId)
    (depth : Nat) (targets : List String) (decisions : List (Index × List String)) :
    (bs.openAll step own depth targets decisions).Valid := by
  unfold Branches.openAll
  induction targets generalizing bs with
  | nil => exact h
  | cons target rest ih => exact ih (h.openOne step _ depth decisions target)

/-- Opening branches sets the gates between a step and its targets and no other. -/
theorem gate?_openAll {bs : Branches} (h : bs.Valid) (step : String) (own : List BranchId)
    (depth : Nat) (targets : List String) (decisions : List (Index × List String))
    (edge : String × String) :
    (bs.openAll step own depth targets decisions).gate? edge =
      if step = edge.1 ∧ edge.2 ∈ targets then some (depth, some (selected decisions edge.2))
      else bs.gate? edge := by
  unfold openAll
  induction targets generalizing bs with
  | nil => simp
  | cons target rest ih =>
    obtain ⟨g, t⟩ := edge
    rw [List.foldl_cons, ih (h.openOne step _ depth decisions target), gate?_openOne h]
    -- a target may be listed twice; the branch that was opened last counts, and all of them agree
    by_cases hrest : step = g ∧ t ∈ rest
    · rw [if_pos hrest, if_pos ⟨hrest.1, List.mem_cons_of_mem _ hrest.2⟩]
    · rw [if_neg hrest]
      by_cases he : (step, target) = (g, t)
      · cases he
        rw [if_pos rfl, if_pos ⟨rfl, List.mem_cons_self⟩]
      · rw [if_neg he, if_neg]
        rintro ⟨rfl, hmem⟩
        rcases List.mem_cons.1 hmem with rfl | hmem
        · exact he rfl
        · exact hrest ⟨rfl, hmem⟩

/-! ### Closing branches -/

/-- Closing a branch changes neither its depth nor its mask. -/
theorem closeOne_get (bs : Branches) (closed id : BranchId) :
    ((bs.closeOne closed).get id).depth = (bs.get id).depth ∧
      ((bs.closeOne closed).get id).mask = (bs.get id).mask := by
  unfold get closeOne
  rw [List.getElem?_modify]
  cases bs.list[id]? with
  | none => exact ⟨rfl, rfl⟩
  | some b => by_cases h : closed = id <;> simp [h]

/-- Closing branches changes neither which there are nor what they admit. -/
theorem close_eq (bs : Branches) (ids : List BranchId) :
    (bs.close ids).byEdge = bs.byEdge ∧ (bs.close ids).list.length = bs.list.length ∧
      ∀ id, ((bs.close ids).get id).depth = (bs.get id).depth ∧
        ((bs.close ids).get id).mask = (bs.get id).mask := by
  unfold close
  induction ids generalizing bs with
  | nil => exact ⟨rfl, rfl, fun _ => ⟨rfl, rfl⟩⟩
  | cons first rest ih =>
    obtain ⟨hedge, hlength, hget⟩ := ih (bs.closeOne first)
    refine ⟨hedge, hlength.trans (List.length_modify _ _ _), fun id => ?_⟩
    obtain ⟨hdepth, hmask⟩ := closeOne_get bs first id
    exact ⟨(hget id).1.trans hdepth, (hget id).2.trans hmask⟩

/-- Closed branches are still there. -/
theorem Valid.close {bs : Branches} (h : bs.Valid) (ids : List BranchId) :
    (bs.close ids).Valid := by
  obtain ⟨hedge, hlength, -⟩ := close_eq bs ids
  intro edge id hget
  rw [hedge] at hget
  rw [hlength]
  exact h edge id hget

/-- Closing branches leaves every gate. -/
theorem gate?_close (bs : Branches) (ids : List BranchId) (edge : String × String) :
    (bs.close ids).gate? edge = bs.gate? edge := by
  obtain ⟨hedge, -, hget⟩ := close_eq bs ids
  unfold gate?
  rw [hedge]
  congr 1
  funext id
  rw [(hget id).1, (hget id).2]

/-! ### The branches that restrict a step -/

/-- The branches that restrict a step are those of its governors that have one for it. -/
theorem mem_governing {bs : Branches} {step : String} {governedBy : List String} {id : BranchId} :
    id ∈ bs.governing step governedBy ↔
      ∃ g ∈ governedBy, bs.byEdge.get? (g, step) = some id := by
  rw [governing, List.mem_filterMap]

/-- An element belongs to the branches that restrict a step when every mask that is as deep as the
    element or less deep has it. -/
theorem admits_governing_iff {bs : Branches} {step : String} {governedBy : List String}
    {index : Index} :
    bs.admits (bs.governing step governedBy) index ↔
      ∀ g ∈ governedBy, ∀ depth mask, bs.gate? (g, step) = some (depth, some mask) →
        index.length < depth ∨ index.take depth ∈ mask := by
  rw [admits, List.all_eq_true]
  constructor
  · intro h g hg depth mask hgate
    obtain ⟨id, hid, he⟩ := Option.map_eq_some_iff.1 hgate
    have hadmits := h id (mem_governing.2 ⟨g, hg, hid⟩)
    obtain ⟨rfl, hmask⟩ := Prod.mk.inj he
    simpa [Branch.admits, hmask] using hadmits
  · intro h id hid
    obtain ⟨g, hg, hid⟩ := mem_governing.1 hid
    unfold Branch.admits
    split
    · rfl
    · rename_i mask hmask
      have hgate : bs.gate? (g, step) = some ((bs.get id).depth, some mask) := by
        rw [gate?, hid, Option.map_some, hmask]
      simpa using h g hg _ _ hgate

/-- One of the branches that restrict a step is exhausted when a mask is empty. -/
theorem any_isExhausted_iff {bs : Branches} {step : String} {governedBy : List String} :
    ((bs.governing step governedBy).any fun id => (bs.get id).isExhausted) ↔
      ∃ g ∈ governedBy, ∃ depth, bs.gate? (g, step) = some (depth, some []) := by
  rw [List.any_eq_true]
  constructor
  · rintro ⟨id, hid, hexhausted⟩
    obtain ⟨g, hg, hid⟩ := mem_governing.1 hid
    refine ⟨g, hg, (bs.get id).depth, ?_⟩
    unfold Branch.isExhausted at hexhausted
    split at hexhausted
    · cases hexhausted
    · rename_i mask hmask
      rw [gate?, hid, Option.map_some, hmask, List.isEmpty_iff.1 hexhausted]
  · rintro ⟨g, hg, depth, hgate⟩
    obtain ⟨id, hid, he⟩ := Option.map_eq_some_iff.1 hgate
    refine ⟨id, mem_governing.2 ⟨g, hg, hid⟩, ?_⟩
    rw [Branch.isExhausted, (Prod.mk.inj he).2]
    rfl

section Congr

variable {bs bs' : Branches} {step : String} {governedBy : List String}

/-- Branches with the same depths and masks admit the same. -/
theorem admits_governing_congr (h : ∀ g ∈ governedBy, bs'.gate? (g, step) = bs.gate? (g, step))
    (index : Index) :
    bs'.admits (bs'.governing step governedBy) index =
      bs.admits (bs.governing step governedBy) index := by
  rw [Bool.eq_iff_iff, admits_governing_iff, admits_governing_iff]
  refine forall₂_congr fun g hg => ?_
  rw [h g hg]

/-- Whether a step is restricted by an exhausted branch depends on its gates only. -/
theorem any_isExhausted_congr (h : ∀ g ∈ governedBy, bs'.gate? (g, step) = bs.gate? (g, step)) :
    ((bs'.governing step governedBy).any fun id => (bs'.get id).isExhausted) =
      (bs.governing step governedBy).any fun id => (bs.get id).isExhausted := by
  rw [Bool.eq_iff_iff, any_isExhausted_iff, any_isExhausted_iff]
  refine exists_congr fun g => and_congr_right fun hg => ?_
  rw [h g hg]

end Congr

/-- A target was selected at an index when one of the decisions there has it. -/
theorem mem_selected {decisions : List (Index × List String)} {target : String} {index : Index} :
    index ∈ selected decisions target ↔ ∃ names, (index, names) ∈ decisions ∧ target ∈ names := by
  rw [selected, mem_distinct, List.mem_map]
  constructor
  · rintro ⟨⟨index, names⟩, hmem, rfl⟩
    obtain ⟨hmem, htarget⟩ := List.mem_filter.1 hmem
    exact ⟨names, hmem, by simpa using htarget⟩
  · rintro ⟨names, hmem, htarget⟩
    exact ⟨(index, names), List.mem_filter.2 ⟨hmem, by simpa using htarget⟩, rfl⟩

end BatchFlow.Branches
