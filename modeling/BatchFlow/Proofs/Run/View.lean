import BatchFlow.Run.Invocation
import Mathlib.Data.List.Basic

namespace BatchFlow.View

/-!
# What a view makes of a step

The elements at which a step runs depend on what the view shows of the sources of the step, of the
branches that restrict it and of the indices of its lineage, and on nothing else.

* `values?_congr` — the same values of the sources make the same element.
* `invocation_sublist`, `mem_indices_of_mem_invocation` — at which indices a step can run.
* `Relabels`, `invocation_relabel` — when one view shows under new indices what another shows under
  some of its indices, the step runs at these elements under their new indices.
* `invocation_congr` — the case in which both show the same.
-/

variable {view view' : View} {governing governing' : List BranchId} {step : Plan.Step}

/-- The same values of the sources make the same element. -/
theorem values?_congr {cursor cursor' : Cursor} (keepEmpty : Bool)
    (h : ∀ s ∈ step.sources,
      view'.resolve governing' cursor' s = view.resolve governing cursor s) :
    view'.values? governing' cursor' step keepEmpty =
      view.values? governing cursor step keepEmpty := by
  have hfound : view'.foundSources governing' cursor' step =
      view.foundSources governing cursor step := by
    refine List.filterMap_congr fun s hs => ?_
    rw [h s hs]
  -- every source of a binding is a source of the step, those inside a map included
  have hbinding : ∀ entry ∈ step.bindings, view'.bindingValue governing' cursor' entry.2 =
      view.bindingValue governing cursor entry.2 := by
    rintro ⟨name, b⟩ hentry
    have hsource : ∀ s ∈ b.sources, s ∈ step.sources := fun s hs =>
      List.mem_flatMap.2 ⟨b, List.mem_map.2 ⟨_, hentry, rfl⟩, hs⟩
    cases b with
    | source s => exact congrArg Prod.fst (h s (hsource s List.mem_cons_self))
    | map entries =>
      refine congrArg Json.object (List.map_congr_left fun entry hmem => ?_)
      have hs : entry.2 ∈ step.sources := hsource entry.2 (List.mem_map.2 ⟨_, hmem, rfl⟩)
      exact congrArg (fun found : Json × Bool => (entry.1, found.1)) (h entry.2 hs)
  rw [values?, values?, hfound]
  have hbindings : (step.bindings.map fun entry =>
        (entry.1, view'.bindingValue governing' cursor' entry.2)) =
      step.bindings.map fun entry => (entry.1, view.bindingValue governing cursor entry.2) :=
    List.map_congr_left fun entry hentry => congrArg (Prod.mk entry.1) (hbinding entry hentry)
  split
  · exact congrArg some hbindings
  · rfl

/-- A step that does not fold runs once per element. -/
theorem invocation_eq_elementwise (ht : step.manifest.transform ≠ .decrement) :
    view.invocation governing step = view.elementwise governing step := by
  cases h : step.manifest.transform with
  | identity => rw [invocation, h]
  | increment => rw [invocation, h]
  | decrement => exact absurd h ht

/-- A step that folds a level runs at parents. -/
theorem invocation_eq_collapsing (ht : step.manifest.transform = .decrement) :
    view.invocation governing step = view.collapsing governing step := by
  rw [invocation, ht]

/-- The indices at which a step runs are those of its lineage, or of their parents if it folds, each
    at most once and in their order. -/
theorem invocation_sublist : ((view.invocation governing step).map (·.1)).Sublist
    (view.shape.indices (if step.manifest.transform = .decrement then
      step.alignment.lineage.take (step.alignment.input - 1) else step.alignment.lineage)) := by
  have hfilterMap : ∀ (indices : List Index) (values : Index → Option Values),
      ((indices.filterMap fun index => (values index).map (index, ·)).map (·.1)).Sublist
        indices := by
    intro indices values
    induction indices with
    | nil => exact .slnil
    | cons index rest ih =>
      rw [List.filterMap_cons]
      cases values index with
      | none => exact ih.cons index
      | some found => exact ih.cons_cons index
  by_cases ht : step.manifest.transform = .decrement
  · rw [invocation_eq_collapsing ht, if_pos ht]
    exact (hfilterMap _ _).trans List.filter_sublist
  · rw [invocation_eq_elementwise ht, if_neg ht]
    exact (hfilterMap _ _).trans List.filter_sublist

/-- A step runs at indices of its lineage, or at parents of them if it folds. -/
theorem mem_indices_of_mem_invocation {x : Index × Values}
    (h : x ∈ view.invocation governing step) :
    x.1 ∈ view.shape.indices (if step.manifest.transform = .decrement then
      step.alignment.lineage.take (step.alignment.input - 1) else step.alignment.lineage) :=
  invocation_sublist.subset (List.mem_map_of_mem h)

/-- One view shows under new indices what another shows under the indices that are kept. -/
structure Relabels (keep : Index → Bool) (f : Index → Index) (step : Plan.Step)
    (view : View) (governing : List BranchId) (view' : View) (governing' : List BranchId) :
    Prop where
  snoc : ∀ index k, keep index → keep (index ++ [k]) ∧ f (index ++ [k]) = f index ++ [k]
  admits : ∀ index, keep index →
    view'.branches.admits governing' (f index) = view.branches.admits governing index
  value : ∀ index, keep index → ∀ s ∈ step.sources, view'.at? (f index) s = view.at? index s
  elements : step.manifest.transform ≠ .decrement →
    view'.shape.indices step.alignment.lineage =
      ((view.shape.indices step.alignment.lineage).filter keep).map f
  parents : step.manifest.transform = .decrement →
    view'.shape.indices (step.alignment.lineage.take (step.alignment.input - 1)) =
      ((view.shape.indices (step.alignment.lineage.take (step.alignment.input - 1))).filter
        keep).map f
  children : step.manifest.transform = .decrement →
    ∀ parent ∈ view.shape.indices (step.alignment.lineage.take (step.alignment.input - 1)),
      keep parent → (view'.shape.children? step.alignment.lineage (f parent)).getD 0 =
        (view.shape.children? step.alignment.lineage parent).getD 0

/-- Relabelling indices before elements are chosen or afterwards is the same. -/
theorem filterMap_relabel {keep : Index → Bool} {f : Index → Index} {indices : List Index}
    {admitted admitted' : Index → Bool} {values values' : Index → Option Values}
    (hadmitted : ∀ index ∈ indices, keep index → admitted' (f index) = admitted index)
    (hvalues : ∀ index ∈ indices, keep index → values' (f index) = values index) :
    ((((indices.filter keep).map f).filter admitted').filterMap fun index =>
        (values' index).map (index, ·)) =
      (((indices.filter admitted).filterMap fun index =>
        (values index).map (index, ·)).filter fun x => keep x.1).map fun x => (f x.1, x.2) := by
  -- whether `keep` is asked first or last, the same indices remain with the same values
  induction indices with
  | nil => rfl
  | cons index rest ih =>
    obtain ⟨hadmitted, hadmitted'⟩ := List.forall_mem_cons.1 hadmitted
    obtain ⟨hvalues, hvalues'⟩ := List.forall_mem_cons.1 hvalues
    have ih := ih hadmitted' hvalues'
    cases hkeep : keep index with
    | true =>
      have hadmit := hadmitted hkeep
      have hvalue := hvalues hkeep
      cases hadmits : admitted index with
      | true =>
        cases hv : values index <;> simp [hkeep, hadmit, hadmits, hvalue, hv, ih]
      | false => simp [hkeep, hadmit, hadmits, ih]
    | false =>
      cases hadmits : admitted index with
      | true => cases hv : values index <;> simp [hkeep, hadmits, hv, ih]
      | false => simp [hkeep, hadmits, ih]

variable {keep : Index → Bool} {f : Index → Index}

/-- What a source shows at a kept parent, it shows at the parent's new index. -/
theorem Relabels.resolve_parent (h : Relabels keep f step view governing view' governing')
    {parent : Index} (hkeep : keep parent) (count depth : Nat) {s : Plan.Source}
    (hs : s ∈ step.sources) :
    view'.resolve governing' (.parent (f parent) count depth) s =
      view.resolve governing (.parent parent count depth) s := by
  have hchildren : view'.children governing' (f parent) count s =
      view.children governing parent count s := by
    refine List.map_congr_left fun k _ => ?_
    obtain ⟨hkeep', hf⟩ := h.snoc parent k hkeep
    rw [child?, child?, ← hf, h.admits _ hkeep', h.value _ hkeep' s hs]
  simp only [resolve, hchildren, h.value parent hkeep s hs]

/-- The step runs at the kept elements under their new indices. -/
theorem invocation_relabel (h : Relabels keep f step view governing view' governing') :
    view'.invocation governing' step =
      ((view.invocation governing step).filter fun x => keep x.1).map fun x => (f x.1, x.2) := by
  by_cases ht : step.manifest.transform = .decrement
  · rw [invocation_eq_collapsing ht, invocation_eq_collapsing ht]
    unfold collapsing
    dsimp only
    rw [h.parents ht]
    refine filterMap_relabel (fun index _ hkeep => h.admits index hkeep)
      fun parent hparent hkeep => ?_
    -- the number of children decides whether a parent without values is kept
    rw [h.children ht parent hparent hkeep]
    exact values?_congr _ fun s hs => h.resolve_parent hkeep _ _ hs
  · rw [invocation_eq_elementwise ht, invocation_eq_elementwise ht, elementwise, h.elements ht]
    refine filterMap_relabel (fun index _ hkeep => h.admits index hkeep) fun index _ hkeep => ?_
    refine values?_congr false fun s hs => ?_
    exact congrArg orNull (h.value index hkeep s hs)

/-- A step runs at the same elements in views that show the same of its lineage. -/
theorem invocation_congr
    (hadmits : ∀ index,
      view'.branches.admits governing' index = view.branches.admits governing index)
    (hvalue : ∀ index, ∀ s ∈ step.sources, view'.at? index s = view.at? index s)
    (hindices : ∀ l, l <+: step.alignment.lineage → view'.shape.indices l = view.shape.indices l)
    (hchildren : step.manifest.transform = .decrement →
      ∀ parent ∈ view.shape.indices (step.alignment.lineage.take (step.alignment.input - 1)),
        view'.shape.children? step.alignment.lineage parent =
          view.shape.children? step.alignment.lineage parent) :
    view'.invocation governing' step = view.invocation governing step := by
  have hall : ∀ indices : List Index, indices = (indices.filter fun _ => true).map id := by simp
  -- all indices are kept as they are
  have hrelabels : Relabels (fun _ => true) id step view governing view' governing' := by
    constructor
    case snoc => exact fun _ _ _ => ⟨rfl, rfl⟩
    case admits => exact fun index _ => hadmits index
    case value => exact fun index _ => hvalue index
    case elements => exact fun _ => (hindices _ List.prefix_rfl).trans (hall _)
    case parents => exact fun _ => (hindices _ (List.take_prefix _ _)).trans (hall _)
    case children =>
      exact fun ht parent hparent _ => congrArg (·.getD 0) (hchildren ht parent hparent)
  rw [invocation_relabel hrelabels]
  simp

end BatchFlow.View
