import BatchFlow.Proofs.Run.Liveness

namespace BatchFlow

/-!
# Steps with an exhausted branch

A step is passed over without a look at its elements when one of its branches is exhausted. No
element is lost thereby unless the step folds batches, accepts empty values and was decided about at
the level that it folds: then a parent runs on although all its children are excluded.

* `RunState.StillRuns` — a parent for which a folding step runs although its children are excluded.
* `Reaches.length_lt_of_exhausted` — only elements above an exhausted branch belong to it.
* `exhausted_drops_iff` — which elements of a step with an exhausted branch are lost.
* `Reaches.elements_eq_invocation` — when none is.
-/

variable {context : RunContext} {shape : BatchStructure} {j : Journal} {s : RunState}
  {earlier : List Plan.Step} {step : Plan.Step}

/-- Only elements above an exhausted branch belong to it. -/
theorem Reaches.length_lt_of_exhausted (hplan : context.engine.plan.Coherent)
    (h : Reaches context shape j s) (hstep : step.Coherent context.engine.plan earlier)
    (hexhausted : (s.governing step).any fun id => (s.branches.get id).isExhausted) :
    ∃ g ∈ context.engine.plan.steps, g.manifest.flowControl = true ∧ step.name ∈ g.targets ∧
      g.alignment.input ≤ step.alignment.input ∧
      ∀ index, s.branches.admits (s.governing step) index → index.length < g.alignment.input := by
  obtain ⟨e, he, hnone⟩ := (h.exhausted_iff hplan hstep).1 hexhausted
  -- an element at the depth of the branch or below would have been selected there
  refine ⟨e.step, h.tracks.mem_steps_of_entry he.1, he.2.1, he.2.2,
    h.input_le_of_decides hplan hstep he, fun index hadmits => ?_⟩
  exact ((h.admits_iff hplan hstep).1 hadmits e he).resolve_right (hnone _)

/-! ### Folding steps -/

/-- A parent for which a folding step runs when all children are excluded: it has children, or data
    between the outermost level and the folded one has a value for it. -/
structure RunState.StillRuns (context : RunContext) (s : RunState) (step : Plan.Step)
    (parent : Index) : Prop where
  mem : parent ∈ s.shape.indices (step.alignment.lineage.take (step.alignment.input - 1))
  admitted : s.branches.admits (s.governing step) parent
  cause : 0 < (s.shape.children? step.alignment.lineage parent).getD 0 ∨
    ∃ source ∈ step.sources, ∃ depth, source.depth? = some depth ∧ 0 < depth ∧
      depth < step.alignment.input ∧ ((s.view context).at? parent source).isSome

section Folding

variable {view : View} {governing : List BranchId} {parent : Index} {count : Nat}

/-- Excluded children have no value. -/
theorem View.resolve_excluded
    (hexcluded : ∀ k, view.branches.admits governing (parent ++ [k]) = false) {depth : Nat}
    {source : Plan.Source} (hsource : source.depth? = some depth) :
    (view.resolve governing (.parent parent count depth) source).2 = false := by
  simp only [View.resolve, hsource, if_true, View.children, View.child?, hexcluded,
    Bool.false_eq_true, if_false]
  rw [List.any_eq_false]
  intro value hvalue
  obtain ⟨k, -, rfl⟩ := List.mem_map.1 hvalue
  exact Bool.false_ne_true

/-- A source above the level that is folded shows its value at the parent. -/
theorem View.resolve_above {depth : Nat} {source : Plan.Source}
    (hsource : source.depth? ≠ some depth) :
    (view.resolve governing (.parent parent count depth) source).2 =
      (view.at? parent source).isSome := by
  rw [View.resolve, if_neg hsource, orNull_eq]

/-- A step lies as deep as the deepest of its sources. -/
theorem Plan.Step.Coherent.depth_le {plan : Plan} (hplan : plan.Coherent)
    (hearlier : ∀ e ∈ earlier, e ∈ plan.steps) (hstep : step.Coherent plan earlier)
    {source : Plan.Source} (hsource : source ∈ step.sources) {depth : Nat}
    (hdepth : source.depth? = some depth) : depth ≤ step.alignment.input := by
  rcases hstep.source source hsource with hnone | ⟨l, hon, hbegin⟩
  · rw [hnone] at hdepth
    cases hdepth
  · cases (hon.depth?_eq hplan hearlier).symm.trans hdepth
    rw [← hstep.suits.length]
    exact hbegin.length_le

/-- A step below the root has a source as deep as the step. -/
theorem Plan.Step.Coherent.exists_deepest {plan : Plan} (hplan : plan.Coherent)
    (hearlier : ∀ e ∈ earlier, e ∈ plan.steps) (hstep : step.Coherent plan earlier)
    (hpos : 0 < step.alignment.input) :
    ∃ source ∈ step.batchSources, source.depth? = some step.alignment.input := by
  obtain ⟨source, hsource, hon⟩ := hstep.deepest hpos
  have hdepth : source.depth? = some step.alignment.input := by
    rw [hon.depth?_eq hplan hearlier, hstep.suits.length]
  exact ⟨source, Plan.Step.mem_batchSources_iff.2 ⟨hsource, _, hdepth, hpos⟩, hdepth⟩

/-- A folding step whose children are excluded runs for a parent when it accepts empty values, and
    the parent has children or data above them. -/
theorem isSome_values?_excluded {plan : Plan} (hplan : plan.Coherent)
    (hearlier : ∀ e ∈ earlier, e ∈ plan.steps) (hstep : step.Coherent plan earlier)
    (hpos : 0 < step.alignment.input)
    (hexcluded : ∀ k, view.branches.admits governing (parent ++ [k]) = false) :
    (view.values? governing (.parent parent count step.alignment.input) step
        (0 < count && step.manifest.acceptsEmptyValues)).isSome ↔
      step.manifest.acceptsEmptyValues = true ∧ (0 < count ∨
        ∃ source ∈ step.sources, ∃ depth, source.depth? = some depth ∧ 0 < depth ∧
          depth < step.alignment.input ∧ (view.at? parent source).isSome) := by
  let present (source : Plan.Source) : Bool :=
    (view.resolve governing (.parent parent count step.alignment.input) source).2
  have hsome : (view.values? governing (.parent parent count step.alignment.input) step
        (0 < count && step.manifest.acceptsEmptyValues)).isSome ↔
      (0 < count ∧ step.manifest.acceptsEmptyValues = true) ∨ step.Admissible (present ·) := by
    rw [Option.isSome_iff_exists]
    simp only [View.values?_eq_some_iff, exists_and_left, exists_eq, and_true, Bool.and_eq_true,
      decide_eq_true_eq]
    rfl
  -- the data that is folded has no value, and is data of a batch
  have hmissing : ∀ source, source.depth? = some step.alignment.input → present source = false :=
    fun source hsource => View.resolve_excluded hexcluded hsource
  have habove : ∀ source, source.depth? ≠ some step.alignment.input →
      present source = (view.at? parent source).isSome :=
    fun source hsource => View.resolve_above hsource
  obtain ⟨deepest, hdeepest, hdepth⟩ := hstep.exists_deepest hplan hearlier hpos
  rw [hsome]
  constructor
  · rintro (⟨hcount, hempty⟩ | hadmissible)
    · exact ⟨hempty, Or.inl hcount⟩
    · cases hempty : step.manifest.acceptsEmptyValues with
      | false =>
        have hpresent := hadmissible.all hempty _ (step.mem_selected_of_mem_batchSources hdeepest)
        rw [hmissing deepest hdepth] at hpresent
        cases hpresent
      | true =>
        obtain ⟨source, hsource, hpresent⟩ :=
          hadmissible.batch hempty (List.ne_nil_of_mem hdeepest)
        obtain ⟨hmem, depth, hdepth, hpositive⟩ := Plan.Step.mem_batchSources_iff.1 hsource
        have hle := hstep.depth_le hplan hearlier hmem hdepth
        have hne : source.depth? ≠ some step.alignment.input := by
          intro he
          rw [hmissing source he] at hpresent
          cases hpresent
        rw [habove source hne] at hpresent
        have hlt : depth < step.alignment.input :=
          Nat.lt_of_le_of_ne hle fun he => hne (he ▸ hdepth)
        exact ⟨rfl, Or.inr ⟨source, hmem, depth, hdepth, hpositive, hlt, hpresent⟩⟩
  · rintro ⟨hempty, hcount | ⟨source, hmem, depth, hsource, hpositive, hlt, hvalue⟩⟩
    · exact Or.inl ⟨hcount, hempty⟩
    · have hne : source.depth? ≠ some step.alignment.input := by
        rw [hsource]
        exact fun he => Nat.ne_of_lt hlt (Option.some.inj he)
      refine Or.inr ⟨fun h => ?_, fun _ _ => ?_, fun _ hnone => ?_⟩
      · rw [hempty] at h
        cases h
      · exact ⟨source, Plan.Step.mem_batchSources_iff.2 ⟨hmem, depth, hsource, hpositive⟩,
          (habove source hne).trans hvalue⟩
      · exact absurd hnone (List.ne_nil_of_mem hdeepest)

/-- A folding step runs at the parents that belong to its branches and for which enough is there. -/
theorem View.mem_collapsing_iff {index : Index} :
    (∃ values, (index, values) ∈ view.collapsing governing step) ↔
      index ∈ view.shape.indices (step.alignment.lineage.take (step.alignment.input - 1)) ∧
        view.branches.admits governing index ∧
        (let count := (view.shape.children? step.alignment.lineage index).getD 0;
          (view.values? governing (.parent index count step.alignment.input) step
            (0 < count && step.manifest.acceptsEmptyValues)).isSome) := by
  unfold View.collapsing
  constructor
  · rintro ⟨values, hmem⟩
    obtain ⟨parent, hparent, he⟩ := List.mem_filterMap.1 hmem
    obtain ⟨values', hvalues, he⟩ := Option.map_eq_some_iff.1 he
    cases he
    obtain ⟨hindex, hadmits⟩ := List.mem_filter.1 hparent
    exact ⟨hindex, hadmits, Option.isSome_iff_exists.2 ⟨values, hvalues⟩⟩
  · rintro ⟨hindex, hadmits, hsome⟩
    obtain ⟨values, hvalues⟩ := Option.isSome_iff_exists.1 hsome
    refine ⟨values, List.mem_filterMap.2 ⟨index, List.mem_filter.2 ⟨hindex, hadmits⟩, ?_⟩⟩
    exact Option.map_eq_some_iff.2 ⟨values, hvalues, rfl⟩

end Folding

/-! ### What is lost -/

/-- What a step with an exhausted branch would run at. -/
theorem Reaches.mem_invocation_of_exhausted (hplan : context.engine.plan.Coherent)
    (h : Reaches context shape j s) (hready : step ∈ s.ready)
    (hexhausted : (s.governing step).any fun id => (s.branches.get id).isExhausted)
    {index : Index} :
    (∃ values, (index, values) ∈ (s.view context).invocation (s.governing step) step) ↔
      step.manifest.transform = .decrement ∧ step.manifest.acceptsEmptyValues = true ∧
        s.StillRuns context step index := by
  obtain ⟨earlier, later, hsplit⟩ := List.append_of_mem (h.tracks.mem_steps_of_ready hready)
  have hstep := hplan.step hsplit
  obtain ⟨g, -, -, -, hle, hshort⟩ := h.length_lt_of_exhausted hplan hstep hexhausted
  by_cases ht : step.manifest.transform = .decrement
  · obtain ⟨hpos, -⟩ := hstep.suits.decrement ht
    have hearlier : ∀ e ∈ earlier, e ∈ context.engine.plan.steps := fun e he =>
      hsplit ▸ List.mem_append_left _ he
    -- the children lie at the level of the exhausted branch or below
    have hexcluded :
        index ∈ s.shape.indices (step.alignment.lineage.take (step.alignment.input - 1)) →
        ∀ k, s.branches.admits (s.governing step) (index ++ [k]) = false := by
      intro hindex k
      have hlength := BatchStructure.length_of_mem_indices hindex
      rw [List.length_take, hstep.suits.length] at hlength
      rw [← Bool.not_eq_true]
      intro hadmits
      have hlt := hshort _ hadmits
      rw [List.length_append, List.length_singleton] at hlt
      omega
    rw [View.invocation_eq_collapsing ht, View.mem_collapsing_iff]
    constructor
    · rintro ⟨hindex, hadmits, hsome⟩
      obtain ⟨hempty, hcause⟩ :=
        (isSome_values?_excluded hplan hearlier hstep hpos (hexcluded hindex)).1 hsome
      exact ⟨ht, hempty, hindex, hadmits, hcause⟩
    · rintro ⟨-, hempty, hindex, hadmits, hcause⟩
      exact ⟨hindex, hadmits,
        (isSome_values?_excluded hplan hearlier hstep hpos (hexcluded hindex)).2 ⟨hempty, hcause⟩⟩
  · constructor
    · rintro ⟨values, hmem⟩
      rw [View.invocation_eq_elementwise ht, View.mem_elementwise_iff] at hmem
      obtain ⟨hindex, hadmits, -⟩ := hmem
      -- the elements lie at the depth of the step, so none is above the branch
      have hlength := BatchStructure.length_of_mem_indices hindex
      have hlt := hshort _ hadmits
      rw [hlength, hstep.suits.length] at hlt
      omega
    · rintro ⟨hdecrement, -⟩
      exact absurd hdecrement ht

/-- No element is lost when no step decides about a folding step at the level that it folds. -/
theorem Reaches.elements_eq_invocation (hplan : context.engine.plan.Coherent)
    (h : Reaches context shape j s) (hready : step ∈ s.ready)
    (hlevel : step.manifest.transform = .decrement → ∀ g ∈ context.engine.plan.steps,
      g.manifest.flowControl = true → step.name ∈ g.targets →
        g.alignment.input ≠ step.alignment.input) :
    s.elements context step = (s.view context).invocation (s.governing step) step := by
  rw [RunState.elements]
  split
  · rename_i hexhausted
    refine (List.eq_nil_iff_forall_not_mem.2 fun x hmem => ?_).symm
    obtain ⟨ht, -, hruns⟩ :=
      (h.mem_invocation_of_exhausted hplan hready hexhausted).1 ⟨x.2, hmem⟩
    obtain ⟨earlier, later, hsplit⟩ := List.append_of_mem (h.tracks.mem_steps_of_ready hready)
    have hstep := hplan.step hsplit
    obtain ⟨g, hg, hflow, htarget, hle, hshort⟩ := h.length_lt_of_exhausted hplan hstep hexhausted
    -- a parent lies one level above the step, and above the branch only if that is as deep
    have hlength := BatchStructure.length_of_mem_indices hruns.mem
    rw [List.length_take, hstep.suits.length] at hlength
    have hlt := hshort _ hruns.admitted
    have hne := hlevel ht g hg hflow htarget
    omega
  · rfl

/-- Which elements of a ready step are lost when one of its branches is exhausted, so that it is
    passed over without a look at them: none, unless it folds batches, accepts empty values and a
    parent is admitted that has children, all of them excluded, or data above them. -/
theorem exhausted_drops_iff {registry : Registry} {initParameters : Table String Json}
    {d : Definition} (hcompile : d.compile registry initParameters = .ok context.engine.plan)
    (h : Reaches context shape j s) (hready : step ∈ s.ready)
    (hexhausted : (s.governing step).any fun id => (s.branches.get id).isExhausted)
    (index : Index) :
    (∀ values, ¬ (RunState.take context { s with ready := s.ready.erase step } step).RunsAt step
        index values) ∧
      ((∃ values, (index, values) ∈ (s.view context).invocation (s.governing step) step) ↔
        step.manifest.transform = .decrement ∧ step.manifest.acceptsEmptyValues = true ∧
          s.StillRuns context step index) := by
  have hplan := Definition.coherent_of_compile hcompile
  refine ⟨fun values hruns => ?_, h.mem_invocation_of_exhausted hplan hready hexhausted⟩
  rw [h.runsAt_iff hplan hready, RunState.elements, if_pos hexhausted] at hruns
  cases hruns

namespace Sample

/-- A block that decides always for the same steps. -/
def always (blockType : String) (next : List String) : Block := Catalog.scripted
  { blockType, acceptsBatchInput := true, flowControl := true
    properties := [{ name := "value", kind := .data [] true },
      { name := "next", kind := .stepTargets }] }
  (.constant (.decision next))

/-- A step that folds nested batches, about which one step decides for and another against. -/
def masked : Definition where
  version := "1.0"
  inputs := [.batch "x" 2 []]
  steps := [
    ⟨"Keep", "keep", [("value", .string "$inputs.x"), ("next", .string "$steps.fold")]⟩,
    ⟨"Stop", "stop", [("value", .string "$inputs.x"), ("next", .string "$steps.fold")]⟩,
    ⟨"Fold", "fold", [("items", .string "$inputs.x")]⟩]
  outputs := [⟨"out", "$steps.fold.items"⟩]

/-- The registry of the blocks. -/
def maskedBlocks : Registry :=
  [("Keep", always "Keep" ["fold"]), ("Stop", always "Stop" []),
    ("Fold", Catalog.scripted
      { blockType := "Fold", acceptsEmptyValues := true, transform := .decrement
        properties := [{ name := "items", kind := .data [] true }]
        outputs := [⟨"items", []⟩] } .echo)]

/-- A batch of one list of two values. -/
def maskedInputs : Prepared :=
  (prepare [⟨"x", 2, .ofInput 2, none⟩]
    [("x", .array [.array [.bool true, .bool false]])]).toOption.getD ⟨{}, 0⟩

/-- What does not change during a run on these inputs. -/
def maskedContext (plan : Plan) : RunContext :=
  ⟨⟨plan, maskedBlocks, {}⟩, maskedInputs.store, fun _ => 0.5⟩

/-- The state in which the two steps have decided. -/
def maskedState (plan : Plan) : RunState :=
  (plan.steps.take 2).foldl (RunState.perform (maskedContext plan))
    (.initial plan maskedInputs.shape)

end Sample

/-- A step that would run for a parent whose children are all excluded does not run. -/
theorem exhausted_drops_fold : ∃ plan j step,
    Sample.masked.compile Sample.maskedBlocks [] = .ok plan ∧
    Reaches (Sample.maskedContext plan) Sample.maskedInputs.shape j (Sample.maskedState plan) ∧
    step ∈ (Sample.maskedState plan).ready ∧
    let s := Sample.maskedState plan
    let context := Sample.maskedContext plan
    ((s.governing step).any fun id => (s.branches.get id).isExhausted) ∧
    (∀ values, ¬ (RunState.take context { s with ready := s.ready.erase step } step).RunsAt step
      [0] values) ∧
    (∃ values, ([0], values) ∈ (s.view context).invocation (s.governing step) step) ∧
    step.manifest.transform = .decrement ∧ step.manifest.acceptsEmptyValues = true ∧
    s.StillRuns context step [0] := by
  have hfound : ((Sample.masked.compile Sample.maskedBlocks []).toOption.bind fun plan =>
      let s := Sample.maskedState plan
      s.ready.find? fun step =>
        ((s.governing step).any fun id => (s.branches.get id).isExhausted) &&
        ((s.view (Sample.maskedContext plan)).invocation (s.governing step) step).any
          (·.1 == [0])).isSome := by
    decide +kernel
  obtain ⟨step, hfound⟩ := Option.isSome_iff_exists.1 hfound
  obtain ⟨plan, hcompile, hfound⟩ := Option.bind_eq_some_iff.1 hfound
  have hcompile : Sample.masked.compile Sample.maskedBlocks [] =
      .ok (Sample.maskedContext plan).engine.plan := toOption_eq_some.1 hcompile
  have hready := List.mem_of_find?_eq_some hfound
  have hchosen := List.find?_some hfound
  obtain ⟨hexhausted, hany⟩ := Bool.and_eq_true_iff.1 hchosen
  obtain ⟨⟨index, values⟩, hmem, hindex⟩ := List.any_eq_true.1 hany
  cases eq_of_beq hindex
  obtain ⟨j, hreaches, -⟩ := exists_reaches_inOrder (Definition.coherent_of_compile hcompile)
    Sample.maskedInputs.shape (List.take_append_drop 2 plan.steps).symm
  have hdrops := exhausted_drops_iff hcompile hreaches hready hexhausted [0]
  exact ⟨plan, j, step, hcompile, hreaches, hready, hexhausted, hdrops.1, ⟨values, hmem⟩,
    hdrops.2.1 ⟨values, hmem⟩⟩

end BatchFlow
