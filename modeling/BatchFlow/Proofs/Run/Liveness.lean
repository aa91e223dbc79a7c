import BatchFlow.Proofs.Run.InOrder

namespace BatchFlow

/-!
# Where a step runs

A step that runs once per element is started at exactly those indices of its lineage for which every
step that decides about it has selected it, and at which enough of its sources have a value.

* `Plan.Step.Admissible` — whether enough of the sources of a step have a value.
* `Journal.value?` — what the steps that are done have left for a source at an index.
* `RunState.RunsAt` — a step is under way at an index, with some values.
* `runsAt_take_iff` — where a step is started, and with which values.
* `Move`, `replay` — some steps of a run, to look at a state on the way.
-/

/-! ### Which sources have to have a value -/

namespace Plan

/-- The sources of a step that point at data; literals do not. -/
def Step.selected (step : Step) : List Source := step.sources.filter (·.depth?.isSome)

/-- The sources of a step that point at data of a batch. -/
def Step.batchSources (step : Step) : List Source :=
  step.sources.filter fun s => 0 < s.depth?.getD 0

/-- Whether a step runs in view of which sources have a value. Without empty values none may be
    missing. With them, not all batch sources may be missing; if there are none, not all sources. -/
structure Step.Admissible (step : Step) (present : Source → Prop) : Prop where
  all : step.manifest.acceptsEmptyValues = false → ∀ s ∈ step.selected, present s
  batch : step.manifest.acceptsEmptyValues = true → step.batchSources ≠ [] →
    ∃ s ∈ step.batchSources, present s
  single : step.manifest.acceptsEmptyValues = true → step.batchSources = [] → step.selected ≠ [] →
    ∃ s ∈ step.selected, present s

instance (step : Step) (present : Source → Prop) [DecidablePred present] :
    Decidable (step.Admissible present) :=
  decidable_of_iff
    ((step.manifest.acceptsEmptyValues = false → ∀ s ∈ step.selected, present s) ∧
      (step.manifest.acceptsEmptyValues = true → step.batchSources ≠ [] →
        ∃ s ∈ step.batchSources, present s) ∧
      (step.manifest.acceptsEmptyValues = true → step.batchSources = [] → step.selected ≠ [] →
        ∃ s ∈ step.selected, present s))
    ⟨fun h => ⟨h.1, h.2.1, h.2.2⟩, fun h => ⟨h.all, h.batch, h.single⟩⟩

/-- The sources with elements are those that are nested. -/
theorem Step.mem_batchSources_iff {step : Step} {s : Source} :
    s ∈ step.batchSources ↔ s ∈ step.sources ∧ ∃ depth, s.depth? = some depth ∧ 0 < depth := by
  rw [batchSources, List.mem_filter]
  refine and_congr_right fun _ => ?_
  cases hdepth : s.depth? <;> simp

/-- A nested source is one that a selector points at. -/
theorem Step.mem_selected_of_mem_batchSources (step : Step) {s : Source}
    (h : s ∈ step.batchSources) : s ∈ step.selected := by
  obtain ⟨hs, depth, hdepth, -⟩ := mem_batchSources_iff.1 h
  exact List.mem_filter.2 ⟨hs, by rw [hdepth]; rfl⟩

/-- What is bound to a property when the sources have some values. -/
def Binding.valueFrom (value : Source → Json) : Binding → Json
  | .source s => value s
  | .map entries => .object (entries.map fun entry => (entry.1, value entry.2))

/-- The properties of a step when the sources have some values. -/
def Step.valuesFrom (step : Step) (value : Source → Json) : Values :=
  step.bindings.map fun entry => (entry.1, entry.2.valueFrom value)

/-- Whether enough sources have a value is said by the sources of the step alone. -/
theorem Step.Admissible.congr {step : Step} {present present' : Source → Prop}
    (h : ∀ s ∈ step.sources, present s ↔ present' s) (hstep : step.Admissible present) :
    step.Admissible present' where
  all hempty s hs := (h s (List.mem_of_mem_filter hs)).1 (hstep.all hempty s hs)
  batch hempty hne := by
    obtain ⟨s, hs, hpresent⟩ := hstep.batch hempty hne
    exact ⟨s, hs, (h s (List.mem_of_mem_filter hs)).1 hpresent⟩
  single hempty hnone hne := by
    obtain ⟨s, hs, hpresent⟩ := hstep.single hempty hnone hne
    exact ⟨s, hs, (h s (List.mem_of_mem_filter hs)).1 hpresent⟩

/-- The properties of a step are said by the values of its own sources. -/
theorem Step.valuesFrom_congr {step : Step} {value value' : Source → Json}
    (h : ∀ s ∈ step.sources, value s = value' s) :
    step.valuesFrom value = step.valuesFrom value' := by
  refine List.map_congr_left fun entry hentry => congrArg (Prod.mk entry.1) ?_
  have hsource : ∀ s ∈ entry.2.sources, value s = value' s := fun s hs =>
    h s (List.mem_flatMap.2 ⟨_, List.mem_map_of_mem hentry, hs⟩)
  cases hbinding : entry.2 with
  | source s =>
    rw [hbinding] at hsource
    exact hsource s List.mem_cons_self
  | map entries =>
    rw [hbinding] at hsource
    refine congrArg Json.object (List.map_congr_left fun bound hbound => ?_)
    exact congrArg (Prod.mk bound.1) (hsource bound.2 (List.mem_map_of_mem hbound))

end Plan

section Admissible

variable (step : Plan.Step) (present : Plan.Source → Bool)

/-- What is known of a source when an element is checked. -/
def foundOf (s : Plan.Source) : Nat × Bool := (s.depth?.getD 0, present s)

/-- What was found at each source, as a list over the sources. -/
theorem found_eq (sources : List Plan.Source) :
    (sources.filterMap fun s => s.depth?.map fun depth => (depth, present s)) =
      (sources.filter (·.depth?.isSome)).map (foundOf present) := by
  induction sources with
  | nil => rfl
  | cons s rest ih =>
    cases hdepth : s.depth? with
    | none => simp [hdepth, ih]
    | some depth => simp [hdepth, ih, foundOf]

/-- What was found at each nested source. -/
theorem found_filter_eq :
    (step.selected.map (foundOf present)).filter (fun found => 0 < found.1) =
      step.batchSources.map (foundOf present) := by
  rw [List.filter_map, Plan.Step.selected, List.filter_filter, Plan.Step.batchSources]
  congr 1
  refine List.filter_congr fun s _ => ?_
  cases hdepth : s.depth? <;> simp [foundOf, hdepth]

/-- Unless there is no source at all, one of them has a value. -/
theorem isEmpty_or_any_iff (sources : List Plan.Source) :
    ((sources.map (foundOf present)).isEmpty || (sources.map (foundOf present)).any (·.2)) ↔
      (sources ≠ [] → ∃ s ∈ sources, present s) := by
  rw [Bool.or_eq_true, List.isEmpty_map, List.isEmpty_iff, List.any_map, List.any_eq_true]
  exact ⟨fun h hne => h.resolve_left hne, fun h => Classical.or_iff_not_imp_left.2 h⟩

/-- The check of an element says whether its sources are admissible. -/
theorem isAdmissible_iff :
    isAdmissible step.manifest.acceptsEmptyValues
        (step.sources.filterMap fun s => s.depth?.map fun depth => (depth, present s)) ↔
      step.Admissible (present ·) := by
  have hall : (step.selected.map (foundOf present)).all (·.2) ↔ ∀ s ∈ step.selected, present s := by
    rw [List.all_map, List.all_eq_true]
    rfl
  have hrelevant : (let batch := step.batchSources.map (foundOf present)
        let relevant := if batch.isEmpty then step.selected.map (foundOf present) else batch
        (relevant.isEmpty || relevant.any (·.2)) = true) ↔
      (step.batchSources ≠ [] → ∃ s ∈ step.batchSources, present s) ∧
        (step.batchSources = [] → step.selected ≠ [] → ∃ s ∈ step.selected, present s) := by
    -- without batch sources all sources count, otherwise those of batches alone
    by_cases hbatch : step.batchSources = []
    · simp only [hbatch, List.map_nil, List.isEmpty_nil, if_true]
      rw [isEmpty_or_any_iff]
      exact ⟨fun h => ⟨fun hne => absurd rfl hne, fun _ => h⟩, fun h => h.2 trivial⟩
    · simp only [List.isEmpty_map, List.isEmpty_iff, hbatch, if_false]
      rw [← List.isEmpty_map, isEmpty_or_any_iff]
      exact ⟨fun h => ⟨h, False.elim⟩, fun h => h.1⟩
  rw [found_eq, isAdmissible, ← Plan.Step.selected, found_filter_eq]
  rw [Bool.and_eq_true, hrelevant, Bool.or_eq_true, hall]
  constructor
  · rintro ⟨⟨hbatch, hsingle⟩, hall⟩
    refine ⟨fun hempty => hall.resolve_left ?_, fun _ => hbatch, fun _ => hsingle⟩
    rw [hempty]
    exact Bool.false_ne_true
  · intro h
    cases hempty : step.manifest.acceptsEmptyValues with
    | true => exact ⟨⟨h.batch hempty, h.single hempty⟩, Or.inl rfl⟩
    | false =>
      -- when all sources have a value, so have those of a batch
      have hpresent := h.all hempty
      refine ⟨⟨fun hne => ?_, fun _ hne => ?_⟩, Or.inr hpresent⟩
      · obtain ⟨s, hs⟩ := List.exists_mem_of_ne_nil _ hne
        exact ⟨s, hs, hpresent s (step.mem_selected_of_mem_batchSources hs)⟩
      · obtain ⟨s, hs⟩ := List.exists_mem_of_ne_nil _ hne
        exact ⟨s, hs, hpresent s hs⟩

end Admissible

/-! ### The elements of a step -/

/-- A missing value is shown as null. -/
theorem orNull_eq (value : Option Json) : orNull value = (value.getD .null, value.isSome) := by
  cases value <;> rfl

section Values

variable {view : View} {governing : List BranchId} {step : Plan.Step}

/-- A step runs at an element when its sources are admissible there, or it is kept in any case. -/
theorem View.values?_eq_some_iff {cursor : Cursor} {keepEmpty : Bool} {values : Values} :
    view.values? governing cursor step keepEmpty = some values ↔
      (keepEmpty ∨ step.Admissible (fun s => (view.resolve governing cursor s).2)) ∧
        values = step.bindings.map fun entry =>
          (entry.1, view.bindingValue governing cursor entry.2) := by
  have hfound : view.foundSources governing cursor step = step.sources.filterMap fun s =>
      s.depth?.map fun depth => (depth, (view.resolve governing cursor s).2) := rfl
  rw [values?, hfound, ← isAdmissible_iff step fun s => (view.resolve governing cursor s).2,
    ← Bool.or_eq_true]
  split
  · rename_i hruns
    rw [Option.some.injEq, eq_comm]
    exact (and_iff_right hruns).symm
  · rename_i hruns
    exact ⟨fun h => (by cases h), fun h => absurd h.1 hruns⟩

/-- A step that runs once per element runs at the admitted indices with admissible sources. -/
theorem View.mem_elementwise_iff {index : Index} {values : Values} :
    (index, values) ∈ view.elementwise governing step ↔
      index ∈ view.shape.indices step.alignment.lineage ∧
        view.branches.admits governing index ∧
        step.Admissible (fun s => (view.at? index s).isSome) ∧
        values = step.valuesFrom fun s => (view.at? index s).getD .null := by
  have hresolve : ∀ s, view.resolve governing (.element index) s =
      ((view.at? index s).getD .null, (view.at? index s).isSome) := fun s => by
    rw [resolve, orNull_eq]
  have hbound : (step.bindings.map fun entry =>
        (entry.1, view.bindingValue governing (.element index) entry.2)) =
      step.valuesFrom fun s => (view.at? index s).getD .null := by
    refine List.map_congr_left fun entry _ => ?_
    cases entry.2 <;> simp only [bindingValue, Plan.Binding.valueFrom, hresolve]
  -- an element is kept when no source it needs is missing; the flag for empty values is off here
  have hvalues : view.values? governing (.element index) step false = some values ↔
      step.Admissible (fun s => (view.at? index s).isSome) ∧
        values = step.valuesFrom fun s => (view.at? index s).getD .null := by
    rw [values?_eq_some_iff, hbound]
    simp only [hresolve, Bool.false_eq_true, false_or]
  rw [elementwise, List.mem_filterMap, ← hvalues]
  constructor
  · rintro ⟨index', hmem, he⟩
    obtain ⟨values', hvalues', he⟩ := Option.map_eq_some_iff.1 he
    cases he
    obtain ⟨hindex, hadmits⟩ := List.mem_filter.1 hmem
    exact ⟨hindex, hadmits, hvalues'⟩
  · rintro ⟨hindex, hadmits, hvalues'⟩
    exact ⟨index, List.mem_filter.2 ⟨hindex, hadmits⟩, by rw [hvalues']; rfl⟩

end Values

/-- What the inputs and the steps that are done have left for a source at an index. -/
def Journal.value? (j : Journal) (inputs : InputStore) (index : Index) : Plan.Source → Option Json
  | .literal value => some value
  | .input name depth => inputs.get? (name, index.take depth)
  | .step name property depth =>
    (j.output? name (index.take depth)).map (selectOutput · property)

/-- A step is under way at an index, with some values of its properties. -/
def RunState.RunsAt (s : RunState) (step : Plan.Step) (index : Index) (values : Values) : Prop :=
  ∃ task ∈ s.inFlight, task.step = step ∧ (index, values) ∈ task.elements

variable {context : RunContext} {shape : BatchStructure} {j : Journal} {s : RunState}
  {step : Plan.Step}

/-- A ready step sees of its sources what the inputs and the steps that are done have left. -/
theorem Reaches.at?_eq (hplan : context.engine.plan.Coherent) (h : Reaches context shape j s)
    (hready : step ∈ s.ready) {source : Plan.Source} (hsource : source ∈ step.sources)
    (index : Index) : (s.view context).at? index source = j.value? context.inputs index source := by
  cases source with
  | literal value => rfl
  | input name depth => rfl
  | step name property depth =>
    obtain ⟨earlier, later, hsplit⟩ := List.append_of_mem (h.tracks.mem_steps_of_ready hready)
    -- the step depends on its source, which therefore is done and was not refused
    have hdone : name ∈ j.names := h.tracks.ready step hready name
      ((hplan.step hsplit).mem_dependsOn.2 (Or.inl ⟨_, _, hsource⟩))
    exact congrArg (Option.map _) (h.get?_results_of_done hplan hdone _)

/-- A step that is taken runs at its elements. -/
theorem Reaches.runsAt_iff (hplan : context.engine.plan.Coherent) (h : Reaches context shape j s)
    (hready : step ∈ s.ready) {index : Index} {values : Values} :
    (RunState.take context { s with ready := s.ready.erase step } step).RunsAt step index values ↔
      (index, values) ∈ s.elements context step := by
  have hother : ∀ task ∈ s.inFlight, task.step ≠ step := fun task htask =>
    h.tracks.not_inFlight_of_ready hplan.steps_nodup hready htask
  rcases RunState.take_cases context { s with ready := s.ready.erase step } step with
    ⟨hnil, -, events, branches, -, he⟩ | ⟨-, -, events, ids, he⟩
  -- the step was passed over: nothing is under way that was not before
  · rw [he, show s.elements context step = [] from hnil]
    constructor
    · rintro ⟨task, htask, hstep, -⟩
      exact absurd hstep (hother task htask)
    · intro hmem
      cases hmem
  · rw [he]
    constructor
    · rintro ⟨task, htask, hstep, hmem⟩
      rcases List.mem_append.1 htask with htask | htask
      · exact absurd hstep (hother task htask)
      · cases List.mem_singleton.1 htask
        exact hmem
    · intro hmem
      exact ⟨_, List.mem_append_right _ (List.mem_singleton.2 rfl), rfl, hmem⟩

/-- When a step is ready, all steps that decide about it are done. -/
theorem Reaches.exists_governor (hplan : context.engine.plan.Coherent)
    (h : Reaches context shape j s) (hready : step ∈ s.ready) {g : Plan.Step}
    (hg : g ∈ context.engine.plan.steps) (htarget : step.name ∈ g.targets) :
    ∃ e ∈ j, e.step = g := by
  obtain ⟨earlier, later, hsplit⟩ := List.append_of_mem (h.tracks.mem_steps_of_ready hready)
  have hdepends : g.name ∈ step.dependsOn :=
    (hplan.step hsplit).mem_dependsOn.2 (Or.inr ⟨g, hg, rfl, htarget⟩)
  exact h.tracks.exists_entry hplan.steps_nodup hg (h.tracks.ready step hready _ hdepends)

/-- The steps that decide about a step have selected it at an index, or above it. -/
def Journal.Selected (j : Journal) (plan : Plan) (step : Plan.Step) (index : Index) : Prop :=
  ∀ g ∈ plan.steps, g.manifest.flowControl = true → step.name ∈ g.targets →
    ∃ e ∈ j, e.step = g ∧ e.Selects step.name (index.take g.alignment.input)

instance (e : Entry) (target : String) (index : Index) : Decidable (e.Selects target index) :=
  decidable_of_iff _ Entry.mem_selected_iff

instance (j : Journal) (plan : Plan) (step : Plan.Step) (index : Index) :
    Decidable (j.Selected plan step index) :=
  inferInstanceAs (Decidable (∀ g ∈ plan.steps, g.manifest.flowControl = true →
    step.name ∈ g.targets → ∃ e ∈ j, e.step = g ∧
      e.Selects step.name (index.take g.alignment.input)))

/-- An element is selected when every step that decides about it selects it. -/
theorem Reaches.selected_iff (hplan : context.engine.plan.Coherent) (h : Reaches context shape j s)
    (hready : step ∈ s.ready) {index : Index} :
    j.Selected context.engine.plan step index ↔
      ∀ e, j.Decides step.name e → e.Selects step.name (index.take e.step.alignment.input) := by
  constructor
  · rintro hselected e ⟨he, hflow, htarget⟩
    obtain ⟨e', he', hsame, hselects⟩ :=
      hselected e.step (h.tracks.mem_steps_of_entry he) hflow htarget
    have hnodup := h.tracks.journal_nodup hplan.steps_nodup
    have hentry : e' = e := List.inj_on_of_nodup_map hnodup he' he (congrArg Plan.Step.name hsame)
    rwa [hentry] at hselects
  · intro hdecided g hg hflow htarget
    obtain ⟨e, he, rfl⟩ := h.exists_governor hplan hready hg htarget
    exact ⟨e, he, rfl, hdecided e ⟨he, hflow, htarget⟩⟩

/-- Exactly where a step that does not fold runs when it is taken, in any state of any run of a
    compiled plan: at the indices of its lineage for which every step that decides about it selected
    it and at which its sources are admissible, with the values that were recorded for them. -/
theorem runsAt_take_iff {registry : Registry} {initParameters : Table String Json} {d : Definition}
    (hcompile : d.compile registry initParameters = .ok context.engine.plan)
    (h : Reaches context shape j s) (hready : step ∈ s.ready)
    (htransform : step.manifest.transform ≠ .decrement) (index : Index) (values : Values) :
    (RunState.take context { s with ready := s.ready.erase step } step).RunsAt step index values ↔
      index ∈ s.shape.indices step.alignment.lineage ∧
        j.Selected context.engine.plan step index ∧
        step.Admissible (fun source => (j.value? context.inputs index source).isSome) ∧
        values = step.valuesFrom fun source =>
          (j.value? context.inputs index source).getD .null := by
  have hplan := Definition.coherent_of_compile hcompile
  obtain ⟨earlier, later, hsplit⟩ := List.append_of_mem (h.tracks.mem_steps_of_ready hready)
  have hstep := hplan.step hsplit
  rw [h.runsAt_iff hplan hready, RunState.elements]
  split
  · rename_i hexhausted
    -- some step has selected this one nowhere
    obtain ⟨e, he, hnone⟩ := (h.exhausted_iff hplan hstep).1 hexhausted
    constructor
    · intro hmem
      cases hmem
    · rintro ⟨-, hselected, -⟩
      exact absurd ((h.selected_iff hplan hready).1 hselected e he) (hnone _)
  · have hsource : ∀ source ∈ step.sources, (s.view context).at? index source =
        j.value? context.inputs index source := fun _ hmem => h.at?_eq hplan hready hmem index
    have hadmissible : step.Admissible (fun source => ((s.view context).at? index source).isSome) ↔
        step.Admissible (fun source => (j.value? context.inputs index source).isSome) :=
      ⟨.congr fun source hmem => by rw [hsource source hmem],
        .congr fun source hmem => by rw [hsource source hmem]⟩
    have hvalues : (step.valuesFrom fun source => ((s.view context).at? index source).getD .null) =
        step.valuesFrom fun source => (j.value? context.inputs index source).getD .null :=
      Plan.Step.valuesFrom_congr fun source hmem => by rw [hsource source hmem]
    rw [View.invocation_eq_elementwise htransform, View.mem_elementwise_iff, hadmissible, hvalues]
    refine and_congr_right fun hindex => and_congr_left fun _ => ?_
    -- no index of the lineage lies above a step that decides
    have hlength : index.length = step.alignment.input := by
      rw [← hstep.suits.length]
      exact BatchStructure.length_of_mem_indices hindex
    rw [h.selected_iff hplan hready]
    refine (h.admits_iff hplan hstep).trans (forall₂_congr fun e he => or_iff_right ?_)
    have hle := h.input_le_of_decides hplan hstep he
    omega

/-! ### A run that is looked at on the way -/

/-- What happens next in a run: the ready step of a name is taken, or a task finishes. -/
inductive Move where
  | take (name : String)
  | finish (i : Nat)

/-- The journal and the state to which moves lead, if they can be made. -/
def replay (context : RunContext) (j : Journal) (s : RunState) :
    List Move → Option (Journal × RunState)
  | [] => some (j, s)
  | .take name :: rest =>
    match s.failure, s.ready.find? (·.name == name) with
    | none, some step => replay context (j ++ s.taken context step)
        (RunState.take context { s with ready := s.ready.erase step } step) rest
    | _, _ => none
  | .finish i :: rest =>
    match s.inFlight[i]? with
    | some task =>
      let s := { s with inFlight := s.inFlight.eraseIdx i }
      replay context (j ++ s.finished context task) (s.finish context task) rest
    | none => none

/-- Moves lead from one state of a run to another. -/
theorem Reaches.replay {moves : List Move} {j' : Journal} {s' : RunState}
    (h : Reaches context shape j s) (hmoves : replay context j s moves = some (j', s')) :
    Reaches context shape j' s' := by
  fun_induction BatchFlow.replay context j s moves with
  | case1 j s =>
    cases hmoves
    exact h
  | case2 j s name rest step hfound hfailure ih =>
    exact ih (h.take (List.mem_of_find?_eq_some hfound) hfailure) hmoves
  | case3 => cases hmoves
  | case4 j s i rest task htask s ih => exact ih (h.finish htask) hmoves
  | case5 => cases hmoves

namespace Sample

/-- A step that decides about two others, of which one waits for the other as well. -/
def routed : Definition where
  version := "1.0"
  inputs := [.batch "x" 1 []]
  steps := [
    ⟨"Choose", "choose", [("value", .string "$inputs.x"),
      ("next", .array [.string "$steps.one", .string "$steps.both"])]⟩,
    ⟨"PassOn", "one", [("value", .string "$inputs.x")]⟩,
    ⟨"Beside", "both", [("value", .string "$inputs.x"), ("other", .string "$steps.one.value")]⟩]
  outputs := [⟨"out", "$steps.both.other"⟩]

/-- The registry of the blocks. -/
def routedBlocks : Registry :=
  [("Choose", Catalog.scripted
      { blockType := "Choose", acceptsBatchInput := true, flowControl := true
        properties := [{ name := "value", kind := .data [] true },
          { name := "next", kind := .stepTargets }] } (.route "value")),
    ("PassOn", passOn),
    ("Beside", Catalog.scripted
      { blockType := "Beside", acceptsEmptyValues := true
        properties := [{ name := "value", kind := .data [] true },
          { name := "other", kind := .data [] true }]
        outputs := [⟨"other", []⟩] } .echo)]

/-- Both steps are selected for the first element, one of them for the second, and none for the
    third. -/
def routedInput : Table String Json :=
  [("x", .array [.array [.string "one", .string "both"], .string "both", .null])]

/-- The steps before the last one are taken and finish. -/
def routedMoves : List Move := [.take "choose", .finish 0, .take "one", .finish 0]

end Sample

/-- A step is taken in the midst of a run, after the one that decides about it and the one from
    which it takes data. It runs at the first element with both values; at the second, where the
    other step did not run, with null in place of the missing one; and not at the third, which the
    deciding step left out. -/
theorem runsAt_take_routed : ∃ plan prepared j s step,
    Sample.routed.compile Sample.routedBlocks [] = .ok plan ∧
    prepare plan.inputs Sample.routedInput = .ok prepared ∧
    let context : RunContext := ⟨⟨plan, Sample.routedBlocks, {}⟩, prepared.store, fun _ => 0.5⟩
    let other : Plan.Source := .step "one" (some "value") 1
    Reaches context prepared.shape j s ∧ step ∈ s.ready ∧ step.manifest.transform ≠ .decrement ∧
    j.names = ["choose", "one"] ∧ s.shape.indices step.alignment.lineage = [[0], [1], [2]] ∧
    let after := RunState.take context { s with ready := s.ready.erase step } step
    let first := Json.array [.string "one", .string "both"]
    (j.value? prepared.store [0] other = some first ∧
      after.RunsAt step [0] [("value", first), ("other", first)]) ∧
    (j.value? prepared.store [1] other = none ∧
      after.RunsAt step [1] [("value", .string "both"), ("other", .null)]) ∧
    (∃ e ∈ j, e.step.name = "choose" ∧ e.Selects step.name [1] ∧ ¬ e.Selects step.name [2]) ∧
    ∀ values, ¬ after.RunsAt step [2] values := by
  have hfound : ((Sample.routed.compile Sample.routedBlocks []).toOption.bind fun plan =>
      (prepare plan.inputs Sample.routedInput).toOption.bind fun prepared =>
        let context : RunContext := ⟨⟨plan, Sample.routedBlocks, {}⟩, prepared.store, fun _ => 0.5⟩
        (replay context [] (.initial plan prepared.shape) Sample.routedMoves).bind fun (j, s) =>
        (s.ready.find? (·.name == "both")).bind fun step =>
          let present (index : Index) (source : Plan.Source) : Prop :=
            (j.value? prepared.store index source).isSome
          let values (index : Index) : Values := step.valuesFrom fun source =>
            (j.value? prepared.store index source).getD .null
          let other : Plan.Source := .step "one" (some "value") 1
          let first := Json.array [.string "one", .string "both"]
          if step.manifest.transform ≠ .decrement ∧ j.names = ["choose", "one"] ∧
            s.shape.indices step.alignment.lineage = [[0], [1], [2]] ∧
            (j.Selected plan step [0] ∧ step.Admissible (present [0]) ∧
              values [0] = [("value", first), ("other", first)] ∧
              j.value? prepared.store [0] other = some first) ∧
            (j.Selected plan step [1] ∧ step.Admissible (present [1]) ∧
              values [1] = [("value", .string "both"), ("other", .null)] ∧
              j.value? prepared.store [1] other = none) ∧
            ¬ j.Selected plan step [2] ∧
            ∃ e ∈ j, e.step.name = "choose" ∧ e.Selects step.name [1] ∧ ¬ e.Selects step.name [2]
          then some () else none).isSome := by
    decide +kernel
  obtain ⟨_, hfound⟩ := Option.isSome_iff_exists.1 hfound
  obtain ⟨plan, hcompile, hfound⟩ := Option.bind_eq_some_iff.1 hfound
  obtain ⟨prepared, hprepare, hfound⟩ := Option.bind_eq_some_iff.1 hfound
  obtain ⟨⟨j, s⟩, hmoves, hfound⟩ := Option.bind_eq_some_iff.1 hfound
  obtain ⟨step, hstep, hfound⟩ := Option.bind_eq_some_iff.1 hfound
  obtain ⟨⟨htransform, hnames, hindices, ⟨hselected, hadmissible, hvalues, hother⟩,
    ⟨hselected', hadmissible', hvalues', hother'⟩, hleft, hgovernor⟩, -⟩ :=
    Option.ite_none_right_eq_some.1 hfound
  let context : RunContext := ⟨⟨plan, Sample.routedBlocks, {}⟩, prepared.store, fun _ => 0.5⟩
  have hcompile : Sample.routed.compile Sample.routedBlocks [] = .ok context.engine.plan :=
    toOption_eq_some.1 hcompile
  have hreaches : Reaches context prepared.shape j s := Reaches.initial.replay hmoves
  have hready := List.mem_of_find?_eq_some hstep
  have hiff := runsAt_take_iff hcompile hreaches hready htransform
  refine ⟨plan, prepared, j, s, step, hcompile, toOption_eq_some.1 hprepare, hreaches, hready,
    htransform, hnames, hindices, ⟨hother, (hiff _ _).2 ⟨?_, hselected, hadmissible, hvalues.symm⟩⟩,
    ⟨hother', (hiff _ _).2 ⟨?_, hselected', hadmissible', hvalues'.symm⟩⟩, hgovernor,
    fun values hruns => hleft ((hiff _ _).1 hruns).2.1⟩
  · rw [hindices]
    decide
  · rw [hindices]
    decide

end BatchFlow
