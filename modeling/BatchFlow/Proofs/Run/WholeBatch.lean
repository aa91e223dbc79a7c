import BatchFlow.Proofs.Run.Executions
import BatchFlow.Proofs.Run.Governors

namespace BatchFlow

/-!
# Decisions about the whole batch

A step that decides and does not take batches has no data below the empty index. It runs there or
not at all, so its branches are looked up at the empty index whatever the element is, and each of
them admits every element or none.

* `Plan.Step.Coherent.above_batches` — such a step lies above every batch.
* `Executes.indices_above_batches` — it is started at the empty index only.
* `RunState.elements_filter_ne` — a branch that admits every element restricts nothing.
* `whole_batch` — what such a step can do to a run.
-/

/-- A step that decides and does not take batches lies above every batch. -/
theorem Plan.Step.Coherent.above_batches {p : Plan} {earlier : List Plan.Step} {g : Plan.Step}
    (h : g.Coherent p earlier) (hflow : g.manifest.flowControl = true)
    (hsingle : g.manifest.acceptsBatchInput = false) :
    g.alignment.input = 0 ∧ g.elementLineage = [] := by
  have hinput : g.alignment.input = 0 := h.suits.decides hflow hsingle
  have hlineage : g.alignment.lineage = [] := by
    apply List.eq_nil_of_length_eq_zero
    rw [h.suits.length, hinput]
  refine ⟨hinput, ?_⟩
  rw [Plan.Step.elementLineage, hlineage]
  simp

/-- A branch above every batch admits an element when it has the empty index. -/
theorem Branch.admits_iff_of_depth_eq_zero {b : Branch} {mask : List Index} (hdepth : b.depth = 0)
    (hmask : b.mask = some mask) {index : Index} : b.admits index ↔ [] ∈ mask := by
  simp [Branch.admits, hmask, hdepth]

/-- A step that lies above every batch is started at the empty index only. -/
theorem Executes.indices_above_batches {context : RunContext} {shape : BatchStructure} {j : Journal}
    {started : List Task} {s : RunState} (h : Executes context shape j started s) {a : Task}
    (ha : a ∈ started) (hlineage : a.step.elementLineage = []) : a.indices = [[]] := by
  obtain ⟨s', hsublist⟩ := h.indices_sublist ha
  rw [hlineage] at hsublist
  -- the empty lineage has one index
  have hroot : s'.shape.indices [] = [[]] := rfl
  rw [hroot] at hsublist
  have hne : a.indices ≠ [] := by
    simpa [Task.indices] using (h.origin a ha).1
  rcases List.sublist_singleton.1 hsublist with hnil | hone
  · exact absurd hnil hne
  · exact hone

/-- A governor restricts nothing when its branch admits every element. -/
theorem RunState.elements_filter_ne (context : RunContext) (s : RunState) (step : Plan.Step)
    {name : String} (hall : ∀ id, s.branches.byEdge.get? (name, step.name) = some id →
      (s.branches.get id).isExhausted = false ∧ ∀ index, (s.branches.get id).admits index) :
    s.elements context step = s.elements context
      { step with governedBy := step.governedBy.filter (· ≠ name) } := by
  let other : Plan.Step := { step with governedBy := step.governedBy.filter (· ≠ name) }
  have hfewer : ∀ id ∈ s.governing other, id ∈ s.governing step := by
    intro id hid
    obtain ⟨g, hg, hedge⟩ := Branches.mem_governing.1 hid
    exact Branches.mem_governing.2 ⟨g, (List.mem_filter.1 hg).1, hedge⟩
  -- dropping the governor `name` drops at most its own branch, and that branch admits everything
  have hcases : ∀ id ∈ s.governing step, id ∈ s.governing other ∨
      s.branches.byEdge.get? (name, step.name) = some id := by
    intro id hid
    obtain ⟨g, hg, hedge⟩ := Branches.mem_governing.1 hid
    by_cases hname : g = name
    · exact Or.inr (hname ▸ hedge)
    · exact Or.inl (Branches.mem_governing.2
        ⟨g, List.mem_filter.2 ⟨hg, decide_eq_true hname⟩, hedge⟩)
  refine (RunState.elements_congr_governors context s step ?_ fun index => ?_).symm
  · rw [Bool.eq_iff_iff, List.any_eq_true, List.any_eq_true]
    constructor
    · rintro ⟨id, hid, hempty⟩
      exact ⟨id, hfewer id hid, hempty⟩
    · rintro ⟨id, hid, hempty⟩
      rcases hcases id hid with hother | hedge
      · exact ⟨id, hother, hempty⟩
      · rw [(hall id hedge).1] at hempty
        cases hempty
  · rw [Bool.eq_iff_iff, Branches.admits, Branches.admits, List.all_eq_true, List.all_eq_true]
    constructor
    · intro h id hid
      rcases hcases id hid with hother | hedge
      · exact h id hother
      · exact (hall id hedge).2 index
    · exact fun h id hid => h id (hfewer id hid)

section Reaches

variable {context : RunContext} {shape : BatchStructure} {j : Journal} {s : RunState}

/-- Each branch of a step that lies above every batch admits every element or none. -/
theorem Reaches.admits_above_batches (hplan : context.engine.plan.Coherent)
    (h : Reaches context shape j s) {g : Plan.Step} (hg : g ∈ context.engine.plan.steps)
    (hinput : g.alignment.input = 0) {target : String} {id : BranchId}
    (hid : s.branches.byEdge.get? (g.name, target) = some id) (index : Index) :
    (s.branches.get id).admits index ↔ ∃ e ∈ j, e.step = g ∧ e.Selects target [] := by
  obtain ⟨mask, hmask, hdepth, -, hdecided, -⟩ := h.exists_mask hplan hg hid
  rw [Branch.admits_iff_of_depth_eq_zero (hdepth.trans hinput) hmask, hdecided]

/-- What a step that lies above every batch does to a target: it runs where it would run without
    the decision, or nowhere. -/
theorem Reaches.elements_below_decision (hplan : context.engine.plan.Coherent)
    (h : Reaches context shape j s) {g : Plan.Step} (hg : g ∈ context.engine.plan.steps)
    (hflow : g.manifest.flowControl = true) (hsingle : g.manifest.acceptsBatchInput = false)
    {t : Plan.Step} (hready : t ∈ s.ready) (htarget : t.name ∈ g.targets) :
    ((∃ e ∈ j, e.step = g ∧ e.Selects t.name []) → s.elements context t = s.elements context
      { t with governedBy := t.governedBy.filter (· ≠ g.name) }) ∧
    ((¬ ∃ e ∈ j, e.step = g ∧ e.Selects t.name []) → s.elements context t = []) := by
  obtain ⟨before, after, hsplit⟩ := List.append_of_mem hg
  obtain ⟨hinput, -⟩ := (hplan.step hsplit).above_batches hflow hsingle
  have hadmits (id : BranchId) (hid : s.branches.byEdge.get? (g.name, t.name) = some id)
      (index : Index) := h.admits_above_batches hplan hg hinput hid index
  constructor
  · intro hselects
    refine RunState.elements_filter_ne context s t fun id hid => ⟨?_, fun index => ?_⟩
    · -- a mask with an index in it is not empty
      obtain ⟨mask, hmask, -, -, hdecided, -⟩ := h.exists_mask hplan hg hid
      rw [Branch.isExhausted, hmask]
      exact List.isEmpty_eq_false_iff_exists_mem.2 ⟨[], (hdecided []).2 hselects⟩
    · exact (hadmits id hid index).2 hselects
  · intro hnone
    obtain ⟨earlier, later, hsplit'⟩ := List.append_of_mem (h.tracks.mem_steps_of_ready hready)
    have hstep := hplan.step hsplit'
    have hmem : g.name ∈ t.governedBy := hstep.mem_governedBy.2 ⟨g, hg, rfl, htarget⟩
    -- the step has decided when its target is ready
    have hdone : g.name ∈ j.names := h.tracks.ready t hready g.name
      (hstep.mem_dependsOn.2 (Or.inr ⟨g, hg, rfl, htarget⟩))
    obtain ⟨e, he, rfl⟩ := h.tracks.exists_entry hplan.steps_nodup hg hdone
    obtain ⟨id, hid⟩ := h.exists_branchOf hplan ⟨he, hflow, htarget⟩
    have hgoverning : id ∈ s.governing t := Branches.mem_governing.2 ⟨_, hmem, hid.edge⟩
    refine List.eq_nil_iff_forall_not_mem.2 fun x hx => hnone ?_
    have hall := List.all_eq_true.1 (RunState.admits_of_mem_elements hx) id hgoverning
    exact (hadmits id hid.edge x.1).1 hall

end Reaches

/-- A step that decides and does not take batches decides for the whole batch, in every run of a
    compiled plan. It is started at most once, and at the empty index only. In every state of the
    run, each branch that it opened admits all indices or none, whatever their length. So each of
    its targets runs, when it is ready, where it would run without the decision or nowhere, by
    whether it was selected at the empty index. -/
theorem whole_batch {registry : Registry} {initParameters : Table String Json} {d : Definition}
    {context : RunContext} {shape : BatchStructure} {j : Journal} {started : List Task}
    {s : RunState} (hcompile : d.compile registry initParameters = .ok context.engine.plan)
    (h : Executes context shape j started s) {g : Plan.Step}
    (hg : g ∈ context.engine.plan.steps) (hflow : g.manifest.flowControl = true)
    (hsingle : g.manifest.acceptsBatchInput = false) :
    (started.filter fun a => a.step = g).length ≤ 1 ∧
    (∀ a ∈ started, a.step = g → a.indices = [[]]) ∧
    (∀ target id, s.branches.byEdge.get? (g.name, target) = some id →
      (∀ index, (s.branches.get id).admits index) ∨
        ∀ index, ¬ (s.branches.get id).admits index) ∧
    ∀ t ∈ s.ready, t.name ∈ g.targets →
      ((∃ e ∈ j, e.step = g ∧ e.Selects t.name []) → s.elements context t = s.elements context
        { t with governedBy := t.governedBy.filter (· ≠ g.name) }) ∧
      ((¬ ∃ e ∈ j, e.step = g ∧ e.Selects t.name []) → s.elements context t = []) := by
  have hplan := Definition.coherent_of_compile hcompile
  obtain ⟨before, after, hsplit⟩ := List.append_of_mem hg
  obtain ⟨hinput, hlineage⟩ := (hplan.step hsplit).above_batches hflow hsingle
  refine ⟨h.length_filter_step_le hplan g, ?_, ?_, ?_⟩
  · rintro a ha rfl
    exact h.indices_above_batches ha hlineage
  · intro target id hid
    have hadmits := h.reaches.admits_above_batches hplan hg hinput hid
    -- a decision above the batches is made once, at the empty index, so its branch is all or
    -- nothing
    by_cases hselects : ∃ e ∈ j, e.step = g ∧ e.Selects target []
    · exact Or.inl fun index => (hadmits index).2 hselects
    · exact Or.inr fun index hindex => hselects ((hadmits index).1 hindex)
  · intro t hready htarget
    exact h.reaches.elements_below_decision hplan hg hflow hsingle hready htarget

namespace Sample

/-- A step that decides from a parameter about two steps that show the elements of a batch. -/
def switched : Definition where
  version := "1.0"
  inputs := [.batch "x" 1 [], .parameter "choice" (some (.string "left")) []]
  steps := [
    ⟨"Switch", "switch", [("choice", .string "$inputs.choice"),
      ("next", .array [.string "$steps.left", .string "$steps.right"])]⟩,
    ⟨"Show", "left", [("value", .string "$inputs.x")]⟩,
    ⟨"Show", "right", [("value", .string "$inputs.x")]⟩]
  outputs := [⟨"out", "$steps.left.value"⟩]

/-- The registry of the blocks. -/
def switchedBlocks : Registry :=
  [("Switch", Catalog.scripted
      { blockType := "Switch", flowControl := true
        properties := [{ name := "choice", kind := .data [] false },
          { name := "next", kind := .stepTargets }] } (.route "choice")),
    ("Show", Catalog.scripted
      { blockType := "Show", properties := [{ name := "value", kind := .data [] true }]
        outputs := [⟨"value", []⟩] } .echo)]

/-- A batch of two values, and the default of the parameter. -/
def switchedInputs : Prepared :=
  (prepare [⟨"x", 1, .ofInput 1, none⟩, ⟨"choice", 0, [], some (.string "left")⟩]
    [("x", .array [.bool true, .bool false])]).toOption.getD ⟨{}, 0⟩

/-- What does not change during a run on these inputs. -/
def switchedContext (plan : Plan) : RunContext :=
  ⟨⟨plan, switchedBlocks, {}⟩, switchedInputs.store, fun _ => 0.5⟩

/-- The state in which the first step has decided. -/
def switchedState (plan : Plan) : RunState :=
  (plan.steps.take 1).foldl (RunState.perform (switchedContext plan))
    (.initial plan switchedInputs.shape)

end Sample

/-- Of two targets one was selected for the whole batch and runs at both elements, and the other
    one runs nowhere. -/
theorem whole_batch_switched : ∃ (plan : Plan) (j : Journal) (started : List Task)
    (g left right : Plan.Step),
    Sample.switched.compile Sample.switchedBlocks [] = .ok plan ∧
    Executes (Sample.switchedContext plan) Sample.switchedInputs.shape j started
      (Sample.switchedState plan) ∧
    let s := Sample.switchedState plan
    (∃ a ∈ started, a.step = g ∧ a.indices = [[]]) ∧ left ∈ s.ready ∧ right ∈ s.ready ∧
    (s.elements (Sample.switchedContext plan) left).map (·.1) = [[0], [1]] ∧
    s.elements (Sample.switchedContext plan) right = [] ∧
    ¬ ∃ e ∈ j, e.step = g ∧ e.Selects right.name [] := by
  have hfound : ((Sample.switched.compile Sample.switchedBlocks []).toOption.bind fun plan =>
      let s := Sample.switchedState plan
      (plan.step? "switch").bind fun g => (plan.step? "left").bind fun left =>
      (plan.step? "right").bind fun right =>
      (s.branches.byEdge.get? (g.name, left.name)).bind fun id =>
      (s.branches.byEdge.get? (g.name, right.name)).bind fun id' =>
        if g.manifest.flowControl = true ∧ g.manifest.acceptsBatchInput = false ∧
          (s.branches.get id).mask = some [[]] ∧ (s.branches.get id').mask = some [] ∧
          left ∈ s.ready ∧ right ∈ s.ready ∧ right.name ∈ g.targets ∧
          (s.elements (Sample.switchedContext plan) left).map (·.1) = [[0], [1]]
        then some () else none).isSome := by
    decide +kernel
  obtain ⟨_, hfound⟩ := Option.isSome_iff_exists.1 hfound
  obtain ⟨plan, hcompile, hfound⟩ := Option.bind_eq_some_iff.1 hfound
  obtain ⟨g, hg, hfound⟩ := Option.bind_eq_some_iff.1 hfound
  obtain ⟨left, -, hfound⟩ := Option.bind_eq_some_iff.1 hfound
  obtain ⟨right, -, hfound⟩ := Option.bind_eq_some_iff.1 hfound
  obtain ⟨id, hid, hfound⟩ := Option.bind_eq_some_iff.1 hfound
  obtain ⟨id', hid', hfound⟩ := Option.bind_eq_some_iff.1 hfound
  obtain ⟨⟨hflow, hsingle, hmask, hmask', hleft, hright, htarget, helements⟩, -⟩ :=
    Option.ite_none_right_eq_some.1 hfound
  have hg := List.mem_of_find?_eq_some hg
  have hcompile : Sample.switched.compile Sample.switchedBlocks [] =
      .ok (Sample.switchedContext plan).engine.plan := toOption_eq_some.1 hcompile
  have hplan := Definition.coherent_of_compile hcompile
  obtain ⟨j, hreaches, -⟩ := exists_reaches_inOrder hplan
    Sample.switchedInputs.shape (List.take_append_drop 1 plan.steps).symm
  have hreaches : Reaches (Sample.switchedContext plan) Sample.switchedInputs.shape j
      (Sample.switchedState plan) := hreaches
  obtain ⟨started, hexecutes⟩ := hreaches.exists_executes
  obtain ⟨-, hindices, -, htargets⟩ := whole_batch hcompile hexecutes hg hflow hsingle
  -- the masks say what was selected
  obtain ⟨mask, he, -, -, hdecided, -⟩ := hreaches.exists_mask hplan hg hid
  obtain ⟨mask', he', -, -, hdecided', -⟩ := hreaches.exists_mask hplan hg hid'
  cases hmask.symm.trans he
  cases hmask'.symm.trans he'
  obtain ⟨e, he, hstep, next, houtput, -⟩ := (hdecided []).1 List.mem_cons_self
  have hnone : ¬ ∃ e ∈ j, e.step = g ∧ e.Selects right.name [] := fun hselects =>
    List.not_mem_nil ((hdecided' []).2 hselects)
  obtain ⟨a, ha, hastep, -⟩ := hexecutes.exists_of_output e he _ houtput
  exact ⟨plan, j, started, g, left, right, hcompile, hexecutes,
    ⟨a, ha, hastep.trans hstep, hindices a ha (hastep.trans hstep)⟩, hleft, hright, helements,
    (htargets right hright htarget).2 hnone, hnone⟩

end BatchFlow
