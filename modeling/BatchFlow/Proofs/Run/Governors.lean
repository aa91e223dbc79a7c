import BatchFlow.Proofs.Run.Exhaustion

namespace BatchFlow

/-!
# Steps that govern and do not decide

A step is governed by all steps that have it among their targets. Only those that decide open a
branch when they are done or passed over. When a step is ready there is one branch for each of them,
and these branches alone restrict it. A step that names targets and takes no decision governs in
name only.

* `Plan.Decides` — the names of the steps that decide.
* `RunState.BranchOf` — the branch through which one step restricts another.
* `Reaches.exists_branchOf` — a step that decides and is done has a branch for each of its targets.
* `governing_iff` — which governors of a ready step restrict it.
-/

/-- Whether a step of that name takes decisions. -/
def Plan.Decides (p : Plan) (name : String) : Prop :=
  ∃ step ∈ p.steps, step.name = name ∧ step.manifest.flowControl = true

instance (p : Plan) (name : String) : Decidable (p.Decides name) :=
  inferInstanceAs (Decidable (∃ step ∈ p.steps,
    step.name = name ∧ step.manifest.flowControl = true))

/-- The branch through which a step that is done restricts another: its mask holds the indices at
    which the step decided for the other. -/
structure RunState.BranchOf (s : RunState) (j : Journal) (step : Plan.Step) (governor : String)
    (id : BranchId) : Prop where
  edge : s.branches.byEdge.get? (governor, step.name) = some id
  opened : id < s.branches.list.length
  decided : ∃ e mask, j.Decides step.name e ∧ e.step.name = governor ∧
    (s.branches.get id).depth = e.step.alignment.input ∧ (s.branches.get id).mask = some mask ∧
    ∀ index, index ∈ mask ↔ e.Selects step.name index

/-- Those of some elements that have a partner are related one by one to their partners. -/
theorem forall₂_filterMap_of_filter {α β : Type} {R : α → β → Prop} {p : α → Bool}
    {f : α → Option β} {l : List α} (hsome : ∀ a ∈ l, p a = true → ∃ b, f a = some b ∧ R a b)
    (hnone : ∀ a ∈ l, p a = false → f a = none) :
    List.Forall₂ R (l.filter p) (l.filterMap f) := by
  induction l with
  | nil => exact .nil
  | cons a rest ih =>
    obtain ⟨hsome, hsome'⟩ := List.forall_mem_cons.1 hsome
    obtain ⟨hnone, hnone'⟩ := List.forall_mem_cons.1 hnone
    have ih := ih hsome' hnone'
    cases hp : p a with
    | true =>
      obtain ⟨b, hb, hrelated⟩ := hsome hp
      rw [List.filter_cons_of_pos hp, List.filterMap_cons_some hb]
      exact .cons hrelated ih
    | false =>
      rw [List.filter_cons_of_neg (by simp [hp]), List.filterMap_cons_none (hnone hp)]
      exact ih

/-- A step runs only at elements that belong to its branches. -/
theorem RunState.admits_of_mem_elements {context : RunContext} {s : RunState} {step : Plan.Step}
    {x : Index × Values} (hx : x ∈ s.elements context step) :
    s.branches.admits (s.governing step) x.1 := by
  rw [elements] at hx
  split at hx
  · cases hx
  · by_cases ht : step.manifest.transform = .decrement
    · rw [View.invocation_eq_collapsing ht] at hx
      exact (View.mem_collapsing_iff.1 ⟨x.2, hx⟩).2.1
    · rw [View.invocation_eq_elementwise ht] at hx
      exact (View.mem_elementwise_iff.1 hx).2.1

section Reaches

variable {context : RunContext} {shape : BatchStructure} {j : Journal} {s : RunState}

/-- A step that decides and is done has a branch for each of its targets. -/
theorem Reaches.exists_branchOf (hplan : context.engine.plan.Coherent)
    (h : Reaches context shape j s) {step : Plan.Step} {e : Entry}
    (he : j.Decides step.name e) : ∃ id, s.BranchOf j step e.step.name id := by
  have hnodup := h.tracks.journal_nodup hplan.steps_nodup
  have hshows := h.shows hplan
  have hgate := (hshows.gate?_eq_some hnodup).2 ⟨e, he, rfl, rfl, rfl⟩
  obtain ⟨id, hid, hbranch⟩ := Option.map_eq_some_iff.1 hgate
  obtain ⟨hdepth, hmask⟩ := Prod.mk.inj hbranch
  exact ⟨id, hid, hshows.valid _ _ hid, e, _, he, rfl, hdepth, hmask,
    fun _ => Entry.mem_selected_iff⟩

/-- Only steps that decide have branches. -/
theorem Reaches.decides_of_branch (hplan : context.engine.plan.Coherent)
    (h : Reaches context shape j s) {edge : String × String} {id : BranchId}
    (hid : s.branches.byEdge.get? edge = some id) : context.engine.plan.Decides edge.1 := by
  have hgate : s.branches.gate? edge =
      some ((s.branches.get id).depth, (s.branches.get id).mask) := by
    rw [Branches.gate?, hid, Option.map_some]
  obtain ⟨e, ⟨he, hflow, -⟩, hname, -⟩ := ((h.shows hplan).gate?_eq_some
    (h.tracks.journal_nodup hplan.steps_nodup)).1 hgate
  exact ⟨e.step, h.tracks.mem_steps_of_entry he, hname, hflow⟩

/-- A governor that does not decide restricts nothing: a step runs where it would run without. -/
theorem Reaches.elements_filter_governedBy (hplan : context.engine.plan.Coherent)
    (h : Reaches context shape j s) (step : Plan.Step) :
    s.elements context step = s.elements context
      { step with governedBy := step.governedBy.filter (context.engine.plan.Decides ·) } := by
  let decides (name : String) : Bool := context.engine.plan.Decides name
  have hgoverning : s.governing step =
      s.governing { step with governedBy := step.governedBy.filter decides } := by
    show step.governedBy.filterMap _ = (step.governedBy.filter decides).filterMap _
    rw [List.filterMap_filter]
    refine List.filterMap_congr fun name _ => ?_
    by_cases hdecides : context.engine.plan.Decides name
    · rw [if_pos (decide_eq_true hdecides)]
    · rw [if_neg (by simpa [decides] using hdecides), Option.eq_none_iff_forall_ne_some]
      exact fun id hid => hdecides (h.decides_of_branch hplan hid)
  unfold RunState.elements
  rw [← hgoverning]
  rfl

/-- When a step is ready, those of its governors that decide have one branch each, in their order,
    and the others have none. -/
theorem Reaches.forall₂_governing (hplan : context.engine.plan.Coherent)
    (h : Reaches context shape j s) {step : Plan.Step} (hready : step ∈ s.ready) :
    List.Forall₂ (s.BranchOf j step) (step.governedBy.filter (context.engine.plan.Decides ·))
      (s.governing step) := by
  obtain ⟨earlier, later, hsplit⟩ := List.append_of_mem (h.tracks.mem_steps_of_ready hready)
  have hstep := hplan.step hsplit
  refine forall₂_filterMap_of_filter (fun name hname hdecides => ?_) fun name _ hdecides => ?_
  · -- a governor is done when the step is ready
    obtain ⟨g, hg, rfl, htarget⟩ := hstep.mem_governedBy.1 hname
    have hdone : g.name ∈ j.names := h.tracks.ready step hready g.name
      (hstep.mem_dependsOn.2 (Or.inr ⟨g, hg, rfl, htarget⟩))
    obtain ⟨e, he, rfl⟩ := h.tracks.exists_entry hplan.steps_nodup hg hdone
    obtain ⟨g, hg', hsame, hflow⟩ := of_decide_eq_true hdecides
    obtain rfl : g = e.step := List.inj_on_of_nodup_map hplan.steps_nodup hg' hg hsame
    obtain ⟨id, hid⟩ := h.exists_branchOf hplan ⟨he, hflow, htarget⟩
    exact ⟨id, hid.edge, hid⟩
  · refine Option.eq_none_iff_forall_ne_some.2 fun id hid => ?_
    exact of_decide_eq_false hdecides (h.decides_of_branch hplan hid)

/-- An element belongs to the branches of a ready step when every step that decides about it has
    done so for an element at or above this one, unless it decides below. -/
theorem Reaches.admits_ready_iff (hplan : context.engine.plan.Coherent)
    (h : Reaches context shape j s) {step : Plan.Step} (hready : step ∈ s.ready) {index : Index} :
    s.branches.admits (s.governing step) index ↔
      ∀ g ∈ context.engine.plan.steps, step.name ∈ g.targets → g.manifest.flowControl = true →
        index.length < g.alignment.input ∨
          ∃ e ∈ j, e.step = g ∧ e.Selects step.name (index.take g.alignment.input) := by
  obtain ⟨earlier, later, hsplit⟩ := List.append_of_mem (h.tracks.mem_steps_of_ready hready)
  have hstep := hplan.step hsplit
  rw [h.admits_iff hplan hstep]
  constructor
  · intro hall g hg htarget hflow
    have hdone : g.name ∈ j.names := h.tracks.ready step hready g.name
      (hstep.mem_dependsOn.2 (Or.inr ⟨g, hg, rfl, htarget⟩))
    obtain ⟨e, he, rfl⟩ := h.tracks.exists_entry hplan.steps_nodup hg hdone
    exact (hall e ⟨he, hflow, htarget⟩).imp_right fun hselects => ⟨e, he, rfl, hselects⟩
  · rintro hall e ⟨he, hflow, htarget⟩
    refine (hall e.step (h.tracks.mem_steps_of_entry he) htarget hflow).imp_right ?_
    rintro ⟨e', he', hsame, hselects⟩
    -- a step is recorded once
    cases List.inj_on_of_nodup_map (h.tracks.journal_nodup hplan.steps_nodup) he' he
      (congrArg Plan.Step.name hsame)
    exact hselects

end Reaches

/-- Which governors of a ready step restrict it, in every run of a compiled plan. Those that decide
    have exactly one branch each, with the elements for which they decided as its mask, so there is
    one branch for every governor exactly when all of them decide. The step runs at elements only
    that every governor that decides admits, and it runs where it would run if it had no other
    governors. -/
theorem governing_iff {registry : Registry} {initParameters : Table String Json} {d : Definition}
    {context : RunContext} {shape : BatchStructure} {j : Journal} {s : RunState}
    (hcompile : d.compile registry initParameters = .ok context.engine.plan)
    (h : Reaches context shape j s) {t : Plan.Step} (hready : t ∈ s.ready) :
    let plan := context.engine.plan
    List.Forall₂ (s.BranchOf j t) (t.governedBy.filter (plan.Decides ·)) (s.governing t) ∧
    (List.Forall₂ (s.BranchOf j t) t.governedBy (s.governing t) ↔
      ∀ g ∈ plan.steps, t.name ∈ g.targets → g.manifest.flowControl = true) ∧
    (∀ x ∈ s.elements context t, ∀ g ∈ plan.steps, t.name ∈ g.targets →
      g.manifest.flowControl = true → x.1.length < g.alignment.input ∨
        ∃ e ∈ j, e.step = g ∧ e.Selects t.name (x.1.take g.alignment.input)) ∧
    s.elements context t =
      s.elements context { t with governedBy := t.governedBy.filter (plan.Decides ·) } := by
  intro plan
  have hplan := Definition.coherent_of_compile hcompile
  have hbranches := h.forall₂_governing hplan hready
  obtain ⟨earlier, later, hsplit⟩ := List.append_of_mem (h.tracks.mem_steps_of_ready hready)
  have hstep := hplan.step hsplit
  have hall : t.governedBy.filter (plan.Decides ·) = t.governedBy ↔
      ∀ g ∈ plan.steps, t.name ∈ g.targets → g.manifest.flowControl = true := by
    rw [List.filter_eq_self]
    constructor
    · intro hdecides g hg htarget
      obtain ⟨g', hg', hsame, hflow⟩ :=
        of_decide_eq_true (hdecides g.name (hstep.mem_governedBy.2 ⟨g, hg, rfl, htarget⟩))
      exact List.inj_on_of_nodup_map hplan.steps_nodup hg' hg hsame ▸ hflow
    · intro hflow name hname
      obtain ⟨g, hg, rfl, htarget⟩ := hstep.mem_governedBy.1 hname
      exact decide_eq_true ⟨g, hg, rfl, hflow g hg htarget⟩
  refine ⟨hbranches, ?_, ?_, ?_⟩
  · rw [← hall]
    constructor
    · intro hevery
      -- both lists are as long as that of the branches
      refine List.filter_sublist.eq_of_length ?_
      rw [hbranches.length_eq, hevery.length_eq]
    · intro hsame
      rwa [hsame] at hbranches
  · intro x hx
    exact (h.admits_ready_iff hplan hready).1 (RunState.admits_of_mem_elements hx)
  · exact h.elements_filter_governedBy hplan t

namespace Sample

/-- A step that names another as its target and only passes its elements on. -/
def named : Definition where
  version := "1.0"
  inputs := [.batch "x" 1 []]
  steps := [
    ⟨"Name", "name", [("value", .string "$inputs.x"), ("next", .string "$steps.show")]⟩,
    ⟨"Show", "show", [("value", .string "$inputs.x")]⟩]
  outputs := [⟨"out", "$steps.show.value"⟩]

/-- The registry of the blocks. -/
def namedBlocks : Registry :=
  [("Name", Catalog.scripted
      { blockType := "Name"
        properties := [{ name := "value", kind := .data [] true },
          { name := "next", kind := .stepTargets }]
        outputs := [⟨"value", []⟩] } .echo),
    ("Show", Catalog.scripted
      { blockType := "Show", properties := [{ name := "value", kind := .data [] true }]
        outputs := [⟨"value", []⟩] } .echo)]

/-- A batch of two values. -/
def namedInputs : Prepared :=
  (prepare [⟨"x", 1, .ofInput 1, none⟩]
    [("x", .array [.bool true, .bool false])]).toOption.getD ⟨{}, 0⟩

/-- What does not change during a run on these inputs. -/
def namedContext (plan : Plan) : RunContext :=
  ⟨⟨plan, namedBlocks, {}⟩, namedInputs.store, fun _ => 0.5⟩

/-- The state in which the first step is done. -/
def namedState (plan : Plan) : RunState :=
  (plan.steps.take 1).foldl (RunState.perform (namedContext plan))
    (.initial plan namedInputs.shape)

end Sample

/-- A step with a governor that does not decide is ready, and no branch restricts it. -/
theorem governing_named : ∃ (plan : Plan) (j : Journal) (t : Plan.Step),
    Sample.named.compile Sample.namedBlocks [] = .ok plan ∧
    Reaches (Sample.namedContext plan) Sample.namedInputs.shape j (Sample.namedState plan) ∧
    let s := Sample.namedState plan
    t ∈ s.ready ∧ t.governedBy = ["name"] ∧ s.governing t = [] ∧
    (s.elements (Sample.namedContext plan) t).map (·.1) = [[0], [1]] ∧
    ¬ ∀ g ∈ plan.steps, t.name ∈ g.targets → g.manifest.flowControl = true := by
  have hfound : ((Sample.named.compile Sample.namedBlocks []).toOption.bind fun plan =>
      let s := Sample.namedState plan
      (plan.step? "show").bind fun t =>
        if t ∈ s.ready ∧ t.governedBy = ["name"] ∧ s.governing t = [] ∧
          (s.elements (Sample.namedContext plan) t).map (·.1) = [[0], [1]]
        then some () else none).isSome := by
    decide +kernel
  obtain ⟨_, hfound⟩ := Option.isSome_iff_exists.1 hfound
  obtain ⟨plan, hcompile, hfound⟩ := Option.bind_eq_some_iff.1 hfound
  obtain ⟨t, -, hfound⟩ := Option.bind_eq_some_iff.1 hfound
  obtain ⟨⟨hready, hgoverned, hnone, helements⟩, -⟩ := Option.ite_none_right_eq_some.1 hfound
  have hcompile : Sample.named.compile Sample.namedBlocks [] =
      .ok (Sample.namedContext plan).engine.plan := toOption_eq_some.1 hcompile
  obtain ⟨j, hreaches, -⟩ := exists_reaches_inOrder (Definition.coherent_of_compile hcompile)
    Sample.namedInputs.shape (List.take_append_drop 1 plan.steps).symm
  have hreaches : Reaches (Sample.namedContext plan) Sample.namedInputs.shape j
      (Sample.namedState plan) := hreaches
  refine ⟨plan, j, t, hcompile, hreaches, hready, hgoverned, hnone, helements, fun hflow => ?_⟩
  have hevery := (governing_iff hcompile hreaches hready).2.1.2 hflow
  rw [hgoverned, hnone] at hevery
  cases hevery

end BatchFlow
