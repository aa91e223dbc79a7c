import BatchFlow.Proofs.Workflow.Resolution

namespace BatchFlow

/-!
# Edges between steps

* `Workflow.Step.HasSource`, `Workflow.Step.Takes` — the selectors at which a step looks for its
  data, and the steps from which it takes data.
* `Definition.Resolves.edge_iff` — an edge leads from one step to another exactly when the second
  takes data from the first, or the first decides about the second.
* `Definition.Resolves.target_declared` — steps decide about steps of the workflow only.
-/

/-- A graph has the nodes as given, and each edge once. -/
theorem Graph.ofEdges_eq_ok {nodes : List Node} {edges : List Edge} {g : Graph}
    (h : Graph.ofEdges nodes edges = .ok g) : g.nodes = nodes ∧ g.edges = distinct edges := by
  unfold Graph.ofEdges at h
  split at h
  · cases h
  · split at h
    · cases h
    · cases h
      exact ⟨rfl, rfl⟩

/-- There is a graph of distinct nodes and of edges between them. -/
theorem Graph.exists_ofEdges {nodes : List Node} {edges : List Edge} (hnodes : nodes.Nodup)
    (hends : ∀ e ∈ edges, e.source ∈ nodes ∧ e.target ∈ nodes) :
    ∃ g, Graph.ofEdges nodes edges = .ok g := by
  have hrepeat := (firstRepeat?_eq_none_iff nodes).2 hnodes
  have hmissing : edges.findSome? (missingEnd? nodes) = none := by
    refine List.findSome?_eq_none_iff.2 fun e he => ?_
    obtain ⟨hsource, htarget⟩ := hends e he
    simp [missingEnd?, hsource, htarget]
  unfold Graph.ofEdges
  split
  · rename_i hsome
    cases hrepeat.symm.trans hsome
  · split
    · rename_i hsome
      cases hmissing.symm.trans hsome
    · exact ⟨_, rfl⟩

namespace Workflow

/-- Whether a step looks for data where a selector points. -/
def Step.HasSource (step : Step) (s : Selector) : Prop :=
  ∃ property a, (property, a) ∈ step.arguments ∧ a.isTargets = false ∧ s ∈ a.selectors

/-- Whether a step takes data from the step of some name. -/
def Step.Takes (step : Step) (name : String) : Prop :=
  ∃ s, step.HasSource s ∧ s.stepName? = some name

/-- The targets of a step are those of its properties. -/
theorem Step.mem_targets_iff {step : Step} {name : String} :
    name ∈ step.targets ↔
      ∃ property steps, (property, .targets steps) ∈ step.arguments ∧ name ∈ steps := by
  rw [Step.targets, mem_distinct, List.mem_flatMap]
  constructor
  · rintro ⟨a, ha, hname⟩
    obtain ⟨⟨property, a⟩, hmem, rfl⟩ := List.mem_map.1 ha
    cases a with
    | term t => cases hname
    | targets steps => exact ⟨property, steps, hmem, hname⟩
    | map entries => cases hname
  · rintro ⟨property, steps, hmem, hname⟩
    exact ⟨.targets steps, List.mem_map.2 ⟨_, hmem, rfl⟩, hname⟩

/-- The edges of an argument of data lead into the step that has it. -/
theorem mem_argumentEdges_of_data {owner : String} {a : Argument} (ha : a.isTargets = false)
    {e : Edge} : e ∈ argumentEdges owner a ↔
      ∃ s ∈ a.selectors, e = ⟨s.node, .step owner, .data⟩ := by
  rw [argumentEdges, ha, if_neg Bool.false_ne_true, List.mem_map]
  simp only [eq_comm]

/-- The edges of an argument of targets lead to the targets. -/
theorem mem_argumentEdges_targets {owner : String} {steps : List String} {e : Edge} :
    e ∈ argumentEdges owner (.targets steps) ↔
      ∃ target ∈ steps, e = ⟨.step owner, .step target, .control⟩ := by
  show e ∈ ((Argument.targets steps).selectors.map fun s => ⟨.step owner, s.node, .control⟩) ↔ _
  rw [Argument.selectors, List.map_map, List.mem_map]
  constructor
  · rintro ⟨target, hmem, rfl⟩; exact ⟨target, hmem, rfl⟩
  · rintro ⟨target, hmem, rfl⟩; exact ⟨target, hmem, rfl⟩

/-- An argument of targets lists them. -/
theorem isTargets_eq_true {a : Argument} (h : a.isTargets = true) :
    ∃ steps, a = .targets steps := by
  cases a with
  | term t => cases h
  | targets steps => exact ⟨steps, rfl⟩
  | map entries => cases h

/-- The edges of a step are those of its arguments. -/
theorem mem_stepEdges_iff {step : Step} {e : Edge} :
    e ∈ stepEdges step ↔ ∃ property a, (property, a) ∈ step.arguments ∧
      e ∈ argumentEdges step.name a := by
  rw [stepEdges, List.mem_flatMap]
  constructor
  · rintro ⟨a, ha, he⟩
    obtain ⟨⟨property, a⟩, hmem, rfl⟩ := List.mem_map.1 ha
    exact ⟨property, a, hmem, he⟩
  · rintro ⟨property, a, hmem, he⟩
    exact ⟨a, List.mem_map.2 ⟨_, hmem, rfl⟩, he⟩

/-- The edges of a step lead from its data into it, and from it to its targets. -/
theorem Step.mem_edges_iff {step : Step} {e : Edge} :
    e ∈ stepEdges step ↔ (∃ s, step.HasSource s ∧ e = ⟨s.node, .step step.name, .data⟩) ∨
      ∃ target ∈ step.targets, e = ⟨.step step.name, .step target, .control⟩ := by
  rw [mem_stepEdges_iff]
  constructor
  · rintro ⟨property, a, hmem, he⟩
    cases hkind : a.isTargets with
    | true =>
      obtain ⟨steps, rfl⟩ := isTargets_eq_true hkind
      obtain ⟨target, ht, rfl⟩ := mem_argumentEdges_targets.1 he
      exact Or.inr ⟨target, mem_targets_iff.2 ⟨property, steps, hmem, ht⟩, rfl⟩
    | false =>
      obtain ⟨s, hs, rfl⟩ := (mem_argumentEdges_of_data hkind).1 he
      exact Or.inl ⟨s, ⟨property, a, hmem, hkind, hs⟩, rfl⟩
  · rintro (⟨s, ⟨property, a, hmem, hkind, hs⟩, rfl⟩ | ⟨target, ht, rfl⟩)
    · exact ⟨property, a, hmem, (mem_argumentEdges_of_data hkind).2 ⟨s, hs, rfl⟩⟩
    · obtain ⟨property, steps, hmem, hmem'⟩ := mem_targets_iff.1 ht
      exact ⟨property, .targets steps, hmem, mem_argumentEdges_targets.2 ⟨target, hmem', rfl⟩⟩

end Workflow

namespace Definition.Resolves

open Workflow

variable {registry : Registry} {d : Definition} {w : Workflow}

/-- The nodes are the inputs, the steps and the outputs, in this order. -/
theorem graph_nodes (h : d.Resolves registry w) :
    w.graph.nodes = w.inputs.map (fun i => .input i.name) ++ w.steps.map (fun s => .step s.name) ++
      w.outputs.map (fun o => .output o.name) :=
  (Graph.ofEdges_eq_ok h.graph_eq).1

/-- The edges are those of the steps and those into outputs. -/
theorem mem_graph_edges (h : d.Resolves registry w) {e : Edge} :
    e ∈ w.graph.edges ↔ (∃ step ∈ w.steps, e ∈ stepEdges step) ∨
      ∃ output ∈ w.outputs, e = outputEdge output := by
  rw [(Graph.ofEdges_eq_ok h.graph_eq).2, mem_distinct, List.mem_append, List.mem_flatMap,
    List.mem_map]
  simp only [eq_comm]

/-- An edge leads from one step to another exactly when the second takes data from the first, or
    the first decides about the second. -/
theorem edge_iff (h : d.Resolves registry w) {a b : String} :
    (∃ e ∈ w.graph.edges, e.source = .step a ∧ e.target = .step b) ↔
      (∃ step ∈ w.steps, step.name = b ∧ step.Takes a) ∨
        ∃ step ∈ w.steps, step.name = a ∧ b ∈ step.targets := by
  constructor
  · rintro ⟨e, he, hsource, htarget⟩
    rcases h.mem_graph_edges.1 he with ⟨step, hstep, he⟩ | ⟨output, -, rfl⟩
    · rcases Step.mem_edges_iff.1 he with ⟨s, hs, rfl⟩ | ⟨target, ht, rfl⟩
      · cases htarget
        exact Or.inl ⟨step, hstep, rfl, s, hs, Selector.node_eq_step_iff.1 hsource⟩
      · cases hsource
        cases htarget
        exact Or.inr ⟨step, hstep, rfl, ht⟩
    · cases htarget
  · rintro (⟨step, hstep, rfl, s, hs, hname⟩ | ⟨step, hstep, rfl, hb⟩)
    · refine ⟨⟨s.node, .step step.name, .data⟩, h.mem_graph_edges.2 (Or.inl ⟨step, hstep, ?_⟩),
        Selector.node_eq_step_iff.2 hname, rfl⟩
      exact Step.mem_edges_iff.2 (Or.inl ⟨s, hs, rfl⟩)
    · refine ⟨⟨.step step.name, .step b, .control⟩,
        h.mem_graph_edges.2 (Or.inl ⟨step, hstep, ?_⟩), rfl, rfl⟩
      exact Step.mem_edges_iff.2 (Or.inr ⟨b, hb, rfl⟩)

/-- A step is a node under its name. -/
theorem step_node_iff (h : d.Resolves registry w) {name : String} :
    Node.step name ∈ w.graph.nodes ↔ name ∈ w.steps.map (·.name) := by
  rw [h.graph_nodes]
  simp

/-- A step takes data from something with a name. -/
theorem isName_of_takes (h : d.Resolves registry w) {step : Workflow.Step} (hstep : step ∈ w.steps)
    {name : String} (htakes : step.Takes name) : isName name := by
  obtain ⟨s, ⟨property, argument, hargument, -, hs⟩, hname⟩ := htakes
  obtain ⟨raw, hraw⟩ := h.selector_read hstep hargument hs
  exact Selector.isName_of_parse hraw (Selector.mem_names_of_stepName? hname)

/-- Steps decide about steps of the workflow only. -/
theorem target_declared (h : d.Resolves registry w) {step : Workflow.Step} (hstep : step ∈ w.steps)
    {target : String} (ht : target ∈ step.targets) : target ∈ w.steps.map (·.name) := by
  obtain ⟨e, he, -, htarget⟩ := h.edge_iff.2 (Or.inr ⟨step, hstep, rfl, ht⟩)
  exact h.step_node_iff.1 (htarget ▸ w.graph.target_mem e he)

end Definition.Resolves

end BatchFlow
