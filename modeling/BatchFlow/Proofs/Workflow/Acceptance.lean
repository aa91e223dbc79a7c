import BatchFlow.Catalog.Scripted
import BatchFlow.Proofs.Graph.Cycle
import BatchFlow.Proofs.Workflow.Edges

namespace BatchFlow

/-!
# Which definitions are accepted

Resolution looks at a definition several times: names, values, references, kinds and cycles come one
after another, and each time the first fault ends it. What passes are the well-formed definitions.

* `Definition.Reads` — the steps and outputs that are read from a definition with distinct names.
* `Reads.producedKinds_eq_ok_iff`, `Reads.checkStep_eq_ok_iff` — what is looked up among them.
* `Reads.edge_iff` — the edges of the graph are the flow of the definition.
* `Definition.exists_resolve_iff_wellFormed` — a definition is accepted when it is well-formed.
-/

/-! ### Reading a definition -/

/-- The steps and outputs that are read from a definition with distinct names. -/
structure Definition.Reads (registry : Registry) (d : Definition) (steps : List Workflow.Step)
    (outputs : List Workflow.Output) : Prop where
  inputs_nodup : (d.inputs.map (·.name)).Nodup
  steps_nodup : (d.steps.map (·.name)).Nodup
  outputs_nodup : (d.outputs.map (·.name)).Nodup
  steps_eq : d.steps.mapM (resolveStep registry) = .ok steps
  outputs_eq : d.outputs.mapM resolveOutput = .ok outputs

/-- The declared inputs, steps and outputs. -/
def Definition.nodes (d : Definition) : List Node :=
  d.inputs.map (fun i => .input i.name) ++ d.steps.map (fun s => .step s.name) ++
    d.outputs.map (fun o => .output o.name)

/-- A version is supported when it starts with the part `1`. -/
theorem isSupported_iff {d : Definition} :
    d.isSupported = true ↔ (Text.pieces '.' d.version).head? = some "1" := by
  simp [Definition.isSupported, supportedVersion]

section

variable {registry : Registry} {d : Definition} {step : StepDef} {resolved : Workflow.Step}
  {spec : PropertySpec} {s : Selector}

/-- A step of a definition can be read exactly when it sets what is declared and required, and its
    values fit. -/
theorem Definition.exists_resolveStep_iff_fits (hstep : step ∈ d.steps) :
    (∃ resolved, resolveStep registry step = .ok resolved) ↔
      (∃ m, registry.manifest? step.blockType = some m ∧
        (∀ name ∈ step.properties.keys, ∃ spec ∈ m.properties, spec.name = name) ∧
        ∀ spec ∈ m.properties, spec.required = true → spec.default = none →
          spec.name ∈ step.properties.keys) ∧
      ∀ spec value, d.Gives registry step spec value → spec.kind.Fits value := by
  have hrequired : ∀ spec : PropertySpec,
      rawValue? step.properties spec ≠ none ↔
        (spec.default = none → spec.name ∈ step.properties.keys) := by
    intro spec
    rw [ne_eq, rawValue?_eq_none_iff, not_and, Classical.not_not]
  -- a property that has to be there is one without a value and without a default
  simp only [exists_resolveStep_iff, exists_readArguments_iff, hrequired]
  constructor
  · rintro ⟨m, hm, hdeclared, hread⟩
    refine ⟨⟨m, hm, hdeclared, fun spec hspec => (hread spec hspec).2⟩, ?_⟩
    rintro spec value ⟨-, m', hm', hspec, hvalue⟩
    cases hm.symm.trans hm'
    exact (hread spec hspec).1 value hvalue
  · rintro ⟨⟨m, hm, hdeclared, hrequired⟩, hfits⟩
    refine ⟨m, hm, hdeclared, fun spec hspec => ⟨fun value hvalue => ?_, hrequired spec hspec⟩⟩
    exact hfits spec value ⟨hstep, m, hm, hspec, hvalue⟩

/-- A step uses the selectors that its arguments have. -/
theorem Definition.uses_iff (hdistinct : registry.Distinct) (hstep : step ∈ d.steps)
    (hresolved : resolveStep registry step = .ok resolved) :
    d.Uses registry step spec s ↔ spec ∈ resolved.manifest.properties ∧
      ∃ a, (spec.name, a) ∈ resolved.arguments ∧ s ∈ a.selectors := by
  obtain ⟨-, -, hm, arguments, hread, -⟩ := resolveStep_eq_ok hresolved
  constructor
  · rintro ⟨value, ⟨-, m, hm', hspec, hvalue⟩, hmentions⟩
    cases hm.symm.trans hm'
    obtain ⟨a, ha⟩ := exists_interpret_iff.2
      ((exists_readArguments_iff.1 ⟨arguments, hread⟩ spec hspec).1 value hvalue)
    refine ⟨hspec, a, ?_, (mem_selectors_of_interpret ha).2 hmentions⟩
    exact (mem_arguments_iff hdistinct hresolved).2 ⟨spec, hspec, rfl, value, hvalue, ha⟩
  · rintro ⟨hspec, a, ha, hs⟩
    obtain ⟨spec', hspec', hname, value, hvalue, hinterpret⟩ :=
      (mem_arguments_iff hdistinct hresolved).1 ha
    cases List.inj_on_of_nodup_map (hdistinct.nodup hm) hspec' hspec hname
    exact ⟨value, ⟨hstep, _, hm, hspec, hvalue⟩, (mem_selectors_of_interpret hinterpret).1 hs⟩

/-- An argument that is not for targets has selectors of data. -/
theorem isTargets_of_mem_arguments (hdistinct : registry.Distinct)
    (hresolved : resolveStep registry step = .ok resolved) {property : String} {a : Argument}
    (ha : (property, a) ∈ resolved.arguments) (hs : s ∈ a.selectors) :
    a.isTargets = !s.isData := by
  obtain ⟨spec, -, -, value, -, hinterpret⟩ := (mem_arguments_iff hdistinct hresolved).1 ha
  exact isTargets_of_interpret hinterpret hs

/-- A resolved step takes the data that the step of the definition selects. -/
theorem Definition.hasSource_iff (hdistinct : registry.Distinct) (hstep : step ∈ d.steps)
    (hresolved : resolveStep registry step = .ok resolved) :
    resolved.HasSource s ↔ s.isData = true ∧ ∃ spec, d.Uses registry step spec s := by
  constructor
  · rintro ⟨property, a, ha, hkind, hs⟩
    obtain ⟨spec, hspec, rfl, -⟩ := (mem_arguments_iff hdistinct hresolved).1 ha
    have hdata := isTargets_of_mem_arguments hdistinct hresolved ha hs
    refine ⟨by simpa [hkind] using hdata, spec, ?_⟩
    exact (uses_iff hdistinct hstep hresolved).2 ⟨hspec, a, ha, hs⟩
  · rintro ⟨hdata, spec, huses⟩
    obtain ⟨-, a, ha, hs⟩ := (uses_iff hdistinct hstep hresolved).1 huses
    have hkind := isTargets_of_mem_arguments hdistinct hresolved ha hs
    exact ⟨spec.name, a, ha, by simpa [hdata] using hkind, hs⟩

/-- A resolved step decides about the steps that the step of the definition references. -/
theorem Definition.mem_targets_iff (hdistinct : registry.Distinct) (hstep : step ∈ d.steps)
    (hresolved : resolveStep registry step = .ok resolved) {target : String} :
    target ∈ resolved.targets ↔ ∃ spec, d.Uses registry step spec (.step target) := by
  rw [Workflow.Step.mem_targets_iff]
  constructor
  · rintro ⟨property, targets, ha, htarget⟩
    obtain ⟨spec, hspec, rfl, -⟩ := (mem_arguments_iff hdistinct hresolved).1 ha
    refine ⟨spec, (uses_iff hdistinct hstep hresolved).2 ⟨hspec, _, ha, ?_⟩⟩
    exact List.mem_map_of_mem htarget
  · rintro ⟨spec, huses⟩
    obtain ⟨-, a, ha, hs⟩ := (uses_iff hdistinct hstep hresolved).1 huses
    obtain ⟨targets, rfl⟩ :=
      Workflow.isTargets_eq_true (isTargets_of_mem_arguments hdistinct hresolved ha hs)
    obtain ⟨target', htarget, he⟩ := List.mem_map.1 hs
    cases he
    exact ⟨spec.name, targets, ha, htarget⟩

end

/-! ### References -/

/-- A selector of data passes when it points at data of kinds that fit, and one of a step when it
    points at another step. -/
theorem Workflow.checkSelector_eq_ok_iff {inputs : List Input} {steps : List Step} {step : Step}
    {property : String} {s : Selector} :
    checkSelector inputs steps step property (!s.isData) s = .ok () ↔
      ∃ kinds, producedKinds inputs steps s = .ok kinds ∧
        (s.isData = true → Kind.Meet kinds (acceptedKinds step property)) ∧
          s ≠ .step step.name := by
  rw [checkSelector, bind_eq_ok]
  refine exists_congr fun kinds => and_congr_right fun _ => ?_
  cases s with
  | step name =>
    by_cases hname : name = step.name
    · simp [Selector.isData, Selector.stepName?, hname]
    · simp [Selector.isData, Selector.stepName?, hname, pure, Except.pure]
  | _ =>
    rw [← Kind.compatible_iff]
    cases hkinds : Kind.compatible kinds (acceptedKinds step property) <;>
      simp [Selector.isData, hkinds, pure, Except.pure]

namespace Definition.Reads

variable {registry : Registry} {d : Definition} {steps : List Workflow.Step}
  {outputs : List Workflow.Output}

/-- The step that is found under a name is read from the step of that name. -/
theorem find?_eq_some_iff (h : d.Reads registry steps outputs) {name : String}
    {resolved : Workflow.Step} : steps.find? (·.name == name) = some resolved ↔
      ∃ step ∈ d.steps, step.name = name ∧ resolveStep registry step = .ok resolved := by
  constructor
  · intro hfound
    obtain ⟨step, hstep, hresolved⟩ :=
      exists_of_mem_mapM h.steps_eq (List.mem_of_find?_eq_some hfound)
    have hname : resolved.name = name := by simpa using List.find?_some hfound
    exact ⟨step, hstep, (resolveStep_eq_ok hresolved).1 ▸ hname, hresolved⟩
  · rintro ⟨step, hstep, rfl, hresolved⟩
    obtain ⟨resolved', hmem, hresolved'⟩ := exists_mem_of_mapM h.steps_eq hstep
    cases hresolved.symm.trans hresolved'
    have hnames : steps.map (·.name) = d.steps.map (·.name) :=
      map_eq_of_mapM h.steps_eq fun _ _ hstep => (resolveStep_eq_ok hstep).1
    rw [← (resolveStep_eq_ok hresolved).1]
    exact Table.find?_name (hnames ▸ h.steps_nodup) hmem

/-- The inputs are found by their names. -/
theorem find?_input_eq_some_iff (h : d.Reads registry steps outputs) {name : String}
    {input : Workflow.Input} : (d.inputs.map resolveInput).find? (·.name == name) = some input ↔
      ∃ i ∈ d.inputs, i.name = name ∧ resolveInput i = input := by
  constructor
  · intro hfound
    obtain ⟨i, hi, rfl⟩ := List.mem_map.1 (List.mem_of_find?_eq_some hfound)
    have hname : (resolveInput i).name = name := by simpa using List.find?_some hfound
    exact ⟨i, hi, hname, rfl⟩
  · rintro ⟨i, hi, rfl, rfl⟩
    have hnodup : ((d.inputs.map resolveInput).map (·.name)).Nodup := by
      rw [List.map_map]
      exact h.inputs_nodup
    exact Table.find?_name hnodup (List.mem_map_of_mem hi)

/-- What is found for a selector is what it points at, with its kinds. -/
theorem producedKinds_eq_ok_iff (h : d.Reads registry steps outputs) {s : Selector}
    {kinds : List Kind} :
    Workflow.producedKinds (d.inputs.map resolveInput) steps s = .ok kinds ↔
      d.Produces registry s kinds := by
  constructor
  · intro hkinds
    simp only [Workflow.producedKinds] at hkinds
    split at hkinds
    -- what is found by a name is what was declared under it
    case h_1 name =>
      split at hkinds
      · rename_i input hfound
        obtain ⟨i, hi, rfl, rfl⟩ := h.find?_input_eq_some_iff.1 hfound
        cases hkinds
        exact .input hi
      · cases hkinds
    case h_2 owner property =>
      split at hkinds
      · cases hkinds
      · rename_i resolved hfound
        obtain ⟨step, hstep, rfl, hresolved⟩ := h.find?_eq_some_iff.1 hfound
        obtain ⟨-, -, hm, -⟩ := resolveStep_eq_ok hresolved
        split at hkinds
        · rename_i o ho
          cases hkinds
          exact .output hstep hm ho
        · cases hkinds
    case h_3 owner =>
      split at hkinds
      · rename_i resolved hfound
        obtain ⟨step, hstep, rfl, -⟩ := h.find?_eq_some_iff.1 hfound
        cases hkinds
        exact .allOutputs hstep
      · cases hkinds
    case h_4 owner =>
      split at hkinds
      · rename_i resolved hfound
        obtain ⟨step, hstep, rfl, -⟩ := h.find?_eq_some_iff.1 hfound
        cases hkinds
        exact .step hstep
      · cases hkinds
  · intro hproduces
    have hfound : ∀ {step : StepDef}, step ∈ d.steps → ∃ resolved,
        resolveStep registry step = .ok resolved ∧
          steps.find? (·.name == step.name) = some resolved := by
      intro step hstep
      obtain ⟨resolved, -, hresolved⟩ := exists_mem_of_mapM h.steps_eq hstep
      exact ⟨resolved, hresolved, h.find?_eq_some_iff.2 ⟨step, hstep, rfl, hresolved⟩⟩
    cases hproduces with
    | input hi =>
      rw [Workflow.producedKinds, h.find?_input_eq_some_iff.2 ⟨_, hi, rfl, rfl⟩]
      rfl
    | output hstep hm ho =>
      obtain ⟨resolved, hresolved, hfound⟩ := hfound hstep
      obtain ⟨-, -, hm', -⟩ := resolveStep_eq_ok hresolved
      cases hm.symm.trans hm'
      simp only [Workflow.producedKinds, hfound, ho]
    | allOutputs hstep =>
      obtain ⟨resolved, -, hfound⟩ := hfound hstep
      simp only [Workflow.producedKinds, hfound]
    | step hstep =>
      obtain ⟨resolved, -, hfound⟩ := hfound hstep
      simp only [Workflow.producedKinds, hfound]

/-- The references of a step pass when every selector that it uses points at something: one of data
    at kinds that fit, one of a step at another step. -/
theorem checkStep_eq_ok_iff (hdistinct : registry.Distinct) (h : d.Reads registry steps outputs)
    {step : StepDef} (hstep : step ∈ d.steps) {resolved : Workflow.Step}
    (hresolved : resolveStep registry step = .ok resolved) :
    Workflow.checkStep (d.inputs.map resolveInput) steps resolved = .ok () ↔
      ∀ spec s, d.Uses registry step spec s → ∃ kinds, d.Produces registry s kinds ∧
        (s.isData = true → Kind.Meet kinds spec.acceptedKinds) ∧ s ≠ .step step.name := by
  obtain ⟨hname, -, hm, -⟩ := resolveStep_eq_ok hresolved
  have haccepted : ∀ spec ∈ resolved.manifest.properties,
      Workflow.acceptedKinds resolved spec.name = spec.acceptedKinds := by
    intro spec hspec
    have hfound : resolved.manifest.property? spec.name = some spec :=
      Table.find?_name (hdistinct.nodup hm) hspec
    rw [Workflow.acceptedKinds, hfound]
    rfl
  have hall : Workflow.checkStep (d.inputs.map resolveInput) steps resolved = .ok () ↔
      ∀ entry ∈ resolved.arguments, ∀ s ∈ entry.2.selectors,
        Workflow.checkSelector (d.inputs.map resolveInput) steps resolved entry.1
          entry.2.isTargets s = .ok () := by
    rw [Workflow.checkStep, forM_eq_ok]
    simp only [forM_eq_ok]
  -- each selector of an argument is a use of its property, and each use is such a selector
  rw [hall]
  constructor
  · intro hchecked spec s huses
    obtain ⟨hspec, a, ha, hs⟩ := (uses_iff hdistinct hstep hresolved).1 huses
    have hcheck := hchecked _ ha s hs
    rw [isTargets_of_mem_arguments hdistinct hresolved ha hs,
      Workflow.checkSelector_eq_ok_iff] at hcheck
    simpa only [h.producedKinds_eq_ok_iff, haccepted spec hspec, hname] using hcheck
  · rintro huses ⟨property, a⟩ ha s hs
    obtain ⟨spec, hspec, rfl, -⟩ := (mem_arguments_iff hdistinct hresolved).1 ha
    have hused := huses spec s ((uses_iff hdistinct hstep hresolved).2 ⟨hspec, a, ha, hs⟩)
    rw [isTargets_of_mem_arguments hdistinct hresolved ha hs, Workflow.checkSelector_eq_ok_iff]
    simpa only [h.producedKinds_eq_ok_iff, haccepted spec hspec, hname] using hused

/-! ### The graph -/

/-- The edges of the graph are the flow of the definition. -/
theorem edge_iff (hdistinct : registry.Distinct) (h : d.Reads registry steps outputs) {a b : Node} :
    (∃ e ∈ steps.flatMap Workflow.stepEdges ++ outputs.map Workflow.outputEdge,
      e.source = a ∧ e.target = b) ↔ d.Flow registry a b := by
  constructor
  · rintro ⟨e, he, rfl, rfl⟩
    rcases List.mem_append.1 he with he | he
    · obtain ⟨resolved, hmem, he⟩ := List.mem_flatMap.1 he
      obtain ⟨step, hstep, hresolved⟩ := exists_of_mem_mapM h.steps_eq hmem
      have hname := (resolveStep_eq_ok hresolved).1
      -- edges into a step carry its data, edges out of it lead to its targets
      rcases Workflow.Step.mem_edges_iff.1 he with ⟨s, hs, rfl⟩ | ⟨target, ht, rfl⟩
      · obtain ⟨hdata, spec, huses⟩ := (hasSource_iff hdistinct hstep hresolved).1 hs
        exact hname ▸ .data huses hdata
      · obtain ⟨spec, huses⟩ := (mem_targets_iff hdistinct hstep hresolved).1 ht
        exact hname ▸ .target huses
    · obtain ⟨output, hmem, rfl⟩ := List.mem_map.1 he
      obtain ⟨o, ho, houtput⟩ := exists_of_mem_mapM h.outputs_eq hmem
      obtain ⟨hname, hparse, -⟩ := resolveOutput_eq_ok_iff.1 houtput
      show d.Flow registry output.selector.node (.output output.name)
      exact hname ▸ .output ho hparse
  · intro hflow
    -- each way in which data flows is an edge of the step or output that asks for it
    cases hflow with
    | @data step spec s huses hdata =>
      obtain ⟨value, ⟨hstep, hgives⟩, hmentions⟩ := id huses
      obtain ⟨resolved, hmem, hresolved⟩ := exists_mem_of_mapM h.steps_eq hstep
      have hs := (hasSource_iff hdistinct hstep hresolved).2 ⟨hdata, spec, huses⟩
      refine ⟨_, List.mem_append_left _ (List.mem_flatMap.2
        ⟨resolved, hmem, Workflow.Step.mem_edges_iff.2 (Or.inl ⟨s, hs, rfl⟩)⟩), rfl, ?_⟩
      rw [(resolveStep_eq_ok hresolved).1]
    | @target step spec target huses =>
      obtain ⟨value, ⟨hstep, hgives⟩, hmentions⟩ := id huses
      obtain ⟨resolved, hmem, hresolved⟩ := exists_mem_of_mapM h.steps_eq hstep
      have ht := (mem_targets_iff hdistinct hstep hresolved).2 ⟨spec, huses⟩
      refine ⟨_, List.mem_append_left _ (List.mem_flatMap.2
        ⟨resolved, hmem, Workflow.Step.mem_edges_iff.2 (Or.inr ⟨target, ht, rfl⟩)⟩), ?_, rfl⟩
      rw [(resolveStep_eq_ok hresolved).1]
    | @output o s ho hparse =>
      obtain ⟨output, hmem, houtput⟩ := exists_mem_of_mapM h.outputs_eq ho
      obtain ⟨hname, hparse', -⟩ := resolveOutput_eq_ok_iff.1 houtput
      refine ⟨_, List.mem_append_right _ (List.mem_map_of_mem hmem), ?_, ?_⟩
      · cases hparse.symm.trans hparse'
        rfl
      · rw [← hname]
        rfl

/-- The graph has no cycle when nothing flows back to where it came from. -/
theorem acyclic_iff (hdistinct : registry.Distinct) (h : d.Reads registry steps outputs) {g : Graph}
    (hg : Workflow.graphOf (d.inputs.map resolveInput) steps outputs = .ok g) :
    g.checkAcyclic = .ok () ↔ ∀ node, ¬ Relation.TransGen (d.Flow registry) node node := by
  have hflows : g.Flows = d.Flow registry := by
    funext a b
    rw [← h.edge_iff hdistinct, Graph.Flows, (Graph.ofEdges_eq_ok hg).2]
    simp only [mem_distinct]
  rw [Graph.checkAcyclic_eq_ok_iff, Graph.Acyclic, hflows]

/-- The nodes of the graph are the declared inputs, steps and outputs. -/
theorem nodes_eq (h : d.Reads registry steps outputs) :
    (d.inputs.map resolveInput).map (fun i => Node.input i.name) ++
        steps.map (fun s => .step s.name) ++ outputs.map (fun o => .output o.name) = d.nodes := by
  have hsteps : steps.map (fun s => Node.step s.name) = d.steps.map fun s => .step s.name :=
    map_eq_of_mapM h.steps_eq fun _ _ hstep => congrArg _ (resolveStep_eq_ok hstep).1
  have houtputs : outputs.map (fun o => Node.output o.name) =
      d.outputs.map fun o => .output o.name :=
    map_eq_of_mapM h.outputs_eq fun _ _ ho => congrArg _ (resolveOutput_eq_ok_iff.1 ho).1
  rw [hsteps, houtputs, List.map_map]
  rfl

/-- No node of a definition with distinct names is declared twice. -/
theorem nodes_nodup (h : d.Reads registry steps outputs) : d.nodes.Nodup := by
  have hmap : ∀ {α : Type} {xs : List α} {name : α → String} {node : String → Node},
      (xs.map name).Nodup → Function.Injective node → (xs.map fun x => node (name x)).Nodup := by
    intro α xs name node hnodup hinjective
    have hnodes := hnodup.map hinjective
    rwa [List.map_map] at hnodes
  have hinputs : (d.inputs.map fun i => Node.input i.name).Nodup :=
    hmap h.inputs_nodup fun _ _ he => Node.input.inj he
  have hsteps : (d.steps.map fun s => Node.step s.name).Nodup :=
    hmap h.steps_nodup fun _ _ he => Node.step.inj he
  have houtputs : (d.outputs.map fun o => Node.output o.name).Nodup :=
    hmap h.outputs_nodup fun _ _ he => Node.output.inj he
  -- nodes of different sorts differ
  refine List.nodup_append.2 ⟨List.nodup_append.2 ⟨hinputs, hsteps, ?_⟩, houtputs, ?_⟩
  · intro a ha b hb he
    obtain ⟨i, -, rfl⟩ := List.mem_map.1 ha
    obtain ⟨step, -, rfl⟩ := List.mem_map.1 hb
    cases he
  · intro a ha b hb he
    obtain ⟨o, -, rfl⟩ := List.mem_map.1 hb
    subst he
    simp at ha

/-- There is a graph when data and decisions flow between declared parts only. -/
theorem exists_graph (hdistinct : registry.Distinct) (h : d.Reads registry steps outputs)
    (hflow : ∀ a b, d.Flow registry a b → a ∈ d.nodes ∧ b ∈ d.nodes) :
    ∃ g, Workflow.graphOf (d.inputs.map resolveInput) steps outputs = .ok g := by
  unfold Workflow.graphOf
  rw [h.nodes_eq]
  refine Graph.exists_ofEdges h.nodes_nodup fun e he => ?_
  exact hflow _ _ ((h.edge_iff hdistinct).1 ⟨e, he, rfl, rfl⟩)

end Definition.Reads

namespace Definition

variable {registry : Registry} {d : Definition}

/-- What produces data is declared. -/
theorem Produces.node_mem {s : Selector} {kinds : List Kind} (h : d.Produces registry s kinds) :
    s.node ∈ d.nodes := by
  cases h with
  | input hi => exact List.mem_append_left _ (List.mem_append_left _ (List.mem_map_of_mem hi))
  | output hstep _ _ =>
    exact List.mem_append_left _ (List.mem_append_right _ (List.mem_map_of_mem hstep))
  | allOutputs hstep =>
    exact List.mem_append_left _ (List.mem_append_right _ (List.mem_map_of_mem hstep))
  | step hstep =>
    exact List.mem_append_left _ (List.mem_append_right _ (List.mem_map_of_mem hstep))

/-- What uses data is declared. -/
theorem Uses.node_mem {step : StepDef} {spec : PropertySpec} {s : Selector}
    (h : d.Uses registry step spec s) : .step step.name ∈ d.nodes := by
  obtain ⟨value, ⟨hstep, -⟩, -⟩ := h
  exact List.mem_append_left _ (List.mem_append_right _ (List.mem_map_of_mem hstep))

/-- In a well-formed definition data and decisions flow between declared parts only. -/
theorem WellFormed.flow_mem (h : d.WellFormed registry) {a b : Node} (hflow : d.Flow registry a b) :
    a ∈ d.nodes ∧ b ∈ d.nodes := by
  cases hflow with
  | data huses _ =>
    obtain ⟨kinds, hproduces⟩ := h.declared _ _ _ huses
    exact ⟨hproduces.node_mem, huses.node_mem⟩
  | target huses =>
    obtain ⟨kinds, hproduces⟩ := h.declared _ _ _ huses
    exact ⟨huses.node_mem, hproduces.node_mem⟩
  | output ho hparse =>
    obtain ⟨s, kinds, hparse', -, hproduces⟩ := h.outputs_selected _ ho
    cases hparse.symm.trans hparse'
    exact ⟨hproduces.node_mem, List.mem_append_right _ (List.mem_map_of_mem ho)⟩

/-- What was resolved is well-formed. -/
theorem Resolves.wellFormed (hdistinct : registry.Distinct) {w : Workflow}
    (hw : d.Resolves registry w) : d.WellFormed registry := by
  have hreads : d.Reads registry w.steps w.outputs :=
    ⟨hw.inputs_nodup, hw.steps_nodup, hw.outputs_nodup, hw.steps_eq, hw.outputs_eq⟩
  have hresolved : ∀ step ∈ d.steps, ∃ resolved, resolveStep registry step = .ok resolved :=
    exists_mapM_iff.1 ⟨_, hw.steps_eq⟩
  -- what is used has been checked, step by step
  have hused : ∀ step spec s, d.Uses registry step spec s → ∃ kinds, d.Produces registry s kinds ∧
      (s.isData = true → Kind.Meet kinds spec.acceptedKinds) ∧ s ≠ .step step.name := by
    intro step spec s huses
    obtain ⟨value, ⟨hstep, -⟩, -⟩ := id huses
    obtain ⟨resolved, hmem, hresolved⟩ := exists_mem_of_mapM hw.steps_eq hstep
    have hchecked := hw.steps_checked resolved hmem
    rw [hw.inputs_eq] at hchecked
    exact (hreads.checkStep_eq_ok_iff hdistinct hstep hresolved).1 hchecked spec s huses
  constructor
  case version => exact isSupported_iff.1 hw.supported
  case inputs_nodup => exact hw.inputs_nodup
  case steps_nodup => exact hw.steps_nodup
  case outputs_nodup => exact hw.outputs_nodup
  case registered =>
    intro step hstep
    exact ((exists_resolveStep_iff_fits hstep).1 (hresolved step hstep)).1
  case fits =>
    intro step spec value hgives
    exact ((exists_resolveStep_iff_fits hgives.1).1 (hresolved step hgives.1)).2 spec value hgives
  case outputs_selected =>
    intro o ho
    obtain ⟨output, hmem, houtput⟩ := exists_mem_of_mapM hw.outputs_eq ho
    obtain ⟨-, hparse, hdata⟩ := resolveOutput_eq_ok_iff.1 houtput
    obtain ⟨kinds, hkinds⟩ := hw.outputs_checked output hmem
    rw [hw.inputs_eq, hreads.producedKinds_eq_ok_iff] at hkinds
    exact ⟨_, kinds, hparse, hdata, hkinds⟩
  case declared =>
    intro step spec s huses
    obtain ⟨kinds, hproduces, -⟩ := hused step spec s huses
    exact ⟨kinds, hproduces⟩
  case kinds_meet =>
    intro step spec s kinds huses hdata hproduces
    obtain ⟨kinds', hproduces', hmeet, -⟩ := hused step spec s huses
    cases (hreads.producedKinds_eq_ok_iff.2 hproduces).symm.trans
      (hreads.producedKinds_eq_ok_iff.2 hproduces')
    exact hmeet hdata
  case no_self_target =>
    intro step spec huses
    obtain ⟨-, -, -, hself⟩ := hused step spec _ huses
    exact hself rfl
  case acyclic => exact (hreads.acyclic_iff hdistinct (hw.inputs_eq ▸ hw.graph_eq)).1 hw.acyclic

/-- What is well-formed can be resolved. -/
theorem WellFormed.exists_resolves (hdistinct : registry.Distinct) (h : d.WellFormed registry) :
    ∃ w, d.Resolves registry w := by
  obtain ⟨steps, hsteps⟩ := exists_mapM_iff.2 fun step hstep =>
    (exists_resolveStep_iff_fits hstep).2 ⟨h.registered step hstep, h.fits step⟩
  have houtput : ∀ o ∈ d.outputs, ∃ output, resolveOutput o = .ok output := by
    intro o ho
    obtain ⟨s, kinds, hparse, hdata, -⟩ := h.outputs_selected o ho
    exact ⟨⟨o.name, s⟩, resolveOutput_eq_ok_iff.2 ⟨rfl, hparse, hdata⟩⟩
  obtain ⟨outputs, houtputs⟩ := exists_mapM_iff.2 houtput
  have hreads : d.Reads registry steps outputs :=
    ⟨h.inputs_nodup, h.steps_nodup, h.outputs_nodup, hsteps, houtputs⟩
  -- the graph can be built, as every edge has its ends among the nodes
  obtain ⟨g, hg⟩ := hreads.exists_graph hdistinct fun _ _ => h.flow_mem
  refine ⟨⟨d.version, d.inputs.map resolveInput, steps, outputs, g⟩, ?_⟩
  constructor
  case supported => exact isSupported_iff.2 h.version
  case inputs_nodup => exact h.inputs_nodup
  case steps_nodup => exact h.steps_nodup
  case outputs_nodup => exact h.outputs_nodup
  case inputs_eq => rfl
  case steps_eq => exact hsteps
  case outputs_eq => exact houtputs
  case steps_checked =>
    intro resolved hmem
    obtain ⟨step, hstep, hresolved⟩ := exists_of_mem_mapM hsteps hmem
    refine (hreads.checkStep_eq_ok_iff hdistinct hstep hresolved).2 fun spec s huses => ?_
    obtain ⟨kinds, hproduces⟩ := h.declared step spec s huses
    refine ⟨kinds, hproduces, fun hdata => h.kinds_meet step spec s kinds huses hdata hproduces, ?_⟩
    rintro rfl
    exact h.no_self_target step spec huses
  case outputs_checked =>
    intro output hmem
    obtain ⟨o, ho, houtput⟩ := exists_of_mem_mapM houtputs hmem
    obtain ⟨-, hparse, -⟩ := resolveOutput_eq_ok_iff.1 houtput
    obtain ⟨s, kinds, hparse', -, hproduces⟩ := h.outputs_selected o ho
    cases hparse.symm.trans hparse'
    exact ⟨kinds, hreads.producedKinds_eq_ok_iff.2 hproduces⟩
  case graph_eq => exact hg
  case acyclic => exact (hreads.acyclic_iff hdistinct hg).2 h.acyclic

/-- A definition is accepted exactly when it is well-formed. -/
theorem exists_resolve_iff_wellFormed (hdistinct : registry.Distinct) :
    (∃ w, d.resolve registry = .ok w) ↔ d.WellFormed registry := by
  rw [exists_resolve_iff]
  constructor
  · rintro ⟨w, hw⟩
    exact hw.wellFormed hdistinct
  · intro h
    exact h.exists_resolves hdistinct

end Definition

namespace Sample

/-- A step that decides about another one, which shows the data that it is given under a name. -/
def shown (source : String) : Definition where
  version := "1.2"
  inputs := [.batch "x" 1 []]
  steps := [
    ⟨"Pass", "pass", [("value", .string "$inputs.x"), ("next", .string "$steps.show")]⟩,
    ⟨"Show", "show", [("parts", .object [("item", .string source), ("word", .string "of")])]⟩]
  outputs := [⟨"out", "$steps.show.*"⟩]

/-- The registry of the block. -/
def shownBlocks : Registry :=
  [("Pass", Catalog.scripted
      { blockType := "Pass", acceptsBatchInput := true, flowControl := true
        properties := [{ name := "value", kind := .data [] true },
          { name := "next", kind := .stepTargets }] } (.route "next")),
    ("Show", Catalog.scripted
      { blockType := "Show"
        properties := [{ name := "parts", kind := .dataMap [] true }]
        outputs := [⟨"seen", []⟩] } .inputs)]

end Sample

/-- A definition is well-formed in which a step shows an input, and is not when the step shows its
    own output. -/
theorem exists_resolve_iff_wellFormed_shown : Sample.shownBlocks.Distinct ∧
    (Sample.shown "$inputs.x").WellFormed Sample.shownBlocks ∧
    ¬ (Sample.shown "$steps.show.seen").WellFormed Sample.shownBlocks := by
  have hdistinct : Sample.shownBlocks.Distinct := by decide +kernel
  have haccepted :
      ((Sample.shown "$inputs.x").resolve Sample.shownBlocks).toOption.isSome = true := by
    decide +kernel
  have hrefused :
      ((Sample.shown "$steps.show.seen").resolve Sample.shownBlocks).toOption.isSome = false := by
    decide +kernel
  refine ⟨hdistinct, (Definition.exists_resolve_iff_wellFormed hdistinct).1 ?_, fun h => ?_⟩
  · obtain ⟨w, hw⟩ := Option.isSome_iff_exists.1 haccepted
    exact ⟨w, toOption_eq_some.1 hw⟩
  · obtain ⟨w, hw⟩ := (Definition.exists_resolve_iff_wellFormed hdistinct).2 h
    simp [hw, Except.toOption] at hrefused

end BatchFlow
