import BatchFlow.Proofs.Workflow.Interpretation

namespace BatchFlow

/-!
# What resolution has established

* `Definition.Resolves` — all that has been checked when a definition was resolved to a workflow.
* `Definition.resolves_of_resolve` — a successful resolution has checked it.
* `Resolves.manifest_eq` — the block of a step is registered with the manifest of the step.
* `Resolves.selector_read` — the selectors in the arguments of steps were read from texts.
-/

/-- All that has been checked when a definition was resolved to a workflow. -/
structure Definition.Resolves (registry : Registry) (d : Definition) (w : Workflow) : Prop where
  supported : d.isSupported
  inputs_nodup : (d.inputs.map (·.name)).Nodup
  steps_nodup : (d.steps.map (·.name)).Nodup
  outputs_nodup : (d.outputs.map (·.name)).Nodup
  inputs_eq : w.inputs = d.inputs.map resolveInput
  steps_eq : d.steps.mapM (resolveStep registry) = .ok w.steps
  outputs_eq : d.outputs.mapM resolveOutput = .ok w.outputs
  steps_checked : ∀ step ∈ w.steps, Workflow.checkStep w.inputs w.steps step = .ok ()
  outputs_checked : ∀ output ∈ w.outputs,
    ∃ kinds, Workflow.producedKinds w.inputs w.steps output.selector = .ok kinds
  graph_eq : Workflow.graphOf w.inputs w.steps w.outputs = .ok w.graph
  acyclic : w.graph.checkAcyclic = .ok ()

/-- Names are accepted when none of them repeats. -/
theorem checkUnique_eq_ok_iff {kind : String} {names : List String} :
    checkUnique kind names = .ok () ↔ names.Nodup := by
  rw [← firstRepeat?_eq_none_iff, checkUnique]
  cases firstRepeat? names <;> simp

/-- A graph without a fault is kept as it is. -/
theorem orGraphFault_eq_ok {α : Type} {x : Except GraphFault α} {a : α} :
    orGraphFault x = .ok a ↔ x = .ok a := by
  cases x <;> simp [orGraphFault]

/-- A successful resolution has checked everything. -/
theorem Definition.resolves_of_resolve {registry : Registry} {d : Definition} {w : Workflow}
    (h : d.resolve registry = .ok w) : d.Resolves registry w := by
  have hsupported : d.isSupported = true := by
    cases hs : d.isSupported with
    | true => rfl
    | false =>
      simp only [Definition.resolve, hs] at h
      cases h
  simp only [Definition.resolve, hsupported, Bool.not_true, Bool.false_eq_true, if_false] at h
  -- the checks in their order; none of them failed
  obtain ⟨⟨⟩, hinputs, h⟩ := bind_eq_ok.1 h
  obtain ⟨⟨⟩, hsteps, h⟩ := bind_eq_ok.1 h
  obtain ⟨⟨⟩, houtputs, h⟩ := bind_eq_ok.1 h
  obtain ⟨steps, hread, h⟩ := bind_eq_ok.1 h
  obtain ⟨outputs, hout, h⟩ := bind_eq_ok.1 h
  obtain ⟨⟨⟩, hchecked, h⟩ := bind_eq_ok.1 h
  obtain ⟨⟨⟩, hproduced, h⟩ := bind_eq_ok.1 h
  obtain ⟨graph, hgraph, h⟩ := bind_eq_ok.1 h
  obtain ⟨⟨⟩, hacyclic, h⟩ := bind_eq_ok.1 h
  cases pure_eq_ok.1 h
  refine
    { supported := hsupported
      inputs_nodup := checkUnique_eq_ok_iff.1 hinputs
      steps_nodup := checkUnique_eq_ok_iff.1 hsteps
      outputs_nodup := checkUnique_eq_ok_iff.1 houtputs
      inputs_eq := rfl
      steps_eq := hread
      outputs_eq := hout
      steps_checked := forM_eq_ok.1 hchecked
      outputs_checked := ?_
      graph_eq := orGraphFault_eq_ok.1 hgraph
      acyclic := orGraphFault_eq_ok.1 hacyclic }
  intro output hmem
  obtain ⟨kinds, hkinds, _⟩ := bind_eq_ok.1 (forM_eq_ok.1 hproduced output hmem)
  exact ⟨kinds, hkinds⟩

/-- A definition can be resolved when everything has been checked for some workflow. -/
theorem Definition.exists_resolve_iff {registry : Registry} {d : Definition} :
    (∃ w, d.resolve registry = .ok w) ↔ ∃ w, d.Resolves registry w := by
  constructor
  · rintro ⟨w, h⟩
    exact ⟨w, resolves_of_resolve h⟩
  · rintro ⟨w, h⟩
    have hproduced : (w.outputs.forM fun output => do
        let _ ← Workflow.producedKinds w.inputs w.steps output.selector) = .ok () := by
      refine forM_eq_ok.2 fun output hmem => ?_
      obtain ⟨kinds, hkinds⟩ := h.outputs_checked output hmem
      exact bind_eq_ok.2 ⟨kinds, hkinds, rfl⟩
    have hchecked := forM_eq_ok.2 h.steps_checked
    have hgraph := orGraphFault_eq_ok.2 h.graph_eq
    have hacyclic := orGraphFault_eq_ok.2 h.acyclic
    rw [h.inputs_eq] at hproduced hchecked hgraph
    refine ⟨⟨d.version, d.inputs.map resolveInput, w.steps, w.outputs, w.graph⟩, ?_⟩
    simp only [Definition.resolve, h.supported, Bool.not_true, Bool.false_eq_true, if_false]
    -- the same checks once more, each of which succeeds
    refine bind_eq_ok.2 ⟨(), checkUnique_eq_ok_iff.2 h.inputs_nodup, ?_⟩
    refine bind_eq_ok.2 ⟨(), checkUnique_eq_ok_iff.2 h.steps_nodup, ?_⟩
    refine bind_eq_ok.2 ⟨(), checkUnique_eq_ok_iff.2 h.outputs_nodup, ?_⟩
    refine bind_eq_ok.2 ⟨w.steps, h.steps_eq, bind_eq_ok.2 ⟨w.outputs, h.outputs_eq, ?_⟩⟩
    refine bind_eq_ok.2 ⟨(), hchecked, bind_eq_ok.2 ⟨(), hproduced, ?_⟩⟩
    exact bind_eq_ok.2 ⟨w.graph, hgraph, bind_eq_ok.2 ⟨(), hacyclic, rfl⟩⟩

/-! ### Selectors were read from texts -/

/-- Whether a selector denotes what some text says. -/
def Selector.IsRead (s : Selector) : Prop := ∃ raw, Selector.parse raw = .ok s

/-- The selectors that are written in a value were read. -/
theorem PropertyKind.Mentions.isRead {kind : PropertyKind} {value : Json} {s : Selector}
    (h : kind.Mentions value s) : s.IsRead := by
  have hread : ∀ {value : Json}, value.Denotes s → s.IsRead := fun ⟨raw, _, hraw⟩ => ⟨raw, hraw⟩
  cases kind with
  | data kinds batch => exact hread h
  | dataMap kinds batch =>
    obtain ⟨members, -, m, -, hm⟩ := h
    exact hread hm
  | stepTargets =>
    rcases h with h | ⟨items, -, item, -, hitem⟩
    · exact hread h
    · exact hread hitem
  | config => exact h.elim

namespace Definition.Resolves

variable {registry : Registry} {d : Definition} {w : Workflow}

/-- The names of the steps are those of the definition. -/
theorem step_names (h : d.Resolves registry w) :
    w.steps.map (·.name) = d.steps.map (·.name) :=
  map_eq_of_mapM h.steps_eq fun _ _ hstep => (resolveStep_eq_ok hstep).1

/-- No two steps have one name. -/
theorem step_names_nodup (h : d.Resolves registry w) : (w.steps.map (·.name)).Nodup := by
  rw [h.step_names]
  exact h.steps_nodup

/-- No two inputs have one name. -/
theorem input_names_nodup (h : d.Resolves registry w) : (w.inputs.map (·.name)).Nodup := by
  rw [h.inputs_eq, List.map_map]
  exact h.inputs_nodup

/-- No two outputs have one name. -/
theorem output_names_nodup (h : d.Resolves registry w) : (w.outputs.map (·.name)).Nodup := by
  have hnames : w.outputs.map (·.name) = d.outputs.map (·.name) :=
    map_eq_of_mapM h.outputs_eq fun _ _ houtput => (resolveOutput_eq_ok_iff.1 houtput).1
  rw [hnames]
  exact h.outputs_nodup

/-- The block of a step is registered, and the step has its manifest. -/
theorem manifest_eq (h : d.Resolves registry w) {step : Workflow.Step} (hstep : step ∈ w.steps) :
    registry.manifest? step.blockType = some step.manifest := by
  obtain ⟨sd, -, hsd⟩ := exists_of_mem_mapM h.steps_eq hstep
  obtain ⟨-, htype, hm, -⟩ := resolveStep_eq_ok hsd
  rw [htype]
  exact hm

/-- The arguments of steps were interpreted for properties of their names. -/
theorem argument_interpreted (h : d.Resolves registry w) {step : Workflow.Step}
    (hstep : step ∈ w.steps) {property : String} {a : Argument}
    (ha : (property, a) ∈ step.arguments) :
    ∃ spec ∈ step.manifest.properties, spec.name = property ∧
      ∃ name raw, interpret name spec raw = .ok a := by
  obtain ⟨sd, -, hsd⟩ := exists_of_mem_mapM h.steps_eq hstep
  obtain ⟨-, -, -, arguments, hread, heq⟩ := resolveStep_eq_ok hsd
  rw [heq] at ha
  obtain ⟨spec, hspec, hname, raw, -, hi⟩ :=
    (mem_readArguments_iff hread).1 (Table.mem_of_mem_ofList ha)
  exact ⟨spec, hspec, hname, sd.name, raw, hi⟩

/-- The selectors in the arguments of steps were read. -/
theorem selector_read (h : d.Resolves registry w) {step : Workflow.Step} (hstep : step ∈ w.steps)
    {property : String} {a : Argument} (ha : (property, a) ∈ step.arguments) {s : Selector}
    (hs : s ∈ a.selectors) : s.IsRead := by
  obtain ⟨spec, -, -, name, raw, hi⟩ := h.argument_interpreted hstep ha
  exact ((mem_selectors_of_interpret hi).1 hs).isRead

/-- A step with a given name is found under it. -/
theorem step?_eq_some (h : d.Resolves registry w) {step : Workflow.Step} (hstep : step ∈ w.steps) :
    w.step? step.name = some step :=
  Table.find?_name h.step_names_nodup hstep

end Definition.Resolves

end BatchFlow
