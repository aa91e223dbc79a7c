import BatchFlow.Proofs.Plan.Refusals

namespace BatchFlow

/-!
# The order in which steps are declared

Steps find each other by their names, and names are distinct, so it does not matter where in a
definition a step is declared: it is resolved to the same step, and the same edges lead into it and
out of it.

A step is aligned after the steps from which it takes data, whatever order this leads to. So the
alignments that are found are those that fit together: each is the alignment of a step whose sources
are aligned as the table says (`Workflow.Solves`). A table that fits does so in every order.

* `Definition.withSteps` — a definition with other steps, such as its own in another order.
* `Workflow.Reorders` — workflows that differ in the order of their steps only.
* `Definition.exists_resolve_withSteps` — what is left of resolution when the steps are reordered.
* `Arranged.solves_of_align`, `Arranged.exists_alignAll` — in every order the alignments that fit
  together are found.
* `Reorders.exists_align` — so a workflow is aligned in the same way in every order.
-/

/-- A definition with other steps. -/
def Definition.withSteps (d : Definition) (steps : List StepDef) : Definition := { d with steps }

/-- The step at whose data a selector points. -/
theorem Selector.PointsInto.owner_mem {w : Workflow} {names : List String} {s : Selector}
    (h : s.PointsInto w names) {owner : String} (howner : s.stepName? = some owner) :
    owner ∈ names := by
  cases s with
  | input name => cases howner
  | output owner' property =>
    cases howner
    exact h
  | allOutputs owner' =>
    cases howner
    exact h
  | step owner' => exact h.elim

namespace Workflow

/-- Whether two workflows differ in the order of their steps and edges only. -/
structure Reorders (w w' : Workflow) : Prop where
  version : w'.version = w.version
  inputs : w'.inputs = w.inputs
  outputs : w'.outputs = w.outputs
  steps : w'.steps.Perm w.steps
  step? : ∀ name, w'.step? name = w.step? name
  edges : ∀ e, e ∈ w'.graph.edges ↔ e ∈ w.graph.edges

/-! ### References -/

/-- The kinds of what is produced depend on the look-up of steps only. -/
theorem producedKinds_congr {inputs : List Input} {steps steps' : List Step}
    (h : ∀ name, steps'.find? (·.name == name) = steps.find? (·.name == name)) (s : Selector) :
    producedKinds inputs steps' s = producedKinds inputs steps s := by
  unfold producedKinds
  simp only [h]

/-- The check of references depends on the look-up of steps only. -/
theorem checkStep_congr {inputs : List Input} {steps steps' : List Step}
    (h : ∀ name, steps'.find? (·.name == name) = steps.find? (·.name == name)) (step : Step) :
    checkStep inputs steps' step = checkStep inputs steps step := by
  unfold checkStep checkSelector
  simp only [producedKinds_congr h]

end Workflow

/-! ### The graph -/

/-- Nodes and edges in another order make a graph with the same edges. -/
theorem Graph.exists_ofEdges_of_perm {nodes nodes' : List Node} {edges edges' : List Edge}
    {g : Graph} (h : Graph.ofEdges nodes edges = .ok g) (hnodes : nodes'.Perm nodes)
    (hedges : edges'.Perm edges) :
    ∃ g', Graph.ofEdges nodes' edges' = .ok g' ∧ ∀ e, e ∈ g'.edges ↔ e ∈ g.edges := by
  obtain ⟨hn, he⟩ := Graph.ofEdges_eq_ok h
  have hends : ∀ e ∈ edges', e.source ∈ nodes' ∧ e.target ∈ nodes' := by
    intro e hmem
    have hmem : e ∈ g.edges := he ▸ mem_distinct.2 (hedges.mem_iff.1 hmem)
    rw [hnodes.mem_iff, hnodes.mem_iff, ← hn]
    exact ⟨g.source_mem e hmem, g.target_mem e hmem⟩
  have hnodup : nodes'.Nodup := hnodes.nodup_iff.2 (hn ▸ g.nodes_nodup)
  obtain ⟨g', hg'⟩ := Graph.exists_ofEdges hnodup hends
  refine ⟨g', hg', fun e => ?_⟩
  rw [(Graph.ofEdges_eq_ok hg').2, he, mem_distinct, mem_distinct, hedges.mem_iff]

/-- Permuted steps have a graph with the same edges. -/
theorem Workflow.exists_graphOf_of_perm {inputs : List Input} {steps steps' : List Step}
    {outputs : List Output} {g : Graph} (h : graphOf inputs steps outputs = .ok g)
    (hperm : steps'.Perm steps) :
    ∃ g', graphOf inputs steps' outputs = .ok g' ∧ ∀ e, e ∈ g'.edges ↔ e ∈ g.edges :=
  Graph.exists_ofEdges_of_perm h (((hperm.map _).append_left _).append_right _)
    ((hperm.flatMap_right _).append_right _)

/-- Whether there is a cycle depends on the edges only. -/
theorem Graph.Acyclic.congr {g g' : Graph} (h : g.Acyclic)
    (hedges : ∀ e, e ∈ g'.edges ↔ e ∈ g.edges) : g'.Acyclic := by
  have hflows : g'.Flows = g.Flows := by
    funext a b
    simp only [Graph.Flows, hedges]
  intro node
  rw [hflows]
  exact h node

/-! ### Resolution -/

section Resolution

variable {registry : Registry} {d : Definition} {w : Workflow} {steps : List StepDef}

/-- The version is kept. -/
theorem Definition.version_of_resolve (h : d.resolve registry = .ok w) : w.version = d.version := by
  have hw := resolves_of_resolve h
  simp only [Definition.resolve, hw.supported, Bool.not_true, Bool.false_eq_true, if_false] at h
  obtain ⟨⟨⟩, -, h⟩ := bind_eq_ok.1 h
  obtain ⟨⟨⟩, -, h⟩ := bind_eq_ok.1 h
  obtain ⟨⟨⟩, -, h⟩ := bind_eq_ok.1 h
  obtain ⟨_, -, h⟩ := bind_eq_ok.1 h
  obtain ⟨_, -, h⟩ := bind_eq_ok.1 h
  obtain ⟨⟨⟩, -, h⟩ := bind_eq_ok.1 h
  obtain ⟨⟨⟩, -, h⟩ := bind_eq_ok.1 h
  obtain ⟨_, -, h⟩ := bind_eq_ok.1 h
  obtain ⟨⟨⟩, -, h⟩ := bind_eq_ok.1 h
  cases pure_eq_ok.1 h
  rfl

/-- All that is checked of a definition is checked of it with its steps in another order. -/
theorem Definition.Resolves.exists_withSteps (hw : d.Resolves registry w)
    (hperm : steps.Perm d.steps) : ∃ w', (d.withSteps steps).Resolves registry w' := by
  obtain ⟨resolved, hresolved, hresolvedPerm⟩ := exists_mapM_of_perm hperm hw.steps_eq
  -- names are distinct, so a look-up does not see the order of the steps
  have hfind : ∀ name, resolved.find? (·.name == name) = w.steps.find? (·.name == name) :=
    Table.find?_name_perm hresolvedPerm hw.step_names_nodup
  obtain ⟨graph, hgraph, hsame⟩ := Workflow.exists_graphOf_of_perm hw.graph_eq hresolvedPerm
  refine ⟨⟨w.version, w.inputs, resolved, w.outputs, graph⟩, ?_⟩
  constructor
  case supported => exact hw.supported
  case inputs_nodup => exact hw.inputs_nodup
  case steps_nodup => exact (hperm.map _).nodup_iff.2 hw.steps_nodup
  case outputs_nodup => exact hw.outputs_nodup
  case inputs_eq => exact hw.inputs_eq
  case steps_eq => exact hresolved
  case outputs_eq => exact hw.outputs_eq
  case steps_checked =>
    intro step hstep
    rw [Workflow.checkStep_congr hfind]
    exact hw.steps_checked step (hresolvedPerm.mem_iff.1 hstep)
  case outputs_checked =>
    intro output houtput
    obtain ⟨kinds, hkinds⟩ := hw.outputs_checked output houtput
    exact ⟨kinds, (Workflow.producedKinds_congr hfind _).trans hkinds⟩
  case graph_eq => exact hgraph
  case acyclic =>
    exact Graph.checkAcyclic_eq_ok_iff.2
      ((Graph.checkAcyclic_eq_ok_iff.1 hw.acyclic).congr hsame)

/-- With its steps in another order a definition is resolved to a workflow with its steps in another
    order. -/
theorem Definition.exists_resolve_withSteps (h : d.resolve registry = .ok w)
    (hperm : steps.Perm d.steps) :
    ∃ w', (d.withSteps steps).resolve registry = .ok w' ∧ w.Reorders w' := by
  have hw := resolves_of_resolve h
  obtain ⟨w', h'⟩ := Definition.exists_resolve_iff.2 (hw.exists_withSteps hperm)
  have hw' := resolves_of_resolve h'
  -- reading the permuted steps gives the steps as they were read, permuted
  have hsteps : w'.steps.Perm w.steps := by
    obtain ⟨resolved, hresolved, hresolvedPerm⟩ := exists_mapM_of_perm hperm hw.steps_eq
    have hsame : resolved = w'.steps := Except.ok.inj (hresolved.symm.trans hw'.steps_eq)
    exact hsame ▸ hresolvedPerm
  have houtputs : w'.outputs = w.outputs :=
    Except.ok.inj (hw'.outputs_eq.symm.trans hw.outputs_eq)
  refine ⟨w', h', ?_⟩
  constructor
  case version => exact (version_of_resolve h').trans (version_of_resolve h).symm
  case inputs => exact hw'.inputs_eq.trans hw.inputs_eq.symm
  case outputs => exact houtputs
  case steps => exact hsteps
  case step? => exact Table.find?_name_perm hsteps hw.step_names_nodup
  case edges =>
    intro e
    rw [hw'.mem_graph_edges, hw.mem_graph_edges, houtputs]
    simp only [hsteps.mem_iff]

end Resolution

/-! ### Alignment -/

namespace Workflow

variable {w w' : Workflow} {aligned aligned' : Table String Alignment} {step : Step}
  {order : List String}

/-- A step is aligned by the data at which its selectors point. -/
theorem alignStep_congr
    (h : ∀ s, step.HasSource s → sourceOf w' aligned' s = sourceOf w aligned s) :
    alignStep w' aligned' step = alignStep w aligned step := by
  have hsources : sourcesOf w' aligned' step = sourcesOf w aligned step := by
    unfold sourcesOf
    rw [mapM_congr]
    rintro ⟨property, a⟩ ha
    obtain ⟨ha, hkind⟩ := List.mem_filter.1 ha
    refine mapM_congr fun s hs => ?_
    have hsource : step.HasSource s := ⟨property, a, ha, by simpa using hkind, hs⟩
    unfold checkedSource
    rw [h s hsource]
  unfold alignStep
  rw [hsources]

/-- The source of a selector depends on the alignment of the step it names only. -/
theorem sourceOf_congr (hinputs : w'.inputs = w.inputs) {s : Selector}
    (h : ∀ owner, s.stepName? = some owner → aligned'.get? owner = aligned.get? owner) :
    sourceOf w' aligned' s = sourceOf w aligned s := by
  have hinput : ∀ name, w'.input? name = w.input? name := fun name => by
    rw [input?, input?, hinputs]
  cases s with
  | input name => simp only [sourceOf, hinput]
  | output owner property => simp only [sourceOf, h owner rfl]
  | allOutputs owner => simp only [sourceOf, h owner rfl]
  | step owner => simp only [sourceOf, h owner rfl]

/-- Whether the alignments in a table fit together: each step has the one that follows from those of
    its sources. -/
def Solves (w : Workflow) (aligned : Table String Alignment) : Prop :=
  ∀ step ∈ w.steps, ∃ a, alignStep w aligned step = .ok a ∧ aligned.get? step.name = some a

/-- Whether alignments fit together does not depend on the order of the steps. -/
theorem Reorders.solves (h : w.Reorders w') (hsolves : w.Solves aligned) : w'.Solves aligned := by
  intro step hstep
  obtain ⟨a, ha, hget⟩ := hsolves step (h.steps.mem_iff.1 hstep)
  refine ⟨a, ?_, hget⟩
  rw [← ha]
  exact alignStep_congr fun s _ => sourceOf_congr h.inputs fun _ _ => rfl

/-- The owner of the data of a step stands before the step. -/
theorem Arranged.owner_mem (hordered : w.Arranged order) {before : List String} {name : String}
    {after : List String} (hsplit : order = before ++ name :: after)
    (hstep : w.step? name = some step) {s : Selector} (hs : step.HasSource s) {owner : String}
    (howner : s.stepName? = some owner) : owner ∈ before :=
  (hordered.source hsplit hstep hs).owner_mem howner

/-- What is found in an order fits together. -/
theorem Arranged.solves_of_align (hordered : w.Arranged order)
    (h : alignAll w [] order = .ok aligned) (hnodup : (w.steps.map (·.name)).Nodup) :
    w.Solves aligned := by
  intro step hstep
  have hname : step.name ∈ order := hordered.perm.mem_iff.2 (List.mem_map_of_mem hstep)
  obtain ⟨before, after, hsplit⟩ := List.append_of_mem hname
  have hnone : ∀ n b, Table.get? ([] : Table String Alignment) n = some b →
      b.outputLineage.length = b.output := fun n b hb => by cases hb
  obtain ⟨step', a, earlier, hstep', ha, haligns, hearlier⟩ :=
    (alignAll_eq_ok h hordered.nodup (fun _ _ => rfl) hnone).2 before step.name after hsplit
  have hfound : w.step? step.name = some step := Table.find?_name hnodup hstep
  cases hfound.symm.trans hstep'
  refine ⟨a, ?_, ha⟩
  rw [← haligns.aligned_eq]
  refine alignStep_congr fun s hs => sourceOf_congr rfl fun owner howner => ?_
  rw [hearlier, if_pos (hordered.owner_mem hsplit hfound hs howner)]

/-- Alignments that fit together are found step by step in every order. -/
theorem Arranged.exists_alignAll (hordered : w.Arranged order) (hsolves : w.Solves aligned)
    {before names : List String} (hsplit : order = before ++ names)
    {found : Table String Alignment}
    (hfound : ∀ name ∈ before, found.get? name = aligned.get? name) :
    ∃ final, alignAll w found names = .ok final ∧
      ∀ name ∈ order, final.get? name = aligned.get? name := by
  induction names generalizing before found with
  | nil =>
    rw [List.append_nil] at hsplit
    exact ⟨found, rfl, hsplit ▸ hfound⟩
  | cons name rest ih =>
    obtain ⟨step, hstep⟩ := hordered.found name (by simp [hsplit])
    obtain ⟨rfl, hmem⟩ := name_of_step? hstep
    obtain ⟨a, ha, hget⟩ := hsolves step hmem
    have haligned : alignStep w found step = .ok a := by
      rw [← ha]
      -- the sources of the step stand before it, and are aligned already
      refine alignStep_congr fun s hs => sourceOf_congr rfl fun owner howner => ?_
      exact hfound owner (hordered.owner_mem hsplit hstep hs howner)
    have hsplit' : order = (before ++ [step.name]) ++ rest := by simp [hsplit]
    have hfound' : ∀ n ∈ before ++ [step.name],
        (found.put step.name a).get? n = aligned.get? n := by
      intro n hn
      rw [Table.get?_put]
      split
      · rename_i hname
        rw [← hname, hget]
      · rename_i hname
        rcases List.mem_append.1 hn with hn | hn
        · exact hfound n hn
        · exact absurd (List.mem_singleton.1 hn).symm hname
    obtain ⟨final, hfinal, hall⟩ := ih hsplit' hfound'
    refine ⟨final, ?_, hall⟩
    simp only [alignAll, hstep, haligned]
    exact hfinal

/-- Who decides about whom is checked against the alignments of the two. -/
theorem checkGovernance_congr (hstep : aligned'.get? step.name = aligned.get? step.name)
    (htargets : ∀ target ∈ step.targets, aligned'.get? target = aligned.get? target) :
    checkGovernance aligned' step = checkGovernance aligned step := by
  unfold checkGovernance
  rw [hstep]
  cases aligned.get? step.name with
  | none => rfl
  | some governor => exact forM_congr fun target ht => by rw [htargets target ht]

/-- With its steps in another order a workflow is aligned in the same way. -/
theorem Reorders.exists_align {registry : Registry} {d' : Definition} {order' : List String}
    (h : w.Reorders w') (hw : (w.steps.map (·.name)).Nodup) (hw' : d'.Resolves registry w')
    (hordered : w.Ordered order) (hordered' : w'.Ordered order')
    (halign : w.align order = .ok aligned) :
    ∃ aligned', alignAll w' [] order' = .ok aligned' ∧ w'.align order' = .ok aligned' ∧
      ∀ name ∈ order', aligned'.get? name = aligned.get? name := by
  obtain ⟨hall, hgoverns⟩ := align_eq_ok halign
  have hsolves := h.solves (hordered.solves_of_align hall hw)
  obtain ⟨aligned', hall', haligned⟩ :=
    hordered'.exists_alignAll hsolves (List.nil_append order').symm (List.forall_mem_nil _)
  have hnames : ∀ name ∈ w'.steps.map (·.name), aligned'.get? name = aligned.get? name :=
    fun name hname => haligned name (hordered'.perm.mem_iff.2 hname)
  refine ⟨aligned', hall', bind_eq_ok.2 ⟨aligned', hall', bind_eq_ok.2 ⟨(), ?_, rfl⟩⟩, haligned⟩
  refine forM_eq_ok.2 fun step hstep => ?_
  rw [← hgoverns step (h.steps.mem_iff.1 hstep)]
  exact checkGovernance_congr (hnames _ (List.mem_map_of_mem hstep))
    fun target ht => hnames target (hw'.target_declared hstep ht)

end Workflow

end BatchFlow
