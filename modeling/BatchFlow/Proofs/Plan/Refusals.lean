import BatchFlow.Proofs.Graph.Cycle
import BatchFlow.Proofs.Plan.Dimensions

namespace BatchFlow

/-!
# What is left to be refused

Compilation looks things up that resolution has found already: steps by their names, the data at
which selectors point, the alignments of the steps before. None of this is ever missing. So after
resolution a workflow is refused for a missing init parameter or for data that does not line up, and
for nothing else.

* `Selector.PointsInto` — whether a selector points at an input or at data of some steps.
* `Workflow.Arranged` — an order in which every step stands behind those from which it takes data;
  `Workflow.Ordered` — the one in which the steps are compiled.
* `Ordered.isLate_of_align` — in such an order, alignment fails for data that does not line up only.
* `Plan.exists_compileSteps`, `Plan.exists_bindOutput` — compilation of aligned steps does not fail.
* `Definition.compile_of_resolve` — the ways in which compilation ends after resolution.
-/

/-- Whether a reason is one of those that are left after resolution. -/
def Rejection.IsLate (r : Rejection) : Prop :=
  (∃ step parameter, r = .missingInitParameter step parameter) ∨
    ∃ step fault, r = .alignment step fault

/-- Data that does not line up is noticed late. -/
theorem Rejection.isLate_alignment (step : String) (fault : AlignmentFault) :
    (Rejection.alignment step fault).IsLate := Or.inr ⟨step, fault, rfl⟩

/-- Whether a selector points at an input of a workflow, or at data of one of some steps. -/
def Selector.PointsInto (w : Workflow) (names : List String) : Selector → Prop
  | .input name => ∃ input, w.input? name = some input
  | .output owner _ | .allOutputs owner => owner ∈ names
  | .step _ => False

/-- What points into some names points into more of them. -/
theorem Selector.PointsInto.mono {w : Workflow} {names names' : List String} {s : Selector}
    (h : s.PointsInto w names) (hnames : ∀ name ∈ names, name ∈ names') :
    s.PointsInto w names' := by
  cases s with
  | input name => exact h
  | output owner property => exact hnames owner h
  | allOutputs owner => exact hnames owner h
  | step owner => exact h.elim

namespace Workflow

variable {w : Workflow} {order : List String}

/-- An order of all steps in which every step stands behind those from which it takes data. -/
structure Arranged (w : Workflow) (order : List String) : Prop where
  perm : order.Perm (w.steps.map (·.name))
  nodup : order.Nodup
  found : ∀ name ∈ order, ∃ step, w.step? name = some step
  source : ∀ {before name after}, order = before ++ name :: after →
    ∀ {step}, w.step? name = some step → ∀ {s}, step.HasSource s → s.PointsInto w before

/-- The order in which the steps are compiled. -/
structure Ordered (w : Workflow) (order : List String) : Prop extends Arranged w order where
  order_eq : w.stepOrder = .ok order

/-- What produces data of some kinds is an input or a step. -/
theorem pointsInto_of_producedKinds {s : Selector} {kinds : List Kind}
    (h : producedKinds w.inputs w.steps s = .ok kinds) (hdata : s.isData = true) :
    s.PointsInto w (w.steps.map (·.name)) := by
  have hstep : ∀ {owner : String} {step : Step},
      w.steps.find? (·.name == owner) = some step → owner ∈ w.steps.map (·.name) := by
    intro owner step hfound
    have hname : step.name = owner := by simpa using List.find?_some hfound
    exact hname ▸ List.mem_map_of_mem (List.mem_of_find?_eq_some hfound)
  simp only [producedKinds] at h
  -- each kind of selector was looked up among the inputs or the steps
  split at h
  · split at h
    · rename_i input hfound
      exact ⟨input, hfound⟩
    · cases h
  · split at h
    · cases h
    · rename_i hfound
      exact hstep hfound
  · split at h
    · rename_i hfound
      exact hstep hfound
    · cases h
  · cases hdata

end Workflow

namespace Definition.Resolves

variable {registry : Registry} {d : Definition} {w : Workflow}

/-- The selectors in the arguments of steps point at something. -/
theorem exists_producedKinds (h : d.Resolves registry w) {step : Workflow.Step}
    (hstep : step ∈ w.steps) {property : String} {a : Argument}
    (ha : (property, a) ∈ step.arguments) {s : Selector} (hs : s ∈ a.selectors) :
    ∃ kinds, Workflow.producedKinds w.inputs w.steps s = .ok kinds := by
  have hchecked := forM_eq_ok.1 (h.steps_checked step hstep) _ ha
  obtain ⟨kinds, hkinds, -⟩ := bind_eq_ok.1 (forM_eq_ok.1 hchecked s hs)
  exact ⟨kinds, hkinds⟩

/-- A step takes data from inputs and steps of the workflow. -/
theorem source_pointsInto (h : d.Resolves registry w) {step : Workflow.Step}
    (hstep : step ∈ w.steps) {s : Selector} (hs : step.HasSource s) :
    s.PointsInto w (w.steps.map (·.name)) := by
  obtain ⟨property, a, ha, hkind, hs⟩ := hs
  obtain ⟨kinds, hkinds⟩ := h.exists_producedKinds hstep ha hs
  obtain ⟨spec, -, -, name, raw, hinterpret⟩ := h.argument_interpreted hstep ha
  have hdata := isTargets_of_interpret hinterpret hs
  exact Workflow.pointsInto_of_producedKinds hkinds (by simpa [hkind] using hdata)

/-- The selector of an output points at a step or an input. -/
theorem output_pointsInto (h : d.Resolves registry w) {output : Workflow.Output}
    (houtput : output ∈ w.outputs) : output.selector.PointsInto w (w.steps.map (·.name)) := by
  obtain ⟨kinds, hkinds⟩ := h.outputs_checked output houtput
  obtain ⟨o, -, hresolved⟩ := exists_of_mem_mapM h.outputs_eq houtput
  exact Workflow.pointsInto_of_producedKinds hkinds (resolveOutput_eq_ok_iff.1 hresolved).2.2

/-- An order of all steps is one in which every step stands behind those from which it takes data
    when no edge leads backward. -/
theorem arranged (h : d.Resolves registry w) {order : List String}
    (hperm : order.Perm (w.steps.map (·.name)))
    (hforward : ∀ {before name after}, order = before ++ name :: after → ∀ {other},
      (∃ e ∈ w.graph.edges, e.source = .step other ∧ e.target = .step name) → other ∈ before) :
    w.Arranged order := by
  refine ⟨hperm, hperm.nodup_iff.2 h.step_names_nodup, fun name hname => ?_, ?_⟩
  · obtain ⟨step, hstep, rfl⟩ := List.mem_map.1 (hperm.mem_iff.1 hname)
    exact ⟨step, h.step?_eq_some hstep⟩
  · intro before name after hsplit step hstep s hs
    obtain ⟨rfl, hmem⟩ := Workflow.name_of_step? hstep
    -- an edge leads from a step to one that takes its data
    have hbefore : ∀ {owner}, s.stepName? = some owner → owner ∈ before := fun howner =>
      hforward hsplit (h.edge_iff.2 (Or.inl ⟨step, hmem, rfl, s, hs, howner⟩))
    have hpoints := h.source_pointsInto hmem hs
    cases s with
    | input name => exact hpoints
    | output owner property => exact hbefore rfl
    | allOutputs owner => exact hbefore rfl
    | step owner => exact hpoints.elim

/-- The steps of a resolved workflow can be put in order. -/
theorem exists_ordered (h : d.Resolves registry w) : ∃ order, w.Ordered order := by
  obtain ⟨nodes, hnodes⟩ := (Graph.checkAcyclic_eq_ok_iff.1 h.acyclic).exists_topologicalOrder
  have horder : w.stepOrder = .ok (nodes.filterMap Node.stepName?) :=
    bind_eq_ok.2 ⟨nodes, orGraphFault_eq_ok.2 hnodes, rfl⟩
  exact ⟨_, h.arranged (h.stepOrder_perm horder) (Workflow.mem_before_of_edge horder), horder⟩

end Definition.Resolves

/-! ### Alignment -/

namespace Workflow

variable {w : Workflow} {order names : List String} {aligned : Table String Alignment} {step : Step}
  {r : Rejection}

/-- The data at which a selector points has been aligned when the steps before have. -/
theorem exists_sourceOf {s : Selector} (hs : s.PointsInto w names)
    (haligned : ∀ name ∈ names, ∃ a, aligned.get? name = some a) :
    ∃ source, sourceOf w aligned s = .ok source := by
  cases s with
  | input name =>
    obtain ⟨input, hinput⟩ := hs
    simp [sourceOf, hinput]
  | output owner property =>
    obtain ⟨a, ha⟩ := haligned owner hs
    simp [sourceOf, ha]
  | allOutputs owner =>
    obtain ⟨a, ha⟩ := haligned owner hs
    simp [sourceOf, ha]
  | step owner => exact hs.elim

/-- Where all sources are known a property is refused for its depth only. -/
theorem isLate_of_sourcesOf (hsource : ∀ s, step.HasSource s → ∃ source, sourceOf w aligned s =
    .ok source) (h : sourcesOf w aligned step = .error r) : r.IsLate := by
  rcases bind_eq_error.1 h with h | ⟨_, -, h⟩
  · obtain ⟨⟨property, a⟩, ha, h⟩ := exists_error_of_mapM h
    obtain ⟨s, hs, h⟩ := exists_error_of_mapM h
    obtain ⟨ha, hkind⟩ := List.mem_filter.1 ha
    obtain ⟨source, hs⟩ := hsource s ⟨property, a, ha, by simpa using hkind, hs⟩
    rw [checkedSource, hs] at h
    rcases bind_eq_error.1 h with h | ⟨source', -, h⟩
    · cases h
    · split at h
      · cases h
        exact Rejection.isLate_alignment _ _
      · cases h
  · cases h

/-- Sources without a common lineage are noticed late. -/
theorem isLate_of_commonLineage {sources : List Source}
    (h : commonLineage step sources = .error r) : r.IsLate := by
  unfold commonLineage at h
  split at h
  · cases h
  · split at h
    · cases h
      exact Rejection.isLate_alignment _ _
    · cases h

/-- A lineage that does not suit the manifest is noticed late. -/
theorem isLate_of_alignOn {depth : Nat} {lineage : Lineage}
    (h : alignOn step depth lineage = .error r) : r.IsLate := by
  unfold alignOn at h
  split at h
  · cases h
    exact Rejection.isLate_alignment _ _
  · split at h
    · cases h
    · cases h
    · split at h
      · cases h
        exact Rejection.isLate_alignment _ _
      · cases h

/-- A step whose data has been aligned is refused for data that does not line up only. -/
theorem isLate_of_alignStep (hsource : ∀ s, step.HasSource s → ∃ source, sourceOf w aligned s =
    .ok source) (h : alignStep w aligned step = .error r) : r.IsLate := by
  rcases bind_eq_error.1 h with h | ⟨sources, -, h⟩
  · exact isLate_of_sourcesOf hsource h
  · rcases bind_eq_error.1 h with h | ⟨lineage, -, h⟩
    · exact isLate_of_commonLineage h
    · exact isLate_of_alignOn h

/-- So is every step, one after another. -/
theorem Ordered.isLate_of_alignAll (hordered : w.Ordered order) {before : List String}
    (hsplit : order = before ++ names)
    (haligned : ∀ name ∈ before, ∃ a, aligned.get? name = some a)
    (h : alignAll w aligned names = .error r) : r.IsLate := by
  induction names generalizing before aligned with
  | nil => cases h
  | cons name rest ih =>
    obtain ⟨step, hstep⟩ := hordered.found name (by simp [hsplit])
    simp only [alignAll, hstep] at h
    -- the step itself fails, or one of those behind it, with one more step aligned
    rcases bind_eq_error.1 h with h | ⟨a, -, h⟩
    · refine isLate_of_alignStep (fun s hs => ?_) h
      exact exists_sourceOf (hordered.source hsplit hstep hs) haligned
    · have hsplit' : order = (before ++ [name]) ++ rest := by simp [hsplit]
      refine ih hsplit' (fun n hn => ?_) h
      rw [Table.get?_put]
      rcases List.mem_append.1 hn with hn | hn
      · split
        · exact ⟨a, rfl⟩
        · exact haligned n hn
      · exact ⟨a, if_pos (List.mem_singleton.1 hn).symm⟩

/-- A decision that does not line up is noticed late. -/
theorem isLate_of_checkGovernance (h : checkGovernance aligned step = .error r) : r.IsLate := by
  unfold checkGovernance at h
  split at h
  · cases h
  · obtain ⟨target, -, h⟩ := exists_error_of_forM h
    split at h
    · cases h
    · split at h
      · cases h
      · cases h
        exact Rejection.isLate_alignment _ _

/-- In an order that respects the sources alignment fails for data that does not line up only. -/
theorem Ordered.isLate_of_align (hordered : w.Ordered order) (h : w.align order = .error r) :
    r.IsLate := by
  rcases bind_eq_error.1 h with h | ⟨aligned, -, h⟩
  · exact hordered.isLate_of_alignAll rfl (List.forall_mem_nil _) h
  · rcases bind_eq_error.1 h with h | ⟨⟨⟩, -, h⟩
    · obtain ⟨step, -, h⟩ := exists_error_of_forM h
      exact isLate_of_checkGovernance h
    · cases h

/-- After alignment every step of the order has an alignment. -/
theorem Ordered.exists_aligned (hordered : w.Ordered order) (h : alignAll w [] order = .ok aligned)
    {name : String} (hname : name ∈ order) : ∃ a, aligned.get? name = some a := by
  obtain ⟨before, after, hsplit⟩ := List.append_of_mem hname
  have hnone : ∀ n b, Table.get? ([] : Table String Alignment) n = some b →
      b.outputLineage.length = b.output := fun n b hb => by cases hb
  obtain ⟨-, a, -, -, ha, -, -⟩ :=
    (alignAll_eq_ok h hordered.nodup (fun _ _ => rfl) hnone).2 before name after hsplit
  exact ⟨a, ha⟩

end Workflow

/-! ### Compilation -/

namespace Plan

open Workflow (Ordered)

variable {w : Workflow} {order names : List String} {aligned : Table String Workflow.Alignment}
  {compiled : List Step}

/-- A step is found under its name. -/
theorem exists_find? {name : String} (h : name ∈ compiled.map (·.name)) :
    ∃ step, compiled.find? (·.name == name) = some step := by
  obtain ⟨step, hstep, hname⟩ := List.mem_map.1 h
  exact Option.isSome_iff_exists.1 (List.find?_isSome.2 ⟨step, hstep, by simpa using hname⟩)

/-- A selector of a step compiled before can be bound. -/
theorem exists_bindSelector {s : Selector} (hs : s.PointsInto w (compiled.map (·.name))) :
    ∃ source, bindSelector w compiled s = .ok source := by
  cases s with
  | input name =>
    obtain ⟨input, hinput⟩ := hs
    simp [bindSelector, hinput]
  | output owner property =>
    obtain ⟨step, hstep⟩ := exists_find? hs
    simp [bindSelector, hstep]
  | allOutputs owner =>
    obtain ⟨step, hstep⟩ := exists_find? hs
    simp [bindSelector, hstep]
  | step owner => exact hs.elim

/-- A selector of an output can be bound when the steps are compiled. -/
theorem exists_bindOutput {s : Selector} (hs : s.PointsInto w (compiled.map (·.name))) :
    ∃ bound, bindOutput (w.inputs.map compileInput) compiled s = .ok bound := by
  cases s with
  | input name =>
    obtain ⟨input, hinput⟩ := hs
    have hfound : (w.inputs.map compileInput).find? (·.name == name) =
        some (compileInput input) := by
      rw [List.find?_map]
      exact congrArg (Option.map compileInput) hinput
    simp [bindOutput, hfound]
  | output owner property =>
    obtain ⟨step, hstep⟩ := exists_find? hs
    simp [bindOutput, hstep]
  | allOutputs owner =>
    obtain ⟨step, hstep⟩ := exists_find? hs
    simp [bindOutput, hstep]
  | step owner => exact hs.elim

/-- An argument can be bound when its data can. -/
theorem exists_bind {a : Argument} (h : a.isTargets = false → ∀ s ∈ a.selectors,
    ∃ source, bindSelector w compiled s = .ok source) : ∃ b, bind w compiled a = .ok b := by
  -- a term can be bound when its selector, if it has one, can
  have hterm : ∀ {t : Term}, (∀ s ∈ t.selectors, ∃ source, bindSelector w compiled s = .ok source) →
      ∃ source, bindTerm w compiled t = .ok source := by
    intro t hselectors
    cases t with
    | literal value => exact ⟨_, rfl⟩
    | selector s => exact hselectors s List.mem_cons_self
  cases a with
  | term t =>
    obtain ⟨source, hsource⟩ := hterm (h rfl)
    exact ⟨_, bind_eq_ok.2 ⟨source, hsource, rfl⟩⟩
  | targets steps => exact ⟨_, rfl⟩
  | map entries =>
    have hentries : ∀ entry ∈ entries, ∃ bound : String × Source,
        (do return (entry.1, ← bindTerm w compiled entry.2) : Except Rejection _) = .ok bound := by
      intro entry hentry
      obtain ⟨source, hsource⟩ := hterm fun s hs => h rfl s (List.mem_flatMap.2 ⟨entry, hentry, hs⟩)
      exact ⟨_, bind_eq_ok.2 ⟨source, hsource, rfl⟩⟩
    obtain ⟨bound, hbound⟩ := exists_mapM_iff.2 hentries
    exact ⟨_, bind_eq_ok.2 ⟨bound, hbound, rfl⟩⟩

/-- Where all sources are known a step can be compiled. -/
theorem exists_compileStep {step : Workflow.Step} (hsource : ∀ s, step.HasSource s →
      ∃ source, bindSelector w compiled s = .ok source) (a : Workflow.Alignment) :
    ∃ next, compileStep w order compiled a step = .ok next := by
  have harguments : ∀ entry ∈ step.arguments, ∃ bound : String × Binding,
      (do return (entry.1, ← bind w compiled entry.2) : Except Rejection _) = .ok bound := by
    intro entry hentry
    obtain ⟨b, hb⟩ := exists_bind fun hkind s hs => hsource s ⟨entry.1, entry.2, hentry, hkind, hs⟩
    exact ⟨_, bind_eq_ok.2 ⟨b, hb, rfl⟩⟩
  obtain ⟨bindings, hbindings⟩ := exists_mapM_iff.2 harguments
  exact ⟨_, bind_eq_ok.2 ⟨bindings, hbindings, rfl⟩⟩

/-- The steps of an order are compiled one after another, and none is left out. -/
theorem exists_compileSteps (hordered : w.Ordered order)
    (haligned : ∀ name ∈ order, ∃ a, aligned.get? name = some a)
    (hsplit : order = compiled.map (·.name) ++ names) :
    ∃ steps, compileSteps w order aligned compiled names = .ok steps ∧
      steps.map (·.name) = order := by
  induction names generalizing compiled with
  | nil => exact ⟨compiled, rfl, by simpa using hsplit.symm⟩
  | cons name rest ih =>
    have hmem : name ∈ order := by simp [hsplit]
    obtain ⟨step, hstep⟩ := hordered.found name hmem
    obtain ⟨a, ha⟩ := haligned name hmem
    -- what the step asks for stands before it, as the order respects the edges
    have hcompiled : ∃ next, compileStep w order compiled a step = .ok next :=
      exists_compileStep (fun s hs => exists_bindSelector (hordered.source hsplit hstep hs)) a
    obtain ⟨next, hnext⟩ := hcompiled
    have hname : next.name = name :=
      (compileStep_eq_ok hnext).1.trans (Workflow.name_of_step? hstep).1
    have hsplit' : order = (compiled ++ [next]).map (·.name) ++ rest := by simp [hsplit, hname]
    obtain ⟨steps, hsteps, hnames⟩ := ih hsplit'
    refine ⟨steps, ?_, hnames⟩
    simp only [compileSteps, hstep, ha]
    exact bind_eq_ok.2 ⟨next, hnext, hsteps⟩

/-- Where its source is known an output is refused late only. -/
theorem isLate_of_compileOutput {output : Workflow.Output}
    (hbound : ∃ bound, bindOutput (w.inputs.map compileInput) compiled output.selector = .ok bound)
    {r : Rejection}
    (h : compileOutput (w.inputs.map compileInput) compiled output = .error r) : r.IsLate := by
  obtain ⟨bound, hbound⟩ := hbound
  unfold compileOutput at h
  rw [hbound] at h
  rcases bind_eq_error.1 h with h | ⟨⟨source, lineage⟩, -, h⟩
  · cases h
  · dsimp only at h
    split at h
    · split at h
      · cases h
        exact Rejection.isLate_alignment _ _
      · cases h
    · cases h

/-- A missing parameter is noticed late. -/
theorem isLate_of_checkInitParameters {given : Table String Json} {step : Workflow.Step}
    {r : Rejection} (h : checkInitParameters given step = .error r) : r.IsLate := by
  unfold checkInitParameters at h
  split at h
  · cases h
    exact Or.inl ⟨_, _, rfl⟩
  · cases h

end Plan

/-- That a workflow has all that is looked up in it: its steps have an order, each is found, it has
    an alignment once the steps have been aligned, and so have its targets; then all steps are
    compiled, and every output is bound. -/
structure Workflow.Complete (w : Workflow) (order : List String) : Prop where
  order_eq : w.stepOrder = .ok order
  nodup : order.Nodup
  found : ∀ name ∈ order, ∃ step, w.step? name = some step
  aligned : ∀ aligned, w.alignAll [] order = .ok aligned →
    (∀ name ∈ order, ∃ a, aligned.get? name = some a) ∧
      ∀ step ∈ w.steps, (∃ a, aligned.get? step.name = some a) ∧
        ∀ target ∈ step.targets, ∃ a, aligned.get? target = some a
  compiled : ∀ aligned, w.align order = .ok aligned →
    ∃ steps, Plan.compileSteps w order aligned [] order = .ok steps ∧
      steps.map (·.name) = order ∧ ∀ output ∈ w.outputs,
        ∃ bound, Plan.bindOutput (w.inputs.map Plan.compileInput) steps output.selector = .ok bound

section Compile

variable {registry : Registry} {d : Definition} {w : Workflow} {order : List String}

/-- In an order that respects the sources everything is found when it is looked up. -/
theorem Definition.Resolves.complete (hw : d.Resolves registry w) (hordered : w.Ordered order) :
    w.Complete order := by
  constructor
  case order_eq => exact hordered.order_eq
  case nodup => exact hordered.nodup
  case found => exact hordered.found
  case aligned =>
    intro aligned haligned
    -- the order holds every step, so each of them has been aligned
    have hsteps : ∀ name ∈ w.steps.map (·.name), ∃ a, aligned.get? name = some a :=
      fun name hname => hordered.exists_aligned haligned (hordered.perm.mem_iff.2 hname)
    refine ⟨fun name hname => hordered.exists_aligned haligned hname, fun step hstep => ⟨?_, ?_⟩⟩
    · exact hsteps _ (List.mem_map_of_mem hstep)
    · exact fun target ht => hsteps target (hw.target_declared hstep ht)
  case compiled =>
    intro aligned haligned
    obtain ⟨hall, -⟩ := Workflow.align_eq_ok haligned
    have hcompiled : ∃ steps, Plan.compileSteps w order aligned [] order = .ok steps ∧
        steps.map (·.name) = order :=
      Plan.exists_compileSteps hordered (fun name hname => hordered.exists_aligned hall hname) rfl
    obtain ⟨steps, hsteps, hnames⟩ := hcompiled
    refine ⟨steps, hsteps, hnames, fun output houtput => Plan.exists_bindOutput ?_⟩
    refine (hw.output_pointsInto houtput).mono fun name hname => ?_
    rw [hnames]
    exact hordered.perm.mem_iff.2 hname

/-- A workflow that has all that is looked up in it is refused late. -/
theorem Workflow.Complete.isLate_of_plan (hordered : w.Ordered order) (hcomplete : w.Complete order)
    {initParameters : Table String Json} {r : Rejection}
    (h : w.plan initParameters = .error r) : r.IsLate := by
  unfold Workflow.plan at h
  -- stage by stage: only parameters, alignment and outputs can be refused
  rcases bind_eq_error.1 h with h | ⟨⟨⟩, -, h⟩
  · obtain ⟨step, -, h⟩ := exists_error_of_forM h
    exact Plan.isLate_of_checkInitParameters h
  rw [hcomplete.order_eq] at h
  rcases bind_eq_error.1 h with h | ⟨order', horder, h⟩
  · cases h
  cases horder
  rcases bind_eq_error.1 h with h | ⟨aligned, haligned, h⟩
  · exact hordered.isLate_of_align h
  obtain ⟨steps, hsteps, -, houtputs⟩ := hcomplete.compiled aligned haligned
  rcases bind_eq_error.1 h with h | ⟨steps', hsteps', h⟩
  · cases hsteps.symm.trans h
  cases hsteps.symm.trans hsteps'
  rcases bind_eq_error.1 h with h | ⟨outputs, -, h⟩
  · obtain ⟨output, hmem, h⟩ := exists_error_of_mapM h
    exact Plan.isLate_of_compileOutput (houtputs output hmem) h
  · cases h

/-- Once a definition has been resolved, all that is looked up is there, and compilation ends with a
    plan, or with a missing init parameter, or with data that does not line up. -/
theorem Definition.compile_of_resolve (h : d.resolve registry = .ok w)
    (initParameters : Table String Json) :
    (∃ order, w.Complete order) ∧
      ((∃ p, d.compile registry initParameters = .ok p) ∨
        (∃ step parameter, d.compile registry initParameters =
          .error (.missingInitParameter step parameter)) ∨
        ∃ step fault, d.compile registry initParameters = .error (.alignment step fault)) := by
  have hw := resolves_of_resolve h
  obtain ⟨order, hordered⟩ := hw.exists_ordered
  have hcomplete := hw.complete hordered
  have hcompile : d.compile registry initParameters = w.plan initParameters := by
    rw [Definition.compile, h]
    rfl
  refine ⟨⟨order, hcomplete⟩, ?_⟩
  rw [hcompile]
  cases hplan : w.plan initParameters with
  | ok p => exact Or.inl ⟨p, rfl⟩
  | error r =>
    rcases hcomplete.isLate_of_plan hordered hplan with ⟨step, parameter, rfl⟩ | ⟨step, fault, rfl⟩
    · exact Or.inr (Or.inl ⟨step, parameter, rfl⟩)
    · exact Or.inr (Or.inr ⟨step, fault, rfl⟩)

/-- A definition that is resolved and compiled: of the outcomes that are left to it, it has a
    plan. -/
theorem compile_of_resolve_pairs : ∃ w p, Sample.pairs.resolve Sample.pairsBlocks = .ok w ∧
    (∃ order, w.Complete order) ∧ Sample.pairs.compile Sample.pairsBlocks [] = .ok p ∧
    p.stepNames = ["split", "pass", "pair", "collect"] := by
  have hresolved : ((Sample.pairs.resolve Sample.pairsBlocks).toOption.map fun _ =>
      (Sample.pairs.compile Sample.pairsBlocks []).toOption.map (·.stepNames)) =
      some (some ["split", "pass", "pair", "collect"]) := by
    decide +kernel
  obtain ⟨w, hw, hnames⟩ := Option.map_eq_some_iff.1 hresolved
  have hresolve := toOption_eq_some.1 hw
  obtain ⟨hcomplete, houtcome⟩ := Definition.compile_of_resolve hresolve []
  rcases houtcome with ⟨p, hp⟩ | ⟨step, parameter, hp⟩ | ⟨step, fault, hp⟩
  · rw [hp] at hnames
    exact ⟨w, p, hresolve, hcomplete, hp, Option.some.inj hnames⟩
  -- with one of the two faults there would be no steps
  · rw [hp] at hnames
    cases hnames
  · rw [hp] at hnames
    cases hnames

end Compile

end BatchFlow
