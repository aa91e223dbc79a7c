import BatchFlow.Proofs.Plan.Dimensions

namespace BatchFlow

/-!
# Dependencies in compiled plans

What a step takes, what it waits for and who decides about it are read off the properties of the
steps by separate traversals. In a compiled plan they go together:

* `Plan.Step.Closed`, `Plan.DependencyClosed` — a step waits for steps before it, namely those from
  which it takes data and those that decide about it.
* `Definition.dependencyClosed_of_compile` — compiled plans are so, and have the declared steps.
-/

namespace Plan

/-- How a step goes together with the steps before it and with the steps that decide about it. -/
structure Step.Closed (p : Plan) (earlier : List Step) (step : Step) : Prop where
  /-- The step waits for steps before it, for each once and in the order of the plan. -/
  dependsOn_sublist : step.dependsOn.Sublist (earlier.map (·.name))
  dependsOn_nodup : step.dependsOn.Nodup
  mem_dependsOn : ∀ name, name ∈ step.dependsOn ↔
    (∃ property depth, .step name property depth ∈ step.sources) ∨ name ∈ step.governedBy
  governedBy_sublist : step.governedBy.Sublist (earlier.map (·.name))
  mem_governedBy : ∀ name, name ∈ step.governedBy ↔
    ∃ g ∈ p.steps, g.name = name ∧ step.name ∈ g.targets

/-- In every place of a plan stands a step that goes together with those before it. -/
def DependencyClosed (p : Plan) : Prop :=
  ∀ earlier step later, p.steps = earlier ++ step :: later → step.Closed p earlier

/-- A part of a list without repetitions that has only elements of its beginning is a part of the
    beginning. -/
theorem sublist_of_forall_mem {α : Type} {xs first rest : List α} (h : xs.Sublist (first ++ rest))
    (hnodup : (first ++ rest).Nodup) (hfirst : ∀ x ∈ xs, x ∈ first) : xs.Sublist first := by
  obtain ⟨left, right, rfl, hleft, hright⟩ := List.sublist_append_iff.1 h
  have hnil : right = [] := by
    refine List.eq_nil_iff_forall_not_mem.2 fun x hx => ?_
    exact (List.nodup_append.1 hnodup).2.2 x (hfirst x (List.mem_append_right _ hx)) x
      (hright.subset hx) rfl
  simpa [hnil] using hleft

section Made

variable {registry : Registry} {d : Definition} {w : Workflow} {order : List String}
  {aligned : Table String Workflow.Alignment} {p : Plan}

/-- The steps of a plan are the declared ones, each with its block. -/
theorem Made.steps_perm (h : Made w order aligned p) (hw : d.Resolves registry w) :
    (p.steps.map fun step => (step.name, step.blockType)).Perm
      (d.steps.map fun step => (step.name, step.blockType)) := by
  -- a name goes with the block type of the step of that name in the workflow
  let typed (name : String) : String × String :=
    (name, ((w.step? name).map (·.blockType)).getD "")
  have hplan : (p.steps.map fun step => (step.name, step.blockType)) = order.map typed := by
    rw [← (h.steps hw).1, stepNames, List.map_map]
    refine List.map_congr_left fun step hstep => ?_
    obtain ⟨earlier, later, hsplit⟩ := List.append_of_mem hstep
    obtain ⟨wstep, a, hfound, -, hcompiled⟩ := (h.steps hw).2 earlier step later hsplit
    obtain ⟨-, htype, -⟩ := compileStep_eq_ok hcompiled
    simp [typed, hfound, htype]
  have hworkflow : (w.steps.map fun step => (step.name, step.blockType)) =
      (w.steps.map (·.name)).map typed := by
    rw [List.map_map]
    refine List.map_congr_left fun step hstep => ?_
    simp [typed, hw.step?_eq_some hstep]
  have hdeclared : (w.steps.map fun step => (step.name, step.blockType)) =
      d.steps.map fun step => (step.name, step.blockType) := by
    refine map_eq_of_mapM hw.steps_eq fun declared step hstep => ?_
    obtain ⟨hname, htype, -⟩ := resolveStep_eq_ok hstep
    rw [hname, htype]
  rw [hplan, ← hdeclared, hworkflow]
  exact (hw.stepOrder_perm h.order_eq).map typed

/-- A step goes together with the steps before it. -/
theorem Made.step_closed (h : Made w order aligned p) (hw : d.Resolves registry w)
    {earlier : List Step} {step : Step} {later : List Step}
    (hsplit : p.steps = earlier ++ step :: later) : step.Closed p earlier := by
  have hstep := h.step_coherent hw hsplit
  have hnodup : p.stepNames.Nodup := (h.steps hw).1 ▸ h.order_nodup hw
  have hnames : p.stepNames = earlier.map (·.name) ++ step.name :: later.map (·.name) := by
    rw [stepNames, hsplit, List.map_append, List.map_cons]
  obtain ⟨wstep, a, -, -, hcompiled⟩ := (h.steps hw).2 earlier step later hsplit
  obtain ⟨-, -, -, -, hgoverned, -⟩ := compileStep_eq_ok hcompiled
  -- both lists are picked from the order of the steps
  have hdependsOn : step.dependsOn.Sublist p.stepNames := h.dependsOn_sublist hw hsplit
  have hgovernedBy : step.governedBy.Sublist p.stepNames := by
    rw [hgoverned, ← (h.steps hw).1]
    exact List.filter_sublist
  have hearlier : ∀ name ∈ step.dependsOn, name ∈ earlier.map (·.name) := by
    intro name hname
    obtain ⟨other, hother, rfl⟩ := hstep.exists_of_mem_dependsOn hname
    exact List.mem_map_of_mem hother
  have hdecides : ∀ name ∈ step.governedBy, name ∈ step.dependsOn := fun name hname =>
    hstep.mem_dependsOn.2 (Or.inr (hstep.mem_governedBy.1 hname))
  constructor
  case dependsOn_sublist =>
    exact sublist_of_forall_mem (hnames ▸ hdependsOn) (hnames ▸ hnodup) hearlier
  case dependsOn_nodup => exact hnodup.sublist hdependsOn
  case mem_dependsOn =>
    intro name
    rw [hstep.mem_dependsOn, hstep.mem_governedBy]
  case governedBy_sublist =>
    exact sublist_of_forall_mem (hnames ▸ hgovernedBy) (hnames ▸ hnodup) fun name hname =>
      hearlier name (hdecides name hname)
  case mem_governedBy => exact fun name => hstep.mem_governedBy

end Made

end Plan

/-- A compiled plan has the declared steps, each once. A step waits for steps before it, in their
    order: for those from which it takes data, also inside named values, and for those that decide
    about it, which are the steps that have it among their targets. -/
theorem Definition.dependencyClosed_of_compile {registry : Registry}
    {initParameters : Table String Json} {d : Definition} {p : Plan}
    (h : d.compile registry initParameters = .ok p) :
    (p.steps.map fun step => (step.name, step.blockType)).Perm
        (d.steps.map fun step => (step.name, step.blockType)) ∧
      p.stepNames.Nodup ∧ p.DependencyClosed := by
  obtain ⟨w, order, aligned, hw, hmade⟩ := exists_made h
  refine ⟨hmade.steps_perm hw, (hmade.coherent hw).steps_nodup, ?_⟩
  intro earlier step later hsplit
  exact hmade.step_closed hw hsplit

/-- The pairing waits for the split and for the step that decides, which governs it; the collection
    waits for the pairing only. -/
theorem dependencyClosed_of_compile_pairs :
    ∃ p, Sample.pairs.compile Sample.pairsBlocks [] = .ok p ∧ p.DependencyClosed ∧
      p.steps.map (fun step => (step.name, step.dependsOn, step.governedBy)) =
        [("split", [], []), ("pass", [], []), ("pair", ["split", "pass"], ["pass"]),
          ("collect", ["pair"], [])] := by
  have hwaits : (Sample.pairs.compile Sample.pairsBlocks []).toOption.map (fun p => p.steps.map
      fun step => (step.name, step.dependsOn, step.governedBy)) =
        some [("split", [], []), ("pass", [], []), ("pair", ["split", "pass"], ["pass"]),
          ("collect", ["pair"], [])] := by
    decide +kernel
  obtain ⟨p, hcompile, hwaits⟩ := Option.map_eq_some_iff.1 hwaits
  have hcompile := toOption_eq_some.1 hcompile
  obtain ⟨-, -, hclosed⟩ := Definition.dependencyClosed_of_compile hcompile
  exact ⟨p, hcompile, hclosed, hwaits⟩

end BatchFlow
