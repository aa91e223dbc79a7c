import BatchFlow.Proofs.Workflow.Reordering

namespace BatchFlow

/-!
# Plans of reordered definitions

When the steps of a definition are declared in another order, the steps of its plan may stand in
another order, and each may list the steps for which it waits, and those that decide about it, in
another order. All else of the plan stays as it is: what is bound to a property depends on the
alignments of the steps from which it comes, and not on where these stand.

* `Plan.Step.Alike` — steps that differ in the order in which they list other steps only.
* `Plan.Reorders` — plans whose steps are alike.
* `Definition.exists_compile_withSteps` — the plan of a definition with its steps in another order.
-/

namespace Plan

/-- Whether two steps differ in the order in which they list other steps only. -/
structure Step.Alike (step step' : Step) : Prop where
  governedBy : step'.governedBy.Perm step.governedBy
  dependsOn : step'.dependsOn.Perm step.dependsOn
  rest : step' = { step with governedBy := step'.governedBy, dependsOn := step'.dependsOn }

/-- Whether two plans differ in the order of their steps, and of what these list, only. -/
structure Reorders (p p' : Plan) : Prop where
  version : p'.version = p.version
  inputs : p'.inputs = p.inputs
  outputs : p'.outputs = p.outputs
  initParameters : p'.initParameters = p.initParameters
  names : p'.stepNames.Perm p.stepNames
  alike : ∀ step ∈ p.steps, ∃ step' ∈ p'.steps, step.Alike step'
  alike' : ∀ step' ∈ p'.steps, ∃ step ∈ p.steps, step.Alike step'

/-- Alike steps may change sides. -/
theorem Step.Alike.symm {step step' : Step} (h : step.Alike step') : step'.Alike step where
  governedBy := h.governedBy.symm
  dependsOn := h.dependsOn.symm
  rest := by rw [h.rest]

/-- Reordered plans may change sides. -/
theorem Reorders.symm {p p' : Plan} (h : p.Reorders p') : p'.Reorders p where
  version := h.version.symm
  inputs := h.inputs.symm
  outputs := h.outputs.symm
  initParameters := h.initParameters.symm
  names := h.names.symm
  alike := fun step' hstep' => (h.alike' step' hstep').imp fun _ => And.imp_right Step.Alike.symm
  alike' := fun step hstep => (h.alike step hstep).imp fun _ => And.imp_right Step.Alike.symm

/-- Alike steps have one name. -/
theorem Step.Alike.name_eq {step step' : Step} (h : step.Alike step') : step'.name = step.name := by
  rw [h.rest]

/-- Alike steps have one type of block. -/
theorem Step.Alike.blockType_eq {step step' : Step} (h : step.Alike step') :
    step'.blockType = step.blockType := by
  rw [h.rest]

/-! ### What is bound -/

section Bind

variable {w w' : Workflow} {compiled compiled' : List Step} {order order' : List String}

/-- The alignment of the step that is found under a name. -/
def alignment? (steps : List Step) (name : String) : Option Workflow.Alignment :=
  (steps.find? (·.name == name)).map (·.alignment)

/-- Steps of the same alignment are found under a name, or none. -/
theorem find?_cases {name : String} (h : alignment? compiled' name = alignment? compiled name) :
    (compiled'.find? (·.name == name) = none ∧ compiled.find? (·.name == name) = none) ∨
      ∃ e e', compiled'.find? (·.name == name) = some e' ∧
        compiled.find? (·.name == name) = some e ∧ e'.alignment = e.alignment := by
  unfold alignment? at h
  cases hfound : compiled.find? (·.name == name) with
  | none =>
    rw [hfound] at h
    exact Or.inl ⟨Option.map_eq_none_iff.1 h, rfl⟩
  | some e =>
    rw [hfound] at h
    obtain ⟨e', hfound', he⟩ := Option.map_eq_some_iff.1 h
    exact Or.inr ⟨e, e', hfound', rfl, he⟩

/-- A selector is bound by the alignment of the step at which it points. -/
theorem bindSelector_congr (hinputs : w'.inputs = w.inputs) {s : Selector}
    (h : ∀ owner, s.stepName? = some owner →
      alignment? compiled' owner = alignment? compiled owner) :
    bindSelector w' compiled' s = bindSelector w compiled s := by
  cases s with
  | input name => simp only [bindSelector, Workflow.input?, hinputs]
  | output owner property =>
    rcases find?_cases (h owner rfl) with ⟨hnone', hnone⟩ | ⟨e, e', hfound', hfound, he⟩
    · simp only [bindSelector, hnone', hnone]
    · simp only [bindSelector, hfound', hfound, he]
  | allOutputs owner =>
    rcases find?_cases (h owner rfl) with ⟨hnone', hnone⟩ | ⟨e, e', hfound', hfound, he⟩
    · simp only [bindSelector, hnone', hnone]
    · simp only [bindSelector, hfound', hfound, he]
  | step owner => rfl

/-- So is the selector of an output. -/
theorem compileOutput_congr {inputs : List Input} {output : Workflow.Output}
    (h : ∀ owner, output.selector.stepName? = some owner →
      alignment? compiled' owner = alignment? compiled owner) :
    compileOutput inputs compiled' output = compileOutput inputs compiled output := by
  -- an output looks at the alignment of the step that it names, if it names one
  have hbound : bindOutput inputs compiled' output.selector =
      bindOutput inputs compiled output.selector := by
    cases hs : output.selector with
    | input name => rfl
    | output owner property =>
      rw [hs] at h
      rcases find?_cases (h owner rfl) with ⟨hnone', hnone⟩ | ⟨e, e', hfound', hfound, he⟩
      · simp only [bindOutput, hnone', hnone]
      · simp only [bindOutput, hfound', hfound, he]
    | allOutputs owner =>
      rw [hs] at h
      rcases find?_cases (h owner rfl) with ⟨hnone', hnone⟩ | ⟨e, e', hfound', hfound, he⟩
      · simp only [bindOutput, hnone', hnone]
      · simp only [bindOutput, hfound', hfound, he]
    | step owner => rfl
  unfold compileOutput
  rw [hbound]

/-- An argument is bound by what its selectors are bound to. -/
theorem bind_congr {a : Argument} (h : a.isTargets = false → ∀ s ∈ a.selectors,
    bindSelector w' compiled' s = bindSelector w compiled s) :
    bind w' compiled' a = bind w compiled a := by
  have hterm : ∀ {t : Term},
      (∀ s ∈ t.selectors, bindSelector w' compiled' s = bindSelector w compiled s) →
        bindTerm w' compiled' t = bindTerm w compiled t := by
    intro t hselectors
    cases t with
    | literal value => rfl
    | selector s => exact hselectors s List.mem_cons_self
  cases a with
  | term t => simp only [bind, hterm (h rfl)]
  | targets steps => rfl
  | map entries =>
    simp only [bind]
    rw [mapM_congr]
    rintro ⟨name, t⟩ ht
    dsimp only
    rw [hterm fun s hs => h rfl s (List.mem_flatMap.2 ⟨_, ht, hs⟩)]

/-- The steps that decide about a step are the same in every order. -/
theorem governors_perm (hsame : w.Reorders w') (horder : order'.Perm order) (name : String) :
    (governors w' order' name).Perm (governors w order name) := by
  unfold governors
  simp only [hsame.step?]
  exact horder.filter _

/-- The steps from which an edge leads to a step are the same in every order. -/
theorem dependencies_perm (hsame : w.Reorders w') (h : w.stepOrder = .ok order)
    (h' : w'.stepOrder = .ok order') (horder : order'.Perm order) (name : String) :
    (dependencies w'.graph order' name).Perm (dependencies w.graph order name) := by
  rw [dependencies_eq_filter h, dependencies_eq_filter h']
  refine (horder.filter _).trans (List.Perm.of_eq (List.filter_congr fun other _ => ?_))
  rw [Bool.eq_iff_iff, List.contains_iff_mem, List.contains_iff_mem, mem_predecessors_iff,
    mem_predecessors_iff]
  simp only [hsame.edges]

/-- A step is compiled to steps that are alike when its selectors are bound to the same. -/
theorem alike_of_compileStep (hsame : w.Reorders w') (hordered : w.stepOrder = .ok order)
    (hordered' : w'.stepOrder = .ok order') (horder : order'.Perm order)
    {a : Workflow.Alignment} {step : Workflow.Step} {next next' : Step}
    (h : compileStep w order compiled a step = .ok next)
    (h' : compileStep w' order' compiled' a step = .ok next')
    (hbound : ∀ s, step.HasSource s → bindSelector w' compiled' s = bindSelector w compiled s) :
    next.Alike next' := by
  unfold compileStep at h h'
  obtain ⟨bindings, hbindings, h⟩ := bind_eq_ok.1 h
  obtain ⟨bindings', hbindings', h'⟩ := bind_eq_ok.1 h'
  have hbindingsSame : bindings' = bindings := by
    refine Except.ok.inj (hbindings'.symm.trans (Eq.trans (mapM_congr ?_) hbindings))
    rintro ⟨property, argument⟩ hargument
    dsimp only
    rw [bind_congr fun hkind s hs => hbound s ⟨property, argument, hargument, hkind, hs⟩]
  cases pure_eq_ok.1 h
  cases pure_eq_ok.1 h'
  subst hbindingsSame
  exact ⟨governors_perm hsame horder _, dependencies_perm hsame hordered hordered' horder _, rfl⟩

end Bind

/-! ### Plans -/

section Made

variable {registry : Registry} {d d' : Definition} {w w' : Workflow} {order order' : List String}
  {aligned aligned' : Table String Workflow.Alignment} {steps steps' : List Step} {p : Plan}

/-- Each compiled step stands under its name, with its alignment. -/
theorem alignment?_of_mem (hnodup : (steps.map (·.name)).Nodup) {earlier : List Step}
    (hearlier : earlier.Sublist steps) {e : Step} (he : e ∈ earlier) :
    alignment? earlier e.name = some e.alignment := by
  rw [alignment?, Table.find?_name (hnodup.sublist (hearlier.map _)) he]
  rfl

/-- How the steps that were compiled in an order came about. -/
structure CompiledIn (w : Workflow) (order : List String)
    (aligned : Table String Workflow.Alignment) (steps : List Step) : Prop where
  ordered : w.Ordered order
  names : steps.map (·.name) = order
  step : ∀ {earlier next later}, steps = earlier ++ next :: later →
    ∃ step, w.step? next.name = some step ∧ aligned.get? next.name = some next.alignment ∧
      compileStep w order earlier next.alignment step = .ok next

/-- Each step is compiled from the steps before it. -/
theorem compiledIn_of_compileSteps (hordered : w.Ordered order)
    (haligned : ∀ name ∈ order, ∃ a, aligned.get? name = some a)
    (h : compileSteps w order aligned [] order = .ok steps) :
    CompiledIn w order aligned steps := by
  have hfound : ∀ name ∈ order, ∃ step a, w.step? name = some step ∧
      aligned.get? name = some a := by
    intro name hname
    obtain ⟨step, hstep⟩ := hordered.found name hname
    obtain ⟨a, ha⟩ := haligned name hname
    exact ⟨step, a, hstep, ha⟩
  obtain ⟨tail, htail, hnames, hcompiled⟩ := compileSteps_eq_ok h hfound
  rw [List.nil_append] at htail
  subst htail
  refine ⟨hordered, hnames, fun {earlier next later} hsplit => ?_⟩
  obtain ⟨step, a, hstep, ha, hnext⟩ := hcompiled earlier next later hsplit
  obtain ⟨-, -, -, -, -, -, rfl, -⟩ := compileStep_eq_ok hnext
  exact ⟨step, hstep, ha, hnext⟩

/-- The alignment that is found among some of the compiled steps is the one in the table. -/
theorem CompiledIn.alignment?_eq (h : CompiledIn w order aligned steps) {earlier : List Step}
    (hearlier : earlier.Sublist steps) {name : String} (hname : name ∈ earlier.map (·.name)) :
    alignment? earlier name = aligned.get? name := by
  obtain ⟨e, he, rfl⟩ := List.mem_map.1 hname
  obtain ⟨before, after, hsplit⟩ := List.append_of_mem (hearlier.subset he)
  obtain ⟨-, -, ha, -⟩ := h.step hsplit
  rw [alignment?_of_mem (h.names ▸ h.ordered.nodup) hearlier he, ha]

/-- In two orders the steps of the same name are alike. -/
theorem CompiledIn.alike (h : CompiledIn w order aligned steps)
    (h' : CompiledIn w' order' aligned' steps') (hsame : w.Reorders w')
    (haligned : ∀ name ∈ order', aligned'.get? name = aligned.get? name)
    {step step' : Step} (hstep : step ∈ steps) (hstep' : step' ∈ steps')
    (hname : step'.name = step.name) : step.Alike step' := by
  have horder : order'.Perm order :=
    h'.ordered.perm.trans ((hsame.steps.map _).trans h.ordered.perm.symm)
  obtain ⟨earlier, later, hsplit⟩ := List.append_of_mem hstep
  obtain ⟨earlier', later', hsplit'⟩ := List.append_of_mem hstep'
  obtain ⟨wstep, hfound, ha, hcompiled⟩ := h.step hsplit
  obtain ⟨wstep', hfound', ha', hcompiled'⟩ := h'.step hsplit'
  have hmem : step'.name ∈ order' := h'.names ▸ List.mem_map_of_mem hstep'
  rw [hname, hsame.step?, hfound] at hfound'
  cases hfound'
  rw [haligned _ hmem, hname, ha] at ha'
  rw [← Option.some.inj ha'] at hcompiled'
  refine alike_of_compileStep hsame h.ordered.order_eq h'.ordered.order_eq horder hcompiled
    hcompiled' fun s hs => ?_
  have hplace : order = earlier.map (·.name) ++ step.name :: later.map (·.name) := by
    rw [← h.names, hsplit, List.map_append, List.map_cons]
  have hplace' : order' = earlier'.map (·.name) ++ step.name :: later'.map (·.name) := by
    rw [← h'.names, hsplit', List.map_append, List.map_cons, hname]
  -- the step at which a selector points was compiled before, with the same alignment
  refine bindSelector_congr hsame.inputs fun owner howner => ?_
  have hbefore := h.ordered.owner_mem hplace hfound hs howner
  have hbefore' := h'.ordered.owner_mem hplace' ((hsame.step? _).trans hfound) hs howner
  rw [h.alignment?_eq (hsplit ▸ List.sublist_append_left _ _) hbefore,
    h'.alignment?_eq (hsplit' ▸ List.sublist_append_left _ _) hbefore']
  exact haligned owner (hplace' ▸ List.mem_append_left _ hbefore')

/-- Steps that were compiled in two orders make plans that differ in the order of their steps. -/
theorem CompiledIn.reorders (h : CompiledIn w order aligned p.steps)
    (h' : CompiledIn w' order' aligned' steps') (hsame : w.Reorders w')
    (haligned : ∀ name ∈ order', aligned'.get? name = aligned.get? name) :
    p.Reorders { p with steps := steps' } := by
  have hnames : (steps'.map (·.name)).Perm (p.steps.map (·.name)) := by
    rw [h.names, h'.names]
    exact h'.ordered.perm.trans ((hsame.steps.map _).trans h.ordered.perm.symm)
  refine ⟨rfl, rfl, rfl, rfl, hnames, fun step hstep => ?_, fun step' hstep' => ?_⟩
  · obtain ⟨step', hstep', hname⟩ := List.mem_map.1 (hnames.mem_iff.2 (List.mem_map_of_mem hstep))
    exact ⟨step', hstep', h.alike h' hsame haligned hstep hstep' hname⟩
  · obtain ⟨step, hstep, hname⟩ := List.mem_map.1 (hnames.mem_iff.1 (List.mem_map_of_mem hstep'))
    exact ⟨step, hstep, h.alike h' hsame haligned hstep hstep' hname.symm⟩

/-- The outputs of a workflow are bound to the same in both orders. -/
theorem CompiledIn.compileOutput_eq (h : CompiledIn w order aligned steps)
    (h' : CompiledIn w' order' aligned' steps') (hsame : w.Reorders w')
    (haligned : ∀ name ∈ order', aligned'.get? name = aligned.get? name) {inputs : List Input}
    {output : Workflow.Output} (hpoints : output.selector.PointsInto w (w.steps.map (·.name))) :
    compileOutput inputs steps' output = compileOutput inputs steps output := by
  refine compileOutput_congr fun owner howner => ?_
  have hdeclared := hpoints.owner_mem howner
  have hmem : owner ∈ order := h.ordered.perm.mem_iff.2 hdeclared
  have hmem' : owner ∈ order' :=
    h'.ordered.perm.mem_iff.2 ((hsame.steps.map _).mem_iff.2 hdeclared)
  rw [h.alignment?_eq (.refl _) (h.names.symm ▸ hmem),
    h'.alignment?_eq (.refl _) (h'.names.symm ▸ hmem')]
  exact haligned owner hmem'

/-- What is made from a workflow is made of it with its steps in another order as well. -/
theorem Made.exists_reorders (h : Made w order aligned p) (hw : d.Resolves registry w)
    (hw' : d'.Resolves registry w') (hsame : w.Reorders w') :
    ∃ order' aligned' steps', Made w' order' aligned' { p with steps := steps' } ∧
      p.Reorders { p with steps := steps' } := by
  obtain ⟨order₁, hordered⟩ := hw.exists_ordered
  obtain rfl : order₁ = order := Except.ok.inj (hordered.order_eq.symm.trans h.order_eq)
  obtain ⟨order', hordered'⟩ := hw'.exists_ordered
  -- each step is aligned as before, so it compiles as before
  obtain ⟨aligned', hall', halign', haligned⟩ :=
    hsame.exists_align hw.step_names_nodup hw' hordered hordered' h.aligned_eq
  obtain ⟨hall, -⟩ := Workflow.align_eq_ok h.aligned_eq
  have hfound' : ∀ name ∈ order', ∃ a, aligned'.get? name = some a :=
    fun name hname => hordered'.exists_aligned hall' hname
  have hnone : order' = ([] : List Step).map (·.name) ++ order' := rfl
  obtain ⟨steps', hsteps', -⟩ := exists_compileSteps hordered' hfound' hnone
  have hcompiled := compiledIn_of_compileSteps hordered
    (fun name hname => hordered.exists_aligned hall hname) h.steps_eq
  have hcompiled' := compiledIn_of_compileSteps hordered' hfound' hsteps'
  refine ⟨order', aligned', steps', ⟨hordered'.order_eq, halign', ?_, hsteps', ?_⟩,
    hcompiled.reorders hcompiled' hsame haligned⟩
  · exact h.inputs_eq.trans (by rw [hsame.inputs])
  · rw [hsame.outputs]
    refine Eq.trans (mapM_congr fun output houtput => ?_) h.outputs_eq
    exact hcompiled.compileOutput_eq hcompiled' hsame haligned (hw.output_pointsInto houtput)

end Made

end Plan

/-- What is checked when a plan is made from a workflow. -/
theorem Workflow.plan_eq_ok_iff {w : Workflow} {initParameters : Table String Json} {p : Plan} :
    w.plan initParameters = .ok p ↔
      (∀ step ∈ w.steps, Plan.checkInitParameters initParameters step = .ok ()) ∧
        p.version = w.version ∧ p.initParameters = initParameters ∧
          ∃ order aligned, Plan.Made w order aligned p := by
  constructor
  · intro h
    obtain ⟨order, aligned, hmade⟩ := Plan.made_of_plan h
    unfold Workflow.plan at h
    obtain ⟨⟨⟩, hinit, h⟩ := bind_eq_ok.1 h
    obtain ⟨_, -, h⟩ := bind_eq_ok.1 h
    obtain ⟨_, -, h⟩ := bind_eq_ok.1 h
    obtain ⟨_, -, h⟩ := bind_eq_ok.1 h
    obtain ⟨_, -, h⟩ := bind_eq_ok.1 h
    cases pure_eq_ok.1 h
    exact ⟨forM_eq_ok.1 hinit, rfl, rfl, order, aligned, hmade⟩
  · rintro ⟨hinit, hversion, hparameters, order, aligned, hmade⟩
    obtain ⟨version, inputs, steps, outputs, init⟩ := p
    cases hversion
    cases hparameters
    obtain ⟨horder, haligned, hinputs, hsteps, houtputs⟩ := hmade
    cases hinputs
    -- conversely, no stage fails
    refine bind_eq_ok.2 ⟨(), forM_eq_ok.2 hinit, bind_eq_ok.2 ⟨order, horder, ?_⟩⟩
    refine bind_eq_ok.2 ⟨aligned, haligned, bind_eq_ok.2 ⟨steps, hsteps, ?_⟩⟩
    exact bind_eq_ok.2 ⟨outputs, houtputs, rfl⟩

/-- With its steps in another order a definition is compiled to a plan that differs in the order of
    its steps only. -/
theorem Definition.exists_compile_withSteps {registry : Registry}
    {initParameters : Table String Json} {d : Definition} {p : Plan}
    (h : d.compile registry initParameters = .ok p) {steps : List StepDef}
    (hperm : steps.Perm d.steps) :
    ∃ p', (d.withSteps steps).compile registry initParameters = .ok p' ∧ p.Reorders p' := by
  obtain ⟨w, hresolve, h⟩ := bind_eq_ok.1 h
  obtain ⟨w', hresolve', hsame⟩ := exists_resolve_withSteps hresolve hperm
  obtain ⟨hinit, hversion, hparameters, order, aligned, hmade⟩ := Workflow.plan_eq_ok_iff.1 h
  obtain ⟨order', aligned', steps', hmade', hreorders⟩ :=
    hmade.exists_reorders (resolves_of_resolve hresolve) (resolves_of_resolve hresolve') hsame
  refine ⟨_, bind_eq_ok.2 ⟨w', hresolve', Workflow.plan_eq_ok_iff.2 ⟨?_, ?_, ?_, ?_⟩⟩, hreorders⟩
  · exact fun step hstep => hinit step (hsame.steps.mem_iff.1 hstep)
  · exact hversion.trans hsame.version.symm
  · exact hparameters
  · exact ⟨order', aligned', hmade'⟩

end BatchFlow
