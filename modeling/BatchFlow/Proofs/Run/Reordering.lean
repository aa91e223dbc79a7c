import BatchFlow.Proofs.Plan.Blocks
import BatchFlow.Proofs.Plan.Reordering
import BatchFlow.Proofs.Run.InOrder

namespace BatchFlow

/-!
# Runs of reordered definitions

A plan whose steps stand in another order can be followed by the plan from which it came, step by
step: a step waits for the same steps in both, so it is ready in one when it is in the other, and it
is started at the same elements, as both states show the same. This makes a run of the first plan in
an order that need not be its own; it does not fail and ends with the same records, as all its runs
do when one is complete.

* `RunState.LooksLike` — states that show the same in their tables.
* `Entry.Alike` — entries of steps that are alike, with the same outputs.
* `Mirrors` — two runs whose journals are alike, entry by entry.
* `Mirrors.perform`, `exists_mirrors` — one step, and all steps.
* `Plan.Reorders.runInOrder_eq_ok_iff` — whole runs of plans that differ in their order.
* `reordered_steps` — the order in which steps are declared plays no part.
-/

variable {context context' : RunContext} {shape : BatchStructure} {j j' : Journal}
  {s s' : RunState} {step step' : Plan.Step}

/-! ### What a step reads -/

/-- Steps that are alike differ in two lists. -/
theorem Plan.Step.Alike.exists_eq (h : step.Alike step') : ∃ governedBy dependsOn,
    step' = { step with governedBy, dependsOn } ∧
      governedBy.Perm step.governedBy ∧ dependsOn.Perm step.dependsOn :=
  ⟨_, _, h.rest, h.governedBy, h.dependsOn⟩

/-- In one state, steps that are alike are started at the same elements. -/
theorem Plan.Step.Alike.elements_eq (h : step.Alike step') (context : RunContext) (s : RunState) :
    s.elements context step' = s.elements context step := by
  obtain ⟨governedBy, dependsOn, rfl, hgoverned, -⟩ := h.exists_eq
  have hmem : ∀ g, g ∈ governedBy ↔ g ∈ step.governedBy := fun g => hgoverned.mem_iff
  refine RunState.elements_congr_governors context s step ?_ fun index => ?_
  · rw [Bool.eq_iff_iff, RunState.governing, Branches.any_isExhausted_iff,
      Branches.any_isExhausted_iff]
    simp only [hmem]
  · rw [Bool.eq_iff_iff, RunState.governing, Branches.admits_governing_iff,
      Branches.admits_governing_iff]
    simp only [hmem]

/-- Two states that show the same results, numbers of children and masks. -/
structure RunState.LooksLike (s s' : RunState) : Prop where
  results : ∀ key, s'.results.get? key = s.results.get? key
  children : ∀ l index, s'.shape.children? l index = s.shape.children? l index
  gates : ∀ edge, s'.branches.gate? edge = s.branches.gate? edge

/-- In states that show the same, steps that are alike are started at the same elements. -/
theorem RunState.LooksLike.elements_eq (h : s.LooksLike s')
    (hinputs : context'.inputs = context.inputs) (hstep : step.Alike step')
    (hsuits : step.alignment.Suits step.name step.manifest) :
    s'.elements context' step' = s.elements context step :=
  (hstep.elements_eq context' s').trans <| RunState.elements_congr hinputs hsuits
    (fun _ _ => h.gates _) (fun _ _ => h.results _) fun _ _ _ => h.children _ _

/-! ### What a step leaves -/

/-- Entries of steps that are alike, with the same outputs. -/
structure Entry.Alike (e e' : Entry) : Prop where
  step : e.step.Alike e'.step
  outputs : e'.outputs = e.outputs

namespace Entry.Alike

variable {e e' : Entry}

/-- Alike entries differ in the order of governors and dependencies only. -/
theorem exists_eq (h : e.Alike e') :
    ∃ governedBy dependsOn, e' = ⟨{ e.step with governedBy, dependsOn }, e.outputs⟩ := by
  obtain ⟨governedBy, dependsOn, hstep, -⟩ := h.step.exists_eq
  refine ⟨governedBy, dependsOn, ?_⟩
  rw [← hstep, ← h.outputs]

/-- Alike entries produce the same values. -/
theorem produced_eq (h : e.Alike e') : e'.produced = e.produced := by
  obtain ⟨_, _, rfl⟩ := h.exists_eq
  rfl

/-- Alike entries note the same numbers of children. -/
theorem counts_eq (h : e.Alike e') : e'.counts = e.counts := by
  obtain ⟨_, _, rfl⟩ := h.exists_eq
  rfl

/-- Alike entries decide alike. -/
theorem gate?_eq (h : e.Alike e') (target : String) : e'.gate? target = e.gate? target := by
  obtain ⟨_, _, rfl⟩ := h.exists_eq
  rfl

/-- Alike entries can be recorded alike. -/
theorem recordable (h : e.Alike e') (hrecordable : e.Recordable shape) : e'.Recordable shape := by
  obtain ⟨_, _, rfl⟩ := h.exists_eq
  exact hrecordable

end Entry.Alike

namespace Journal

/-- Two journals whose entries are alike, one by one. -/
def Alike (j j' : Journal) : Prop := List.Forall₂ Entry.Alike j j'

/-- The same steps are done, in the same order. -/
theorem Alike.names_eq (h : j.Alike j') : j'.names = j.names := by
  induction h with
  | nil => rfl
  | cons he _ ih => exact congrArg₂ List.cons he.step.name_eq ih

/-- What entries have in common that are alike is found in both journals. -/
theorem Alike.bind_ofStep?_eq (h : j.Alike j') {β : Type} {f : Entry → Option β}
    (hf : ∀ e e', e.Alike e' → f e' = f e) (name : String) :
    (j'.ofStep? name).bind f = (j.ofStep? name).bind f := by
  induction h with
  | nil => rfl
  | @cons e e' j j' he _ ih =>
    rw [ofStep?, ofStep?, List.find?_cons, List.find?_cons, he.step.name_eq]
    split
    · exact hf e e' he
    · exact ih

end Journal

/-- States whose journals are alike show the same, unless something has failed. -/
theorem Shows.looksLike (h : Shows shape j s) (h' : Shows shape j' s') (hnone : s.failure = none)
    (hnone' : s'.failure = none) (halike : j.Alike j') : s.LooksLike s' where
  results := by
    rintro ⟨name, index⟩
    rw [h'.get?_results hnone', h.get?_results hnone]
    exact halike.bind_ofStep?_eq (fun e e' he => by rw [he.produced_eq]) name
  children l index := by
    rw [h'.children?_eq hnone', h.children?_eq hnone, Journal.count?, Journal.count?]
    congr 1
    cases l.getLast? with
    | none => rfl
    | some owner => exact halike.bind_ofStep?_eq (fun e e' he => by rw [he.counts_eq]) owner
  gates edge := by
    rw [h'.gates, h.gates]
    exact halike.bind_ofStep?_eq (fun e e' he => he.gate?_eq edge.2) edge.1

/-! ### Two runs side by side -/

/-- Two runs on the same inputs, of plans that differ in their order only. -/
structure RunContext.Reorders (context context' : RunContext) : Prop where
  plan : context.engine.plan.Reorders context'.engine.plan
  blocks : ∀ step ∈ context.engine.plan.steps,
    context'.engine.blocks.get? step.blockType = context.engine.blocks.get? step.blockType
  inputs : context'.inputs = context.inputs
  draw : context'.draw = context.draw

/-- The blocks of steps that are alike return the same. -/
theorem RunContext.Reorders.outcome_eq (h : context.Reorders context')
    (hmem : step ∈ context.engine.plan.steps) (hstep : step.Alike step') (elements : Invocation) :
    Task.outcome context' ⟨step', elements⟩ = Task.outcome context ⟨step, elements⟩ := by
  obtain ⟨governedBy, dependsOn, rfl, -⟩ := hstep.exists_eq
  unfold Task.outcome
  simp only [h.blocks step hmem, h.plan.initParameters, h.draw]

/-- Alike steps return the same outputs. -/
theorem RunContext.Reorders.returned (h : context.Reorders context')
    (hmem : step ∈ context.engine.plan.steps) (hstep : step.Alike step') {elements : Invocation}
    {outputs : List (Index × Output)}
    (hreturned : Entry.Returned context elements ⟨step, outputs⟩) :
    Entry.Returned context' elements ⟨step', outputs⟩ := by
  unfold Entry.Returned at hreturned ⊢
  rwa [h.outcome_eq hmem hstep]

/-- Two runs side by side, in which nothing has failed or is under way. -/
structure Mirrors (context context' : RunContext) (shape : BatchStructure) (j j' : Journal)
    (s s' : RunState) : Prop where
  first : Reaches context shape j s
  second : Reaches context' shape j' s'
  alike : j.Alike j'
  idle : s.failure = none ∧ s.inFlight = []
  idle' : s'.failure = none ∧ s'.inFlight = []

namespace Mirrors

/-- The next step of the second run is ready in the first one as well. -/
theorem exists_ready (h : Mirrors context context' shape j j' s s')
    (hcontext : context.Reorders context') (hplan' : context'.engine.plan.Coherent)
    (hready' : step' ∈ s'.ready) :
    ∃ step ∈ context.engine.plan.steps, step.Alike step' ∧ step ∈ s.ready := by
  have hnames := h.alike.names_eq
  obtain ⟨step, hstep, halike⟩ :=
    hcontext.plan.alike' step' (h.second.tracks.mem_steps_of_ready hready')
  refine ⟨step, hstep, halike, ?_⟩
  refine h.first.tracks.ready_of_done h.idle.1 h.idle.2 hstep (fun hmem => ?_) fun name hname => ?_
  · refine h.second.tracks.not_done_of_ready hplan'.steps_nodup hready' ?_
    obtain ⟨e, he, rfl⟩ := List.mem_map.1 hmem
    rw [hnames, halike.name_eq]
    exact List.mem_map_of_mem he
  · rw [← hnames]
    exact h.second.tracks.ready step' hready' name (halike.dependsOn.mem_iff.2 hname)

/-- When the second run performs its next step, the first one can follow. -/
theorem perform (h : Mirrors context context' shape j j' s s')
    (hcontext : context.Reorders context') (hplan : context.engine.plan.Coherent)
    (hplan' : context'.engine.plan.Coherent)
    (hnever : ∀ {j s}, Reaches context shape j s → s.failure = none) {later : List Plan.Step}
    (hsplit : context'.engine.plan.steps = j'.map (·.step) ++ step' :: later) :
    ∃ step outputs, Mirrors context context' shape (j ++ [⟨step, outputs⟩])
      (j' ++ [⟨step', outputs⟩]) (s.perform context step) (s'.perform context' step') := by
  have hready' := h.second.ready_of_inOrder hplan' h.idle'.1 h.idle'.2 hsplit
  obtain ⟨step, hmem, hstep, hready⟩ := h.exists_ready hcontext hplan' hready'
  -- the first run starts the step at some elements and records what it returns there
  obtain ⟨_, hperformed, -⟩ := exists_reaches_perform h.first h.idle.1 h.idle.2 hready
  obtain ⟨outputs, hreturned, hfirst, hinFlight⟩ :=
    exists_returned_of_perform h.first h.idle.1 h.idle.2 hready (hnever hperformed)
  have hrecordable : Entry.Recordable shape ⟨step, outputs⟩ :=
    hfirst.recordable_of_entry hplan (List.mem_append_right _ (List.mem_singleton.2 rfl))
  have halike : Entry.Alike ⟨step, outputs⟩ ⟨step', outputs⟩ := ⟨hstep, rfl⟩
  -- the second run starts it at the same elements, so it returns the same
  obtain ⟨earlier, after, hplace⟩ := List.append_of_mem hmem
  have hlooks := (h.first.shows hplan).looksLike (h.second.shows hplan') h.idle.1 h.idle'.1 h.alike
  have helements : s'.elements context' step' = s.elements context step :=
    hlooks.elements_eq hcontext.inputs hstep (hplan.step hplace).suits
  obtain ⟨hsecond, hfailure', hinFlight'⟩ := reaches_perform_of_returned hplan' h.second h.idle'.1
    h.idle'.2 hready' (helements ▸ hcontext.returned hmem hstep hreturned)
    (halike.recordable hrecordable)
  refine ⟨step, outputs, hfirst, hsecond, ?_, ⟨hnever hperformed, hinFlight⟩,
    ⟨hfailure', hinFlight'⟩⟩
  exact List.rel_append h.alike (.cons halike .nil)

end Mirrors

/-- The first plan can follow the steps of the second in their order, unless it can fail. -/
theorem exists_mirrors (hcontext : context.Reorders context')
    (hplan : context.engine.plan.Coherent) (hplan' : context'.engine.plan.Coherent)
    (hnever : ∀ {j s}, Reaches context shape j s → s.failure = none)
    {earlier later : List Plan.Step} (hsplit : context'.engine.plan.steps = earlier ++ later) :
    ∃ j j' s, j'.map (·.step) = earlier ∧ Mirrors context context' shape j j' s
      (earlier.foldl (RunState.perform context') (.initial context'.engine.plan shape)) := by
  induction earlier using List.reverseRecOn generalizing later with
  | nil => exact ⟨[], [], _, rfl, .initial, .initial, .nil, ⟨rfl, rfl⟩, ⟨rfl, rfl⟩⟩
  | append_singleton earlier step' ih =>
    rw [List.append_assoc, List.singleton_append] at hsplit
    obtain ⟨j, j', s, hj', hmirrors⟩ := ih hsplit
    rw [← hj'] at hsplit
    obtain ⟨step, outputs, hperformed⟩ := hmirrors.perform hcontext hplan hplan' hnever hsplit
    refine ⟨j ++ [⟨step, outputs⟩], j' ++ [⟨step', outputs⟩], s.perform context step, ?_, ?_⟩
    · rw [List.map_append, hj']
      rfl
    · rw [List.foldl_append]
      exact hperformed

/-! ### Whole runs -/

/-- A plan in another order runs as the plan from which it came. -/
theorem Plan.Reorders.runInOrder_eq_ok {p p' : Plan} (h : p.Reorders p') (hplan : p.Coherent)
    (hplan' : p'.Coherent) {blocks blocks' : Table String Block}
    (hblocks : ∀ step ∈ p.steps, blocks'.get? step.blockType = blocks.get? step.blockType)
    {draw : String → Float} {parameters : Table String Json} {records : List Record}
    (hrun : p.runInOrder blocks draw parameters = .ok records) :
    p'.runInOrder blocks' draw parameters = .ok records := by
  obtain ⟨prepared, s₀, hprepare, hs₀, hfailure, hrecords⟩ := runInOrder_eq_ok_iff.1 hrun
  let context : RunContext := ⟨⟨p, blocks, {}⟩, prepared.store, draw⟩
  let context' : RunContext := ⟨⟨p', blocks', {}⟩, prepared.store, draw⟩
  have hcontext : context.Reorders context' := ⟨h, hblocks, rfl, rfl⟩
  have hcoherent : context.engine.plan.Coherent := hplan
  have hfilled : ∀ i ∈ context.engine.plan.inputs, prepared.shape.Filled (.ofInput i.depth) :=
    fun i hi => filled_of_prepare hplan hprepare hi
  -- the run in order is complete, so no run of the first plan fails
  obtain ⟨j₀, hreaches₀, -, hdone₀⟩ :=
    exists_reaches_inOrder hcoherent prepared.shape (List.append_nil p.steps).symm
  rw [show p.steps.foldl (RunState.perform context) _ = s₀ from hs₀] at hreaches₀ hdone₀
  have hall₀ := Journal.forall_mem_names (hdone₀ hfailure)
  have hnever : ∀ {j s}, Reaches context prepared.shape j s → s.failure = none :=
    fun hreaches => hreaches₀.failure_eq_none hcoherent hfilled hall₀ hreaches
  obtain ⟨j, j', s, hj', hmirrors⟩ :=
    exists_mirrors hcontext hcoherent hplan' hnever (List.append_nil p'.steps).symm
  -- the run that follows the second plan is complete as well, so it ends with the same records
  have hall : ∀ step ∈ p.steps, step.name ∈ j.names := by
    intro step hstep
    obtain ⟨step', hstep', halike⟩ := h.alike step hstep
    rw [← hmirrors.alike.names_eq, ← halike.name_eq]
    exact Journal.forall_mem_names hj' step' hstep'
  have hresult := resultOf_eq hcoherent hfilled hreaches₀ hmirrors.first hall₀ hall
  rw [Engine.resultOf, Engine.resultOf, hmirrors.idle.1, hfailure] at hresult
  have hlooks := (hmirrors.first.shows hcoherent).looksLike (hmirrors.second.shows hplan')
    hmirrors.idle.1 hmirrors.idle'.1 hmirrors.alike
  refine runInOrder_eq_ok_iff.2 ⟨prepared, _, h.inputs ▸ hprepare, rfl, hmirrors.idle'.1, ?_⟩
  rw [← hrecords, ← Except.ok.inj hresult, h.outputs]
  exact assemble_congr hlooks.results hlooks.children

/-- A run of one plan succeeds exactly when a run of the other does, with the same records. -/
theorem Plan.Reorders.runInOrder_eq_ok_iff {p p' : Plan} (h : p.Reorders p') (hplan : p.Coherent)
    (hplan' : p'.Coherent) {blocks blocks' : Table String Block}
    (hblocks : ∀ step ∈ p.steps, blocks'.get? step.blockType = blocks.get? step.blockType)
    {draw : String → Float} {parameters : Table String Json} {records : List Record} :
    p.runInOrder blocks draw parameters = .ok records ↔
      p'.runInOrder blocks' draw parameters = .ok records := by
  refine ⟨h.runInOrder_eq_ok hplan hplan' hblocks,
    h.symm.runInOrder_eq_ok hplan' hplan fun step' hstep' => ?_⟩
  obtain ⟨step, hstep, halike⟩ := h.alike' step' hstep'
  rw [halike.blockType_eq, hblocks step hstep]

/-- The order in which steps are declared plays no part. A definition is compiled in every order of
    its steps or in none; the steps of its plans are alike, with the same bindings and lineages; and
    a run of one plan succeeds exactly when a run of the other does, with the same records. -/
theorem reordered_steps (registry : Registry) (initParameters : Table String Json) (d : Definition)
    {steps : List StepDef} (hperm : steps.Perm d.steps) :
    ((∃ p, d.compile registry initParameters = .ok p) ↔
      ∃ p', (d.withSteps steps).compile registry initParameters = .ok p') ∧
    ∀ p p', d.compile registry initParameters = .ok p →
      (d.withSteps steps).compile registry initParameters = .ok p' →
      p.Reorders p' ∧ ∀ settings settings', ∃ engine engine',
        (Engine.ofDefinition registry settings initParameters d = .ok engine ∧ engine.plan = p) ∧
        (Engine.ofDefinition registry settings' initParameters (d.withSteps steps) = .ok engine' ∧
          engine'.plan = p') ∧
        ∀ parameters draw order order' records,
          (engine.run parameters { order, draw }).result = .ok records ↔
            (engine'.run parameters { order := order', draw }).result = .ok records := by
  have hback : d.steps.Perm (d.withSteps steps).steps := hperm.symm
  refine ⟨⟨?_, ?_⟩, fun p p' hcompile hcompile' => ?_⟩
  · rintro ⟨p, hcompile⟩
    obtain ⟨p', hcompile', -⟩ := Definition.exists_compile_withSteps hcompile hperm
    exact ⟨p', hcompile'⟩
  · rintro ⟨p', hcompile'⟩
    obtain ⟨p, hcompile, -⟩ := Definition.exists_compile_withSteps hcompile' hback
    exact ⟨p, hcompile⟩
  · obtain ⟨_, hcompile₁, hreorders⟩ := Definition.exists_compile_withSteps hcompile hperm
    cases hcompile'.symm.trans hcompile₁
    refine ⟨hreorders, fun settings settings' => ?_⟩
    obtain ⟨engine, hengine, rfl, hblocks⟩ := Engine.exists_ofDefinition hcompile settings
    obtain ⟨engine', hengine', rfl, hblocks'⟩ := Engine.exists_ofDefinition hcompile' settings'
    refine ⟨engine, engine', ⟨hengine, rfl⟩, ⟨hengine', rfl⟩, ?_⟩
    intro parameters draw order order' records
    have hplan := Definition.coherent_of_compile hcompile
    have hplan' := Definition.coherent_of_compile hcompile'
    rw [Engine.run_eq_ok_iff hplan parameters rfl, Engine.run_eq_ok_iff hplan' parameters rfl]
    refine hreorders.runInOrder_eq_ok_iff hplan hplan' fun step hstep => ?_
    obtain ⟨step', hstep', halike⟩ := hreorders.alike step hstep
    rw [hblocks step hstep, ← halike.blockType_eq, hblocks' step' hstep']

/-- The steps that may run at once change places, and still the one at the end sees the same. -/
theorem reordered_diamond : ∃ engine engine' : Engine,
    engine.plan.stepNames = ["left", "right", "both"] ∧
    engine'.plan.stepNames = ["right", "left", "both"] ∧
    Engine.ofDefinition Sample.diamondBlocks {} [] Sample.diamond = .ok engine ∧
    Engine.ofDefinition Sample.diamondBlocks {} []
      (Sample.diamond.withSteps Sample.diamond.steps.reverse) = .ok engine' ∧
    engine.plan.Reorders engine'.plan ∧
    ∀ order, (engine'.run [("x", .array [.bool true, .null])] { order }).result =
      .ok Sample.diamondRecords := by
  have hfound : ((Engine.ofDefinition Sample.diamondBlocks {} [] Sample.diamond).toOption.map
      fun engine => (engine.plan.stepNames,
        (engine.run [("x", .array [.bool true, .null])]).result.toOption)) =
      some (["left", "right", "both"], some Sample.diamondRecords) := by decide +kernel
  have hfound' : ((Engine.ofDefinition Sample.diamondBlocks {} []
      (Sample.diamond.withSteps Sample.diamond.steps.reverse)).toOption.map
      fun engine => engine.plan.stepNames) = some ["right", "left", "both"] := by decide +kernel
  obtain ⟨engine, hengine, he⟩ := Option.map_eq_some_iff.1 hfound
  obtain ⟨engine', hengine', hnames'⟩ := Option.map_eq_some_iff.1 hfound'
  obtain ⟨hnames, hrun⟩ := Prod.mk.inj he
  have hengine := toOption_eq_some.1 hengine
  have hengine' := toOption_eq_some.1 hengine'
  obtain ⟨hreorders, hruns⟩ := (reordered_steps Sample.diamondBlocks [] Sample.diamond
    (List.reverse_perm Sample.diamond.steps)).2 _ _ (Engine.ofDefinition_eq_ok hengine).1
    (Engine.ofDefinition_eq_ok hengine').1
  obtain ⟨engine₁, engine₁', ⟨hengine₁, -⟩, ⟨hengine₁', -⟩, hiff⟩ := hruns {} {}
  cases hengine.symm.trans hengine₁
  cases hengine'.symm.trans hengine₁'
  refine ⟨engine, engine', hnames, hnames', hengine, hengine', hreorders, fun order => ?_⟩
  exact (hiff _ (fun _ => 0.5) oldestFirst order _).1 (toOption_eq_some.1 hrun)

end BatchFlow
