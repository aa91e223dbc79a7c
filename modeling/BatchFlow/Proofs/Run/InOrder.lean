import BatchFlow.Catalog.Scripted
import BatchFlow.Proofs.Run.Determinacy

namespace BatchFlow

/-!
# One step after another

Among the runs of a plan there is one that needs no scheduler: each step is passed over, or started
and finished, before the next one is looked at. The order of the plan allows it, as a step depends
on steps before it only. It reaches its states as every run does, so what holds of two runs on the
same inputs holds of it and any other run.

* `RunState.perform` — deals with one step: it is passed over, or started and finished at once.
* `Plan.runInOrder` — the run that performs the steps of a plan in order.
* `Engine.run_eq_ok_iff`, `run_compiled_eq_ok_iff` — a run succeeds exactly when that one does, with
  the same records.
-/

/-- Deals with one step before anything else happens: it is passed over, or started and finished. -/
def RunState.perform (context : RunContext) (s : RunState) (step : Plan.Step) : RunState :=
  if s.failure.isSome then s
  else
    let s := RunState.take context { s with ready := s.ready.erase step } step
    match s.inFlight with
    | [] => s
    | task :: rest => RunState.finish context { s with inFlight := rest } task

/-- The state after all steps of a plan have been performed in order. -/
def Engine.stateInOrder (engine : Engine) (draw : String → Float) (prepared : Prepared) :
    RunState :=
  engine.plan.steps.foldl (RunState.perform ⟨engine, prepared.store, draw⟩)
    (.initial engine.plan prepared.shape)

/-- The run of a plan that performs its steps one at a time in the order of the plan. -/
def Plan.runInOrder (plan : Plan) (blocks : Table String Block) (draw : String → Float)
    (parameters : Table String Json) : Except RunFault (List Record) :=
  match prepare plan.inputs parameters with
  | .error fault => .error fault
  | .ok prepared =>
    let engine : Engine := ⟨plan, blocks, {}⟩
    engine.resultOf prepared (engine.stateInOrder draw prepared)

variable {context : RunContext} {shape : BatchStructure} {j j' : Journal} {s s' : RunState}
  {step : Plan.Step}

/-! ### Performing a step -/

/-- A step that is not done is ready when nothing has failed or is under way and all steps before it
    are done. -/
theorem Tracks.ready_of_done {plan : Plan} (h : Tracks plan j s) (hfailure : s.failure = none)
    (hinFlight : s.inFlight = []) (hstep : step ∈ plan.steps) (hnew : step ∉ j.map (·.step))
    (hdone : ∀ name ∈ step.dependsOn, name ∈ j.names) : step ∈ s.ready := by
  obtain ⟨lost, hperm, hlost⟩ := h.steps
  rw [hinFlight, hlost.unfailed hfailure, List.map_nil, List.nil_append, List.append_nil] at hperm
  rcases List.mem_append.1 (hperm.mem_iff.2 hstep) with hwaits | hmem
  · obtain ⟨w, hw, rfl⟩ := List.mem_map.1 hwaits
    obtain ⟨hothers, hne⟩ := h.waiting w hw
    refine absurd (hothers.trans (List.filter_eq_nil_iff.2 fun name hname => ?_)) hne
    simpa using hdone name hname
  · exact (List.mem_append.1 hmem).resolve_right hnew

/-- A step that is performed is passed over, or it is started and finished. -/
theorem perform_cases (h : Reaches context shape j s) (hfailure : s.failure = none)
    (hinFlight : s.inFlight = []) (hready : step ∈ s.ready) :
    (s.perform context step).inFlight = [] ∧
    ((s.elements context step = [] ∧ (s.perform context step).failure = none ∧
        Reaches context shape (j ++ [⟨step, []⟩]) (s.perform context step)) ∨
      (s.elements context step ≠ [] ∧ ∃ s₁ : RunState, Reaches context shape j s₁ ∧
        s₁.failure = none ∧ s₁.inFlight[0]? = some ⟨step, s.elements context step⟩ ∧
        s₁.inFlight.eraseIdx 0 = [] ∧ s.perform context step =
          RunState.finish context { s₁ with inFlight := s₁.inFlight.eraseIdx 0 }
            ⟨step, s.elements context step⟩)) := by
  have htake := h.take hready hfailure
  have hperform : ∀ s₁, RunState.take context { s with ready := s.ready.erase step } step = s₁ →
      s.perform context step = match s₁.inFlight with
        | [] => s₁
        | task :: rest => RunState.finish context { s₁ with inFlight := rest } task := by
    rintro _ rfl
    unfold RunState.perform
    rw [if_neg]
    rw [hfailure]
    exact Bool.false_ne_true
  rcases RunState.take_cases context { s with ready := s.ready.erase step } step with
    ⟨hnil, htaken, events, branches, -, he⟩ | ⟨hne, htaken, events, ids, he⟩
  · rw [show s.taken context step = [⟨step, []⟩] from htaken, he] at htake
    have hsame := hperform _ he
    have hnothing : (RunState.release { s with
      ready := s.ready.erase step, events, branches } step.name).inFlight = [] := hinFlight
    rw [hnothing] at hsame
    rw [hsame]
    exact ⟨hinFlight, Or.inl ⟨hnil, hfailure, htake⟩⟩
  · rw [show s.taken context step = [] from htaken, List.append_nil] at htake
    -- the state between taking the step and finishing its task, which is the only one under way
    let s₁ : RunState := { s with
      ready := s.ready.erase step, events, branches := s.branches.close ids,
      inFlight := [⟨step, s.elements context step⟩] }
    have he₁ : RunState.take context { s with ready := s.ready.erase step } step = s₁ := by
      rw [he]
      show ({ s with
        ready := s.ready.erase step, events, branches := s.branches.close ids,
        inFlight := s.inFlight ++ [⟨step, s.elements context step⟩] } : RunState) = s₁
      rw [hinFlight]
      rfl
    rw [he₁] at htake
    rw [hperform s₁ he₁]
    refine ⟨?_, Or.inr ⟨hne, s₁, htake, hfailure, rfl, rfl, rfl⟩⟩
    exact RunState.finish_inFlight context { s₁ with inFlight := [] } _

/-- A step that is performed leaves an entry in the journal, or a failure. -/
theorem exists_reaches_perform (h : Reaches context shape j s) (hfailure : s.failure = none)
    (hinFlight : s.inFlight = []) (hready : step ∈ s.ready) :
    ∃ j', Reaches context shape j' (s.perform context step) ∧
      (s.perform context step).inFlight = [] ∧
      ((s.perform context step).failure = none → j'.map (·.step) = j.map (·.step) ++ [step]) := by
  obtain ⟨hinFlight', hcases⟩ := perform_cases h hfailure hinFlight hready
  rcases hcases with ⟨-, -, hreaches⟩ | ⟨-, s₁, hreaches, -, htask, -, he⟩
  · exact ⟨_, hreaches, hinFlight', fun _ => List.map_append⟩
  · have hfinish := hreaches.finish htask
    rw [← he] at hfinish
    refine ⟨_, hfinish, hinFlight', fun hnone => ?_⟩
    rcases RunState.finish_cases context { s₁ with inFlight := s₁.inFlight.eraseIdx 0 }
        ⟨step, s.elements context step⟩ with
      ⟨-, outputs, -, -, hfinished⟩ | ⟨-, ⟨fault, left, events, -, he'⟩, -⟩
    · rw [hfinished, List.map_append]
      rfl
    · rw [he, he'] at hnone
      cases hnone

/-- A step that is performed leaves what it returns at its elements, if that can be recorded. -/
theorem reaches_perform_of_returned (hplan : context.engine.plan.Coherent)
    (h : Reaches context shape j s) (hfailure : s.failure = none) (hinFlight : s.inFlight = [])
    (hready : step ∈ s.ready) {outputs : List (Index × Output)}
    (hreturned : Entry.Returned context (s.elements context step) ⟨step, outputs⟩)
    (hrecordable : Entry.Recordable shape ⟨step, outputs⟩) :
    Reaches context shape (j ++ [⟨step, outputs⟩]) (s.perform context step) ∧
      (s.perform context step).failure = none ∧ (s.perform context step).inFlight = [] := by
  obtain ⟨hinFlight', hcases⟩ := perform_cases h hfailure hinFlight hready
  -- the two ways a step is performed match the two ways it returns: no elements and no outputs, or
  -- a task whose block succeeds
  rcases hcases with ⟨hnil, hnone, hreaches⟩ | ⟨hne, s₁, hreaches, hnone, htask, -, he⟩
  · rcases hreturned with ⟨-, houtputs⟩ | ⟨hne, -⟩
    · cases (show outputs = [] from houtputs)
      exact ⟨hreaches, hnone, hinFlight'⟩
    · exact absurd hnil hne
  · rcases hreturned with ⟨hnil, -⟩ | ⟨-, results, houtcome, hlength, houtputs⟩
    · exact absurd hnil hne
    · cases (show outputs = _ from houtputs)
      have hfinish := hreaches.finish htask
      rw [← he] at hfinish
      rcases RunState.finish_cases context { s₁ with inFlight := s₁.inFlight.eraseIdx 0 }
          ⟨step, s.elements context step⟩ with
        ⟨-, results', houtcome', hrecord, hfinished⟩ | ⟨-, -, hfails⟩
      · cases houtcome.symm.trans houtcome'
        rw [hfinished] at hfinish
        refine ⟨hfinish, ?_, hinFlight'⟩
        obtain ⟨-, recording, -, events, branches, -, he'⟩ := RunState.record_eq_ok hrecord
        rw [he, he']
        exact hnone
      · obtain ⟨s₂, hs₂⟩ := hreaches.exists_record hplan htask hlength hrecordable
        exact absurd hs₂ (hfails results s₂ hnone houtcome)

/-- A step that is performed without a failure leaves what it returned at its elements. -/
theorem exists_returned_of_perform (h : Reaches context shape j s) (hfailure : s.failure = none)
    (hinFlight : s.inFlight = []) (hready : step ∈ s.ready)
    (hnone : (s.perform context step).failure = none) :
    ∃ outputs, Entry.Returned context (s.elements context step) ⟨step, outputs⟩ ∧
      Reaches context shape (j ++ [⟨step, outputs⟩]) (s.perform context step) ∧
      (s.perform context step).inFlight = [] := by
  obtain ⟨hinFlight', hcases⟩ := perform_cases h hfailure hinFlight hready
  rcases hcases with ⟨hnil, -, hreaches⟩ | ⟨hne, s₁, hreaches, -, htask, -, he⟩
  · exact ⟨[], Or.inl ⟨hnil, rfl⟩, hreaches, hinFlight'⟩
  · have hfinish := hreaches.finish htask
    rw [← he] at hfinish
    rcases RunState.finish_cases context { s₁ with inFlight := s₁.inFlight.eraseIdx 0 }
        ⟨step, s.elements context step⟩ with
      ⟨-, outputs, houtcome, hrecord, hfinished⟩ | ⟨-, ⟨fault, left, events, -, he'⟩, -⟩
    · rw [hfinished] at hfinish
      have hlength := (RunState.record_eq_ok hrecord).1
      exact ⟨_, Or.inr ⟨hne, outputs, houtcome, hlength, rfl⟩, hfinish, hinFlight'⟩
    · rw [he, he'] at hnone
      cases hnone

/-! ### Performing all steps -/

/-- When the steps before it are done and nothing else, a step is ready. -/
theorem Reaches.ready_of_inOrder (hplan : context.engine.plan.Coherent)
    (h : Reaches context shape j s) (hfailure : s.failure = none) (hinFlight : s.inFlight = [])
    {later : List Plan.Step}
    (hsplit : context.engine.plan.steps = j.map (·.step) ++ step :: later) : step ∈ s.ready := by
  have hnodup := hplan.steps_nodup
  rw [Plan.stepNames, hsplit, List.map_append, List.map_cons] at hnodup
  -- the steps that are done are those before it, on which alone it can depend
  have hnew : step ∉ j.map (·.step) := fun hmem =>
    List.disjoint_of_nodup_append hnodup (List.mem_map_of_mem hmem) List.mem_cons_self
  refine h.tracks.ready_of_done hfailure hinFlight
    (hsplit ▸ List.mem_append_right _ List.mem_cons_self) hnew fun name hname => ?_
  obtain ⟨other, hother, rfl⟩ := (hplan.step hsplit).exists_of_mem_dependsOn hname
  obtain ⟨entry, hentry, rfl⟩ := List.mem_map.1 hother
  exact List.mem_map_of_mem hentry

/-- After a failure no step is performed. -/
theorem perform_of_failure {fault : RunFault} (h : s.failure = some fault) (step : Plan.Step) :
    s.perform context step = s := by
  unfold RunState.perform
  rw [h]
  rfl

/-- The names in a journal are those of the steps in it. -/
theorem Journal.forall_mem_names {j : Journal} {steps : List Plan.Step}
    (h : j.map (·.step) = steps) : ∀ step ∈ steps, step.name ∈ j.names := by
  subst h
  intro step hstep
  obtain ⟨e, he, rfl⟩ := List.mem_map.1 hstep
  exact List.mem_map_of_mem he

/-- Performing the steps in order is a run, in which all of them are done unless one fails. -/
theorem exists_reaches_inOrder (hplan : context.engine.plan.Coherent) (shape : BatchStructure)
    {earlier later : List Plan.Step} (hsplit : context.engine.plan.steps = earlier ++ later) :
    let s := earlier.foldl (RunState.perform context) (.initial context.engine.plan shape)
    ∃ j, Reaches context shape j s ∧ s.inFlight = [] ∧
      (s.failure = none → j.map (·.step) = earlier) := by
  -- from the right, so that the hypothesis is about the state in which the last step is performed
  induction earlier using List.reverseRecOn generalizing later with
  | nil => exact ⟨[], .initial, rfl, fun _ => rfl⟩
  | append_singleton earlier step ih =>
    rw [List.append_assoc, List.singleton_append] at hsplit
    obtain ⟨j, hreaches, hinFlight, hdone⟩ := ih hsplit
    simp only [List.foldl_append, List.foldl_cons, List.foldl_nil]
    generalize earlier.foldl (RunState.perform context) (.initial context.engine.plan shape) = s
      at hreaches hinFlight hdone
    cases hfailure : s.failure with
    | some fault =>
      rw [perform_of_failure hfailure]
      exact ⟨j, hreaches, hinFlight, fun hnone => by rw [hfailure] at hnone; cases hnone⟩
    | none =>
      have hj := hdone hfailure
      have hready : step ∈ s.ready := by
        rw [← hj] at hsplit
        exact hreaches.ready_of_inOrder hplan hfailure hinFlight hsplit
      obtain ⟨j', hreaches', hinFlight', hdone'⟩ :=
        exists_reaches_perform hreaches hfailure hinFlight hready
      exact ⟨j', hreaches', hinFlight', fun hnone => by rw [hdone' hnone, hj]⟩

/-! ### Whole runs -/

/-- The records are made from what is found in the results and the structure. -/
theorem assemble_congr {outputs : List Plan.Output} {size : Nat} {inputs : InputStore}
    {results results' : ResultStore} {shape shape' : BatchStructure}
    (hresults : ∀ key, results'.get? key = results.get? key)
    (hshape : ∀ l index, shape'.children? l index = shape.children? l index) :
    assemble outputs size inputs results' shape' = assemble outputs size inputs results shape := by
  have hlookup : ∀ index source, lookup? inputs results' index source =
      lookup? inputs results index source := by
    intro index source
    cases source with
    | literal value => rfl
    | input name depth => rfl
    | step name property depth => exact congrArg (Option.map _) (hresults _)
  have hnest : ∀ (leaf : Index → Json) (rest above : Lineage) (index : Index),
      nest shape' leaf above rest index = nest shape leaf above rest index := by
    intro leaf rest
    induction rest with
    | nil => intro above index; rfl
    | cons level rest ih =>
      intro above index
      rw [nest, nest, hshape]
      simp only [ih]
  unfold assemble outputValue
  simp only [hlookup, hnest]

/-- Two complete runs on the same inputs end with the same records. -/
theorem resultOf_eq (hplan : context.engine.plan.Coherent) {prepared : Prepared}
    (hfilled : ∀ i ∈ context.engine.plan.inputs, prepared.shape.Filled (.ofInput i.depth))
    (h : Reaches context prepared.shape j s) (h' : Reaches context prepared.shape j' s')
    (hall : ∀ step ∈ context.engine.plan.steps, step.name ∈ j.names)
    (hall' : ∀ step ∈ context.engine.plan.steps, step.name ∈ j'.names) :
    context.engine.resultOf prepared s' = context.engine.resultOf prepared s := by
  have hshows := h.shows hplan
  have hshows' := h'.shows hplan
  -- the results and the counts are functions of the journal, and two complete journals agree on
  -- every step; a name outside the plan has no entry in either
  have hentry : ∀ name, j'.ofStep? name = j.ofStep? name := by
    intro name
    by_cases hname : name ∈ context.engine.plan.stepNames
    · obtain ⟨step, hstep, rfl⟩ := List.mem_map.1 hname
      exact (h.ofStep?_eq hplan hfilled h' _ hname (hall step hstep) (hall' step hstep)).symm
    · have hnone : ∀ {j s}, Reaches context prepared.shape j s → j.ofStep? name = none := by
        intro j s h
        refine Journal.ofStep?_eq_none_iff.2 fun hmem => hname ?_
        obtain ⟨e, he, rfl⟩ := List.mem_map.1 hmem
        exact List.mem_map_of_mem (h.tracks.mem_steps_of_entry he)
      rw [hnone h, hnone h']
  have hnone := h.failure_eq_none hplan hfilled hall h
  have hnone' := h.failure_eq_none hplan hfilled hall h'
  unfold Engine.resultOf
  rw [hnone, hnone']
  refine congrArg Except.ok (assemble_congr (fun key => ?_) fun l index => ?_)
  · rw [hshows.get?_results hnone, hshows'.get?_results hnone', Journal.output?, Journal.output?,
      hentry]
  · rw [hshows.children?_eq hnone, hshows'.children?_eq hnone', Journal.count?, Journal.count?]
    congr 1
    cases l.getLast? with
    | none => rfl
    | some owner => rw [Option.bind_some, Option.bind_some, hentry]

/-- The run in order gives records when it does not fail. -/
theorem Plan.runInOrder_eq_ok_iff {plan : Plan} {blocks : Table String Block}
    {draw : String → Float} {parameters : Table String Json} {records : List Record} :
    plan.runInOrder blocks draw parameters = .ok records ↔
      ∃ prepared s, prepare plan.inputs parameters = .ok prepared ∧
        Engine.stateInOrder ⟨plan, blocks, {}⟩ draw prepared = s ∧ s.failure = none ∧
        assemble plan.outputs prepared.batchSize prepared.store s.results s.shape = records := by
  unfold runInOrder
  cases prepare plan.inputs parameters with
  | error fault =>
    constructor
    · intro h
      cases h
    · rintro ⟨_, _, h, -⟩
      cases h
  | ok prepared =>
    simp only [Engine.resultOf]
    constructor
    · intro h
      split at h
      · cases h
      · rename_i hfailure
        exact ⟨prepared, _, rfl, rfl, hfailure, Except.ok.inj h⟩
    · rintro ⟨_, s, hprepared, rfl, hfailure, hrecords⟩
      cases hprepared
      rw [hfailure]
      exact congrArg Except.ok hrecords

/-- How many steps may run at once plays no part in which states are reached. -/
theorem Reaches.change_settings {plan : Plan} {blocks : Table String Block} {settings : Settings}
    {inputs : InputStore} {draw : String → Float}
    (h : Reaches ⟨⟨plan, blocks, settings⟩, inputs, draw⟩ shape j s) (settings' : Settings) :
    Reaches ⟨⟨plan, blocks, settings'⟩, inputs, draw⟩ shape j s := by
  induction h with
  | initial => exact .initial
  | take _ hstep hfailure ih => exact ih.take hstep hfailure
  | finish _ htask ih => exact ih.finish htask

/-- A run of a coherent plan succeeds exactly when the run in order does, with the same records. -/
theorem Engine.run_eq_ok_iff {engine : Engine} (hplan : engine.plan.Coherent)
    (parameters : Table String Json) {options : RunOptions} (hoptions : options.cancelled = false)
    {records : List Record} :
    (engine.run parameters options).result = .ok records ↔
      engine.plan.runInOrder engine.blocks options.draw parameters = .ok records := by
  obtain ⟨plan, blocks, settings⟩ := engine
  unfold run Plan.runInOrder
  cases hprepare : prepare plan.inputs parameters with
  | error fault => exact Iff.rfl
  | ok prepared =>
    simp only [hoptions, Bool.false_eq_true, if_false]
    have hfilled : ∀ i ∈ plan.inputs, prepared.shape.Filled (.ofInput i.depth) := fun i hi =>
      filled_of_prepare hplan hprepare hi
    obtain ⟨j, hreaches, hinFlight, hready⟩ :=
      exists_reaches_finalState ⟨plan, blocks, settings⟩ options prepared
    -- the run in order is a run under other settings, which play no part in what is reached
    let context : RunContext := ⟨⟨plan, blocks, {}⟩, prepared.store, options.draw⟩
    have hcontext : context.engine.plan.Coherent := hplan
    obtain ⟨j', hreaches', hinFlight', hdone'⟩ :=
      exists_reaches_inOrder hcontext prepared.shape (List.append_nil plan.steps).symm
    have hreaches' := hreaches'.change_settings settings
    -- both runs are complete if one of them is
    have hiff : (finalState ⟨plan, blocks, settings⟩ options prepared).failure = none ↔
        (stateInOrder ⟨plan, blocks, {}⟩ options.draw prepared).failure = none := by
      constructor
      · intro hfailure
        have hall := hreaches.tracks.all_done hplan hfailure (hready hfailure) hinFlight
        exact hreaches.failure_eq_none hplan hfilled hall hreaches'
      · intro hfailure
        have hall' := Journal.forall_mem_names (hdone' hfailure)
        exact hreaches'.failure_eq_none hplan hfilled hall' hreaches
    by_cases hfailure : (finalState ⟨plan, blocks, settings⟩ options prepared).failure = none
    · have hall := hreaches.tracks.all_done hplan hfailure (hready hfailure) hinFlight
      have hall' := Journal.forall_mem_names (hdone' (hiff.1 hfailure))
      have hsame := resultOf_eq hplan hfilled hreaches hreaches' hall hall'
      exact Eq.congr_left hsame.symm
    · have hfailure' := mt hiff.2 hfailure
      obtain ⟨fault, hfault⟩ := Option.ne_none_iff_exists'.1 hfailure
      obtain ⟨fault', hfault'⟩ := Option.ne_none_iff_exists'.1 hfailure'
      unfold resultOf
      rw [hfault, hfault']
      constructor
      · intro h
        cases h
      · intro h
        cases h

/-- Scheduling is not observable: whatever the limit and the order in which tasks finish, a run of a
    compiled plan succeeds exactly when the steps performed in order do, with the same records. -/
theorem run_compiled_eq_ok_iff {registry : Registry} {initParameters : Table String Json}
    {d : Definition} {plan : Plan} (hcompile : d.compile registry initParameters = .ok plan)
    (blocks : Table String Block) (parameters : Table String Json) (draw : String → Float)
    (settings : Settings) (order : CompletionOrder) (records : List Record) :
    (Engine.run ⟨plan, blocks, settings⟩ parameters { order, draw }).result = .ok records ↔
      plan.runInOrder blocks draw parameters = .ok records :=
  Engine.run_eq_ok_iff (Definition.coherent_of_compile hcompile) parameters rfl

namespace Sample

/-- A block that passes a value on. -/
def passOn : Block := Catalog.scripted
  { blockType := "PassOn"
    properties := [{ name := "value", kind := .data [] true }]
    outputs := [⟨"value", []⟩] } .echo

/-- Two steps that may run at once, and one that waits for both. -/
def diamond : Definition where
  version := "1.0"
  inputs := [.batch "x" 1 []]
  steps := [⟨"PassOn", "left", [("value", .string "$inputs.x")]⟩,
    ⟨"PassOn", "right", [("value", .string "$inputs.x")]⟩,
    ⟨"Both", "both", [("a", .string "$steps.left.value"), ("b", .string "$steps.right.value")]⟩]
  outputs := [⟨"out", "$steps.both.seen"⟩]

/-- The registry of the blocks. -/
def diamondBlocks : Registry :=
  [("PassOn", passOn),
    ("Both", Catalog.scripted
      { blockType := "Both"
        properties := [{ name := "a", kind := .data [] true },
          { name := "b", kind := .data [] true }]
        outputs := [⟨"seen", []⟩] } .inputs)]

/-- The values that the step at the end sees, for a batch of two. -/
def diamondRecords : List Record :=
  [[("out", .object [("a", .bool true), ("b", .bool true)])],
    [("out", .object [("a", .null), ("b", .null)])]]

end Sample

/-- Two branches that meet: under every limit and every order of completion a run on two elements
    gives the records of the plan in its own order. -/
theorem run_compiled_diamond : ∃ plan, Sample.diamond.compile Sample.diamondBlocks [] = .ok plan ∧
    ∀ settings order, (Engine.run ⟨plan, Sample.diamondBlocks, settings⟩
      [("x", .array [.bool true, .null])] { order }).result = .ok Sample.diamondRecords := by
  have hrun : ((Sample.diamond.compile Sample.diamondBlocks []).toOption.bind fun plan =>
      (plan.runInOrder Sample.diamondBlocks (fun _ => 0.5)
        [("x", .array [.bool true, .null])]).toOption) = some Sample.diamondRecords := by
    decide +kernel
  obtain ⟨plan, hcompile, hresult⟩ := Option.bind_eq_some_iff.1 hrun
  refine ⟨plan, toOption_eq_some.1 hcompile, fun settings order => ?_⟩
  exact (run_compiled_eq_ok_iff (toOption_eq_some.1 hcompile) _ _ (fun _ => 0.5) settings order _).2
    (toOption_eq_some.1 hresult)

end BatchFlow
