import BatchFlow.Proofs.Plan.Dimensions
import BatchFlow.Proofs.Run.Counters

namespace BatchFlow

/-!
# What is taken, and when

A run takes ready steps first come, first served, while there is room; which of the tasks under way
finishes next is left open.

* `RunState.reported` — the steps that were reported as recorded or passed over, in order.
* `Schedules` — the states of such a run, each with the steps that were taken until then.
* `Scheduled` — never too many tasks, each step taken once and after what it depends on, and none
  left over when there is nothing more to do.
* `compiled_scheduled` — every state of every run of a compiled plan is so, and each run ends in one
  of these states with nothing left to do.
-/

/-- The step of which an event says that it is done, as it was recorded or passed over. -/
def Event.done? : Event → Option String
  | .stepSkipped step _ => some step
  | .stepCompleted step => some step
  | _ => none

/-- A ready step that was taken. -/
structure Taking where
  step : Plan.Step
  /-- The steps that were reported as done by then. -/
  done : List String

/-! ### What is reported -/

namespace RunState

variable {context : RunContext} {s s' : RunState}

/-- The steps that were reported as done, in order. -/
def reported (s : RunState) : List String := s.events.filterMap Event.done?

/-- Events are reported in order. -/
theorem reported_report (s : RunState) (events : List Event) :
    (s.report events).reported = s.reported ++ events.filterMap Event.done? :=
  List.filterMap_append

/-- Opening and closing branches says nothing about steps. -/
theorem reported_closeBranches (s : RunState) (governing : List BranchId) :
    (s.closeBranches governing).reported = s.reported := by
  have hnone : (s.branches.closeEvents governing).filterMap Event.done? = [] := by
    rw [Branches.closeEvents, List.filterMap_map]
    exact List.filterMap_eq_nil_iff.2 fun _ _ => rfl
  show (s.report _).reported = _
  rw [reported_report, hnone, List.append_nil]

/-- Opening branches reports no step as done. -/
theorem reported_openBranches (s : RunState) (step : Plan.Step) (governing : List BranchId)
    (decisions : List (Index × List String)) :
    (s.openBranches step governing decisions).reported = s.reported := by
  have hnone : (s.branches.openEvents step.name governing step.alignment.input step.targets
      decisions).filterMap Event.done? = [] := by
    rw [Branches.openEvents, List.filterMap_map]
    exact List.filterMap_eq_nil_iff.2 fun _ _ => rfl
  show (s.report _).reported = _
  rw [reported_report, hnone, List.append_nil]

/-- A step that is passed over is reported. -/
theorem reported_skip (s : RunState) (step : Plan.Step) (reason : SkipReason) :
    (s.skip step reason).reported = s.reported ++ [step.name] := by
  have hclosed : ((s.report [.stepSkipped step.name reason]).closeBranches
      (s.governing step)).reported = s.reported ++ [step.name] := by
    rw [reported_closeBranches, reported_report]
    rfl
  show (if step.manifest.flowControl then _ else _ : RunState).reported = _
  split
  · rw [reported_openBranches, hclosed]
  · exact hclosed

/-- A step that is started is not reported as done. -/
theorem reported_start (s : RunState) (step : Plan.Step) (elements : Invocation) :
    (s.start step elements).reported = s.reported := by
  show (report _ _).reported = _
  rw [reported_report, reported_closeBranches]
  exact List.append_nil _

/-- A step is reported as done when it is passed over. -/
theorem reported_take (context : RunContext) (s : RunState) (step : Plan.Step) :
    (take context s step).reported = s.reported ++ Journal.names (s.taken context step) := by
  rcases take_eq context s step with ⟨hnone, reason, he⟩ | ⟨hsome, he⟩
  · rw [he, reported_skip, taken, if_pos (List.isEmpty_iff.2 hnone)]
    rfl
  · rw [he, reported_start, taken, if_neg fun h => hsome (List.isEmpty_iff.1 h)]
    exact (List.append_nil _).symm

/-- A step whose outputs were recorded is reported. -/
theorem reported_record {task : Task} {outputs : List Output}
    (h : s.record task outputs = .ok s') : s'.reported = s.reported ++ [task.step.name] := by
  unfold record at h
  split at h
  · cases h
  · obtain ⟨recording, -, h⟩ := bind_eq_ok.1 h
    rw [← pure_eq_ok.1 h]
    show (if task.step.manifest.flowControl then _ else _ : RunState).reported = _
    split
    · rw [reported_openBranches, reported_report]
      rfl
    · rw [reported_report]
      rfl

/-- A step is reported as done when it is recorded. -/
theorem reported_finish (context : RunContext) (s : RunState) (task : Task) :
    (finish context s task).reported = s.reported ++ Journal.names (s.finished context task) := by
  rcases finish_cases context s task with ⟨-, outputs, -, hrecord, hfinished⟩ | ⟨hfinished, -, hnot⟩
  · rw [hfinished, reported_record hrecord]
    rfl
  · rw [hfinished, show Journal.names [] = [] from rfl, List.append_nil]
    unfold finish
    cases houtcome : task.outcome context with
    | error failure =>
      cases failure with
      | crashed => rfl
      | reported fault => exact (reported_report _ _).trans (List.append_nil _)
    | ok outputs =>
      cases hfailure : s.failure with
      | some fault => rfl
      | none =>
        dsimp only
        cases hrecord : s.record task outputs with
        | ok s' => exact absurd hrecord (hnot _ _ hfailure houtcome)
        | error fault => rfl

end RunState

/-- The steps that were reported as done are those of the journal. -/
theorem Reaches.reported_eq {context : RunContext} {shape : BatchStructure} {j : Journal}
    {s : RunState} (h : Reaches context shape j s) : s.reported = j.names := by
  induction h with
  | initial => rfl
  | take _ _ _ ih =>
    exact (RunState.reported_take _ _ _).trans ((congrArg (· ++ _) ih).trans List.map_append.symm)
  | finish _ _ ih =>
    exact (RunState.reported_finish _ _ _).trans ((congrArg (· ++ _) ih).trans List.map_append.symm)

/-- The steps that wait, read off what was reported. -/
theorem Reaches.waits_reported {context : RunContext} {shape : BatchStructure} {j : Journal}
    {s : RunState} (h : Reaches context shape j s) :
    s.WaitsAfter context.engine.plan s.reported := by
  rw [h.reported_eq]
  exact h.waiting_eq

/-! ### First come, first served -/

/-- The states of a run in which ready steps are taken first come, first served while there is room,
    and any task under way may finish, each with the steps that were taken. -/
inductive Schedules (context : RunContext) (shape : BatchStructure) :
    List Taking → RunState → Prop where
  | initial : Schedules context shape [] (.initial context.engine.plan shape)
  | take {taken : List Taking} {s : RunState} {step : Plan.Step} {ready : List Plan.Step} :
      Schedules context shape taken s → s.failure = none →
      s.inFlight.length < context.engine.settings.limit → s.ready = step :: ready →
      Schedules context shape (taken ++ [⟨step, s.reported⟩])
        (RunState.take context { s with ready } step)
  | finish {taken : List Taking} {s : RunState} {i : Nat} {task : Task} :
      Schedules context shape taken s → s.inFlight[i]? = some task →
      Schedules context shape taken
        (RunState.finish context { s with inFlight := s.inFlight.eraseIdx i } task)

/-- What holds of a state of a run in which some steps were taken. -/
structure Scheduled (plan : Plan) (limit : Nat) (taken : List Taking) (s : RunState) : Prop where
  room : s.inFlight.length ≤ max 1 limit
  mem_steps : ∀ t ∈ taken, t.step ∈ plan.steps
  once : (taken.map (·.step.name)).Nodup
  after : ∀ t ∈ taken, t.done <+: s.reported ∧ ∀ name ∈ t.step.dependsOn, name ∈ t.done
  /-- Who is taken and who is ready is what counting says. -/
  queue : taken.map (·.step) ++ s.ready = (Counters.after plan s.reported).queue
  reported_once : s.reported.Nodup
  reported_taken : ∀ name ∈ s.reported, ∃ t ∈ taken, t.step.name = name
  complete : s.inFlight = [] → s.ready = [] → s.failure = none → s.reported.Perm plan.stepNames

namespace Schedules

variable {context : RunContext} {shape : BatchStructure} {taken : List Taking} {s : RunState}

/-- Such a run is one in which any ready step may be taken. -/
theorem exists_reaches (h : Schedules context shape taken s) : ∃ j, Reaches context shape j s := by
  induction h with
  | initial => exact ⟨_, .initial⟩
  | @take taken s step ready _ hfailure _ hready ih =>
    obtain ⟨j, hreaches⟩ := ih
    have hnext := hreaches.take (hready ▸ List.mem_cons_self) hfailure
    rw [hready, List.erase_cons_head] at hnext
    exact ⟨_, hnext⟩
  | finish _ htask ih =>
    obtain ⟨j, hreaches⟩ := ih
    exact ⟨_, hreaches.finish htask⟩

/-- There is room for one more task whenever a step is taken. -/
theorem inFlight_le (h : Schedules context shape taken s) :
    s.inFlight.length ≤ context.engine.settings.limit := by
  induction h with
  | initial => exact Nat.zero_le _
  | @take taken s step ready _ _ hroom _ ih =>
    exact Nat.le_trans (RunState.remaining_take context { s with ready } step).2 hroom
  | @finish taken s i task _ _ ih =>
    rw [RunState.finish_inFlight]
    exact Nat.le_trans (List.length_eraseIdx_le _ _) ih

/-- A step that was taken neither waits nor is ready. -/
theorem perm (h : Schedules context shape taken s) :
    (taken.map (·.step) ++ (s.waiting.map (·.1) ++ s.ready)).Perm context.engine.plan.steps := by
  -- every action moves steps between the three lists, and neither adds one nor drops one
  induction h with
  | initial => exact RunState.initial_perm _ _
  | @take taken s step ready _ _ _ hready ih =>
    have hsame : ((taken.map (·.step) ++ [step]) ++ (s.waiting.map (·.1) ++ ready)).Perm
        context.engine.plan.steps := by
      rw [hready] at ih
      rw [List.append_assoc, List.singleton_append]
      exact (List.perm_middle.symm.append_left _).trans ih
    rw [List.map_append]
    rcases RunState.take_cases context { s with ready } step with
      ⟨-, -, events, branches, -, he⟩ | ⟨-, -, events, ids, he⟩
    · rw [he]
      exact ((RunState.release_perm _ _).append_left _).trans hsame
    · rw [he]
      exact hsame
  | @finish taken s i task _ _ ih =>
    rcases RunState.finish_cases context { s with inFlight := s.inFlight.eraseIdx i } task with
      ⟨-, outputs, -, hrecord, -⟩ | ⟨-, ⟨fault, left, events, -, he⟩, -⟩
    · obtain ⟨-, recording, -, events, branches, -, he⟩ := RunState.record_eq_ok hrecord
      rw [he]
      exact ((RunState.release_perm _ _).append_left _).trans ih
    · rw [he]
      exact ih

/-- When a step was taken, those on which it depends were done. -/
theorem mem_done (h : Schedules context shape taken s) :
    ∀ t ∈ taken, t.done <+: s.reported ∧ ∀ name ∈ t.step.dependsOn, name ∈ t.done := by
  induction h with
  | initial => exact List.forall_mem_nil _
  | @take taken s step ready hschedules _ _ hready ih =>
    obtain ⟨j, hreaches⟩ := hschedules.exists_reaches
    have hmore : s.reported <+: (RunState.take context { s with ready } step).reported := by
      rw [RunState.reported_take]
      exact List.prefix_append _ _
    intro t ht
    rcases List.mem_append.1 ht with ht | ht
    · exact ⟨(ih t ht).1.trans hmore, (ih t ht).2⟩
    · obtain rfl := List.mem_singleton.1 ht
      refine ⟨hmore, fun name hname => ?_⟩
      have hstep : step ∈ s.ready := hready ▸ List.mem_cons_self
      show name ∈ s.reported
      rw [hreaches.reported_eq]
      exact hreaches.tracks.ready step hstep name hname
  | @finish taken s i task _ _ ih =>
    intro t ht
    refine ⟨(ih t ht).1.trans ?_, (ih t ht).2⟩
    rw [RunState.reported_finish]
    exact List.prefix_append _ _

/-- A task is one of a step that was taken, and so is what was reported as done. -/
theorem mem_taken (h : Schedules context shape taken s) :
    (∀ task ∈ s.inFlight, ∃ t ∈ taken, t.step = task.step) ∧
      ∀ name ∈ s.reported, ∃ t ∈ taken, t.step.name = name := by
  -- a name is reported when its step is passed over or when its task finishes, in both cases after
  -- it was taken
  induction h with
  | initial => exact ⟨List.forall_mem_nil _, List.forall_mem_nil _⟩
  | @take taken s step ready _ _ _ _ ih =>
    have hnew : (⟨step, s.reported⟩ : Taking) ∈ taken ++ [⟨step, s.reported⟩] :=
      List.mem_append_right _ (List.mem_singleton_self _)
    have htasks : ∀ task ∈ s.inFlight, ∃ t ∈ taken ++ [⟨step, s.reported⟩], t.step = task.step :=
      fun task htask => (ih.1 task htask).imp fun t ht => ⟨List.mem_append_left _ ht.1, ht.2⟩
    have hnames : ∀ name ∈ s.reported, ∃ t ∈ taken ++ [⟨step, s.reported⟩], t.step.name = name :=
      fun name hname => (ih.2 name hname).imp fun t ht => ⟨List.mem_append_left _ ht.1, ht.2⟩
    rw [RunState.reported_take]
    rcases RunState.take_cases context { s with ready } step with
      ⟨-, htaken, events, branches, -, he⟩ | ⟨-, htaken, events, ids, he⟩
    · rw [he, htaken]
      refine ⟨htasks, fun name hname => ?_⟩
      rcases List.mem_append.1 hname with hname | hname
      · exact hnames name hname
      · exact ⟨_, hnew, (List.mem_singleton.1 hname).symm⟩
    · rw [he, htaken]
      refine ⟨fun task htask => ?_, fun name hname => hnames name ?_⟩
      · rcases List.mem_append.1 htask with htask | htask
        · exact htasks task htask
        · exact ⟨_, hnew, by rw [List.mem_singleton.1 htask]⟩
      · exact (List.append_nil s.reported) ▸ hname
  | @finish taken s i task _ htask ih =>
    rw [RunState.finish_inFlight, RunState.reported_finish]
    refine ⟨fun other hother => ih.1 other (List.mem_of_mem_eraseIdx hother), fun name hname => ?_⟩
    rcases List.mem_append.1 hname with hname | hname
    · exact ih.2 name hname
    · obtain ⟨e, he, rfl⟩ := List.mem_map.1 hname
      obtain ⟨outputs, -, -, rfl⟩ := RunState.of_mem_finished he
      obtain ⟨t, ht, hstep⟩ := ih.1 task (List.mem_of_getElem? htask)
      exact ⟨t, ht, congrArg (·.name) hstep⟩

/-- Who was taken and who is ready is what counting says. -/
theorem queue_eq (h : Schedules context shape taken s)
    (hplan : context.engine.plan.stepNames.Nodup)
    (hdepends : ∀ step ∈ context.engine.plan.steps, step.dependsOn.Nodup) :
    taken.map (·.step) ++ s.ready = (Counters.after context.engine.plan s.reported).queue := by
  induction h with
  | initial => rfl
  | @take taken s step ready hschedules hfailure hroom hready ih =>
    obtain ⟨j, hreaches⟩ := hschedules.exists_reaches
    obtain ⟨j', hafter⟩ := (hschedules.take hfailure hroom hready).exists_reaches
    have hnames := hafter.tracks.journal_nodup hplan
    rw [← hafter.reported_eq, RunState.reported_take] at hnames
    -- a step that is taken moves from the ready steps to those that were taken
    have hmoved : (taken.map (·.step) ++ [step]) ++ ready =
        (Counters.after context.engine.plan s.reported).queue := by
      rw [← ih, hready, List.append_assoc, List.singleton_append]
    rw [List.map_append, RunState.reported_take]
    rcases RunState.take_cases context { s with ready } step with
      ⟨-, htaken, events, branches, -, he⟩ | ⟨-, htaken, events, ids, he⟩
    · rw [htaken] at hnames ⊢
      rw [he]
      exact Counters.queue_release hplan hdepends hreaches.waits_reported hnames hmoved
    · rw [he, htaken, show Journal.names [] = [] from rfl, List.append_nil]
      exact hmoved
  | @finish taken s i task hschedules htask ih =>
    obtain ⟨j, hreaches⟩ := hschedules.exists_reaches
    obtain ⟨j', hafter⟩ := (hschedules.finish htask).exists_reaches
    have hnames := hafter.tracks.journal_nodup hplan
    rw [← hafter.reported_eq, RunState.reported_finish] at hnames
    rw [RunState.reported_finish]
    rcases RunState.finish_cases context { s with inFlight := s.inFlight.eraseIdx i } task with
      ⟨-, outputs, -, hrecord, hfinished⟩ | ⟨hfinished, ⟨fault, left, events, -, he⟩, -⟩
    · obtain ⟨-, recording, -, events, branches, -, he⟩ := RunState.record_eq_ok hrecord
      rw [hfinished] at hnames ⊢
      rw [he]
      exact Counters.queue_release hplan hdepends hreaches.waits_reported hnames ih
    · rw [he, hfinished, show Journal.names [] = [] from rfl, List.append_nil]
      exact ih

/-- When nothing is ready or under way and nothing has failed, every step is done, and none was done
    twice. -/
theorem perm_stepNames (h : Schedules context shape taken s) (hplan : context.engine.plan.Coherent)
    (hinFlight : s.inFlight = []) (hready : s.ready = []) (hfailure : s.failure = none) :
    s.reported.Perm context.engine.plan.stepNames := by
  obtain ⟨j, hreaches⟩ := h.exists_reaches
  have htracks := hreaches.tracks
  rw [hreaches.reported_eq]
  refine (List.perm_ext_iff_of_nodup (htracks.journal_nodup hplan.steps_nodup)
    hplan.steps_nodup).2 fun name => ⟨fun hdone => ?_, fun hname => ?_⟩
  · obtain ⟨e, he, rfl⟩ := List.mem_map.1 hdone
    exact List.mem_map_of_mem (htracks.mem_steps_of_entry he)
  · obtain ⟨step, hstep, rfl⟩ := List.mem_map.1 hname
    exact htracks.all_done hplan hfailure hready hinFlight step hstep

/-- What is known of a run under a limit holds of the steps it has taken. -/
theorem scheduled (h : Schedules context shape taken s) (hplan : context.engine.plan.Coherent)
    (hdepends : ∀ step ∈ context.engine.plan.steps, step.dependsOn.Nodup) :
    Scheduled context.engine.plan context.engine.settings.maxConcurrentSteps taken s := by
  obtain ⟨j, hreaches⟩ := h.exists_reaches
  constructor
  case room => exact (Nat.max_comm _ _) ▸ h.inFlight_le
  case mem_steps =>
    exact fun t ht => h.perm.mem_iff.1 (List.mem_append_left _ (List.mem_map_of_mem ht))
  case once =>
    have hnames := (h.perm.map fun step : Plan.Step => step.name).nodup_iff.2 hplan.steps_nodup
    rw [List.map_append, List.map_map] at hnames
    exact hnames.of_append_left
  case after => exact h.mem_done
  case queue => exact h.queue_eq hplan.steps_nodup hdepends
  case reported_once =>
    rw [hreaches.reported_eq]
    exact hreaches.tracks.journal_nodup hplan.steps_nodup
  case reported_taken => exact h.mem_taken.2
  case complete => exact h.perm_stepNames hplan

/-! ### Whole runs -/

/-- Filling the room takes further steps. -/
theorem fill (h : Schedules context shape taken s) (turns : Nat) :
    ∃ taken', Schedules context shape taken'
      (s.fill context context.engine.settings.limit turns) := by
  induction turns generalizing taken s with
  | zero => exact ⟨taken, h⟩
  | succ turns ih =>
    unfold RunState.fill
    split
    · exact ⟨taken, h⟩
    · rename_i hgo
      rw [Bool.or_eq_true, not_or, Bool.not_eq_true, Option.isSome_eq_false_iff,
        Option.isNone_iff_eq_none, decide_eq_true_eq, Nat.not_le] at hgo
      split
      · exact ⟨taken, h⟩
      · rename_i step ready hready
        exact ih (h.take hgo.1 hgo.2 hready)

/-- Whatever order tasks finish in, a run goes through such states. -/
theorem drive (h : Schedules context shape taken s) (order : CompletionOrder) (rounds : Nat) :
    ∃ taken', Schedules context shape taken'
      (s.drive context context.engine.settings.limit order rounds) := by
  induction rounds generalizing taken s with
  | zero => exact ⟨taken, h⟩
  | succ rounds ih =>
    obtain ⟨taken', hfilled⟩ := h.fill (s.waiting.length + s.ready.length)
    unfold RunState.drive RunState.fillAll
    dsimp only
    split
    · exact ⟨taken', hfilled⟩
    · unfold RunState.finishAt
      split
      · rename_i task htask
        exact ih (hfilled.finish htask)
      · exact ih hfilled

end Schedules

/-- Scheduling is safe and complete. Whatever the limit and whichever task finishes first, in every
    state of a run of a compiled plan there are never too many tasks, every step is taken at most
    once and after the steps on which it depends, and every step is done exactly once when nothing
    is left to do. A run goes on until that is so, unless something has failed. -/
theorem compiled_scheduled {registry : Registry} {initParameters : Table String Json}
    {d : Definition} {plan : Plan} (hcompile : d.compile registry initParameters = .ok plan)
    (blocks : Table String Block) (limit : Nat) :
    (∀ store draw shape taken s,
      Schedules ⟨⟨plan, blocks, ⟨limit⟩⟩, store, draw⟩ shape taken s →
        Scheduled plan limit taken s) ∧
    ∀ (options : RunOptions) (prepared : Prepared), ∃ taken,
      let final := Engine.finalState ⟨plan, blocks, ⟨limit⟩⟩ options prepared
      Schedules ⟨⟨plan, blocks, ⟨limit⟩⟩, prepared.store, options.draw⟩ prepared.shape taken final ∧
        final.inFlight = [] ∧ (final.failure = none → final.ready = []) := by
  have hplan := Definition.coherent_of_compile hcompile
  have hdepends : ∀ step ∈ plan.steps, step.dependsOn.Nodup := fun step hstep =>
    hplan.steps_nodup.sublist (Definition.dependsOn_sublist_of_compile hcompile hstep)
  refine ⟨fun store draw shape taken s h => h.scheduled hplan hdepends, fun options prepared => ?_⟩
  let context : RunContext := ⟨⟨plan, blocks, ⟨limit⟩⟩, prepared.store, options.draw⟩
  have hinitial : Schedules context prepared.shape [] (.initial plan prepared.shape) := .initial
  obtain ⟨taken, hfinal⟩ := hinitial.drive options.order (plan.steps.length + 1)
  obtain ⟨-, -, hdone⟩ := Engine.exists_reaches_finalState context.engine options prepared
  exact ⟨taken, hfinal, hdone⟩

/-- A run under the limit zero, which stands for one: each step is taken once, after those it
    depends on, and none is left. -/
theorem compiled_scheduled_pairs :
    ∃ plan, Sample.pairs.compile Sample.pairsBlocks [] = .ok plan ∧
      ∃ prepared, prepare plan.inputs Sample.pairsInput = .ok prepared ∧ ∃ taken,
        let final := Engine.finalState ⟨plan, Sample.pairsBlocks, ⟨0⟩⟩ {} prepared
        Scheduled plan 0 taken final ∧ final.reported = ["split", "pass", "pair", "collect"] ∧
          final.reported.Perm plan.stepNames := by
  have hrun : ((Sample.pairs.compile Sample.pairsBlocks []).toOption.bind fun plan =>
      (prepare plan.inputs Sample.pairsInput).toOption.map fun prepared =>
        let final := Engine.finalState ⟨plan, Sample.pairsBlocks, ⟨0⟩⟩ {} prepared
        (final.reported, final.failure.isNone)) =
      some (["split", "pass", "pair", "collect"], true) := by
    decide +kernel
  obtain ⟨plan, hcompile, hfinal⟩ := Option.bind_eq_some_iff.1 hrun
  obtain ⟨prepared, hprepare, hfinal⟩ := Option.map_eq_some_iff.1 hfinal
  obtain ⟨hreported, hfailure⟩ := Prod.mk.inj hfinal
  obtain ⟨hstates, hruns⟩ := compiled_scheduled (toOption_eq_some.1 hcompile) Sample.pairsBlocks 0
  obtain ⟨taken, hschedules, hinFlight, hready⟩ := hruns {} prepared
  have hscheduled := hstates _ _ _ _ _ hschedules
  have hfailure := Option.isNone_iff_eq_none.1 hfailure
  exact ⟨plan, toOption_eq_some.1 hcompile, prepared, toOption_eq_some.1 hprepare, taken,
    hscheduled, hreported, hscheduled.complete hinFlight (hready hfailure) hfailure⟩

end BatchFlow
