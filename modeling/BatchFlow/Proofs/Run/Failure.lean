import BatchFlow.Proofs.Run.Counters
import BatchFlow.Proofs.Run.Honest
import BatchFlow.Proofs.Run.InOrder
import Mathlib.Logic.Relation

namespace BatchFlow

/-!
# The first failure

A run that fails is not over at once. No step is taken any more, but the tasks under way go on; what
they return is dropped, and what they report is only reported. So the first failure is the one with
which the run ends, and nothing that depends on the failed step is ever started. What had been
recorded before stays, also that of the failed step itself: of its outputs those that come before
the one that was refused.

* `Phase` — what a run does in turn: ready steps are taken, or a task finishes.
* `Task.Fails` — the ways in which a task can fail.
* `FirstFailure` — on the way from one state to another a task fails when nothing has before.
* `RunState.Halts` — a later state in which only tasks have ended and failures were reported.
* `FirstFailure.exists_halts` — what a first failure leaves behind, and that no more happens then.
* `Phase.halts` — after a failure every phase leads to such a state.
* `exists_firstFailure` — a failure goes back to a task that failed when nothing had failed before.
* `Engine.run_eq_error_iff` — a run fails with the fault of the task that failed first.
* `FirstFailure.waits` — who depends on the failed step waits before and after.
* `first_failure` — what this means for a run.
-/

/-- One phase of a run: ready steps are taken as far as there is room, or a task finishes. -/
inductive Phase (context : RunContext) : RunState → RunState → Prop where
  | fill (s : RunState) : Phase context s (s.fillAll context context.engine.settings.limit)
  | finish {s : RunState} {i : Nat} : i < s.inFlight.length → Phase context s (s.finishAt context i)

/-- One state of a run leads to another, whichever tasks finish first. -/
abbrev LeadsTo (context : RunContext) : RunState → RunState → Prop :=
  Relation.ReflTransGen (Phase context)

/-- How a task fails: the call of its block breaks off, the block reports a fault, or what the block
    returned cannot be recorded. -/
inductive Task.Fails (context : RunContext) (s : RunState) (task : Task) : RunFault → Prop where
  | crashed : task.outcome context = .error .crashed → Fails context s task .crashed
  | block {fault : BlockFault} : task.outcome context = .error (.reported fault) →
      Fails context s task (.block task.step.name fault)
  | output {outputs : List Output} {refusal : RunState.Refusal} :
      task.outcome context = .ok outputs → s.record task outputs = .error refusal →
      Fails context s task (.output task.step.name refusal.fault)

/-- Between two states of a run a task fails when nothing has failed before. -/
structure FirstFailure (context : RunContext) (first s : RunState) (i : Nat) (task : Task)
    (fault : RunFault) (last : RunState) : Prop where
  before : LeadsTo context first s
  unfailed : s.failure = none
  inFlight : s.inFlight[i]? = some task
  fails : task.Fails context s fault
  after : LeadsTo context (s.finishAt context i) last

/-- In the later state nothing has been taken, recorded or let go on. Tasks have ended, and no more
    than failures were reported. -/
structure RunState.Halts (s later : RunState) : Prop where
  failure : later.failure = s.failure
  results : later.results = s.results
  shape : later.shape = s.shape
  branches : later.branches = s.branches
  waiting : later.waiting = s.waiting
  ready : later.ready = s.ready
  inFlight : later.inFlight.Sublist s.inFlight
  events : ∃ names : List String, later.events = s.events ++ names.map .stepFailed

namespace RunState

variable {context : RunContext} {s s' s'' : RunState} {task : Task} {fault : RunFault}

/-- Where nothing happens nothing has been taken. -/
theorem Halts.refl (s : RunState) : s.Halts s :=
  ⟨rfl, rfl, rfl, rfl, rfl, rfl, .refl _, [], (List.append_nil _).symm⟩

/-- What stays from state to state stays along a run. -/
theorem Halts.trans (h : s.Halts s') (h' : s'.Halts s'') : s.Halts s'' where
  failure := h'.failure.trans h.failure
  results := h'.results.trans h.results
  shape := h'.shape.trans h.shape
  branches := h'.branches.trans h.branches
  waiting := h'.waiting.trans h.waiting
  ready := h'.ready.trans h.ready
  inFlight := h'.inFlight.trans h.inFlight
  events := by
    obtain ⟨names, hnames⟩ := h.events
    obtain ⟨names', hnames'⟩ := h'.events
    exact ⟨names ++ names', by rw [hnames', hnames, List.map_append, List.append_assoc]⟩

/-! ### After a failure -/

/-- After a failure no step is taken. -/
theorem fill_of_failure (hfailure : s.failure = some fault) (limit turns : Nat) :
    s.fill context limit turns = s := by
  cases turns with
  | zero => rfl
  | succ turns =>
    unfold fill
    rw [hfailure, if_pos]
    rfl

/-- A fault that is reported changes nothing but the events and, if it is the first, the failure. -/
theorem halts_report (s : RunState) (failure : Option RunFault) (name : String) :
    ({ s with failure } : RunState).Halts
      { s.report [.stepFailed name] with failure } :=
  ⟨rfl, rfl, rfl, rfl, rfl, rfl, .refl _, [name], rfl⟩

/-- A task that finishes after a failure is dropped. -/
theorem halts_finish (hfailure : s.failure = some fault) (task : Task) :
    s.Halts (finish context s task) := by
  unfold finish
  cases task.outcome context with
  | error failure =>
    cases failure with
    | crashed =>
      dsimp only
      rw [fail_of_failed hfailure]
      exact .refl s
    | reported reason =>
      dsimp only
      rw [fail_of_failed (s := s.report [.stepFailed task.step.name]) hfailure]
      exact halts_report s s.failure task.step.name
  | ok outputs =>
    dsimp only
    rw [if_pos (by rw [hfailure]; rfl)]
    exact .refl s

/-- A task that fails when nothing has failed before leaves its fault, what was reported, and what
    was recorded of it before. -/
theorem exists_halts_finish_of_fails (hnone : s.failure = none)
    (hfails : task.Fails context s fault) : ∃ left, task.Leaves context s fault left ∧
      (keep { s with failure := some fault } left).Halts (finish context s task) := by
  unfold finish
  cases hfails with
  | crashed houtcome =>
    refine ⟨_, .crashed hnone houtcome, ?_⟩
    rw [houtcome]
    dsimp only
    rw [fail_of_unfailed hnone]
    exact .refl _
  | block houtcome =>
    refine ⟨_, .block hnone houtcome, ?_⟩
    rw [houtcome]
    dsimp only
    rw [fail_of_unfailed (s := s.report _) hnone]
    exact halts_report s _ task.step.name
  | @output outputs refusal houtcome hrecord =>
    -- what was recorded before the refused output stays, so the state to compare with is the one
    -- that keeps it
    refine ⟨_, leaves_of_record hnone houtcome hrecord, ?_⟩
    rw [houtcome]
    dsimp only
    rw [if_neg (by rw [hnone]; exact Bool.false_ne_true), hrecord]
    dsimp only
    rw [fail_of_unfailed (s := s.keep refusal.kept) hnone]
    exact .refl _

/-- A task whose end leaves a first failure has failed with it. -/
theorem fails_of_finish (hnone : s.failure = none)
    (hfailure : (finish context s task).failure = some fault) : task.Fails context s fault := by
  unfold finish at hfailure
  cases houtcome : task.outcome context with
  | error failure =>
    rw [houtcome] at hfailure
    cases failure with
    | crashed =>
      dsimp only at hfailure
      rw [fail_of_unfailed hnone] at hfailure
      cases hfailure
      exact .crashed houtcome
    | reported reason =>
      dsimp only at hfailure
      rw [fail_of_unfailed (s := s.report _) hnone] at hfailure
      cases hfailure
      exact .block houtcome
  | ok outputs =>
    rw [houtcome] at hfailure
    dsimp only at hfailure
    rw [if_neg (by rw [hnone]; exact Bool.false_ne_true)] at hfailure
    split at hfailure
    · rename_i s' hrecord
      obtain ⟨-, recording, -, events, branches, -, rfl⟩ := record_eq_ok hrecord
      cases hnone.symm.trans hfailure
    · rename_i refusal hrecord
      rw [fail_of_unfailed (s := s.keep refusal.kept) hnone] at hfailure
      cases hfailure
      exact .output houtcome hrecord

/-- Taking steps is no reason to fail. -/
theorem failure_fill (s : RunState) (limit turns : Nat) :
    (s.fill context limit turns).failure = s.failure := by
  induction turns generalizing s with
  | zero => rfl
  | succ turns ih =>
    unfold fill
    split
    · rfl
    · split
      · rfl
      · rename_i step ready hready
        rw [ih, take_failure]

/-- Who waits for longer waited before. -/
theorem waiting_release (s : RunState) (done : String) :
    ((s.release done).waiting.map (·.1)).Sublist (s.waiting.map (·.1)) := by
  have hfst : (s.waiting.map fun w => (w.1, w.2.filter (· ≠ done))).map (·.1) =
      s.waiting.map (·.1) := by
    rw [List.map_map]
    rfl
  rw [← hfst]
  exact List.filter_sublist.map _

/-- Taking steps only shortens the list of those that wait. -/
theorem waiting_fill (s : RunState) (limit turns : Nat) :
    ((s.fill context limit turns).waiting.map (·.1)).Sublist (s.waiting.map (·.1)) := by
  induction turns generalizing s with
  | zero => exact .refl _
  | succ turns ih =>
    unfold fill
    split
    · exact .refl _
    · split
      · exact .refl _
      · rename_i step ready hready
        refine (ih _).trans ?_
        rcases take_cases context { s with ready } step with
          ⟨-, -, events, branches, -, he⟩ | ⟨-, -, events, ids, he⟩
        · rw [he]
          exact waiting_release _ _
        · rw [he]

/-- Finishing a task only shortens the list of steps that wait. -/
theorem waiting_finish (s : RunState) (task : Task) :
    ((finish context s task).waiting.map (·.1)).Sublist (s.waiting.map (·.1)) := by
  rcases finish_cases context s task with
    ⟨-, outputs, -, hrecord, -⟩ | ⟨-, ⟨fault, left, events, -, he⟩, -⟩
  · obtain ⟨-, recording, -, events, branches, -, he⟩ := record_eq_ok hrecord
    rw [he]
    exact waiting_release _ _
  · rw [he]
    exact .refl _

end RunState

section Phases

variable {context : RunContext} {shape : BatchStructure} {s s' later : RunState} {i : Nat}
  {task : Task} {fault : RunFault}

/-- The task at a position finishes. -/
theorem RunState.finishAt_eq (htask : s.inFlight[i]? = some task) : s.finishAt context i =
    RunState.finish context { s with inFlight := s.inFlight.eraseIdx i } task := by
  unfold finishAt
  rw [htask]

/-- After a failure a phase does no more than let tasks end. -/
theorem Phase.halts (hfailure : s.failure = some fault) (h : Phase context s s') : s.Halts s' := by
  cases h with
  | fill =>
    rw [RunState.fillAll, RunState.fill_of_failure hfailure]
    exact .refl s
  | finish hi =>
    rename_i i
    rw [RunState.finishAt_eq (List.getElem?_eq_getElem hi)]
    have herased : s.Halts { s with inFlight := s.inFlight.eraseIdx i } :=
      ⟨rfl, rfl, rfl, rfl, rfl, rfl, List.eraseIdx_sublist _ _, [], (List.append_nil _).symm⟩
    exact herased.trans
      (RunState.halts_finish (s := { s with inFlight := s.inFlight.eraseIdx i }) hfailure _)

/-- After a failure a run does no more than let tasks end, however long it goes on. -/
theorem LeadsTo.halts (hfailure : s.failure = some fault) (h : LeadsTo context s later) :
    s.Halts later := by
  induction h with
  | refl => exact .refl s
  | tail _ hphase ih => exact ih.trans (hphase.halts (ih.failure.trans hfailure))

/-- How a task fails depends on the structure and the results alone. -/
theorem Task.Fails.congr (h : task.Fails context s fault) (hshape : s'.shape = s.shape)
    (hresults : s'.results = s.results) : task.Fails context s' fault := by
  cases h with
  | crashed houtcome => exact .crashed houtcome
  | block houtcome => exact .block houtcome
  | output houtcome hrecord =>
    have hrefused := RunState.record_eq_error_iff.1 hrecord
    rw [← hshape, ← hresults] at hrefused
    exact .output houtcome (RunState.record_eq_error_iff.2 hrefused)

/-- A fault over outputs bears the name of the step that failed. -/
theorem Task.Fails.step_name {name : String} {reason : OutputFault}
    (h : task.Fails context s (.output name reason)) : task.step.name = name := by
  generalize hfault : RunFault.output name reason = fault at h
  cases h with
  | crashed => cases hfault
  | block => cases hfault
  | output => exact (RunFault.output.inj hfault).1.symm

/-- A task fails by breaking off when its call does. -/
theorem Task.Fails.eq_crashed_iff (h : task.Fails context s fault) :
    fault = .crashed ↔ task.outcome context = .error .crashed := by
  cases h with
  | crashed houtcome => exact iff_of_true rfl houtcome
  | block houtcome => simp [houtcome]
  | output houtcome => simp [houtcome]

/-- A task fails with a block's fault when that is what its block reports. -/
theorem Task.Fails.eq_block_iff {name : String} {reason : BlockFault}
    (h : task.Fails context s fault) : fault = .block name reason ↔
      task.step.name = name ∧ task.outcome context = .error (.reported reason) := by
  cases h with
  | crashed houtcome => simp [houtcome]
  | block houtcome => simp [houtcome]
  | output houtcome => simp [houtcome]

/-- A first failure leaves what was recorded of the task before, and after it no more happens than
    that the other tasks end. -/
theorem FirstFailure.exists_halts {first : RunState}
    (h : FirstFailure context first s i task fault later) :
    ∃ left, task.Leaves context s fault left ∧ RunState.Halts (RunState.keep
      { s with inFlight := s.inFlight.eraseIdx i, failure := some fault } left) later := by
  obtain ⟨left, hleaves, hfirst⟩ := RunState.exists_halts_finish_of_fails
    (s := { s with inFlight := s.inFlight.eraseIdx i }) h.unfailed (h.fails.congr rfl rfl)
  rw [← RunState.finishAt_eq h.inFlight] at hfirst
  exact ⟨left, hleaves.congr rfl rfl rfl, hfirst.trans (LeadsTo.halts hfirst.failure h.after)⟩

/-- A failure goes back to a task that failed when nothing had failed before. -/
theorem exists_firstFailure (hnone : s.failure = none) (h : LeadsTo context s later)
    (hfailure : later.failure = some fault) :
    ∃ s' i task, FirstFailure context s s' i task fault later := by
  induction h with
  | refl => cases hnone.symm.trans hfailure
  | @tail before after hbefore hphase ih =>
    cases hearlier : before.failure with
    | some first =>
      -- the failure was there before the last phase
      have hsame := (hphase.halts hearlier).failure
      rw [hearlier, hfailure] at hsame
      cases hsame
      obtain ⟨s', i, task, hfirst⟩ := ih hearlier
      exact ⟨s', i, task, { hfirst with after := hfirst.after.tail hphase }⟩
    | none =>
      cases hphase with
      | fill =>
        rw [RunState.fillAll, RunState.failure_fill, hearlier] at hfailure
        cases hfailure
      | @finish i hi =>
        have htask := List.getElem?_eq_getElem hi
        refine ⟨before, i, before.inFlight[i], hbefore, hearlier, htask, ?_, .refl⟩
        rw [RunState.finishAt_eq htask] at hfailure
        have hfails := RunState.fails_of_finish
          (s := { before with inFlight := before.inFlight.eraseIdx i }) hearlier hfailure
        exact hfails.congr rfl rfl

/-- Steps do not begin to wait again. -/
theorem LeadsTo.waiting (h : LeadsTo context s later) :
    (later.waiting.map (·.1)).Sublist (s.waiting.map (·.1)) := by
  induction h with
  | refl => exact .refl _
  | tail _ hphase ih =>
    refine List.Sublist.trans ?_ ih
    cases hphase with
    | fill => exact RunState.waiting_fill _ _ _
    | finish hi =>
      rw [RunState.finishAt_eq (List.getElem?_eq_getElem hi)]
      exact RunState.waiting_finish _ _

/-- What a run leads to is a state in which any ready step may have been taken. -/
theorem LeadsTo.exists_reaches {j : Journal} (hs : Reaches context shape j s)
    (h : LeadsTo context s later) : ∃ j', Reaches context shape j' later := by
  induction h with
  | refl => exact ⟨j, hs⟩
  | tail _ hphase ih =>
    obtain ⟨j', hreaches⟩ := ih
    cases hphase with
    | fill =>
      obtain ⟨j'', hfilled, -, -⟩ := RunState.exists_reaches_fill _ hreaches (Nat.le_refl _)
      exact ⟨j'', hfilled⟩
    | finish hi =>
      have htask := List.getElem?_eq_getElem hi
      rw [RunState.finishAt_eq htask]
      exact ⟨_, hreaches.finish htask⟩

/-- The rounds of a run are phases. -/
theorem leadsTo_drive (order : CompletionOrder) (rounds : Nat) (s : RunState) :
    LeadsTo context s (s.drive context context.engine.settings.limit order rounds) := by
  induction rounds generalizing s with
  | zero => exact .refl
  | succ rounds ih =>
    have hfilled : LeadsTo context s (s.fillAll context context.engine.settings.limit) :=
      .single (.fill s)
    unfold RunState.drive
    dsimp only
    split
    · exact hfilled
    · rename_i hbusy
      refine (hfilled.tail (.finish (Nat.mod_lt _ ?_))).trans (ih _)
      exact List.length_pos_iff.2 fun he => hbusy (List.isEmpty_iff.2 he)

end Phases

/-! ### What depends on a failed step -/

/-- Whether a step of the plan waits for another one. -/
def Plan.WaitsFor (p : Plan) (name other : String) : Prop :=
  ∃ step ∈ p.steps, step.name = name ∧ other ∈ step.dependsOn

section Dependents

variable {context : RunContext} {shape : BatchStructure} {j : Journal} {s : RunState}

/-- A step that depends on one that is not done, directly or not, is not done either. -/
theorem Reaches.not_done_of_waitsFor (hplan : context.engine.plan.Coherent)
    (h : Reaches context shape j s) {name other : String}
    (hwaits : Relation.ReflTransGen context.engine.plan.WaitsFor name other)
    (hundone : other ∉ j.names) : name ∉ j.names := by
  induction hwaits using Relation.ReflTransGen.head_induction_on with
  | refl => exact hundone
  | head hfirst _ ih =>
    obtain ⟨step, hstep, rfl, hdepends⟩ := hfirst
    exact fun hdone => ih (h.closed hplan step hstep hdone _ hdepends)

/-- A step that depends on one that is not done, directly or not, waits. -/
theorem Reaches.waits_of_waitsFor (hplan : context.engine.plan.Coherent)
    (h : Reaches context shape j s) {step : Plan.Step} (hstep : step ∈ context.engine.plan.steps)
    {other : String} (hwaits : Relation.TransGen context.engine.plan.WaitsFor step.name other)
    (hundone : other ∉ j.names) : step ∈ s.waiting.map (·.1) := by
  obtain ⟨next, ⟨step', hstep', hname, hdepends⟩, hrest⟩ := Relation.TransGen.head'_iff.1 hwaits
  cases List.inj_on_of_nodup_map hplan.steps_nodup hstep' hstep hname
  have hne : step.undone j.names ≠ [] :=
    Plan.Step.undone_ne_nil hdepends (h.not_done_of_waitsFor hplan hrest hundone)
  rw [show s.waiting = context.engine.plan.waitingFor j.names from h.waiting_eq]
  refine List.mem_map.2 ⟨(step, step.undone j.names), ?_, rfl⟩
  refine List.mem_map_of_mem (List.mem_filter.2 ⟨hstep, ?_⟩)
  simpa using hne

/-- A step that waits is not under way. -/
theorem Tracks.not_inFlight_of_waiting {plan : Plan} (h : Tracks plan j s)
    (hplan : plan.stepNames.Nodup) {step : Plan.Step} (hstep : step ∈ s.waiting.map (·.1))
    {task : Task} (htask : task ∈ s.inFlight) : task.step ≠ step := by
  rintro rfl
  obtain ⟨lost, hperm, -⟩ := h.steps
  have hdisjoint := List.disjoint_of_nodup_append (hperm.nodup_iff.2 hplan.of_map)
  refine hdisjoint hstep (List.mem_append_right _ (List.mem_append_left _ ?_))
  exact List.mem_map_of_mem htask

end Dependents

/-! ### Whole runs -/

/-- A run over supplied values that is not called off ends as its final state says. -/
theorem Engine.run_eq_resultOf {engine : Engine} {parameters : Table String Json}
    {options : RunOptions} {prepared : Prepared}
    (hprepare : prepare engine.plan.inputs parameters = .ok prepared)
    (hoptions : options.cancelled = false) : (engine.run parameters options).result =
      engine.resultOf prepared (engine.finalState options prepared) := by
  unfold run
  rw [hprepare]
  simp only [hoptions, Bool.false_eq_true, if_false]

/-- A run over supplied values that is not called off fails with the fault of the task that failed
    first. -/
theorem Engine.run_eq_error_iff {engine : Engine} {parameters : Table String Json}
    {options : RunOptions} {prepared : Prepared}
    (hprepare : prepare engine.plan.inputs parameters = .ok prepared)
    (hoptions : options.cancelled = false) {fault : RunFault} :
    (engine.run parameters options).result = .error fault ↔ ∃ s i task,
      FirstFailure ⟨engine, prepared.store, options.draw⟩
        (.initial engine.plan prepared.shape) s i task fault
        (engine.finalState options prepared) := by
  rw [run_eq_resultOf hprepare hoptions, resultOf_eq_error_iff]
  constructor
  · exact fun hfailure => exists_firstFailure rfl (leadsTo_drive _ _ _) hfailure
  · rintro ⟨s, i, task, hfirst⟩
    obtain ⟨left, -, hhalts⟩ := hfirst.exists_halts
    exact hhalts.failure

/-- A step that depends on the one that failed first, directly or not, waits in every state of the
    run, before and after. -/
theorem FirstFailure.waits {context : RunContext} {shape : BatchStructure} {s later : RunState}
    {i : Nat} {task : Task} {fault : RunFault} (hplan : context.engine.plan.Coherent)
    (h : FirstFailure context (.initial context.engine.plan shape) s i task fault later)
    {step : Plan.Step} (hstep : step ∈ context.engine.plan.steps)
    (hdepends : Relation.TransGen context.engine.plan.WaitsFor step.name task.step.name)
    {between : RunState} (hbetween : LeadsTo context (.initial context.engine.plan shape) between)
    (hlater : LeadsTo context between later) :
    step ∈ between.waiting.map (·.1) ∧ ∀ other ∈ between.inFlight, other.step ≠ step := by
  -- the failed step was under way and not done, so the step waited, and it waits ever after
  have hinitial : Reaches context shape [] (.initial context.engine.plan shape) := .initial
  obtain ⟨j, hreaches⟩ := h.before.exists_reaches hinitial
  have hundone := hreaches.tracks.not_done_of_task hplan.steps_nodup
    (List.mem_of_getElem? h.inFlight)
  obtain ⟨left, -, hhalts⟩ := h.exists_halts
  have hwaits : step ∈ later.waiting.map (·.1) := by
    rw [hhalts.waiting]
    exact hreaches.waits_of_waitsFor hplan hstep hdepends hundone
  have hwaited := hlater.waiting.subset hwaits
  obtain ⟨j', hreaches'⟩ := hbetween.exists_reaches hinitial
  exact ⟨hwaited, fun other hother =>
    hreaches'.tracks.not_inFlight_of_waiting hplan.steps_nodup hwaited hother⟩

/-- The first failure wins and stops the run, whichever tasks finish first. The outputs that come
    before a refused one stay recorded. After the failure no step is taken, nothing is recorded or
    let go on, and the failure stays; a step that depends on the failed one, directly or not, is
    never started. A run over supplied values ends when nothing is under way any more, with a fault
    exactly when a task failed first with that fault. -/
theorem first_failure {registry : Registry} {initParameters : Table String Json} {d : Definition}
    {plan : Plan} (hcompile : d.compile registry initParameters = .ok plan)
    (blocks : Table String Block) (settings : Settings) :
    let engine : Engine := ⟨plan, blocks, settings⟩
    (∀ (store : InputStore) (draw : String → Float) (shape : BatchStructure),
      let context : RunContext := ⟨engine, store, draw⟩
      ∀ s i task fault later,
        FirstFailure context (.initial plan shape) s i task fault later →
          (∃ left, task.Leaves context s fault left ∧ RunState.Halts (RunState.keep
            { s with inFlight := s.inFlight.eraseIdx i, failure := some fault } left) later) ∧
          ∀ step ∈ plan.steps, Relation.TransGen plan.WaitsFor step.name task.step.name →
            ∀ between, LeadsTo context (.initial plan shape) between →
              LeadsTo context between later →
              step ∈ between.waiting.map (·.1) ∧ ∀ other ∈ between.inFlight, other.step ≠ step) ∧
    ∀ parameters options prepared, prepare plan.inputs parameters = .ok prepared →
      options.cancelled = false →
      let context : RunContext := ⟨engine, prepared.store, options.draw⟩
      let initial := RunState.initial plan prepared.shape
      let final := engine.finalState options prepared
      LeadsTo context initial final ∧ final.inFlight = [] ∧
      ∀ fault, (engine.run parameters options).result = .error fault ↔
        ∃ s i task, FirstFailure context initial s i task fault final := by
  intro engine
  have hplan := Definition.coherent_of_compile hcompile
  constructor
  · intro store draw shape context s i task fault later hfirst
    exact ⟨hfirst.exists_halts, fun step hstep hdepends between hbetween hlater =>
      hfirst.waits hplan hstep hdepends hbetween hlater⟩
  · intro parameters options prepared hprepare hoptions context initial final
    have hfinal : LeadsTo context initial final := leadsTo_drive _ _ _
    obtain ⟨j, -, hinFlight, -⟩ := engine.exists_reaches_finalState options prepared
    refine ⟨hfinal, hinFlight, fun fault => ?_⟩
    rw [Engine.run_eq_resultOf hprepare hoptions, Engine.resultOf_eq_error_iff]
    constructor
    · exact fun hfailure => exists_firstFailure rfl hfinal hfailure
    · rintro ⟨s, i, task, hfirst⟩
      obtain ⟨left, -, hhalts⟩ := hfirst.exists_halts
      exact hhalts.failure

namespace Sample

/-- Lists are fanned out. Anything else is returned as it is, which the manifest rules out. -/
def fanOut : Block where
  manifest := {
    blockType := "FanOut", transform := .increment
    properties := [{ name := "value", kind := .data [] true }]
    outputs := [⟨"value", []⟩] }
  execute := fun _ values => match values.get? "value" with
    | some (.array items) => .ok (.nested (items.map fun item => [("value", item)]))
    | _ => .ok (.values values)

/-- A step that fans out, one that waits for it, and one that is under way beside it. -/
def fanning : Definition where
  version := "1.0"
  inputs := [.batch "x" 1 []]
  steps := [⟨"FanOut", "fan", [("value", .string "$inputs.x")]⟩,
    ⟨"PassOn", "after", [("value", .string "$steps.fan.value")]⟩,
    ⟨"PassOn", "beside", [("value", .string "$inputs.x")]⟩]
  outputs := [⟨"out", "$steps.after.value"⟩]

/-- The registry of the blocks. -/
def fanningBlocks : Registry := [("FanOut", fanOut), ("PassOn", passOn)]

/-- The first element is a list, the second is none. -/
def fanningInput : Table String Json :=
  [("x", .array [.array [.bool true, .null], .bool false])]

end Sample

/-- The outputs of a step are refused at the second element, while another step is under way. The
    run ends with this fault. What the first element fanned out to stays recorded, nothing of the
    other step is recorded, and the step that depends on the failed one still waits. -/
theorem first_failure_fan : ∃ plan prepared s i task,
    Sample.fanning.compile Sample.fanningBlocks [] = .ok plan ∧
    let engine : Engine := ⟨plan, Sample.fanningBlocks, {}⟩
    let context : RunContext := ⟨engine, prepared.store, fun _ => 0.5⟩
    let final := engine.finalState {} prepared
    (engine.run Sample.fanningInput).result = .error (.output "fan" .notNested) ∧
    FirstFailure context (.initial plan prepared.shape) s i task (.output "fan" .notNested) final ∧
    (∃ left, task.Leaves context s (.output "fan" .notNested) left ∧
      left.results = final.results ∧ left.shape = final.shape) ∧
    Table.keys final.results = [("fan", [0, 0]), ("fan", [0, 1])] ∧
    final.shape.children? [Lineage.inputLevel, "fan"] [0] = some 2 ∧
    ∀ step ∈ plan.steps, step.name = "after" → step ∈ final.waiting.map (·.1) := by
  have hfound : ((Sample.fanning.compile Sample.fanningBlocks []).toOption.bind fun plan =>
      (prepare plan.inputs Sample.fanningInput).toOption.bind fun prepared =>
        let final := Engine.finalState ⟨plan, Sample.fanningBlocks, {}⟩ {} prepared
        if final.failure = some (.output "fan" .notNested) ∧
          Table.keys final.results = [("fan", [0, 0]), ("fan", [0, 1])] ∧
          final.shape.children? [Lineage.inputLevel, "fan"] [0] = some 2 ∧
          (∀ step ∈ plan.steps, step.name = "after" → step.dependsOn = ["fan"])
        then some () else none).isSome := by
    decide +kernel
  obtain ⟨_, hfound⟩ := Option.isSome_iff_exists.1 hfound
  obtain ⟨plan, hcompile, hfound⟩ := Option.bind_eq_some_iff.1 hfound
  obtain ⟨prepared, hprepare, hfound⟩ := Option.bind_eq_some_iff.1 hfound
  obtain ⟨⟨hfailure, hkeys, hchildren, hafter⟩, -⟩ := Option.ite_none_right_eq_some.1 hfound
  have hcompile := toOption_eq_some.1 hcompile
  have hprepare := toOption_eq_some.1 hprepare
  obtain ⟨hstops, hends⟩ := first_failure hcompile Sample.fanningBlocks {}
  obtain ⟨hfinal, -, hresult⟩ := hends Sample.fanningInput {} prepared hprepare rfl
  have hrun : (Engine.run ⟨plan, Sample.fanningBlocks, {}⟩ Sample.fanningInput).result =
      .error (.output "fan" .notNested) := by
    rw [Engine.run_eq_resultOf hprepare rfl, Engine.resultOf_eq_error_iff]
    exact hfailure
  obtain ⟨s, i, task, hfirst⟩ := (hresult _).1 hrun
  obtain ⟨⟨left, hleaves, hhalts⟩, hwaits⟩ := hstops _ _ _ s i task _ _ hfirst
  refine ⟨plan, prepared, s, i, task, hcompile, hrun, hfirst,
    ⟨left, hleaves, hhalts.results.symm, hhalts.shape.symm⟩, hkeys, hchildren,
    fun step hstep hname => ?_⟩
  have hdepends : plan.WaitsFor step.name task.step.name :=
    ⟨step, hstep, rfl, by simp [hafter step hstep hname, hfirst.fails.step_name]⟩
  exact (hwaits step hstep (.single hdepends) _ hfinal .refl).1

end BatchFlow
