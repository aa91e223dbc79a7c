import BatchFlow.Proofs.Plan.Coherence
import BatchFlow.Proofs.Run.Journal
import Mathlib.Data.List.InsertIdx

namespace BatchFlow

/-!
# Every step is somewhere

* `Tracks` — each step of the plan waits, is ready, is under way or is done, unless it is lost to a
  failure; a step waits for those of its dependencies that are not done.
* `Reaches.tracks` — this holds in every state of a run.
* `Origin` — the state of the run in which a step was taken.
* `Reaches.origin_of_entry` — what a step that is done has returned goes back to the elements
  at which it was started.
-/

/-- Whether a run has failed over the outputs of a step. Some of them may have been recorded. -/
def RunState.Refused (s : RunState) (name : String) : Prop :=
  ∃ fault, s.failure = some (.output name fault)

/-- Without a failure no outputs were refused. -/
theorem RunState.not_refused {s : RunState} (h : s.failure = none) (name : String) :
    ¬ s.Refused name := by
  rintro ⟨fault, hfault⟩
  cases h.symm.trans hfault

/-- The steps that are lost to a failure: there are none as long as there was no failure, and a step
    whose outputs were refused is one of them. -/
structure Loses (failure : Option RunFault) (lost : List Plan.Step) : Prop where
  unfailed : failure = none → lost = []
  refused : ∀ name fault, failure = some (.output name fault) → name ∈ lost.map (·.name)

/-- Each step is in one place, and waits for those of its dependencies that are not done. -/
structure Tracks (plan : Plan) (j : Journal) (s : RunState) : Prop where
  steps : ∃ lost, (s.waiting.map (·.1) ++ (s.ready ++ (s.inFlight.map (·.step) ++
    (j.map (·.step) ++ lost)))).Perm plan.steps ∧ Loses s.failure lost
  waiting : ∀ w ∈ s.waiting, w.2 = w.1.dependsOn.filter (· ∉ j.names) ∧ w.2 ≠ []
  ready : ∀ step ∈ s.ready, ∀ name ∈ step.dependsOn, name ∈ j.names

/-- A step that is done comes last. -/
theorem Journal.names_append (j : Journal) (e : Entry) :
    Journal.names (j ++ [e]) = j.names ++ [e.step.name] := by
  rw [Journal.names, List.map_append]
  rfl

namespace Tracks

variable {plan : Plan} {j : Journal} {s : RunState}

/-! ### The invariant -/

/-- At the start every step waits or is ready. -/
theorem initial (shape : BatchStructure) : Tracks plan [] (.initial plan shape) where
  steps := by
    have hperm := RunState.initial_perm plan shape
    rw [← List.append_nil (RunState.initial plan shape).ready] at hperm
    exact ⟨[], hperm, ⟨fun _ => rfl, nofun⟩⟩
  waiting := by
    intro w hw
    obtain ⟨step, hstep, rfl⟩ := List.mem_map.1 hw
    have hne := (List.mem_filter.1 hstep).2
    refine ⟨(List.filter_eq_self.2 fun _ _ => by simp [Journal.names]).symm, fun he => ?_⟩
    rw [show step.dependsOn = [] from he] at hne
    cases hne
  ready := by
    intro step hstep name hname
    have hempty := (List.mem_filter.1 hstep).2
    rw [List.isEmpty_iff.1 hempty] at hname
    cases hname

/-- When a step is done, the steps that waited for nothing else become ready. -/
theorem release {e : Entry} {lost : List Plan.Step}
    (hsteps : (s.waiting.map (·.1) ++ (s.ready ++ (s.inFlight.map (·.step) ++
      ((j ++ [e]).map (·.step) ++ lost)))).Perm plan.steps)
    (hlost : Loses s.failure lost)
    (hwaiting : ∀ w ∈ s.waiting, w.2 = w.1.dependsOn.filter (· ∉ j.names) ∧ w.2 ≠ [])
    (hready : ∀ step ∈ s.ready, ∀ name ∈ step.dependsOn, name ∈ j.names) :
    Tracks plan (j ++ [e]) (s.release e.step.name) := by
  -- what waits after the release, before the steps that wait for nothing any more become ready
  let waiting := s.waiting.map fun w => (w.1, w.2.filter (· ≠ e.step.name))
  have hothers : ∀ w ∈ waiting, w.2 = w.1.dependsOn.filter (· ∉ Journal.names (j ++ [e])) := by
    intro w hw
    obtain ⟨⟨step, others⟩, hmem, rfl⟩ := List.mem_map.1 hw
    have hothers : others = step.dependsOn.filter (· ∉ j.names) := (hwaiting _ hmem).1
    show others.filter _ = step.dependsOn.filter _
    rw [hothers, List.filter_filter, Journal.names_append]
    refine List.filter_congr fun name _ => ?_
    simp [and_comm]
  constructor
  case steps =>
    refine ⟨lost, List.Perm.trans ?_ hsteps, hlost⟩
    rw [← List.append_assoc, ← List.append_assoc (s.waiting.map _)]
    exact (s.release_perm _).append_right _
  case waiting =>
    intro w hw
    obtain ⟨hmem, hne⟩ := List.mem_filter.1 hw
    refine ⟨hothers w hmem, fun he => ?_⟩
    rw [he] at hne
    cases hne
  case ready =>
    intro step hstep name hname
    rcases List.mem_append.1 hstep with hstep | hstep
    · rw [Journal.names_append]
      exact List.mem_append_left _ (hready step hstep name hname)
    · obtain ⟨w, hw, rfl⟩ := List.mem_map.1 hstep
      obtain ⟨hmem, hempty⟩ := List.mem_filter.1 hw
      have hnil := (hothers w hmem).symm.trans (List.isEmpty_iff.1 hempty)
      simpa using List.filter_eq_nil_iff.1 hnil name hname

/-- A ready step that is taken is under way, or done if it was passed over. -/
theorem take {context : RunContext} {step : Plan.Step} (h : Tracks plan j s)
    (hstep : step ∈ s.ready) : Tracks plan (j ++ s.taken context step)
      (RunState.take context { s with ready := s.ready.erase step } step) := by
  obtain ⟨lost, hperm, hlost⟩ := h.steps
  have hready : ∀ other ∈ s.ready.erase step, ∀ name ∈ other.dependsOn, name ∈ j.names :=
    fun other hother => h.ready other (List.mem_of_mem_erase hother)
  have herase := List.perm_cons_erase hstep
  rw [List.perm_iff_count] at hperm herase
  -- a step without elements is passed over and done at once, any other becomes a task under way;
  -- either way the steps are the same in other places, which counting shows
  rcases RunState.take_cases context { s with ready := s.ready.erase step } step with
    ⟨-, htaken, events, branches, -, he⟩ | ⟨-, htaken, events, ids, he⟩
  · rw [show s.taken context step = [⟨step, []⟩] from htaken, he]
    refine release (List.perm_iff_count.2 fun a => ?_) hlost h.waiting hready
    have := hperm a
    have := herase a
    simp only [List.count_append, List.map_append, List.map_cons, List.map_nil, List.count_cons,
      List.count_nil] at *
    omega
  · rw [show s.taken context step = [] from htaken, he, List.append_nil]
    refine ⟨⟨lost, List.perm_iff_count.2 fun a => ?_, hlost⟩, h.waiting, hready⟩
    have := hperm a
    have := herase a
    simp only [List.count_append, List.map_append, List.map_cons, List.map_nil, List.count_cons,
      List.count_nil] at *
    omega

/-- A task that is done leaves its place to an entry, or is lost to a failure. -/
theorem finish {context : RunContext} {i : Nat} {task : Task} (h : Tracks plan j s)
    (htask : s.inFlight[i]? = some task) : Tracks plan
      (j ++ RunState.finished context { s with inFlight := s.inFlight.eraseIdx i } task)
      (RunState.finish context { s with inFlight := s.inFlight.eraseIdx i } task) := by
  obtain ⟨lost, hperm, hlost⟩ := h.steps
  -- the task that finishes may stand anywhere among those under way
  have herase : (s.inFlight.map (·.step)).Perm
      (task.step :: (s.inFlight.eraseIdx i).map (·.step)) := by
    obtain ⟨hlt, rfl⟩ := List.getElem?_eq_some_iff.1 htask
    have hinsert := List.perm_insertIdx s.inFlight[i] (s.inFlight.eraseIdx i)
      (i := i) (by rw [List.length_eraseIdx_of_lt hlt]; omega)
    rw [List.insertIdx_eraseIdx_getElem hlt] at hinsert
    exact hinsert.map (·.step)
  rw [List.perm_iff_count] at hperm herase
  rcases RunState.finish_cases context { s with inFlight := s.inFlight.eraseIdx i } task with
    ⟨-, outputs, -, hrecord, hfinished⟩ | ⟨hfinished, ⟨fault, left, events, hleaves, he⟩, -⟩
  · obtain ⟨-, recording, -, events, branches, -, he⟩ := RunState.record_eq_ok hrecord
    rw [hfinished, he]
    refine release (List.perm_iff_count.2 fun a => ?_) hlost h.waiting h.ready
    have := hperm a
    have := herase a
    simp only [List.count_append, List.map_append, List.map_cons, List.map_nil, List.count_cons,
      List.count_nil, RunState.keep_waiting, RunState.keep_ready, RunState.keep_inFlight] at *
    omega
  · rw [hfinished, he, List.append_nil]
    -- a task that fails is under way no longer and is never done
    refine ⟨⟨task.step :: lost, List.perm_iff_count.2 fun a => ?_, ⟨nofun, ?_⟩⟩,
      h.waiting, h.ready⟩
    · have := hperm a
      have := herase a
      simp only [List.count_append, List.count_cons, RunState.keep_waiting, RunState.keep_ready,
        RunState.keep_inFlight] at *
      omega
    · intro name reason hreason
      cases hreason
      rcases hleaves.exists_record with hrefused | ⟨hname, -⟩
      · exact List.mem_cons_of_mem _ (hlost.refused name reason hrefused)
      · exact hname ▸ List.mem_cons_self

/-! ### What follows for a state -/

/-- A ready step is a step of the plan. -/
theorem mem_steps_of_ready (h : Tracks plan j s) {step : Plan.Step} (hstep : step ∈ s.ready) :
    step ∈ plan.steps := by
  obtain ⟨lost, hperm, -⟩ := h.steps
  exact hperm.mem_iff.1 (List.mem_append_right _ (List.mem_append_left _ hstep))

/-- A step under way is a step of the plan. -/
theorem mem_steps_of_task (h : Tracks plan j s) {task : Task} (htask : task ∈ s.inFlight) :
    task.step ∈ plan.steps := by
  obtain ⟨lost, hperm, -⟩ := h.steps
  refine hperm.mem_iff.1 (List.mem_append_right _ (List.mem_append_right _ ?_))
  exact List.mem_append_left _ (List.mem_map_of_mem htask)

/-- A step that is done is a step of the plan. -/
theorem mem_steps_of_entry (h : Tracks plan j s) {e : Entry} (he : e ∈ j) :
    e.step ∈ plan.steps := by
  obtain ⟨lost, hperm, -⟩ := h.steps
  refine hperm.mem_iff.1 (List.mem_append_right _ (List.mem_append_right _ ?_))
  exact List.mem_append_right _ (List.mem_append_left _ (List.mem_map_of_mem he))

/-- A step that is done has an entry. -/
theorem exists_entry (h : Tracks plan j s) (hplan : plan.stepNames.Nodup) {step : Plan.Step}
    (hstep : step ∈ plan.steps) (hdone : step.name ∈ j.names) : ∃ e ∈ j, e.step = step := by
  obtain ⟨e, he, hname⟩ := List.mem_map.1 hdone
  exact ⟨e, he, List.inj_on_of_nodup_map hplan (h.mem_steps_of_entry he) hstep hname⟩

/-- The steps that are ready, under way, done or lost have different names. -/
theorem names_lost_nodup (h : Tracks plan j s) (hplan : plan.stepNames.Nodup) :
    ∃ lost, Loses s.failure lost ∧
      ((s.ready.map (·.name) ++ (s.inFlight.map (·.step.name) ++ j.names)) ++
        lost.map (·.name)).Nodup := by
  obtain ⟨lost, hperm, hlost⟩ := h.steps
  have hall := (hperm.map (fun step : Plan.Step => step.name)).nodup_iff.2 hplan
  rw [List.map_append] at hall
  have hall := hall.of_append_right
  simp only [List.map_append, List.map_map] at hall
  refine ⟨lost, hlost, ?_⟩
  rw [List.append_assoc, List.append_assoc]
  exact hall

/-- No step is ready, under way or done more than once. -/
theorem names_nodup (h : Tracks plan j s) (hplan : plan.stepNames.Nodup) :
    (s.ready.map (·.name) ++ (s.inFlight.map (·.step.name) ++ j.names)).Nodup := by
  obtain ⟨lost, -, hall⟩ := h.names_lost_nodup hplan
  exact hall.of_append_left

/-- A ready step is not done. -/
theorem not_done_of_ready (h : Tracks plan j s) (hplan : plan.stepNames.Nodup) {step : Plan.Step}
    (hstep : step ∈ s.ready) : step.name ∉ j.names := by
  intro hdone
  have hdisjoint := List.disjoint_of_nodup_append (h.names_nodup hplan)
  exact hdisjoint (List.mem_map_of_mem hstep) (List.mem_append_right _ hdone)

/-- A step under way is not done. -/
theorem not_done_of_task (h : Tracks plan j s) (hplan : plan.stepNames.Nodup) {task : Task}
    (htask : task ∈ s.inFlight) : task.step.name ∉ j.names := by
  intro hdone
  have hdisjoint := List.disjoint_of_nodup_append (h.names_nodup hplan).of_append_right
  exact hdisjoint (List.mem_map_of_mem htask) hdone

/-- A ready step is not under way. -/
theorem not_inFlight_of_ready (h : Tracks plan j s) (hplan : plan.stepNames.Nodup)
    {step : Plan.Step} (hstep : step ∈ s.ready) {task : Task} (htask : task ∈ s.inFlight) :
    task.step ≠ step := by
  rintro rfl
  have hdisjoint := List.disjoint_of_nodup_append (h.names_nodup hplan)
  exact hdisjoint (List.mem_map_of_mem hstep) (List.mem_append_left _ (List.mem_map_of_mem htask))

/-- A step whose outputs were refused is lost: it is neither ready nor under way, nor is it done. -/
theorem not_refused (h : Tracks plan j s) (hplan : plan.stepNames.Nodup) {name : String}
    (hname : name ∈ s.ready.map (·.name) ++ (s.inFlight.map (·.step.name) ++ j.names)) :
    ¬ s.Refused name := by
  rintro ⟨reason, hrefused⟩
  obtain ⟨lost, hlost, hall⟩ := h.names_lost_nodup hplan
  exact List.disjoint_of_nodup_append hall hname (hlost.refused name reason hrefused)

/-- The outputs of a step under way were not refused. -/
theorem not_refused_of_task (h : Tracks plan j s) (hplan : plan.stepNames.Nodup) {task : Task}
    (htask : task ∈ s.inFlight) : ¬ s.Refused task.step.name :=
  h.not_refused hplan (List.mem_append_right _ (List.mem_append_left _ (List.mem_map_of_mem htask)))

/-- The outputs of a step that is done were not refused. -/
theorem not_refused_of_done (h : Tracks plan j s) (hplan : plan.stepNames.Nodup) {name : String}
    (hdone : name ∈ j.names) : ¬ s.Refused name :=
  h.not_refused hplan (List.mem_append_right _ (List.mem_append_right _ hdone))

/-- No step is done twice. -/
theorem journal_nodup (h : Tracks plan j s) (hplan : plan.stepNames.Nodup) : j.names.Nodup :=
  (h.names_nodup hplan).of_append_right.of_append_right

/-- When nothing has failed, is ready or is under way, every step is done: the first step that is
    not would wait for nothing. -/
theorem all_done (h : Tracks plan j s) (hplan : plan.Coherent) (hfailure : s.failure = none)
    (hready : s.ready = []) (hinFlight : s.inFlight = []) :
    ∀ step ∈ plan.steps, step.name ∈ j.names := by
  obtain ⟨lost, hperm, hlost⟩ := h.steps
  rw [hready, hinFlight, hlost.unfailed hfailure, List.map_nil, List.nil_append, List.nil_append,
    List.append_nil] at hperm
  -- a step either waits or is done
  have hwhere : ∀ step ∈ plan.steps, step ∈ s.waiting.map (·.1) ∨ step.name ∈ j.names := by
    intro step hstep
    rcases List.mem_append.1 (hperm.mem_iff.2 hstep) with hwaits | hdone
    · exact Or.inl hwaits
    · obtain ⟨e, he, rfl⟩ := List.mem_map.1 hdone
      exact Or.inr (List.mem_map_of_mem he)
  -- what a step waits for comes before it
  refine Plan.forall_steps fun {earlier step later} hsplit hearlier => ?_
  have hmem : step ∈ plan.steps := hsplit ▸ List.mem_append_right _ List.mem_cons_self
  refine (hwhere step hmem).resolve_left fun hwaits => ?_
  obtain ⟨w, hw, rfl⟩ := List.mem_map.1 hwaits
  obtain ⟨hothers, hne⟩ := h.waiting w hw
  refine hne (hothers.trans (List.filter_eq_nil_iff.2 fun name hname => ?_))
  obtain ⟨other, hother, rfl⟩ := (hplan.step hsplit).exists_of_mem_dependsOn hname
  simpa using hearlier other hother

end Tracks

/-- In every state of a run each step is in one place. -/
theorem Reaches.tracks {context : RunContext} {shape : BatchStructure} {j : Journal} {s : RunState}
    (h : Reaches context shape j s) : Tracks context.engine.plan j s := by
  induction h with
  | initial => exact .initial shape
  | take _ hstep _ ih => exact ih.take hstep
  | finish _ htask ih => exact ih.finish htask

/-! ### Where elements come from -/

/-- A step was taken in a state of the run whose journal begins a given one, when nothing had
    failed, and was started at some elements there. -/
def Origin (context : RunContext) (shape : BatchStructure) (j : Journal) (step : Plan.Step)
    (elements : Invocation) : Prop :=
  ∃ j' s, Reaches context shape j' s ∧ j' <+: j ∧ s.failure = none ∧ step ∈ s.ready ∧
    elements = s.elements context step

/-- Where elements come from does not change when more steps are done. -/
theorem Origin.mono {context : RunContext} {shape : BatchStructure} {j more : Journal}
    {step : Plan.Step} {elements : Invocation} (h : Origin context shape j step elements)
    (hmore : j <+: more) : Origin context shape more step elements := by
  obtain ⟨j', s, hreaches, hbegin, hnone, hstep, he⟩ := h
  exact ⟨j', s, hreaches, hbegin.trans hmore, hnone, hstep, he⟩

/-- What a step that was started at some elements returned; nothing if there were none. -/
def Entry.Returned (context : RunContext) (elements : Invocation) (e : Entry) : Prop :=
  elements = [] ∧ e.outputs = [] ∨
    elements ≠ [] ∧ ∃ outputs, Task.outcome context ⟨e.step, elements⟩ = .ok outputs ∧
      outputs.length = elements.length ∧ e.outputs = (elements.map (·.1)).zip outputs

/-- A step returns the same when it is started at the same elements. -/
theorem Entry.Returned.unique {context : RunContext} {elements : Invocation} {e e' : Entry}
    (h : e.Returned context elements) (h' : e'.Returned context elements)
    (hstep : e.step = e'.step) : e = e' := by
  obtain ⟨step, outputs⟩ := e
  obtain ⟨step', outputs'⟩ := e'
  cases hstep
  rcases h with ⟨hnil, he⟩ | ⟨hne, results, hresults, -, he⟩
  · rcases h' with ⟨-, he'⟩ | ⟨hne, -⟩
    · exact congrArg (Entry.mk step) (he.trans he'.symm)
    · exact absurd hnil hne
  · rcases h' with ⟨hnil, -⟩ | ⟨-, results', hresults', -, he'⟩
    · exact absurd hnil hne
    · cases hresults.symm.trans hresults'
      exact congrArg (Entry.mk step) (he.trans he'.symm)

/-- A task was started at the elements of a state of the run. -/
theorem Reaches.origin_of_task {context : RunContext} {shape : BatchStructure} {j : Journal}
    {s : RunState} (h : Reaches context shape j s) :
    ∀ task ∈ s.inFlight, task.elements ≠ [] ∧ Origin context shape j task.step task.elements := by
  induction h with
  | initial =>
    intro task htask
    cases htask
  | @take j s step hreaches hstep hfailure ih =>
    intro task htask
    rcases RunState.take_cases context { s with ready := s.ready.erase step } step with
      ⟨-, -, events, branches, -, he⟩ | ⟨hne, -, events, ids, he⟩
    · rw [he] at htask
      exact ⟨(ih task htask).1, (ih task htask).2.mono (List.prefix_append _ _)⟩
    · rw [he] at htask
      -- only the step that was taken is under way for the first time
      rcases List.mem_append.1 htask with htask | htask
      · exact ⟨(ih task htask).1, (ih task htask).2.mono (List.prefix_append _ _)⟩
      · cases List.mem_singleton.1 htask
        exact ⟨hne, j, s, hreaches, List.prefix_append _ _, hfailure, hstep, rfl⟩
  | @finish j s i task' hreaches htask' ih =>
    intro task htask
    rw [RunState.finish_inFlight] at htask
    have hmem : task ∈ s.inFlight := List.mem_of_mem_eraseIdx htask
    exact ⟨(ih task hmem).1, (ih task hmem).2.mono (List.prefix_append _ _)⟩

/-- What a step that is done has returned goes back to the elements at which it was started. -/
theorem Reaches.origin_of_entry {context : RunContext} {shape : BatchStructure} {j : Journal}
    {s : RunState} (h : Reaches context shape j s) {e : Entry} (he : e ∈ j) :
    ∃ elements, Origin context shape j e.step elements ∧ e.Returned context elements := by
  obtain ⟨j', s', hreaches, hbegin, hadded⟩ := h.exists_of_entry e he
  rcases hadded with ⟨hnone, step, hstep, he⟩ | ⟨i, task, htask, he⟩
  · obtain ⟨hnil, rfl⟩ := RunState.of_mem_taken he
    exact ⟨[], ⟨j', s', hreaches, hbegin, hnone, hstep, hnil.symm⟩, Or.inl ⟨rfl, rfl⟩⟩
  · obtain ⟨outputs, houtcome, ⟨s₁, hrecord⟩, rfl⟩ := RunState.of_mem_finished he
    obtain ⟨hne, horigin⟩ := hreaches.origin_of_task task (List.mem_of_getElem? htask)
    have hlength := (RunState.record_eq_ok hrecord).1
    exact ⟨task.elements, horigin.mono hbegin, Or.inr ⟨hne, outputs, houtcome, hlength, rfl⟩⟩

end BatchFlow
