import Mathlib.Data.List.Perm.Subperm
import BatchFlow.Proofs.Run.Masks

namespace BatchFlow

/-!
# Executions

A step is executed when a task is started for it, whatever becomes of the task afterwards: it may
still be under way, its results may have been recorded, or it may have failed.

* `Task.indices` — the elements at which a task was started.
* `Executes` — the states of a run, each with all tasks that were started on the way.
* `Reaches.exists_executes` — every state of a run is one of them.
* `Executes.once` — no step is started twice.
* `Executes.exists_of_output` — what a step that is done has returned belongs to its task.
* `Executes.indices_sublist`, `Executes.length_of_mem_indices` — a task was started at elements of
  the lineage of its step.
-/

/-- The elements at which a task was started. -/
def Task.indices (task : Task) : List Index := task.elements.map (·.1)

/-- The tasks that are under way when a ready step is taken and were not before. -/
def RunState.startedBy (context : RunContext) (s : RunState) (step : Plan.Step) : List Task :=
  (take context { s with ready := s.ready.erase step } step).inFlight.drop s.inFlight.length

/-- The states of a run with their journals, each with the tasks that were started until then. Any
    ready step may be taken as long as nothing has failed, and any task may finish. -/
inductive Executes (context : RunContext) (shape : BatchStructure) :
    Journal → List Task → RunState → Prop where
  | initial : Executes context shape [] [] (.initial context.engine.plan shape)
  | take {j : Journal} {started : List Task} {s : RunState} {step : Plan.Step} :
      Executes context shape j started s → step ∈ s.ready → s.failure = none →
      Executes context shape (j ++ s.taken context step) (started ++ s.startedBy context step)
        (RunState.take context { s with ready := s.ready.erase step } step)
  | finish {j : Journal} {started : List Task} {s : RunState} {i : Nat} {task : Task} :
      Executes context shape j started s → s.inFlight[i]? = some task →
      Executes context shape
        (j ++ RunState.finished context { s with inFlight := s.inFlight.eraseIdx i } task) started
        (RunState.finish context { s with inFlight := s.inFlight.eraseIdx i } task)

variable {context : RunContext} {shape : BatchStructure} {j : Journal} {started : List Task}
  {s : RunState}

/-- A run with its tasks is a run. -/
theorem Executes.reaches (h : Executes context shape j started s) : Reaches context shape j s := by
  induction h with
  | initial => exact .initial
  | take _ hstep hfailure ih => exact ih.take hstep hfailure
  | finish _ htask ih => exact ih.finish htask

/-- Every state of a run comes with the tasks that were started on the way. -/
theorem Reaches.exists_executes (h : Reaches context shape j s) :
    ∃ started, Executes context shape j started s := by
  induction h with
  | initial => exact ⟨[], .initial⟩
  | take _ hstep hfailure ih =>
    obtain ⟨started, hstarted⟩ := ih
    exact ⟨_, hstarted.take hstep hfailure⟩
  | finish _ htask ih =>
    obtain ⟨started, hstarted⟩ := ih
    exact ⟨_, hstarted.finish htask⟩

/-- A step that is taken starts a task at its elements, or none if it has no elements. -/
theorem RunState.startedBy_eq (context : RunContext) (s : RunState) (step : Plan.Step) :
    s.startedBy context step =
      if s.elements context step = [] then [] else [⟨step, s.elements context step⟩] := by
  rw [startedBy]
  rcases take_cases context { s with ready := s.ready.erase step } step with
    ⟨hnone, -, events, branches, -, he⟩ | ⟨hsome, -, events, ids, he⟩
  · rw [he, if_pos (show s.elements context step = [] from hnone)]
    exact List.drop_length
  · rw [he, if_neg (show s.elements context step ≠ [] from hsome)]
    exact List.drop_left

namespace Executes

/-- What is started later was not started before: it waited or was ready. -/
theorem subperm (h : Executes context shape j started s) :
    (started.map (·.step) ++ (s.waiting.map (·.1) ++ s.ready)).Subperm
      context.engine.plan.steps := by
  rw [List.subperm_iff_count]
  induction h with
  | initial => exact fun step => Nat.le_of_eq ((RunState.initial_perm _ _).count_eq step)
  | @take j started s step _ hstep _ ih =>
    intro other
    have hcount := ih other
    have herase := (List.perm_cons_erase hstep).count_eq other
    rw [RunState.startedBy_eq]
    rcases RunState.take_cases context { s with ready := s.ready.erase step } step with
      ⟨hnone, -, events, branches, -, he⟩ | ⟨hsome, -, events, ids, he⟩
    -- a step that is passed over is not started, and what it releases waited
    · have hrelease := (RunState.release_perm
        { s with ready := s.ready.erase step, events, branches } step.name).count_eq other
      rw [he, if_pos (show s.elements context step = [] from hnone)]
      simp only [List.append_nil, List.count_append, List.count_cons] at *
      omega
    · rw [he, if_neg (show s.elements context step ≠ [] from hsome)]
      simp only [List.map_append, List.map_cons, List.map_nil, List.count_append,
        List.count_cons, List.count_nil] at *
      omega
  | @finish j started s i task _ htask ih =>
    intro other
    have hcount := ih other
    rcases RunState.finish_cases context { s with inFlight := s.inFlight.eraseIdx i } task with
      ⟨-, outputs, -, hrecord, -⟩ | ⟨-, ⟨fault, left, events, -, he⟩, -⟩
    · obtain ⟨-, recording, -, events, branches, -, he⟩ := RunState.record_eq_ok hrecord
      rw [he, List.count_append, (RunState.release_perm _ _).count_eq, ← List.count_append]
      exact hcount
    · rw [he]
      exact hcount

/-- No step is started twice. -/
theorem once (h : Executes context shape j started s) (hplan : context.engine.plan.Coherent) :
    (started.map (·.step.name)).Nodup := by
  obtain ⟨steps, hperm, hsublist⟩ := h.subperm
  have hnames : (steps.map (·.name)).Nodup := (hsublist.map _).nodup hplan.steps_nodup
  have hall := (hperm.map (fun step : Plan.Step => step.name)).nodup_iff.1 hnames
  rw [List.map_append, List.map_map] at hall
  exact hall.of_append_left

/-- Of the tasks that were started, at most one is for a given step. -/
theorem length_filter_step_le (h : Executes context shape j started s)
    (hplan : context.engine.plan.Coherent) (step : Plan.Step) :
    (started.filter fun a => a.step = step).length ≤ 1 := by
  have hsteps : (started.map (·.step)).Nodup := by
    refine List.Nodup.of_map Plan.Step.name ?_
    rw [List.map_map]
    exact h.once hplan
  rw [← List.countP_eq_length_filter]
  have hcount := List.nodup_iff_count_le_one.1 hsteps step
  rw [List.count, List.countP_map] at hcount
  refine Nat.le_trans (Nat.le_of_eq (List.countP_congr fun a _ => ?_)) hcount
  simp

/-- Where a task was started. -/
theorem origin (h : Executes context shape j started s) :
    ∀ a ∈ started, a.elements ≠ [] ∧ Origin context shape j a.step a.elements := by
  induction h with
  | initial => exact List.forall_mem_nil _
  | @take j started s step hexecutes hstep hfailure ih =>
    intro a ha
    rcases List.mem_append.1 ha with ha | ha
    · exact (ih a ha).imp_right fun horigin => horigin.mono (List.prefix_append _ _)
    · rw [RunState.startedBy_eq] at ha
      split at ha
      · cases ha
      · rename_i hsome
        obtain rfl := List.mem_singleton.1 ha
        exact ⟨hsome, j, s, hexecutes.reaches, List.prefix_append _ _, hfailure, hstep, rfl⟩
  | finish _ _ ih =>
    intro a ha
    exact (ih a ha).imp_right fun horigin => horigin.mono (List.prefix_append _ _)

/-- A task under way was started. -/
theorem mem_of_inFlight (h : Executes context shape j started s) :
    ∀ task ∈ s.inFlight, task ∈ started := by
  induction h with
  | initial => exact List.forall_mem_nil _
  | @take j started s step _ _ _ ih =>
    intro task htask
    rcases RunState.take_cases context { s with ready := s.ready.erase step } step with
      ⟨-, -, events, branches, -, he⟩ | ⟨-, -, events, ids, he⟩
    · rw [he] at htask
      exact List.mem_append_left _ (ih task htask)
    · rw [he] at htask
      rcases List.mem_append.1 htask with hold | hnew
      · exact List.mem_append_left _ (ih task hold)
      · refine List.mem_append_right _ ?_
        rw [RunState.startedBy, he, List.drop_left]
        exact hnew
  | @finish j started s i task _ _ ih =>
    intro other hother
    rw [RunState.finish_inFlight] at hother
    exact ih other (List.mem_of_mem_eraseIdx hother)

/-- What a step that is done has returned belongs to a task that was started for it. -/
theorem exists_of_output (h : Executes context shape j started s) :
    ∀ e ∈ j, ∀ o ∈ e.outputs, ∃ a ∈ started, a.step = e.step ∧ o.1 ∈ a.indices := by
  induction h with
  | initial => exact List.forall_mem_nil _
  | @take j started s step _ _ _ ih =>
    intro e he o ho
    rcases List.mem_append.1 he with he | he
    · obtain ⟨a, ha, hstep⟩ := ih e he o ho
      exact ⟨a, List.mem_append_left _ ha, hstep⟩
    -- a step that is passed over returns nothing
    · obtain ⟨-, rfl⟩ := RunState.of_mem_taken he
      cases ho
  | @finish j started s i task hexecutes htask ih =>
    intro e he o ho
    rcases List.mem_append.1 he with he | he
    · exact ih e he o ho
    · obtain ⟨outputs, -, -, rfl⟩ := RunState.of_mem_finished he
      exact ⟨task, hexecutes.mem_of_inFlight task (List.mem_of_getElem? htask), rfl,
        (List.of_mem_zip ho).1⟩

/-- A task was started at elements of the lineage of its step, or of the parents if the step
    folds, at each once. -/
theorem indices_sublist (h : Executes context shape j started s) {a : Task} (ha : a ∈ started) :
    ∃ s' : RunState, a.indices.Sublist (s'.shape.indices a.step.elementLineage) := by
  obtain ⟨-, j', s', -, -, -, -, helements⟩ := h.origin a ha
  refine ⟨s', ?_⟩
  rw [Task.indices, helements, RunState.elements]
  split
  · exact List.nil_sublist _
  · exact View.invocation_sublist

/-- A task was started at indices of the depth at which its step runs. -/
theorem length_of_mem_indices (h : Executes context shape j started s)
    (hplan : context.engine.plan.Coherent) {a : Task} (ha : a ∈ started) {index : Index}
    (hindex : index ∈ a.indices) : index.length = a.step.elementDepth := by
  obtain ⟨s', hsublist⟩ := h.indices_sublist ha
  obtain ⟨-, j', s'', hreaches, -, -, hready, -⟩ := h.origin a ha
  obtain ⟨earlier, later, hsplit⟩ :=
    List.append_of_mem (hreaches.tracks.mem_steps_of_ready hready)
  rw [BatchStructure.length_of_mem_indices (hsublist.subset hindex)]
  exact Plan.Step.length_elementLineage (hplan.step hsplit).suits

end Executes

end BatchFlow
