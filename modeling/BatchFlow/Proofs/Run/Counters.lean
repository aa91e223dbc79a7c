import BatchFlow.Proofs.Run.Bookkeeping
import Mathlib.Data.List.Nodup

namespace BatchFlow

/-!
# Readiness by counting

A run keeps with each waiting step the names of the dependencies that are not done. The same can be
kept as numbers: how many dependencies of each step are not done, with the dependents of each step
beside it. When a step is done its dependents are counted down one after another, never below zero,
and a step whose count comes to zero is put at the end of the queue.

* `Counters.after` — the counts and all steps that were put into the queue, when some steps are
  done.
* `Reaches.waiting_eq` — the steps that wait in a state of a run, read off its journal.
* `Counters.pending_after`, `Counters.queue_after` — counting says of each step how many
  dependencies are not done, and puts those steps into the queue that no longer wait for anything.
-/

/-- What counting keeps: of each step how many dependencies are not done, and the steps that have
    become ready, in order. -/
structure Counters where
  pending : Table String Nat
  queue : List Plan.Step

namespace Counters

/-- The counters when nothing is done. -/
def initial (plan : Plan) : Counters where
  pending := plan.steps.map fun step => (step.name, step.dependsOn.length)
  queue := plan.steps.filter (·.dependsOn.isEmpty)

/-- The steps that wait for a step, in the order of the plan; a step that names it twice is listed
    twice. -/
def dependents (plan : Plan) (name : String) : List Plan.Step :=
  plan.steps.flatMap fun step => (step.dependsOn.filter (· = name)).map fun _ => step

/-- Counts a step down, which becomes ready at zero. -/
def countDown (c : Counters) (step : Plan.Step) : Counters :=
  match c.pending.get? step.name with
  | some count =>
    { pending := c.pending.put step.name (count - 1)
      queue := if count - 1 = 0 then c.queue ++ [step] else c.queue }
  | none => c

/-- Counts the dependents of a step down when it is done. -/
def release (plan : Plan) (c : Counters) (done : String) : Counters :=
  (dependents plan done).foldl countDown c

/-- The counters when some steps are done, one after another. -/
def after (plan : Plan) (names : List String) : Counters :=
  names.foldl (release plan) (initial plan)

end Counters

namespace Plan

/-- The dependencies of a step that are not among the steps that are done. -/
def Step.undone (step : Step) (names : List String) : List String :=
  step.dependsOn.filter (· ∉ names)

/-- The steps that wait, each with the dependencies that are not done. -/
def waitingFor (p : Plan) (names : List String) : List (Step × List String) :=
  (p.steps.filter fun step => !(step.undone names).isEmpty).map fun step =>
    (step, step.undone names)

/-- The steps that no longer wait for anything when one more step is done. -/
def freed (p : Plan) (names : List String) (done : String) : List Step :=
  p.steps.filter fun step => done ∈ step.dependsOn ∧ step.undone (names ++ [done]) = []

/-- Before anything is done a step waits for all its dependencies. -/
@[simp] theorem Step.undone_nil (step : Step) : step.undone [] = step.dependsOn :=
  List.filter_eq_self.2 fun _ _ => by simp

/-- A step that is done is waited for no longer. -/
theorem Step.undone_append (step : Step) (names : List String) (done : String) :
    step.undone (names ++ [done]) = (step.undone names).filter (· ≠ done) := by
  rw [undone, undone, List.filter_filter]
  refine List.filter_congr fun name _ => ?_
  simp [and_comm]

/-- A step that waits for nothing when one more step is done waited for that step, or for nothing
    before. -/
theorem Step.mem_dependsOn_of_freed {step : Step} {names : List String} {done : String}
    (hwaits : step.undone names ≠ []) (hfree : step.undone (names ++ [done]) = []) :
    done ∈ step.dependsOn := by
  obtain ⟨name, hname⟩ := List.exists_mem_of_ne_nil _ hwaits
  obtain ⟨hmem, hundone⟩ := List.mem_filter.1 hname
  have hdone := List.filter_eq_nil_iff.1 hfree name hmem
  obtain rfl : name = done := by simpa [of_decide_eq_true hundone] using hdone
  exact hmem

/-- A step waits as long as one of its dependencies is not done. -/
theorem Step.undone_ne_nil {step : Step} {names : List String} {done : String}
    (hmem : done ∈ step.dependsOn) (hnew : done ∉ names) : step.undone names ≠ [] :=
  List.ne_nil_of_mem (List.mem_filter.2 ⟨hmem, by simpa using hnew⟩)

/-- A step waits for one dependency less when a step is done for which it waits. -/
theorem Step.length_undone_append {step : Step} {names : List String} {done : String}
    (hdepends : step.dependsOn.Nodup) (hnew : done ∉ names) :
    (step.undone (names ++ [done])).length =
      if done ∈ step.dependsOn then (step.undone names).length - 1
      else (step.undone names).length := by
  have hundone : (step.undone names).Nodup := hdepends.filter _
  have herase : step.undone (names ++ [done]) = (step.undone names).erase done := by
    rw [undone_append, hundone.erase_eq_filter]
    exact List.filter_congr fun name _ => by rw [bne, beq_eq_decide, decide_not]
  rw [herase]
  split
  · rename_i hmem
    exact List.length_erase_of_mem (List.mem_filter.2 ⟨hmem, by simpa using hnew⟩)
  · rename_i hmem
    have hfree : done ∉ step.undone names := fun hwaits => hmem (List.mem_filter.1 hwaits).1
    rw [List.erase_of_not_mem hfree]

/-- Who waits after one more step is done: those who waited before, unless they are freed. -/
theorem waitingFor_append (p : Plan) (names : List String) (done : String) :
    p.waitingFor (names ++ [done]) =
      ((p.waitingFor names).map fun w => (w.1, w.2.filter (· ≠ done))).filter (!·.2.isEmpty) := by
  simp only [waitingFor, List.map_map, List.filter_map, List.filter_filter, Step.undone_append]
  congr 1
  refine List.filter_congr fun step _ => ?_
  -- a step that waited for nothing does not wait for the others either
  cases hundone : step.undone names <;> simp [hundone]

/-- Who becomes ready when one more step is done: those who are freed. -/
theorem freed_eq (p : Plan) {names : List String} {done : String} (hnew : done ∉ names) :
    (((p.waitingFor names).map fun w => (w.1, w.2.filter (· ≠ done))).filter
      (·.2.isEmpty)).map (·.1) = p.freed names done := by
  simp only [waitingFor, List.map_map, List.filter_map, List.filter_filter, freed]
  refine (List.map_id _).trans (List.filter_congr fun step _ => ?_)
  rw [Bool.eq_iff_iff]
  simp only [Function.comp_apply, ← step.undone_append, Bool.and_eq_true, List.isEmpty_iff,
    Bool.not_eq_true', List.isEmpty_eq_false_iff, decide_eq_true_eq]
  rw [and_comm]
  exact and_congr_left fun hfree => ⟨fun hwaits => step.mem_dependsOn_of_freed hwaits hfree,
    fun hmem => step.undone_ne_nil hmem hnew⟩

end Plan

/-! ### The lists of a run -/

namespace RunState

/-- What a state keeps of the steps that wait, when it is read off the names of those done. -/
def WaitsAfter (plan : Plan) (s : RunState) (names : List String) : Prop :=
  s.waiting = plan.waitingFor names

variable {plan : Plan} {s : RunState} {names : List String} {done : String}

/-- When one more step is done, the steps wait for the others. -/
theorem WaitsAfter.release (h : s.WaitsAfter plan names) :
    (s.release done).WaitsAfter plan (names ++ [done]) := by
  show ((s.waiting.map fun w => (w.1, w.2.filter (· ≠ done))).filter (!·.2.isEmpty)) = _
  rw [h, Plan.waitingFor_append]

/-- When one more step is done, those that are freed become ready. -/
theorem WaitsAfter.ready_release (h : s.WaitsAfter plan names) (hnew : done ∉ names) :
    (s.release done).ready = s.ready ++ plan.freed names done := by
  show s.ready ++ ((s.waiting.map fun w => (w.1, w.2.filter (· ≠ done))).filter
    (·.2.isEmpty)).map (·.1) = _
  rw [h, Plan.freed_eq plan hnew]

/-- At the start nothing is done. -/
theorem waitsAfter_initial (plan : Plan) (shape : BatchStructure) :
    (RunState.initial plan shape).WaitsAfter plan [] := by
  show (plan.steps.filter fun step : Plan.Step => !step.dependsOn.isEmpty).map
    (fun step => (step, step.dependsOn)) = _
  simp only [Plan.waitingFor, Plan.Step.undone_nil]

end RunState

section Reaches

variable {context : RunContext} {shape : BatchStructure} {j : Journal} {s : RunState}

/-- The steps that wait in a state of a run, read off its journal. -/
theorem Reaches.waiting_eq (h : Reaches context shape j s) :
    s.WaitsAfter context.engine.plan j.names := by
  induction h with
  | initial => exact RunState.waitsAfter_initial _ _
  | @take j s step hreaches hstep hfailure ih =>
    rcases RunState.take_cases context { s with ready := s.ready.erase step } step with
      ⟨-, htaken, events, branches, -, he⟩ | ⟨-, htaken, events, ids, he⟩
    · rw [show s.taken context step = [⟨step, []⟩] from htaken, he, Journal.names_append]
      exact RunState.WaitsAfter.release ih
    · rw [show s.taken context step = [] from htaken, he, List.append_nil]
      exact ih
  | @finish j s i task hreaches htask ih =>
    rcases RunState.finish_cases context { s with inFlight := s.inFlight.eraseIdx i } task with
      ⟨-, outputs, -, hrecord, hfinished⟩ | ⟨hfinished, ⟨fault, left, events, -, he⟩, -⟩
    · obtain ⟨-, recording, -, events, branches, -, he⟩ := RunState.record_eq_ok hrecord
      rw [hfinished, he, Journal.names_append]
      exact RunState.WaitsAfter.release ih
    · rw [hfinished, he, List.append_nil]
      exact ih

end Reaches

/-! ### Counting does the same -/

namespace Counters

variable {plan : Plan}

/-- Counting down touches one counter. -/
theorem pending_countDown (c : Counters) (step : Plan.Step) (name : String) :
    (countDown c step).pending.get? name =
      if step.name = name then (c.pending.get? name).map (· - 1) else c.pending.get? name := by
  unfold countDown
  by_cases hname : step.name = name
  · subst hname
    cases hcount : c.pending.get? step.name <;> simp [Table.get?_put, hcount]
  · cases c.pending.get? step.name <;> simp [Table.get?_put, hname]

/-- A step is put into the queue when its counter comes to zero. -/
theorem queue_countDown (c : Counters) (step : Plan.Step) :
    (countDown c step).queue =
      c.queue ++ if (c.pending.get? step.name).any (· ≤ 1) then [step] else [] := by
  unfold countDown
  cases c.pending.get? step.name with
  | none => simp
  | some count =>
    by_cases hlast : count ≤ 1
    · simp [hlast, show count - 1 = 0 by omega]
    · simp [hlast, show count - 1 ≠ 0 by omega]

/-- Each step that is counted down becomes ready if one dependency was not done. -/
theorem foldl_countDown {steps : List Plan.Step} (hnodup : (steps.map (·.name)).Nodup)
    (c : Counters) :
    (steps.foldl countDown c).queue =
        c.queue ++ steps.filter (fun step => (c.pending.get? step.name).any (· ≤ 1)) ∧
      ∀ name, (steps.foldl countDown c).pending.get? name =
        if name ∈ steps.map (·.name) then (c.pending.get? name).map (· - 1)
        else c.pending.get? name := by
  induction steps generalizing c with
  | nil => simp
  | cons step rest ih =>
    rw [List.map_cons, List.nodup_cons] at hnodup
    obtain ⟨hqueue, hpending⟩ := ih hnodup.2 (countDown c step)
    constructor
    · -- the others are counted down as if the first had not been
      have hrest : rest.filter (fun other => ((countDown c step).pending.get? other.name).any
            (· ≤ 1)) = rest.filter (fun other => (c.pending.get? other.name).any (· ≤ 1)) := by
        refine List.filter_congr fun other hother => ?_
        have hne : step.name ≠ other.name := fun he => hnodup.1 (he ▸ List.mem_map_of_mem hother)
        rw [pending_countDown, if_neg hne]
      rw [List.foldl_cons, hqueue, hrest, queue_countDown, List.filter_cons, List.append_assoc]
      split <;> rfl
    · intro name
      rw [List.foldl_cons, hpending, pending_countDown]
      by_cases hname : step.name = name
      · subst hname
        simp [hnodup.1]
      · simp [hname, Ne.symm hname]

/-- The dependents of a step when no step names it twice. -/
theorem dependents_eq (hdepends : ∀ step ∈ plan.steps, step.dependsOn.Nodup) (name : String) :
    dependents plan name = plan.steps.filter fun step => name ∈ step.dependsOn := by
  rw [dependents]
  generalize plan.steps = steps at hdepends ⊢
  induction steps with
  | nil => rfl
  | cons step rest ih =>
    obtain ⟨hstep, hrest⟩ := List.forall_mem_cons.1 hdepends
    rw [List.flatMap_cons, List.filter_cons, ih hrest]
    by_cases hmem : name ∈ step.dependsOn
    · simp [hmem, List.filter_eq, hstep.count]
    · simp [hmem, List.filter_eq, List.count_eq_zero_of_not_mem hmem]

/-- The last step is counted after the others. -/
theorem after_append (plan : Plan) (names : List String) (done : String) :
    after plan (names ++ [done]) = release plan (after plan names) done := by
  rw [after, List.foldl_append]
  rfl

variable (hplan : plan.stepNames.Nodup) (hdepends : ∀ step ∈ plan.steps, step.dependsOn.Nodup)
include hplan hdepends

/-- The dependents of a step, of whom none is listed twice, are the steps that depend on it. -/
theorem names_dependents (done : String) :
    ((dependents plan done).map (·.name)).Nodup ∧ ∀ step ∈ plan.steps,
      step.name ∈ (dependents plan done).map (·.name) ↔ done ∈ step.dependsOn := by
  rw [dependents_eq hdepends]
  refine ⟨hplan.sublist (List.filter_sublist.map _), fun step hstep => ⟨fun hin => ?_, fun hmem =>
    List.mem_map_of_mem (List.mem_filter.2 ⟨hstep, by simpa using hmem⟩)⟩⟩
  obtain ⟨other, hother, hname⟩ := List.mem_map.1 hin
  obtain ⟨hother, hdone⟩ := List.mem_filter.1 hother
  have hsame : other = step := List.inj_on_of_nodup_map hplan hother hstep hname
  exact hsame ▸ of_decide_eq_true hdone

/-- The count of a step is the number of its dependencies that are not done. -/
theorem pending_after {names : List String} (hnames : names.Nodup) {step : Plan.Step}
    (hstep : step ∈ plan.steps) :
    (after plan names).pending.get? step.name = some (step.undone names).length := by
  induction names using List.reverseRecOn with
  | nil =>
    rw [step.undone_nil]
    exact Table.get?_map_name hplan hstep
  | append_singleton names done ih =>
    rw [List.nodup_append_comm, List.singleton_append, List.nodup_cons] at hnames
    obtain ⟨hnodup, hdependents⟩ := names_dependents hplan hdepends done
    rw [after_append, release, (foldl_countDown hnodup _).2, ih hnames.2, Option.map_some,
      Plan.Step.length_undone_append (hdepends step hstep) hnames.1]
    -- a step is counted down exactly when it waits for the step that is done
    simp only [hdependents step hstep]
    split <;> rfl

/-- The queue gains the steps that no longer wait for anything. -/
theorem queue_after {names : List String} {done : String} (hnames : (names ++ [done]).Nodup) :
    (after plan (names ++ [done])).queue = (after plan names).queue ++ plan.freed names done := by
  have hnew : names.Nodup ∧ done ∉ names := by
    rw [List.nodup_append_comm, List.singleton_append, List.nodup_cons] at hnames
    exact hnames.symm
  have hnodup := (names_dependents hplan hdepends done).1
  rw [after_append, release, (foldl_countDown hnodup _).1, dependents_eq hdepends,
    List.filter_filter, Plan.freed]
  congr 1
  refine List.filter_congr fun step hstep => ?_
  have hcount : (after plan names).pending.get? step.name = some (step.undone names).length :=
    pending_after hplan hdepends hnew.1 hstep
  rw [hcount, Bool.eq_iff_iff]
  simp only [Option.any_some, Bool.and_eq_true, decide_eq_true_eq, List.length_eq_zero_iff.symm]
  rw [and_comm]
  refine and_congr_right fun hmem => ?_
  rw [Plan.Step.length_undone_append (hdepends step hstep) hnew.2, if_pos hmem]
  omega

/-- What a state of a run lets go on is what counting puts into the queue. -/
theorem queue_release {s : RunState} {names : List String} {done : String}
    {taken : List Plan.Step} (hwaits : s.WaitsAfter plan names) (hnames : (names ++ [done]).Nodup)
    (hqueue : taken ++ s.ready = (after plan names).queue) :
    taken ++ (s.release done).ready = (after plan (names ++ [done])).queue := by
  have hnew : done ∉ names := fun hmem =>
    List.disjoint_of_nodup_append hnames hmem (List.mem_singleton_self done)
  rw [queue_after hplan hdepends hnames, hwaits.ready_release hnew, ← List.append_assoc, hqueue]

end Counters

end BatchFlow
