import BatchFlow.Proofs.Run.Branches
import BatchFlow.Proofs.Run.Entry
import BatchFlow.Run.Schedule

namespace BatchFlow

/-!
# Journals of runs

A journal lists the steps that are done, each with what it has returned. Nothing else of a run is
seen by the steps that come later.

* `Journal` — the steps that are done, in order.
* `RunState.elements` — the elements at which a ready step is started.
* `Reaches` — the states of a run, each with its journal: ready steps are taken and tasks finish in
  any order.
* `Task.Leaves` — what a task leaves behind that fails, or that finishes after a failure.
* `take_cases`, `finish_cases` — all that these two actions can do to a state.
* `exists_recording_finish` — a task that ends leaves in the tables what was recorded of its first
  outputs, whether it fails or not.
* `Reaches.exists_of_entry` — how the entries of a journal come about.
* `exists_reaches_finalState` — a run ends in such a state, with nothing left to do.
* `Engine.run_cases`, `Engine.exists_reaches_of_run_eq_ok` — how a run ends.
-/

/-- The steps that are done, in the order in which they were. -/
abbrev Journal := List Entry

/-- How the step restricts a target: the depth at which it decides, and the indices selected. -/
def Entry.gate? (e : Entry) (target : String) : Option (Nat × Option (List Index)) :=
  if e.step.manifest.flowControl ∧ target ∈ e.step.targets then
    some (e.step.alignment.input, some (Branches.selected e.decisions target))
  else none

namespace Journal

/-- The names of the steps that are done. -/
def names (j : Journal) : List String := j.map (·.step.name)

/-- The entry of a step. -/
def ofStep? (j : Journal) (name : String) : Option Entry := j.find? (·.step.name == name)

end Journal

namespace RunState

/-- The elements at which a ready step is started; none if it is passed over. -/
def elements (context : RunContext) (s : RunState) (step : Plan.Step) : Invocation :=
  if (s.governing step).any fun id => (s.branches.get id).isExhausted then []
  else (s.view context).invocation (s.governing step) step

/-- What the journal gains when a ready step is taken. -/
def taken (context : RunContext) (s : RunState) (step : Plan.Step) : Journal :=
  if (s.elements context step).isEmpty then [⟨step, []⟩] else []

/-- What the journal gains when a task is done. -/
def finished (context : RunContext) (s : RunState) (task : Task) : Journal :=
  match s.failure, task.outcome context with
  | none, .ok outputs =>
    match s.record task outputs with
    | .ok _ => [⟨task.step, (task.elements.map (·.1)).zip outputs⟩]
    | .error _ => []
  | _, _ => []

end RunState

/-- What a task that is not recorded leaves behind: the failure of the run, and what the results and
    the structure are then. -/
inductive Task.Leaves (context : RunContext) (s : RunState) (task : Task) :
    RunFault → RunState.Recording → Prop where
  /-- The run had failed before. -/
  | dropped {fault : RunFault} : s.failure = some fault →
      Leaves context s task fault { shape := s.shape, results := s.results }
  | crashed : s.failure = none → task.outcome context = .error .crashed →
      Leaves context s task .crashed { shape := s.shape, results := s.results }
  | block {reason : BlockFault} : s.failure = none →
      task.outcome context = .error (.reported reason) →
      Leaves context s task (.block task.step.name reason)
        { shape := s.shape, results := s.results }
  | wrongCount {outputs : List Output} : s.failure = none → task.outcome context = .ok outputs →
      outputs.length ≠ task.elements.length →
      Leaves context s task
        (.output task.step.name (.wrongCount task.elements.length outputs.length))
        { shape := s.shape, results := s.results }
  /-- The outputs before the one that is refused stay recorded. -/
  | refused {outputs : List Output} {before rest : List (Index × Output)} {index : Index}
      {output : Output} {left : RunState.Recording} {reason : OutputFault} :
      s.failure = none → task.outcome context = .ok outputs →
      outputs.length = task.elements.length →
      (task.elements.map (·.1)).zip outputs = before ++ (index, output) :: rest →
      RunState.Recording.addAll task.step { shape := s.shape, results := s.results } before =
        .ok left →
      left.add task.step index output = .error reason →
      Leaves context s task (.output task.step.name reason) left

/-- The states of the runs of a plan from its initial state on, each with its journal. Any ready
    step may be taken as long as nothing has failed, and any task may finish. -/
inductive Reaches (context : RunContext) (shape : BatchStructure) : Journal → RunState → Prop where
  | initial : Reaches context shape [] (.initial context.engine.plan shape)
  | take {j : Journal} {s : RunState} {step : Plan.Step} :
      Reaches context shape j s → step ∈ s.ready → s.failure = none →
      Reaches context shape (j ++ s.taken context step)
        (RunState.take context { s with ready := s.ready.erase step } step)
  | finish {j : Journal} {s : RunState} {i : Nat} {task : Task} :
      Reaches context shape j s → s.inFlight[i]? = some task →
      Reaches context shape
        (j ++ RunState.finished context { s with inFlight := s.inFlight.eraseIdx i } task)
        (RunState.finish context { s with inFlight := s.inFlight.eraseIdx i } task)

namespace RunState

variable {context : RunContext} {s s' : RunState} {step : Plan.Step}

/-! ### What the two actions do -/

/-- The branches after a step is done: those of its targets are opened as its decisions say. -/
def Opens (e : Entry) (before after : Branches) : Prop :=
  before.Valid → after.Valid ∧ ∀ edge, after.gate? edge =
    if e.step.name = edge.1 then (e.gate? edge.2).or (before.gate? edge) else before.gate? edge

/-- A step that decides opens a branch for each of its targets. -/
theorem opens_openAll {bs : Branches} {e : Entry} (own : List BranchId)
    (hflow : e.step.manifest.flowControl = true) :
    Opens e bs (bs.openAll e.step.name own e.step.alignment.input e.step.targets e.decisions) := by
  intro hvalid
  refine ⟨hvalid.openAll _ _ _ _ _, fun edge => ?_⟩
  rw [Branches.gate?_openAll hvalid]
  by_cases hname : e.step.name = edge.1
  · by_cases ht : edge.2 ∈ e.step.targets
    · rw [if_pos ⟨hname, ht⟩, if_pos hname, Entry.gate?, if_pos ⟨hflow, ht⟩, Option.some_or]
    · rw [if_neg fun h => ht h.2, if_pos hname, Entry.gate?, if_neg fun h => ht h.2, Option.none_or]
  · rw [if_neg fun h => hname h.1, if_neg hname]

/-- A step that does not decide opens nothing. -/
theorem opens_none {bs : Branches} {e : Entry} (hflow : e.step.manifest.flowControl = false) :
    Opens e bs bs := by
  refine fun hvalid => ⟨hvalid, fun edge => ?_⟩
  have hgate : e.gate? edge.2 = none := by
    rw [Entry.gate?, if_neg]
    rintro ⟨h, -⟩
    rw [hflow] at h
    cases h
  rw [hgate, Option.none_or, ite_self]

/-- Closing branches beforehand changes nothing about what is opened. -/
theorem Opens.close_before {e : Entry} {bs after : Branches} {ids : List BranchId}
    (h : Opens e (bs.close ids) after) : Opens e bs after := by
  intro hvalid
  obtain ⟨hvalid', hgate⟩ := h (hvalid.close ids)
  refine ⟨hvalid', fun edge => ?_⟩
  rw [hgate, Branches.gate?_close]

/-- A step that is passed over opens its branches without a decision and is done. -/
theorem skip_eq (s : RunState) (step : Plan.Step) (reason : SkipReason) :
    ∃ events branches, Opens ⟨step, []⟩ s.branches branches ∧
      s.skip step reason = { s with events, branches }.release step.name := by
  -- the branches that restrict the step are closed first, then its own are opened with empty masks
  let closed := (s.report [.stepSkipped step.name reason]).closeBranches (s.governing step)
  let opened := closed.openBranches step (s.governing step) []
  cases hflow : step.manifest.flowControl with
  | true =>
    have hopens : Opens ⟨step, []⟩ s.branches opened.branches :=
      Opens.close_before (opens_openAll _ hflow)
    refine ⟨opened.events, opened.branches, hopens, ?_⟩
    unfold skip
    rw [hflow]
    rfl
  | false =>
    have hopens : Opens ⟨step, []⟩ s.branches closed.branches :=
      Opens.close_before (opens_none hflow)
    refine ⟨closed.events, closed.branches, hopens, ?_⟩
    unfold skip
    rw [hflow]
    rfl

/-- A ready step is passed over when there is no element for it, and started otherwise. -/
theorem take_eq (context : RunContext) (s : RunState) (step : Plan.Step) :
    (s.elements context step = [] ∧ ∃ reason, take context s step = s.skip step reason) ∨
    (s.elements context step ≠ [] ∧
      take context s step = s.start step (s.elements context step)) := by
  unfold take
  dsimp only
  split
  -- an exhausted branch was found
  · rename_i id hid
    have hany : (s.governing step).any fun id => (s.branches.get id).isExhausted :=
      List.any_eq_true.2 ⟨id, List.mem_of_find?_eq_some hid, by simpa using List.find?_some hid⟩
    exact Or.inl ⟨by rw [elements, if_pos hany], _, rfl⟩
  · rename_i hid
    have helements : s.elements context step =
        (s.view context).invocation (s.governing step) step := by
      have hany : ¬ (s.governing step).any fun id => (s.branches.get id).isExhausted := by
        rw [List.any_eq_true]
        rintro ⟨id, hmem, hexhausted⟩
        exact List.find?_eq_none.1 hid id hmem hexhausted
      rw [elements, if_neg hany]
    rw [← helements]
    split
    · rename_i hnone
      exact Or.inl ⟨hnone, _, rfl⟩
    · rename_i hsome
      exact Or.inr ⟨hsome, rfl⟩

/-- All that taking a ready step can do to a state. -/
theorem take_cases (context : RunContext) (s : RunState) (step : Plan.Step) :
    (s.elements context step = [] ∧ s.taken context step = [⟨step, []⟩] ∧
      ∃ events branches, Opens ⟨step, []⟩ s.branches branches ∧
        take context s step = { s with events, branches }.release step.name) ∨
    (s.elements context step ≠ [] ∧ s.taken context step = [] ∧
      ∃ events ids, take context s step =
        { s with
          events, branches := s.branches.close ids,
          inFlight := s.inFlight ++ [⟨step, s.elements context step⟩] }) := by
  have htaken : s.taken context step =
    if (s.elements context step).isEmpty then [⟨step, []⟩] else [] := rfl
  rcases take_eq context s step with ⟨hnone, reason, he⟩ | ⟨hsome, he⟩
  · obtain ⟨events, branches, hopens, hskip⟩ := skip_eq s step reason
    rw [hnone] at htaken
    exact Or.inl ⟨hnone, htaken, events, branches, hopens, he.trans hskip⟩
  · rw [if_neg fun h => hsome (List.isEmpty_iff.1 h)] at htaken
    exact Or.inr ⟨hsome, htaken, _, s.governing step, he⟩

/-! What is written into the tables of a state changes nothing else. -/

section Keep

variable (s : RunState) (r : Recording)

@[simp] theorem keep_waiting : (s.keep r).waiting = s.waiting := rfl

@[simp] theorem keep_ready : (s.keep r).ready = s.ready := rfl

@[simp] theorem keep_inFlight : (s.keep r).inFlight = s.inFlight := rfl

@[simp] theorem keep_shape : (s.keep r).shape = r.shape := rfl

@[simp] theorem keep_results : (s.keep r).results = r.results := rfl

@[simp] theorem keep_branches : (s.keep r).branches = s.branches := rfl

@[simp] theorem keep_failure : (s.keep r).failure = s.failure := rfl

end Keep

/-- What is recorded of a task goes into the shape and the results, and opens its branches. -/
theorem record_eq_ok {task : Task} {outputs : List Output} (h : s.record task outputs = .ok s') :
    outputs.length = task.elements.length ∧ ∃ recording,
      Recording.addAll task.step { shape := s.shape, results := s.results }
        ((task.elements.map (·.1)).zip outputs) = .ok recording ∧
      ∃ events branches,
        Opens ⟨task.step, (task.elements.map (·.1)).zip outputs⟩ s.branches branches ∧
        s' = { s.keep recording with events, branches }.release task.step.name := by
  unfold record at h
  split at h
  · cases h
  · rename_i hlength
    obtain ⟨recording, hrecording, h⟩ := bind_eq_ok.1 h
    refine ⟨Classical.not_not.1 hlength, recording, hrecording, ?_⟩
    -- the recording has the decisions that the entry of the journal derives from the outputs
    have hdecisions : recording.decisions = Entry.decisions ⟨task.step, _⟩ :=
      (Recording.addAll_eq_ok hrecording).2.2.2
    let recorded := (s.keep recording).report [.stepCompleted task.step.name]
    have h : (if task.step.manifest.flowControl then recorded.openBranches task.step
        (recorded.governing task.step) recording.decisions else recorded).release
          task.step.name = s' := pure_eq_ok.1 h
    cases hflow : task.step.manifest.flowControl with
    | true =>
      rw [hflow, if_pos rfl, hdecisions] at h
      exact ⟨_, _, opens_openAll (recorded.governing task.step) hflow, h.symm⟩
    | false =>
      rw [hflow, if_neg Bool.false_ne_true] at h
      exact ⟨recorded.events, recorded.branches, opens_none hflow, h.symm⟩

/-- Outputs are recorded when there is one for each element and all of them can be. -/
theorem exists_record {task : Task} {outputs : List Output}
    (hlength : outputs.length = task.elements.length) (hrecording : ∃ r,
      Recording.addAll task.step { shape := s.shape, results := s.results }
        ((task.elements.map (·.1)).zip outputs) = .ok r) :
    ∃ s', s.record task outputs = .ok s' := by
  obtain ⟨r, hr⟩ := hrecording
  unfold record
  rw [if_neg fun hne => hne hlength]
  exact ⟨_, bind_eq_ok.2 ⟨r, hr, rfl⟩⟩

/-- Outputs are refused as a whole when they are not as many as the elements, and otherwise at the
    first one that cannot be recorded. -/
theorem record_eq_error_iff {task : Task} {outputs : List Output} {refusal : Refusal} :
    s.record task outputs = .error refusal ↔
      if outputs.length ≠ task.elements.length then
        refusal = ⟨.wrongCount task.elements.length outputs.length,
          { shape := s.shape, results := s.results }⟩
      else Recording.addAll task.step { shape := s.shape, results := s.results }
        ((task.elements.map (·.1)).zip outputs) = .error refusal := by
  unfold record
  split
  · exact ⟨fun h => (Except.error.inj h).symm, fun h => congrArg Except.error h.symm⟩
  · refine bind_eq_error.trans ⟨fun h => h.resolve_right ?_, Or.inl⟩
    rintro ⟨recording, -, h⟩
    cases h

/-- A task whose outputs are refused leaves what was recorded before. -/
theorem leaves_of_record {task : Task} {outputs : List Output} {refusal : Refusal}
    (hnone : s.failure = none) (houtcome : task.outcome context = .ok outputs)
    (h : s.record task outputs = .error refusal) :
    task.Leaves context s (.output task.step.name refusal.fault) refusal.kept := by
  rw [record_eq_error_iff] at h
  split at h
  · rename_i hlength
    subst h
    exact .wrongCount hnone houtcome hlength
  · rename_i hlength
    obtain ⟨before, index, output, rest, hzip, hbefore, hrefused⟩ :=
      Recording.addAll_eq_error_iff.1 h
    exact .refused hnone houtcome (Classical.not_not.1 hlength) hzip hbefore hrefused

/-- The first failure is noted. -/
theorem fail_of_unfailed (h : s.failure = none) (fault : RunFault) :
    s.fail fault = { s with failure := some fault } := by
  unfold fail
  rw [h, Option.none_or]

/-- A later failure is not. -/
theorem fail_of_failed {first : RunFault} (h : s.failure = some first) (fault : RunFault) :
    s.fail fault = s := by
  unfold fail
  rw [h, Option.some_or, ← h]

end RunState

namespace Task.Leaves

variable {context : RunContext} {s : RunState} {task : Task} {fault first : RunFault}
  {left : RunState.Recording}

/-- The first failure stays. -/
theorem eq_of_failed (h : task.Leaves context s fault left) (hfailure : s.failure = some first) :
    fault = first := by
  cases h with
  | dropped hfault => exact Option.some.inj (hfault.symm.trans hfailure)
  | crashed hnone => cases hnone.symm.trans hfailure
  | block hnone => cases hnone.symm.trans hfailure
  | wrongCount hnone => cases hnone.symm.trans hfailure
  | refused hnone => cases hnone.symm.trans hfailure

/-- A task that fails over its outputs has refused them, if the run had not failed before. -/
theorem exists_record {name : String} {reason : OutputFault}
    (h : task.Leaves context s (.output name reason) left) :
    s.failure = some (.output name reason) ∨ task.step.name = name ∧
      ∃ outputs, task.outcome context = .ok outputs ∧
        s.record task outputs = .error ⟨reason, left⟩ := by
  cases h with
  | dropped hfailure => exact Or.inl hfailure
  | @wrongCount outputs _ houtcome hlength =>
    refine Or.inr ⟨rfl, outputs, houtcome, RunState.record_eq_error_iff.2 ?_⟩
    rw [if_pos hlength]
  | @refused outputs before rest index output _ _ _ houtcome hlength hzip hbefore hrefused =>
    refine Or.inr ⟨rfl, outputs, houtcome, RunState.record_eq_error_iff.2 ?_⟩
    rw [if_neg fun hne => hne hlength, RunState.Recording.addAll_eq_error_iff]
    exact ⟨before, index, output, rest, hzip, hbefore, hrefused⟩

/-- What a task leaves depends on the tables and on what has failed before. -/
theorem congr {s' : RunState} (h : task.Leaves context s fault left) (hshape : s'.shape = s.shape)
    (hresults : s'.results = s.results) (hfailure : s'.failure = s.failure) :
    task.Leaves context s' fault left := by
  cases h with
  | dropped hfault =>
    rw [← hshape, ← hresults]
    exact .dropped (hfailure.trans hfault)
  | crashed hnone houtcome =>
    rw [← hshape, ← hresults]
    exact .crashed (hfailure.trans hnone) houtcome
  | block hnone houtcome =>
    rw [← hshape, ← hresults]
    exact .block (hfailure.trans hnone) houtcome
  | wrongCount hnone houtcome hlength =>
    rw [← hshape, ← hresults]
    exact .wrongCount (hfailure.trans hnone) houtcome hlength
  | refused hnone houtcome hlength hzip hbefore hrefused =>
    rw [← hshape, ← hresults] at hbefore
    exact .refused (hfailure.trans hnone) houtcome hlength hzip hbefore hrefused

/-- What is left in the tables was recorded of the first outputs, and of none unless the task has
    failed over its outputs. -/
theorem exists_addAll (h : task.Leaves context s fault left) :
    ∃ (outputs : List Output) (part : List (Index × Output)),
      part <+: (task.elements.map (·.1)).zip outputs ∧
      RunState.Recording.addAll task.step { shape := s.shape, results := s.results } part =
        .ok left ∧
      (part = [] ∨ ∃ reason, fault = .output task.step.name reason) := by
  cases h with
  | dropped => exact ⟨[], [], List.nil_prefix, rfl, Or.inl rfl⟩
  | crashed => exact ⟨[], [], List.nil_prefix, rfl, Or.inl rfl⟩
  | block => exact ⟨[], [], List.nil_prefix, rfl, Or.inl rfl⟩
  | wrongCount => exact ⟨[], [], List.nil_prefix, rfl, Or.inl rfl⟩
  | @refused outputs before rest _ _ _ reason _ _ _ hzip hbefore =>
    exact ⟨outputs, before, ⟨_, hzip.symm⟩, hbefore, Or.inr ⟨reason, rfl⟩⟩

end Task.Leaves

namespace RunState

variable {context : RunContext} {s s' : RunState} {step : Plan.Step}

/-- A task that is done is recorded, or it leaves a failure, what was reported, and what was
    recorded before. -/
theorem finish_cases (context : RunContext) (s : RunState) (task : Task) :
    (s.failure = none ∧ ∃ outputs, task.outcome context = .ok outputs ∧
      s.record task outputs = .ok (finish context s task) ∧
      s.finished context task = [⟨task.step, (task.elements.map (·.1)).zip outputs⟩]) ∨
    (s.finished context task = [] ∧ (∃ fault left events, task.Leaves context s fault left ∧
      finish context s task = { s.keep left with failure := some fault, events }) ∧
      ∀ outputs s', s.failure = none → task.outcome context = .ok outputs →
        s.record task outputs ≠ .ok s') := by
  cases hfailure : s.failure with
  | some fault =>
    -- whatever the task does, the first failure stays
    refine Or.inr ⟨?_, ?_, fun _ _ h => by cases h⟩
    · unfold finished
      rw [hfailure]
    · have hsame : ∃ events, finish context s task = { s with events } := by
        unfold finish
        cases task.outcome context with
        | error failure =>
          cases failure with
          | crashed => exact ⟨s.events, fail_of_failed hfailure _⟩
          | reported reason =>
            exact ⟨_, fail_of_failed (s := s.report [.stepFailed task.step.name]) hfailure _⟩
        | ok outputs => exact ⟨s.events, if_pos (by rw [hfailure]; rfl)⟩
      obtain ⟨events, he⟩ := hsame
      refine ⟨fault, _, events, .dropped hfailure, ?_⟩
      rw [he, ← hfailure]
      rfl
  | none =>
    unfold finish finished
    rw [hfailure]
    cases houtcome : task.outcome context with
    | error failure =>
      refine Or.inr ⟨rfl, ?_, fun _ _ _ h => by cases h⟩
      cases failure with
      | crashed => exact ⟨_, _, _, .crashed hfailure houtcome, fail_of_unfailed hfailure _⟩
      | reported fault =>
        exact ⟨_, _, _, .block hfailure houtcome, fail_of_unfailed (s := s.report _) hfailure _⟩
    | ok outputs =>
      dsimp only
      rw [if_neg (by simp)]
      cases hrecord : s.record task outputs with
      | ok s' => exact Or.inl ⟨rfl, outputs, rfl, hrecord, rfl⟩
      | error refusal =>
        refine Or.inr ⟨rfl, ⟨_, _, _, leaves_of_record hfailure houtcome hrecord,
          fail_of_unfailed (s := s.keep refusal.kept) hfailure _⟩, ?_⟩
        rintro _ _ _ h
        cases h
        rw [hrecord]
        exact fun h => by cases h

/-- A task that finishes leaves the others under way. -/
theorem finish_inFlight (context : RunContext) (s : RunState) (task : Task) :
    (finish context s task).inFlight = s.inFlight := by
  rcases finish_cases context s task with
    ⟨-, outputs, -, hrecord, -⟩ | ⟨-, ⟨fault, left, events, -, he⟩, -⟩
  · obtain ⟨-, recording, -, events, branches, -, he⟩ := record_eq_ok hrecord
    rw [he]
    rfl
  · rw [he]
    rfl

/-- Taking a step records nothing. -/
theorem take_results (context : RunContext) (s : RunState) (step : Plan.Step) :
    (take context s step).results = s.results := by
  rcases take_cases context s step with ⟨-, -, events, branches, -, he⟩ | ⟨-, -, events, ids, he⟩
  · rw [he]
    rfl
  · rw [he]

/-- Taking a step notes no children. -/
theorem take_shape (context : RunContext) (s : RunState) (step : Plan.Step) :
    (take context s step).shape = s.shape := by
  rcases take_cases context s step with ⟨-, -, events, branches, -, he⟩ | ⟨-, -, events, ids, he⟩
  · rw [he]
    rfl
  · rw [he]

/-- Taking a step is no reason to fail. -/
theorem take_failure (context : RunContext) (s : RunState) (step : Plan.Step) :
    (take context s step).failure = s.failure := by
  rcases take_cases context s step with ⟨-, -, events, branches, -, he⟩ | ⟨-, -, events, ids, he⟩
  · rw [he]
    rfl
  · rw [he]

/-- Whatever a task that ends leaves in the tables was recorded of the first of its outputs: of all
    of them if it is done, and of those before the refused one otherwise. -/
theorem exists_recording_finish (context : RunContext) (s : RunState) (task : Task) :
    ∃ (outputs : List Output) (part : List (Index × Output)) (r : Recording),
      part <+: (task.elements.map (·.1)).zip outputs ∧
      Recording.addAll task.step { shape := s.shape, results := s.results } part = .ok r ∧
      (finish context s task).results = r.results ∧ (finish context s task).shape = r.shape := by
  rcases finish_cases context s task with
    ⟨-, outputs, -, hrecord, -⟩ | ⟨-, ⟨fault, left, events, hleaves, he⟩, -⟩
  · obtain ⟨-, recording, hrecording, events, branches, -, he⟩ := record_eq_ok hrecord
    rw [he]
    exact ⟨outputs, _, recording, List.prefix_rfl, hrecording, rfl, rfl⟩
  · obtain ⟨outputs, part, hpart, hleft, -⟩ := hleaves.exists_addAll
    rw [he]
    exact ⟨outputs, part, left, hpart, hleft, rfl, rfl⟩

/-- A step that is done when it is taken was passed over. -/
theorem of_mem_taken {e : Entry} (he : e ∈ s.taken context step) :
    s.elements context step = [] ∧ e = ⟨step, []⟩ := by
  rcases take_cases context s step with ⟨hnil, htaken, -⟩ | ⟨-, htaken, -⟩
  · rw [htaken] at he
    exact ⟨hnil, List.mem_singleton.1 he⟩
  · rw [htaken] at he
    cases he

/-- A step that is done when its task finishes was recorded with what the task returned. -/
theorem of_mem_finished {task : Task} {e : Entry} (he : e ∈ s.finished context task) :
    ∃ outputs, task.outcome context = .ok outputs ∧ (∃ s', s.record task outputs = .ok s') ∧
      e = ⟨task.step, (task.elements.map (·.1)).zip outputs⟩ := by
  rcases finish_cases context s task with
    ⟨-, outputs, houtcome, hrecord, hfinished⟩ | ⟨hfinished, -⟩
  · rw [hfinished] at he
    exact ⟨outputs, houtcome, ⟨_, hrecord⟩, List.mem_singleton.1 he⟩
  · rw [hfinished] at he
    cases he

/-! ### Whole runs -/

/-- The number of steps that have not been taken. -/
def untaken (s : RunState) : Nat := s.waiting.length + s.ready.length

/-- The number of steps that are not done. -/
def remaining (s : RunState) : Nat := s.untaken + s.inFlight.length

/-- At first every step waits or is ready. -/
theorem initial_perm (plan : Plan) (shape : BatchStructure) :
    ((initial plan shape).waiting.map (·.1) ++ (initial plan shape).ready).Perm plan.steps := by
  have hwaiting : (initial plan shape).waiting.map (·.1) =
      plan.steps.filter fun step : Plan.Step => !step.dependsOn.isEmpty := by
    rw [initial, List.map_map]
    exact List.map_id _
  rw [hwaiting]
  exact List.perm_append_comm.trans (List.filter_append_perm _ _)

/-- A step that may go on is ready and waits no longer. -/
theorem release_perm (s : RunState) (done : String) :
    ((s.release done).waiting.map (·.1) ++ (s.release done).ready).Perm
      (s.waiting.map (·.1) ++ s.ready) := by
  let waiting := s.waiting.map fun w => (w.1, w.2.filter (· ≠ done))
  have hfst : waiting.map (·.1) = s.waiting.map (·.1) := by
    rw [List.map_map]
    rfl
  have hsplit := (List.filter_append_perm (·.2.isEmpty) waiting).map (·.1)
  rw [hfst, List.map_append] at hsplit
  show ((waiting.filter (!·.2.isEmpty)).map (·.1) ++
    (s.ready ++ (waiting.filter (·.2.isEmpty)).map (·.1))).Perm _
  rw [List.perm_iff_count] at hsplit ⊢
  intro a
  have := hsplit a
  simp only [List.count_append] at this ⊢
  omega

/-- Steps that become ready are as little taken as when they waited. -/
theorem untaken_release (s : RunState) (done : String) : (s.release done).untaken = s.untaken := by
  simpa [untaken] using (s.release_perm done).length_eq

/-- Taking a step that has left the queue leaves as many untaken, and at most one more is under
    way. -/
theorem remaining_take (context : RunContext) (s : RunState) (step : Plan.Step) :
    (take context s step).untaken = s.untaken ∧
      (take context s step).inFlight.length ≤ s.inFlight.length + 1 := by
  rcases take_cases context s step with ⟨-, -, events, branches, -, he⟩ | ⟨-, -, events, ids, he⟩
  · rw [he]
    exact ⟨untaken_release _ _, Nat.le_succ _⟩
  · rw [he]
    exact ⟨rfl, by simp⟩

/-- Finishing a task that has left its place adds nothing to what remains to be done. -/
theorem remaining_finish (context : RunContext) (s : RunState) (task : Task) :
    (finish context s task).remaining = s.remaining := by
  rcases finish_cases context s task with
    ⟨-, outputs, -, hrecord, -⟩ | ⟨-, ⟨fault, left, events, -, he⟩, -⟩
  · obtain ⟨-, recording, -, events, branches, -, he⟩ := record_eq_ok hrecord
    rw [he, remaining, untaken_release]
    rfl
  · rw [he]
    rfl

/-- Ready steps are taken until there is no room, none is ready or something has failed. -/
theorem exists_reaches_fill {shape : BatchStructure} (limit : Nat) {turns : Nat} {j : Journal}
    (h : Reaches context shape j s) (hturns : s.untaken ≤ turns) :
    ∃ j', Reaches context shape j' (s.fill context limit turns) ∧
      (s.fill context limit turns).remaining ≤ s.remaining ∧
      ((s.fill context limit turns).failure.isSome ∨
        limit ≤ (s.fill context limit turns).inFlight.length ∨
        (s.fill context limit turns).ready = []) := by
  -- the budget bounds the steps not yet taken, so running out of turns means that none is ready
  induction turns generalizing j s with
  | zero =>
    have hready : s.ready.length = 0 := by
      unfold untaken at hturns
      omega
    exact ⟨j, h, Nat.le_refl _, Or.inr (Or.inr (List.eq_nil_of_length_eq_zero hready))⟩
  | succ turns ih =>
    unfold fill
    split
    · rename_i hstop
      rw [Bool.or_eq_true, decide_eq_true_eq] at hstop
      exact ⟨j, h, Nat.le_refl _, hstop.imp_right Or.inl⟩
    · rename_i hgo
      rw [Bool.or_eq_true, not_or, Bool.not_eq_true, Option.isSome_eq_false_iff,
        Option.isNone_iff_eq_none] at hgo
      split
      · rename_i hready
        exact ⟨j, h, Nat.le_refl _, Or.inr (Or.inr hready)⟩
      · rename_i step ready hready
        have hnext : Reaches context shape (j ++ s.taken context step)
            (RunState.take context { s with ready } step) := by
          have := h.take (hready ▸ List.mem_cons_self) hgo.1
          rwa [hready, List.erase_cons_head] at this
        obtain ⟨huntaken, hinFlight⟩ := remaining_take context { s with ready } step
        have hlength : s.ready.length = ready.length + 1 := by rw [hready, List.length_cons]
        have hless : ({ s with ready } : RunState).untaken + 1 = s.untaken := by
          unfold untaken
          dsimp only
          omega
        obtain ⟨j', hj', hremaining, hstop⟩ := ih hnext (by omega)
        refine ⟨j', hj', Nat.le_trans hremaining ?_, hstop⟩
        have hsame : ({ s with ready } : RunState).inFlight.length = s.inFlight.length := rfl
        unfold remaining
        omega

/-- A run goes on until no task is under way, and no step is ready unless something has failed. -/
theorem exists_reaches_drive {shape : BatchStructure} {limit : Nat} (hlimit : 0 < limit)
    (order : CompletionOrder) {rounds : Nat} {j : Journal} (h : Reaches context shape j s)
    (hrounds : s.remaining < rounds) :
    ∃ j', Reaches context shape j' (s.drive context limit order rounds) ∧
      (s.drive context limit order rounds).inFlight = [] ∧
      ((s.drive context limit order rounds).failure = none →
        (s.drive context limit order rounds).ready = []) := by
  induction rounds generalizing j s with
  | zero => exact absurd hrounds (Nat.not_lt_zero _)
  | succ rounds ih =>
    -- each round first takes ready steps, and then lets one task finish
    obtain ⟨j', hj', hremaining, hstop⟩ :=
      exists_reaches_fill limit h (Nat.le_refl s.untaken)
    unfold drive
    dsimp only
    rw [show s.fillAll context limit = s.fill context limit s.untaken from rfl]
    generalize s.fill context limit s.untaken = filled at hj' hremaining hstop
    split
    · rename_i hempty
      rw [List.isEmpty_iff] at hempty
      refine ⟨j', hj', hempty, fun hfailure => ?_⟩
      rcases hstop with hfailed | hfull | hready
      · rw [hfailure] at hfailed
        cases hfailed
      -- there is room for a task, as the limit is positive
      · rw [hempty] at hfull
        exact absurd hfull (Nat.not_le.2 hlimit)
      · exact hready
    · rename_i hbusy
      -- the task at the chosen position finishes, and one step fewer remains
      have hpos : 0 < filled.inFlight.length :=
        List.length_pos_iff.2 fun he => hbusy (List.isEmpty_iff.2 he)
      have hlt := Nat.mod_lt (order rounds) hpos
      generalize order rounds % filled.inFlight.length = position at hlt
      have htask : filled.inFlight[position]? = some filled.inFlight[position] :=
        List.getElem?_eq_getElem hlt
      have hnext := hj'.finish htask
      have hdone : filled.finishAt context position =
          RunState.finish context { filled with inFlight := filled.inFlight.eraseIdx position }
            filled.inFlight[position] := by
        unfold finishAt
        rw [htask]
      rw [hdone]
      refine ih hnext ?_
      have hlength := List.length_eraseIdx_of_lt hlt
      rw [remaining_finish]
      show filled.untaken + (filled.inFlight.eraseIdx position).length < rounds
      unfold remaining at hremaining hrounds
      omega

end RunState

/-- Each entry of a journal was added in a state of the run, where its step was passed over or its
    task finished. -/
theorem Reaches.exists_of_entry {context : RunContext} {shape : BatchStructure} {j : Journal}
    {s : RunState} (h : Reaches context shape j s) :
    ∀ e ∈ j, ∃ j' s', Reaches context shape j' s' ∧ j' <+: j ∧
      ((s'.failure = none ∧ ∃ step ∈ s'.ready, e ∈ s'.taken context step) ∨
        ∃ i task, s'.inFlight[i]? = some task ∧
          e ∈ RunState.finished context { s' with inFlight := s'.inFlight.eraseIdx i } task) := by
  induction h with
  | initial => exact List.forall_mem_nil _
  | @take j s step hreaches hstep hfailure ih =>
    intro e he
    rcases List.mem_append.1 he with he | he
    · obtain ⟨j', s', hreaches', hbegin, hadded⟩ := ih e he
      exact ⟨j', s', hreaches', hbegin.trans (List.prefix_append _ _), hadded⟩
    · exact ⟨j, s, hreaches, List.prefix_append _ _, Or.inl ⟨hfailure, step, hstep, he⟩⟩
  | @finish j s i task hreaches htask ih =>
    intro e he
    rcases List.mem_append.1 he with he | he
    · obtain ⟨j', s', hreaches', hbegin, hadded⟩ := ih e he
      exact ⟨j', s', hreaches', hbegin.trans (List.prefix_append _ _), hadded⟩
    · exact ⟨j, s, hreaches, List.prefix_append _ _, Or.inr ⟨i, task, htask, he⟩⟩

/-- At the start everything remains to be done. -/
theorem RunState.remaining_initial (plan : Plan) (shape : BatchStructure) :
    (RunState.initial plan shape).remaining = plan.steps.length := by
  have h := List.length_eq_length_filter_add (fun step : Plan.Step => step.dependsOn.isEmpty)
    (l := plan.steps)
  rw [h]
  simp only [remaining, untaken, initial, List.length_map, List.length_nil]
  omega

/-- A run ends in a state in which nothing is under way, and nothing is ready unless something has
    failed. -/
theorem Engine.exists_reaches_finalState (engine : Engine) (options : RunOptions)
    (prepared : Prepared) :
    ∃ j, Reaches ⟨engine, prepared.store, options.draw⟩ prepared.shape j
        (engine.finalState options prepared) ∧
      (engine.finalState options prepared).inFlight = [] ∧
      ((engine.finalState options prepared).failure = none →
        (engine.finalState options prepared).ready = []) := by
  refine RunState.exists_reaches_drive ?_ _ .initial ?_
  · exact Nat.lt_of_lt_of_le Nat.zero_lt_one (Nat.le_max_right _ _)
  · rw [RunState.remaining_initial]
    exact Nat.lt_succ_self _

namespace Engine

variable {engine : Engine} {prepared : Prepared} {s : RunState}

/-- A state that has not failed has records. -/
theorem resultOf_eq_ok_iff {records : List Record} :
    engine.resultOf prepared s = .ok records ↔ s.failure = none ∧
      assemble engine.plan.outputs prepared.batchSize prepared.store s.results s.shape =
        records := by
  unfold resultOf
  cases s.failure <;> simp

/-- A run ends with the failure of its state. -/
theorem resultOf_eq_error_iff {fault : RunFault} :
    engine.resultOf prepared s = .error fault ↔ s.failure = some fault := by
  unfold resultOf
  cases s.failure <;> simp

/-- How a run ends: over the supplied values, called off, or in its final state. -/
theorem run_cases (engine : Engine) (parameters : Table String Json) (options : RunOptions) :
    (∃ fault, prepare engine.plan.inputs parameters = .error fault ∧
      (engine.run parameters options).result = .error fault) ∨
    (engine.run parameters options).result = .error .cancelled ∨
    ∃ prepared, prepare engine.plan.inputs parameters = .ok prepared ∧
      (engine.run parameters options).result =
        engine.resultOf prepared (engine.finalState options prepared) := by
  unfold run
  cases hprepare : prepare engine.plan.inputs parameters with
  | error fault => exact Or.inl ⟨fault, rfl, rfl⟩
  | ok prepared =>
    by_cases hcancelled : options.cancelled
    · exact Or.inr (Or.inl (by simp only [if_pos hcancelled]))
    · exact Or.inr (Or.inr ⟨prepared, rfl, by simp only [if_neg hcancelled]⟩)

/-- A run that succeeds shows its final state, in which nothing is left to do. -/
theorem exists_reaches_of_run_eq_ok {parameters : Table String Json} {options : RunOptions}
    {records : List Record} (h : (engine.run parameters options).result = .ok records) :
    ∃ prepared j, prepare engine.plan.inputs parameters = .ok prepared ∧
      let final := engine.finalState options prepared
      Reaches ⟨engine, prepared.store, options.draw⟩ prepared.shape j final ∧
        final.failure = none ∧ final.ready = [] ∧ final.inFlight = [] ∧
        assemble engine.plan.outputs prepared.batchSize prepared.store final.results final.shape =
          records := by
  rcases engine.run_cases parameters options with
    ⟨fault, -, hresult⟩ | hresult | ⟨prepared, hprepare, hresult⟩
  · cases hresult.symm.trans h
  · cases hresult.symm.trans h
  · obtain ⟨hnone, hrecords⟩ := resultOf_eq_ok_iff.1 (hresult.symm.trans h)
    obtain ⟨j, hreaches, hinFlight, hready⟩ := engine.exists_reaches_finalState options prepared
    exact ⟨prepared, j, hprepare, hreaches, hnone, hready hnone, hinFlight, hrecords⟩

end Engine

end BatchFlow
