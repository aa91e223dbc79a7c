import BatchFlow.Proofs.Run.Determinacy
import Mathlib.Logic.Relation

namespace BatchFlow

/-!
# Results and structure

While the steps of a run are done, results are written and numbers of children are noted. No entry
is ever changed, and results stand at indices of the batch only.

* `Turn` — one action of a run.
* `Placed` — every result stands at an index of the lineage of its step, and none was written twice.
* `Reaches.placed` — so it is in every state of a run.
* `Reaches.recording` — and while the outputs of a task are recorded one after another.
* `Turn.grows` — an action keeps the results and the numbers of children that there were.
* `Kept`, `Reaches.kept` — all of this together.
-/

/-- One action of a run: a ready step is taken, or a task finishes. -/
inductive Turn (context : RunContext) : RunState → RunState → Prop where
  | take {s : RunState} {step : Plan.Step} : step ∈ s.ready → s.failure = none →
      Turn context s (RunState.take context { s with ready := s.ready.erase step } step)
  | finish {s : RunState} {i : Nat} {task : Task} : s.inFlight[i]? = some task →
      Turn context s (RunState.finish context { s with inFlight := s.inFlight.eraseIdx i } task)

/-- A turn leads to a state of the run. -/
theorem Turn.exists_reaches {context : RunContext} {shape : BatchStructure} {s s' : RunState}
    (hturn : Turn context s s') {j : Journal} (h : Reaches context shape j s) :
    ∃ j', Reaches context shape j' s' := by
  cases hturn with
  | take hstep hfailure => exact ⟨_, h.take hstep hfailure⟩
  | finish htask => exact ⟨_, h.finish htask⟩

/-- Every result stands at an index of the lineage of its step, and no entry is there twice. -/
structure Placed (plan : Plan) (shape : BatchStructure) (results : ResultStore) : Prop where
  index : ∀ key ∈ Table.keys results, ∃ step ∈ plan.steps, step.name = key.1 ∧
    key.2 ∈ shape.indices step.alignment.outputLineage
  once : (Table.keys results).Nodup

/-- Results stay in place when more is noted. -/
theorem Placed.mono {plan : Plan} {shape shape' : BatchStructure} {results : ResultStore}
    (h : Placed plan shape results) (hshape : shape.Extends shape') :
    Placed plan shape' results where
  index key hkey := by
    obtain ⟨step, hstep, hname, hindex⟩ := h.index key hkey
    exact ⟨step, hstep, hname, hshape.mem_indices hindex⟩
  once := h.once

/-! ### Recording outputs -/

/-- The lineage of the elements at which a step runs: its own, or that of the parents if it
    folds. -/
def Plan.Step.elementLineage (step : Plan.Step) : Lineage :=
  if step.manifest.transform = .decrement then
    step.alignment.lineage.take (step.alignment.input - 1)
  else step.alignment.lineage

/-- A step that does not fan out produces its values where it runs. -/
theorem Plan.Step.outputLineage_eq {step : Plan.Step}
    (hsuits : step.alignment.Suits step.name step.manifest)
    (ht : step.manifest.transform ≠ .increment) :
    step.alignment.outputLineage = step.elementLineage := by
  rw [elementLineage]
  cases h : step.manifest.transform with
  | identity => exact (hsuits.identity h).2
  | increment => exact absurd h ht
  | decrement => exact (hsuits.decrement h).2.2

/-- A step that fans out produces its values one level below. -/
theorem Plan.Step.outputLineage_eq_concat {step : Plan.Step}
    (hsuits : step.alignment.Suits step.name step.manifest)
    (ht : step.manifest.transform = .increment) :
    step.alignment.outputLineage = step.elementLineage ++ [step.name] := by
  rw [elementLineage, ht]
  exact (hsuits.increment ht).2

namespace RunState.Recording

variable {step : Plan.Step} {r r' : Recording} {outputs : List (Index × Output)}

/-- After recording, the children of an element that fanned out are noted. -/
theorem children?_of_addAll (h : addAll step r outputs = .ok r') {index : Index}
    {items : List Values} (hmem : (index, .nested items) ∈ outputs) :
    r'.shape.children? step.alignment.outputLineage index = some items.length := by
  have hcount : ((step.alignment.outputLineage, index), items.length) ∈
      Entry.counts ⟨step, outputs⟩ := List.mem_filterMap.2 ⟨_, hmem, rfl⟩
  have hnoted := (exists_addAll_iff.1 ⟨r', h⟩).2 _ hcount
  exact ((addAll_eq_ok h).2.2.1 _).trans hnoted

/-- What is recorded of a step without results stands behind the results that there were, at indices
    of its lineage. -/
theorem placed_addAll {plan : Plan} (hstep : step ∈ plan.steps)
    (hsuits : step.alignment.Suits step.name step.manifest)
    (hplaced : Placed plan r.shape r.results)
    (hnew : ∀ key ∈ Table.keys r.results, key.1 ≠ step.name)
    (hnodup : (outputs.map (·.1)).Nodup)
    (helements : ∀ index ∈ outputs.map (·.1), index ∈ r.shape.indices step.elementLineage)
    (h : addAll step r outputs = .ok r') :
    r'.results = r.results ++ Entry.produced ⟨step, outputs⟩ ∧
      Placed plan r'.shape r'.results := by
  obtain ⟨hfits, hresults, -, -⟩ := addAll_eq_ok h
  have hextends := addAll_extends h
  have honce : (Table.keys r.results ++ Table.keys (Entry.produced ⟨step, outputs⟩)).Nodup := by
    refine List.nodup_append.2 ⟨hplaced.once, Entry.nodup_keys_produced hnodup hfits, ?_⟩
    rintro key hkey _ hkey' rfl
    exact hnew key hkey (Entry.key_of_mem_produced hkey')
  have happend : r'.results = r.results ++ Entry.produced ⟨step, outputs⟩ :=
    hresults.trans (Table.writeAll_eq_append honce)
  have hkeys : Table.keys r'.results =
      Table.keys r.results ++ Table.keys (Entry.produced ⟨step, outputs⟩) := by
    rw [happend]
    exact List.map_append
  refine ⟨happend, fun key hkey => ?_, hkeys ▸ honce⟩
  rw [hkeys] at hkey
  rcases List.mem_append.1 hkey with hkey | hkey
  · exact (hplaced.mono hextends).index key hkey
  · refine ⟨step, hstep, (Entry.key_of_mem_produced hkey).symm, ?_⟩
    rw [Table.keys, Entry.produced, List.map_flatMap] at hkey
    obtain ⟨⟨index, output⟩, houtput, hkey⟩ := List.mem_flatMap.1 hkey
    have hindex : index ∈ r'.shape.indices step.elementLineage :=
      hextends.mem_indices (helements _ (List.mem_map_of_mem houtput))
    obtain ⟨-, ⟨values, rfl, he⟩ | ⟨items, k, rfl, hk, he⟩⟩ := Entry.mem_keys_valuesOf hkey
    · rw [he, step.outputLineage_eq hsuits (hfits _ houtput).2]
      exact hindex
    -- a value of a nested batch stands at one of the children that were noted
    · have ht := (hfits _ houtput).2
      have hchildren := children?_of_addAll h houtput
      rw [step.outputLineage_eq_concat hsuits ht] at hchildren ⊢
      rw [he]
      refine BatchStructure.mem_indices_snoc.2 ⟨index, hindex, k, ?_, rfl⟩
      rwa [hchildren, Option.getD_some]

end RunState.Recording

/-! ### Every state of a run -/

section Reaches

variable {context : RunContext} {shape : BatchStructure} {j j' : Journal} {s s' : RunState}

/-- The numbers of children that are noted while nothing has failed are noted later on. -/
theorem Reaches.shape_extends (hplan : context.engine.plan.Coherent) (h : Reaches context shape j s)
    (hnone : s.failure = none) (h' : Reaches context shape j' s') (hbegin : j <+: j') :
    s.shape.Extends s'.shape := by
  intro l index n hn
  rw [(h.shows hplan).children?_eq hnone] at hn
  cases hinput : shape.children? l index with
  | some count =>
    rw [hinput, Option.some_or] at hn
    exact (h'.shows hplan).extends_inputs _ _ _ (hinput.trans hn)
  | none =>
    -- a step that is done has fanned out there, and it stays done
    rw [hinput, Option.none_or] at hn
    obtain ⟨e, hentry, hcount⟩ := Option.bind_eq_some_iff.1 hn
    obtain ⟨name, hlast, hfound⟩ := Option.bind_eq_some_iff.1 hentry
    have hdone : name ∈ j.names :=
      (Journal.mem_of_ofStep? hfound).2 ▸ List.mem_map_of_mem (Journal.mem_of_ofStep? hfound).1
    rw [Journal.ofStep?_of_prefix hbegin (h'.tracks.journal_nodup hplan.steps_nodup) hdone]
      at hfound
    obtain ⟨above, rfl⟩ := List.getLast?_eq_some_iff.1 hlast
    rw [h'.children?_of_done hplan ((hbegin.map _).subset hdone), hinput, Option.none_or,
      Journal.count?, hlast, Option.bind_some, hfound]
    exact hcount

/-- A task runs at indices of the lineage of its elements, at each once. -/
theorem Reaches.elements_indices (hplan : context.engine.plan.Coherent)
    (h : Reaches context shape j s) {task : Task} (htask : task ∈ s.inFlight) :
    (task.elements.map (·.1)).Nodup ∧
      ∀ index ∈ task.elements.map (·.1), index ∈ s.shape.indices task.step.elementLineage := by
  obtain ⟨-, j', s', hreaches, hbegin, hnone, -, helements⟩ := h.origin_of_task task htask
  have hextends : s'.shape.Extends s.shape := hreaches.shape_extends hplan hnone h hbegin
  have hsublist : (task.elements.map (·.1)).Sublist
      (s'.shape.indices task.step.elementLineage) := by
    rw [helements, RunState.elements]
    split
    · exact List.nil_sublist _
    · exact View.invocation_sublist
  exact ⟨(BatchStructure.nodup_indices _).sublist hsublist,
    fun index hindex => hextends.mem_indices (hsublist.subset hindex)⟩

/-- A result belongs to a step that is done, if not to one whose outputs were refused. -/
theorem Shows.done_of_mem_results (h : Shows shape j s) {key : String × Index}
    (hkey : key ∈ Table.keys s.results) (hunrefused : ¬ s.Refused key.1) : key.1 ∈ j.names := by
  obtain ⟨name, index⟩ := key
  have hsome : s.results.get? (name, index) ≠ none :=
    fun hnone => Table.get?_eq_none_iff.1 hnone hkey
  rw [h.results name index hunrefused, Journal.output?] at hsome
  refine Classical.not_not.1 fun hnew => hsome ?_
  rw [Journal.ofStep?_eq_none_iff.2 hnew, Option.bind_none]

/-- While the outputs of a task are recorded one after another, results gain entries at indices of
    the lineage of the step, none of which was there before. -/
theorem Reaches.recording (hplan : context.engine.plan.Coherent) (h : Reaches context shape j s)
    (hplaced : Placed context.engine.plan s.shape s.results) {task : Task}
    (htask : task ∈ s.inFlight) {outputs : List Output} {part : List (Index × Output)}
    (hpart : part <+: (task.elements.map (·.1)).zip outputs) {r : RunState.Recording}
    (hr : RunState.Recording.addAll task.step { shape := s.shape, results := s.results } part =
      .ok r) :
    r.results = s.results ++ Entry.produced ⟨task.step, part⟩ ∧
      Placed context.engine.plan r.shape r.results ∧ s.shape.Extends r.shape := by
  have hmem := h.tracks.mem_steps_of_task htask
  obtain ⟨earlier, later, hsplit⟩ := List.append_of_mem hmem
  obtain ⟨hnodup, hindices⟩ := h.elements_indices hplan htask
  have hsublist : (part.map (·.1)).Sublist (task.elements.map (·.1)) := by
    refine (hpart.sublist.map _).trans ?_
    rw [List.zip_eq_zip_take_min, List.map_fst_zip (by simp)]
    exact List.take_sublist _ _
  -- the step has no results yet: it is under way, so it is neither done nor refused
  have hnew : ∀ key ∈ Table.keys s.results, key.1 ≠ task.step.name := by
    intro key hkey he
    have hunrefused := h.tracks.not_refused_of_task hplan.steps_nodup htask
    have hdone := (h.shows hplan).done_of_mem_results hkey (he ▸ hunrefused)
    exact h.tracks.not_done_of_task hplan.steps_nodup htask (he ▸ hdone)
  obtain ⟨hresults, hplaced'⟩ := RunState.Recording.placed_addAll hmem (hplan.step hsplit).suits
    hplaced hnew (hnodup.sublist hsublist) (fun index hindex => hindices index
      (hsublist.subset hindex)) hr
  exact ⟨hresults, hplaced', RunState.Recording.addAll_extends hr⟩

/-- In every state of a run the results stand where they belong, each once. -/
theorem Reaches.placed (hplan : context.engine.plan.Coherent) (h : Reaches context shape j s) :
    Placed context.engine.plan s.shape s.results := by
  induction h with
  | initial => exact ⟨List.forall_mem_nil _, List.nodup_nil⟩
  | take _ _ _ ih =>
    rw [RunState.take_results, RunState.take_shape]
    exact ih
  | @finish j s i task hreaches htask ih =>
    -- what is left of outputs that were refused stands where it belongs as well
    obtain ⟨outputs, part, r, hpart, hr, hresults, hshape⟩ :=
      RunState.exists_recording_finish context { s with inFlight := s.inFlight.eraseIdx i } task
    rw [hresults, hshape]
    exact (hreaches.recording hplan ih (List.mem_of_getElem? htask) hpart hr).2.1

/-- An action adds results behind those that there were, and keeps what was noted. -/
theorem Turn.grows (hplan : context.engine.plan.Coherent) (h : Reaches context shape j s)
    (hturn : Turn context s s') : s.results <+: s'.results ∧ s.shape.Extends s'.shape := by
  cases hturn with
  | take _ _ =>
    rw [RunState.take_results, RunState.take_shape]
    exact ⟨List.prefix_rfl, .refl _⟩
  | @finish i task htask =>
    obtain ⟨outputs, part, r, hpart, hr, hresults, hshape⟩ :=
      RunState.exists_recording_finish context { s with inFlight := s.inFlight.eraseIdx i } task
    obtain ⟨happend, -, hextends⟩ := h.recording hplan (h.placed hplan)
      (List.mem_of_getElem? htask) hpart hr
    rw [hresults, hshape, happend]
    exact ⟨List.prefix_append _ _, hextends⟩

/-- Later states keep the results and what was noted. -/
theorem Reaches.grows (hplan : context.engine.plan.Coherent) (h : Reaches context shape j s)
    (hlater : Relation.ReflTransGen (Turn context) s s') :
    s.results <+: s'.results ∧ s.shape.Extends s'.shape := by
  have hall : (∃ j', Reaches context shape j' s') ∧
      s.results <+: s'.results ∧ s.shape.Extends s'.shape := by
    induction hlater with
    | refl => exact ⟨⟨j, h⟩, List.prefix_rfl, .refl _⟩
    | tail _ hturn ih =>
      obtain ⟨⟨j', hreaches⟩, hresults, hextends⟩ := ih
      obtain ⟨hresults', hextends'⟩ := hturn.grows hplan hreaches
      exact ⟨hturn.exists_reaches hreaches, hresults.trans hresults', hextends.trans hextends'⟩
  exact hall.2

/-- What holds of the results and the structure of a state of a run: every result stands where it
    belongs; what is there stays; and what the outputs of a task add, however many of them have been
    recorded, was not there before. -/
structure Kept (context : RunContext) (s : RunState) : Prop where
  placed : Placed context.engine.plan s.shape s.results
  later : ∀ s', Relation.ReflTransGen (Turn context) s s' →
    s.results <+: s'.results ∧ s.shape.Extends s'.shape
  recording : ∀ task ∈ s.inFlight, ∀ (outputs : List Output) (part : List (Index × Output)),
    part <+: (task.elements.map (·.1)).zip outputs → ∀ r : RunState.Recording,
    RunState.Recording.addAll task.step { shape := s.shape, results := s.results } part = .ok r →
      r.results = s.results ++ Entry.produced ⟨task.step, part⟩ ∧
        Placed context.engine.plan r.shape r.results ∧ s.shape.Extends r.shape

/-- In every state of a run what was recorded is where it belongs. -/
theorem Reaches.kept (hplan : context.engine.plan.Coherent) (h : Reaches context shape j s) :
    Kept context s where
  placed := h.placed hplan
  later _ hlater := h.grows hplan hlater
  recording _ htask _ _ hpart _ hr := h.recording hplan (h.placed hplan) htask hpart hr

end Reaches

end BatchFlow
