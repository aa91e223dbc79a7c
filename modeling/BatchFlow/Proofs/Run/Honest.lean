import BatchFlow.Proofs.Catalog.Contracts
import BatchFlow.Proofs.Plan.Blocks
import BatchFlow.Proofs.Run.Stored

namespace BatchFlow

/-!
# Runs of blocks that honour their manifests

What blocks return for the elements of a step is recorded, unless the numbers of children do not
agree with those that have been noted. Only a step that bears the name of the level of the workflow
input can come into conflict, as it fans out to a level of the inputs.

* `Engine.Honest` — an engine whose blocks return what the manifests of the steps promise.
* `Reaches.outputs_fit` — the outputs of a task are as many and of the sort that recording asks for.
* `Reaches.children?_of_task` — who has noted children where a step under way fans out.
* `Reaches.record_eq_error` — why the outputs of a task cannot be recorded.
* `Reaches.rejected_of_failure` — a run that fails over an output has refused one.
* `output_refused_iff` — when a compiled plan goes wrong at recording.
-/

/-! ### Why outputs are refused -/

namespace RunState.Recording

variable {step : Plan.Step} {r : Recording} {index : Index} {output : Output}
  {fault : OutputFault}

/-- An output of the right sort is refused only when it fans out to another number of children than
    has been noted. -/
theorem add_eq_error (hfits : output.Fits step) (h : r.add step index output = .error fault) :
    ∃ items conflict n, output = .nested items ∧ fault = .differentCount conflict ∧
      r.shape.children? step.alignment.outputLineage index = some n ∧ n ≠ items.length := by
  -- a fitting output is refused only when its count cannot be registered, hence only when nested
  have hnot : ¬ ∃ r', r.add step index output = .ok r' := by
    rintro ⟨r', hr'⟩
    cases h.symm.trans hr'
  rw [exists_add_iff] at hnot
  have hcount := fun hcounts => hnot ⟨hfits, hcounts⟩
  cases output with
  | values values => exact absurd (fun entry he => by cases he) hcount
  | decision next => exact absurd (fun entry he => by cases he) hcount
  | nested items =>
    obtain ⟨hflow, ht⟩ := hfits
    simp only [add, hflow, ht] at h
    split at h
    · rename_i conflict hconflict
      cases h
      have hregister : ¬ ∃ shape, r.shape.register step.alignment.outputLineage index
          items.length = .ok shape := by
        rintro ⟨shape, hshape⟩
        cases hconflict.symm.trans hshape
      rw [BatchStructure.register_eq_ok_iff] at hregister
      obtain ⟨n, hn⟩ := Classical.not_forall.1 hregister
      obtain ⟨hn, hne⟩ := Classical.not_imp.1 hn
      exact ⟨items, conflict, n, rfl, rfl, hn, hne⟩
    · cases h

end RunState.Recording

/-! ### What honest blocks return -/

/-- An engine whose blocks return what the manifests of the steps promise. -/
structure Engine.Honest (engine : Engine) : Prop where
  honours : ∀ blockType block, engine.blocks.get? blockType = some block → block.Honours
  manifest_eq : ∀ step ∈ engine.plan.steps, ∀ block,
    engine.blocks.get? step.blockType = some block → block.manifest = step.manifest
  passesTargets : ∀ step ∈ engine.plan.steps, step.PassesTargets

/-- An engine has the blocks of its registry. -/
theorem Engine.honest_of_ofDefinition {registry : Registry} {settings : Settings}
    {initParameters : Table String Json} {d : Definition} {engine : Engine}
    (h : Engine.ofDefinition registry settings initParameters d = .ok engine)
    (hregistry : registry.Honest) : engine.Honest := by
  obtain ⟨hcompile, hblocks⟩ := Engine.ofDefinition_eq_ok h
  constructor
  case honours => exact fun blockType block hblock => hregistry _ _ (hblocks blockType block hblock)
  case manifest_eq =>
    intro step hstep block hblock
    have hmanifest := Definition.manifest_of_compile hcompile hstep
    rw [Registry.manifest?, hblocks _ _ hblock] at hmanifest
    exact Option.some.inj hmanifest
  case passesTargets => exact fun step hstep => Definition.passesTargets_of_compile hcompile hstep

namespace View

variable {view : View} {governing : List BranchId} {step : Plan.Step}

/-- A literal is its own value. -/
theorem bindingValue_literal (cursor : Cursor) (value : Json) :
    view.bindingValue governing cursor (.source (.literal value)) = value := by
  cases cursor <;> rfl

/-- An element has the values of the properties of its step. -/
theorem exists_of_mem_invocation {x : Index × Values} (h : x ∈ view.invocation governing step) :
    ∃ cursor, x.2 = step.bindings.map fun entry =>
      (entry.1, view.bindingValue governing cursor entry.2) := by
  have hvalues : ∀ {cursor keepEmpty values},
      view.values? governing cursor step keepEmpty = some values →
      values = step.bindings.map fun entry =>
        (entry.1, view.bindingValue governing cursor entry.2) := by
    intro cursor keepEmpty values h
    rw [values?] at h
    split at h
    · exact (Option.some.inj h).symm
    · cases h
  by_cases ht : step.manifest.transform = .decrement
  · rw [invocation_eq_collapsing ht] at h
    obtain ⟨index, -, he⟩ := List.mem_filterMap.1 h
    obtain ⟨values, hfound, rfl⟩ := Option.map_eq_some_iff.1 he
    exact ⟨_, hvalues hfound⟩
  · rw [invocation_eq_elementwise ht] at h
    obtain ⟨index, -, he⟩ := List.mem_filterMap.1 h
    obtain ⟨values, hfound, rfl⟩ := Option.map_eq_some_iff.1 he
    exact ⟨_, hvalues hfound⟩

/-- What a manifest promises for an element of its step can be recorded. -/
theorem fits_of_promises (htargets : step.PassesTargets) {x : Index × Values}
    (hx : x ∈ view.invocation governing step) {output : Output}
    (h : step.manifest.Promises x.2 output) : output.Fits step := by
  cases output with
  | values values => exact h
  | nested items => exact h
  | decision next =>
    refine ⟨h.1, fun target htarget => ?_⟩
    obtain ⟨property, value, hlists, hvalue, htarget⟩ := h.2 target htarget
    obtain ⟨cursor, hx⟩ := exists_of_mem_invocation hx
    rw [hx, Table.get?_mapValues step.bindings
      (fun _ b => view.bindingValue governing cursor b)] at hvalue
    obtain ⟨b, hb, rfl⟩ := Option.map_eq_some_iff.1 hvalue
    obtain ⟨names, rfl, hnames⟩ := htargets property b (Table.mem_of_get? hb) hlists
    rw [bindingValue_literal] at htarget
    exact hnames target (Json.mem_of_lists_ofStrings htarget)

end View

/-! ### Which outputs of honest blocks are refused -/

section Reaches

variable {context : RunContext} {shape : BatchStructure} {j : Journal} {s : RunState}

/-- What stands beside an item is related to it. -/
theorem forall_mem_zip_of_forall₂ {α β γ : Type} {R : α → β → Prop} {f : α → γ} {xs : List α}
    {ys : List β} (h : List.Forall₂ R xs ys) :
    ∀ o ∈ (xs.map f).zip ys, ∃ x ∈ xs, f x = o.1 ∧ R x o.2 := by
  induction h with
  | nil => exact List.forall_mem_nil _
  | @cons x y xs ys hxy _ ih =>
    rw [List.map_cons, List.zip_cons_cons, List.forall_mem_cons]
    refine ⟨⟨x, List.mem_cons_self, rfl, hxy⟩, fun o ho => ?_⟩
    obtain ⟨x', hx', found⟩ := ih o ho
    exact ⟨x', List.mem_cons_of_mem _ hx', found⟩

/-- The outputs of a task are as many as its elements, and of the sort that recording asks for. -/
theorem Reaches.outputs_fit (hhonest : context.engine.Honest) (h : Reaches context shape j s)
    {task : Task} (htask : task ∈ s.inFlight) {outputs : List Output}
    (houtcome : task.outcome context = .ok outputs) :
    outputs.length = task.elements.length ∧
      ∀ o ∈ (task.elements.map (·.1)).zip outputs, o.2.Fits task.step := by
  have hstep := h.tracks.mem_steps_of_task htask
  obtain ⟨-, j', s', -, -, -, -, helements⟩ := h.origin_of_task task htask
  -- a task under way has the elements of the state in which it was started, and all of them come
  -- from an invocation of the step
  have hinvocation : ∀ x ∈ task.elements,
      x ∈ (s'.view context).invocation (s'.governing task.step) task.step := by
    intro x hx
    rw [helements, RunState.elements] at hx
    split at hx
    · cases hx
    · exact hx
  unfold Task.outcome at houtcome
  split at houtcome
  · rename_i block hblock
    have hmanifest := hhonest.manifest_eq _ hstep _ hblock
    rw [← hmanifest] at houtcome
    have hpromises := hhonest.honours _ _ hblock _ _ _ houtcome
    rw [hmanifest, List.forall₂_map_left_iff] at hpromises
    refine ⟨hpromises.length_eq.symm, fun o ho => ?_⟩
    obtain ⟨x, hx, -, hpromise⟩ := forall_mem_zip_of_forall₂ hpromises o ho
    exact View.fits_of_promises (hhonest.passesTargets _ hstep) (hinvocation x hx) hpromise
  · cases houtcome

/-- While a step that fans out is under way, only the inputs have noted children at its level: steps
    that are done have other names. -/
theorem Reaches.children?_of_task (hplan : context.engine.plan.Coherent)
    (h : Reaches context shape j s) {task : Task} (htask : task ∈ s.inFlight)
    (hsuits : task.step.alignment.Suits task.step.name task.step.manifest)
    (ht : task.step.manifest.transform = .increment) (index : Index) :
    s.shape.children? task.step.alignment.outputLineage index =
      shape.children? task.step.alignment.outputLineage index := by
  have hcount : j.count? task.step.alignment.outputLineage index = none := by
    rw [Journal.count?, (hsuits.increment ht).2, List.getLast?_concat, Option.bind_some,
      Journal.ofStep?_eq_none_iff.2 (h.tracks.not_done_of_task hplan.steps_nodup htask),
      Option.bind_none]
  have hlast : task.step.alignment.outputLineage.getLast? = some task.step.name := by
    rw [(hsuits.increment ht).2, List.getLast?_concat]
  refine ((h.shows hplan).shape _ index fun name hname => ?_).trans (by rw [hcount, Option.or_none])
  exact Option.some.inj (hlast.symm.trans hname) ▸
    h.tracks.not_refused_of_task hplan.steps_nodup htask

/-- The outputs of a task that fit can be refused only when the step is named after the level of the
    workflow input and fans out to another number of children than the inputs have. -/
theorem Reaches.record_eq_error (hplan : context.engine.plan.Coherent) (hinput : shape.InputOnly)
    (h : Reaches context shape j s) {task : Task} (htask : task ∈ s.inFlight)
    {outputs : List Output} (hlength : outputs.length = task.elements.length)
    (hfits : ∀ o ∈ (task.elements.map (·.1)).zip outputs, o.2.Fits task.step)
    {refusal : RunState.Refusal} (hrecord : s.record task outputs = .error refusal) :
    task.step.name = Lineage.inputLevel ∧ task.step.manifest.transform = .increment ∧
      (∃ conflict, refusal.fault = .differentCount conflict) ∧ ∃ index items n,
        (index, .nested items) ∈ (task.elements.map (·.1)).zip outputs ∧
        shape.children? task.step.alignment.outputLineage index = some n ∧ n ≠ items.length := by
  obtain ⟨earlier, later, hsplit⟩ := List.append_of_mem (h.tracks.mem_steps_of_task htask)
  have hsuits := (hplan.step hsplit).suits
  obtain ⟨hnodup, -⟩ := h.elements_indices hplan htask
  rw [RunState.record_eq_error_iff, if_neg fun hne => hne hlength] at hrecord
  obtain ⟨part, index, output, rest, hzip, hpart, hrefused⟩ :=
    RunState.Recording.addAll_eq_error_iff.1 hrecord
  have hmem : (index, output) ∈ (task.elements.map (·.1)).zip outputs :=
    hzip ▸ List.mem_append_right _ List.mem_cons_self
  obtain ⟨items, conflict, n, rfl, hconflict, hn, hne⟩ :=
    RunState.Recording.add_eq_error (hfits _ hmem) hrefused
  obtain ⟨-, ht⟩ := hfits _ hmem
  -- what was noted for the element was not noted by the outputs before it
  have hown : Table.get? (Entry.counts ⟨task.step, part⟩)
      (task.step.alignment.outputLineage, index) = none := by
    rw [Table.get?_eq_none_iff]
    intro hkey
    obtain ⟨-, items', hbefore⟩ := Entry.key_of_mem_counts hkey
    have hindices : ((task.elements.map (·.1)).zip outputs).map (·.1) =
        task.elements.map (·.1) :=
      List.map_fst_zip (Nat.le_of_eq (by rw [List.length_map, hlength]))
    rw [← hindices, hzip, List.map_append, List.map_cons] at hnodup
    exact List.disjoint_of_nodup_append hnodup (List.mem_map_of_mem hbefore) List.mem_cons_self
  have hnoted : shape.children? task.step.alignment.outputLineage index = some n := by
    have hget := (RunState.Recording.addAll_eq_ok hpart).2.2.1
      (task.step.alignment.outputLineage, index)
    rw [hown, Option.or_none] at hget
    exact (h.children?_of_task hplan htask hsuits ht index).symm.trans (hget.symm.trans hn)
  -- the inputs have counts at their own levels only
  obtain ⟨depth, hdepth⟩ := hinput _ _ _ hnoted
  have hlast : task.step.name ∈ Lineage.ofInput depth := by
    rw [← hdepth, (hsuits.increment ht).2]
    exact List.mem_append_right _ List.mem_cons_self
  exact ⟨List.eq_of_mem_replicate hlast, ht, ⟨conflict, hconflict⟩, index, items, n, hmem, hnoted,
    hne⟩

/-- Outputs that fan out to another number of children than the inputs have are refused. -/
theorem Reaches.exists_record_error (hplan : context.engine.plan.Coherent)
    (h : Reaches context shape j s) {task : Task} {outputs : List Output} {index : Index}
    {items : List Values} {n : Nat}
    (hmem : (index, .nested items) ∈ (task.elements.map (·.1)).zip outputs)
    (hn : shape.children? task.step.alignment.outputLineage index = some n)
    (hne : n ≠ items.length) : ∃ fault, s.record task outputs = .error fault := by
  cases hrecord : s.record task outputs with
  | error fault => exact ⟨fault, rfl⟩
  | ok s' =>
    obtain ⟨-, recording, hrecording, -⟩ := RunState.record_eq_ok hrecord
    have hkept : s.shape.children? task.step.alignment.outputLineage index = some n :=
      (h.shows hplan).extends_inputs _ _ _ hn
    have hnoted := RunState.Recording.addAll_extends hrecording _ _ _ hkept
    rw [RunState.Recording.children?_of_addAll hrecording hmem] at hnoted
    exact absurd (Option.some.inj hnoted).symm hne

/-! ### Runs that fail over an output -/

/-- A run that has failed over an output has refused the outputs of a task. -/
theorem Reaches.rejected_of_failure (h : Reaches context shape j s) {name : String}
    {fault : OutputFault} (hfailure : s.failure = some (.output name fault)) :
    ∃ j' s' task outputs refusal, Reaches context shape j' s' ∧ task ∈ s'.inFlight ∧
      task.outcome context = .ok outputs ∧ s'.record task outputs = .error refusal ∧
      refusal.fault = fault ∧ task.step.name = name := by
  induction h with
  | initial => cases hfailure
  | take _ _ hnone _ =>
    rw [RunState.take_failure] at hfailure
    cases hnone.symm.trans hfailure
  | @finish j s i task hreaches htask ih =>
    rcases RunState.finish_cases context { s with inFlight := s.inFlight.eraseIdx i } task with
      ⟨-, outputs, -, hrecord, -⟩ | ⟨-, ⟨_, left, events, hleaves, he⟩, -⟩
    · obtain ⟨-, recording, -, events, branches, -, he⟩ := RunState.record_eq_ok hrecord
      rw [he] at hfailure
      exact ih hfailure
    · rw [he] at hfailure
      cases hfailure
      have hleaves : task.Leaves context s (.output name fault) left := hleaves.congr rfl rfl rfl
      rcases hleaves.exists_record with hbefore | ⟨hname, outputs, houtcome, hrecord⟩
      · exact ih hbefore
      · exact ⟨j, s, task, outputs, _, hreaches, List.mem_of_getElem? htask, houtcome, hrecord, rfl,
          hname⟩

end Reaches

/-- A run that ends over an output has refused it in a state that it can reach. -/
theorem Engine.rejected_of_run {engine : Engine} {parameters : Table String Json}
    {options : RunOptions} {name : String} {fault : OutputFault}
    (h : (engine.run parameters options).result = .error (.output name fault)) :
    ∃ prepared j s task outputs refusal, prepare engine.plan.inputs parameters = .ok prepared ∧
      Reaches ⟨engine, prepared.store, options.draw⟩ prepared.shape j s ∧ task ∈ s.inFlight ∧
      task.outcome ⟨engine, prepared.store, options.draw⟩ = .ok outputs ∧
      s.record task outputs = .error refusal ∧ refusal.fault = fault ∧ task.step.name = name := by
  rcases engine.run_cases parameters options with
    ⟨fault', hprepare, hresult⟩ | hresult | ⟨prepared, hprepare, hresult⟩
  · obtain ⟨input, -, why, hinput⟩ := prepare_eq_error hprepare
    rw [hinput] at hresult
    cases hresult.symm.trans h
  · cases hresult.symm.trans h
  · have hfailure := Engine.resultOf_eq_error_iff.1 (hresult.symm.trans h)
    obtain ⟨j, hreaches, -, -⟩ := engine.exists_reaches_finalState options prepared
    obtain ⟨j', s, task, outputs, refusal, hrejected⟩ := hreaches.rejected_of_failure hfailure
    exact ⟨prepared, j', s, task, outputs, refusal, hprepare, hrejected⟩

/-- When a compiled plan goes wrong at recording. Whatever honest blocks return in any state of a
    run, the outputs of a task are refused exactly when its step is named after the level of the
    workflow input and fans out, at some element, to another number of children than the inputs have
    there. So a run fails over an output of no other step, and for no other reason. -/
theorem output_refused_iff {registry : Registry} {settings : Settings}
    {initParameters : Table String Json} {d : Definition} {engine : Engine}
    (hengine : Engine.ofDefinition registry settings initParameters d = .ok engine)
    (hregistry : registry.Honest) :
    (∀ parameters prepared, prepare engine.plan.inputs parameters = .ok prepared →
      ∀ draw j s, Reaches ⟨engine, prepared.store, draw⟩ prepared.shape j s →
      ∀ task ∈ s.inFlight, ∀ outputs,
        task.outcome ⟨engine, prepared.store, draw⟩ = .ok outputs →
        ((∃ fault, s.record task outputs = .error fault) ↔
          task.step.name = Lineage.inputLevel ∧ task.step.manifest.transform = .increment ∧
            ∃ index items n, (index, .nested items) ∈ (task.elements.map (·.1)).zip outputs ∧
              prepared.shape.children? task.step.alignment.outputLineage index = some n ∧
              n ≠ items.length)) ∧
    ∀ parameters options name fault,
      (engine.run parameters options).result = .error (.output name fault) →
        name = Lineage.inputLevel ∧ (∃ conflict, fault = .differentCount conflict) ∧
          ∃ step ∈ engine.plan.steps, step.name = name ∧
            step.manifest.transform = .increment := by
  have hplan := Definition.coherent_of_compile (Engine.ofDefinition_eq_ok hengine).1
  have hhonest := Engine.honest_of_ofDefinition hengine hregistry
  constructor
  · intro parameters prepared hprepare draw j s hreaches task htask outputs houtcome
    obtain ⟨hlength, hfits⟩ := hreaches.outputs_fit hhonest htask houtcome
    constructor
    · rintro ⟨refusal, hrecord⟩
      obtain ⟨hname, ht, -, hconflict⟩ := hreaches.record_eq_error hplan
        (inputOnly_of_prepare hplan hprepare) htask hlength hfits hrecord
      exact ⟨hname, ht, hconflict⟩
    · rintro ⟨-, -, index, items, n, hmem, hn, hne⟩
      exact hreaches.exists_record_error hplan hmem hn hne
  · intro parameters options name fault hrun
    -- a run that ends with a refused output has a reachable state and a task whose recording was
    -- refused
    obtain ⟨prepared, j, s, task, outputs, refusal, hprepare, hreaches, htask, houtcome, hrecord,
      rfl, rfl⟩ := Engine.rejected_of_run hrun
    obtain ⟨hlength, hfits⟩ := hreaches.outputs_fit hhonest htask houtcome
    obtain ⟨hname, ht, hconflict, -⟩ := hreaches.record_eq_error hplan
      (inputOnly_of_prepare hplan hprepare) htask hlength hfits hrecord
    exact ⟨hname, hconflict, task.step, hreaches.tracks.mem_steps_of_task htask, rfl, ht⟩

namespace Sample

/-- A step that cuts images apart and bears the name of the level of the workflow input. -/
def marked : Definition where
  version := "1.0"
  inputs := [.batch "image" 1 [], .batch "x" 2 []]
  steps := [⟨"Crop", Lineage.inputLevel,
    [("image", .string "$inputs.image"), ("predictions", .array [])]⟩]
  outputs := [⟨"out", "$inputs.x"⟩]

/-- An image without detections, beside a list of one value. -/
def markedInput : Table String Json :=
  [("image", .array [.object []]), ("x", .array [.array [.bool true]])]

end Sample

/-- The crops of an image are counted against the items of an input. -/
theorem output_refused_marked : Catalog.builtinRegistry.Honest ∧ ∃ engine conflict,
    Engine.ofDefinition Catalog.builtinRegistry {} [] Sample.marked = .ok engine ∧
    (engine.run Sample.markedInput {}).result =
      .error (.output Lineage.inputLevel (.differentCount conflict)) ∧
    ∃ prepared : Prepared, ∃ j s task, ∃ outputs : List Output, ∃ index items n,
      Reaches ⟨engine, prepared.store, fun _ => 0.5⟩ prepared.shape j s ∧ task ∈ s.inFlight ∧
      task.step.manifest.transform = .increment ∧
      (index, .nested items) ∈ (task.elements.map (·.1)).zip outputs ∧
      prepared.shape.children? task.step.alignment.outputLineage index = some n ∧
      n ≠ items.length := by
  have hhonest : Catalog.builtinRegistry.Honest :=
    Registry.honest_registerAll Catalog.honours_of_mem_builtins
  have hrun : ((Engine.ofDefinition Catalog.builtinRegistry {} [] Sample.marked).toOption.map
      fun engine => match (engine.run Sample.markedInput {}).result with
        | .error (.output name _) => name
        | _ => "") = some Lineage.inputLevel := by
    decide +kernel
  obtain ⟨engine, hengine, hrun⟩ := Option.map_eq_some_iff.1 hrun
  have hengine := toOption_eq_some.1 hengine
  split at hrun
  · rename_i name fault hresult
    cases hrun
    obtain ⟨hrefused, hfault⟩ := output_refused_iff hengine hhonest
    obtain ⟨-, ⟨conflict, rfl⟩, -⟩ := hfault _ _ _ _ hresult
    obtain ⟨prepared, j, s, task, outputs, refusal, hprepare, hreaches, htask, houtcome, hrecord,
      -⟩ := Engine.rejected_of_run hresult
    obtain ⟨-, ht, index, items, n, hmem, hn, hne⟩ :=
      (hrefused _ _ hprepare _ _ _ hreaches _ htask _ houtcome).1 ⟨_, hrecord⟩
    exact ⟨hhonest, engine, conflict, hengine, hresult, prepared, j, s, task, outputs, index, items,
      n, hreaches, htask, ht, hmem, hn, hne⟩
  · exact absurd hrun (by decide)

end BatchFlow
