import BatchFlow.Proofs.Run.Inputs
import BatchFlow.Proofs.Run.Recorded
import BatchFlow.Proofs.Run.View

namespace BatchFlow

/-!
# The order of a run is not seen in its records

Results, structure and branches are tables in which all steps write, in the order in which their
tasks finish. A step reads them when it is taken: the values of its sources, the numbers of
children along its lineage and the branches that restrict it. Each of these look-ups concerns a
step on which it depends, or one that made a level of its lineage and is done as well
(`Plan.Coherent.level_cases`). What is found there is what the journal has of that step, whatever
was written in between.

So a step is started at the same elements in all runs on the same inputs, by induction on the order
of the plan, and it returns the same, whichever ready steps are taken and tasks finish first. A task
that fails in one run keeps every other run from being complete.

* `RunState.elements_congr`, `RunState.elements_congr_governors` — at which elements a step is
  started depends on what it reads only, and on what its governors exclude.
* `elements_eq` — a step is started at the same elements when its dependencies left the same.
* `Reaches.ofStep?_eq` — a step that is done in two runs has the same entry in both.
* `Reaches.failure_eq_none` — no run fails when one of them is complete.
-/

variable {context : RunContext} {shape : BatchStructure} {j j' : Journal} {s s' : RunState}

/-! ### What a step reads -/

/-- The structure of the inputs stays as it is at the levels of the inputs. -/
theorem Shows.children?_of_filled (h : Shows shape j s) {l : Lineage} (hfilled : shape.Filled l)
    {above : Lineage} {level : String} (hlevel : above ++ [level] <+: l) {index : Index}
    (hindex : index ∈ shape.indices above) :
    s.shape.children? (above ++ [level]) index = shape.children? (above ++ [level]) index := by
  obtain ⟨n, hn⟩ := Option.isSome_iff_exists.1 (hfilled above level hlevel index hindex)
  rw [hn, h.extends_inputs _ _ _ hn]

/-- What is known of a lineage that is filled does not change. -/
theorem Shows.indices_of_filled (h : Shows shape j s) {l : Lineage} (hfilled : shape.Filled l)
    {above : Lineage} (habove : above <+: l) : s.shape.indices above = shape.indices above :=
  BatchStructure.indices_congr fun _ _ hlevel _ hindex =>
    h.children?_of_filled hfilled (hlevel.trans habove) hindex

/-- What is done in a state is closed under dependencies. -/
theorem Reaches.closed (hplan : context.engine.plan.Coherent) (h : Reaches context shape j s) :
    context.engine.plan.Closed j.names := by
  intro step hstep hdone name hname
  obtain ⟨e, he, rfl⟩ := h.tracks.exists_entry hplan.steps_nodup hstep hdone
  obtain ⟨elements, ⟨j', s', hreaches, hbegin, -, hready, -⟩, -⟩ := h.origin_of_entry he
  exact (hbegin.map _).subset (hreaches.tracks.ready _ hready name hname)

/-- A step is started at the same elements in two states that show the same of what it reads: of the
    branches that restrict it, of its sources and of the levels of its lineage. -/
theorem RunState.elements_congr {context' : RunContext} {step : Plan.Step}
    (hinputs : context'.inputs = context.inputs)
    (hsuits : step.alignment.Suits step.name step.manifest)
    (hgate : ∀ g ∈ step.governedBy,
      s'.branches.gate? (g, step.name) = s.branches.gate? (g, step.name))
    (hresult : ∀ {name property depth}, .step name property depth ∈ step.sources →
      ∀ index, s'.results.get? (name, index) = s.results.get? (name, index))
    (hchildren : ∀ {above level}, above ++ [level] <+: step.alignment.lineage →
      ∀ index ∈ s.shape.indices above,
        s'.shape.children? (above ++ [level]) index = s.shape.children? (above ++ [level]) index) :
    s'.elements context' step = s.elements context step := by
  have hvalue : ∀ index, ∀ source ∈ step.sources,
      (s'.view context').at? index source = (s.view context).at? index source := by
    intro index source hsource
    cases source with
    | literal value => rfl
    | input name depth => simp only [View.at?, lookup?, RunState.view, hinputs]
    | step name property depth => exact congrArg (Option.map _) (hresult hsource _)
  -- what is invoked depends on the masks, the values of the sources, the indices of the lineage
  -- and, for a fold, the number of children below each parent; nothing else is read
  have hinvocation : (s'.view context').invocation (s'.governing step) step =
      (s.view context).invocation (s.governing step) step := by
    refine View.invocation_congr (Branches.admits_governing_congr hgate) hvalue (fun l hl => ?_)
      fun ht parent hparent => ?_
    · exact BatchStructure.indices_congr fun _ _ hlevel => hchildren (hlevel.trans hl)
    · obtain ⟨level, hlineage⟩ := hsuits.exists_folded ht
      have hcount := hchildren ⟨[], (List.append_nil _).trans hlineage⟩ parent hparent
      rwa [hlineage] at hcount
  have hexhausted : ((s'.governing step).any fun id => (s'.branches.get id).isExhausted) =
      (s.governing step).any fun id => (s.branches.get id).isExhausted :=
    Branches.any_isExhausted_congr hgate
  rw [RunState.elements, RunState.elements, hexhausted, hinvocation]

/-- A step is started at the same elements below other governors that exclude the same. -/
theorem RunState.elements_congr_governors (context : RunContext) (s : RunState) (step : Plan.Step)
    {governedBy : List String}
    (hexhausted : ((s.branches.governing step.name governedBy).any fun id =>
        (s.branches.get id).isExhausted) =
      (s.governing step).any fun id => (s.branches.get id).isExhausted)
    (hadmits : ∀ index, s.branches.admits (s.branches.governing step.name governedBy) index =
      s.branches.admits (s.governing step) index) :
    s.elements context { step with governedBy } = s.elements context step := by
  have hinvocation :
      (s.view context).invocation (s.branches.governing step.name governedBy) step =
        (s.view context).invocation (s.governing step) step :=
    View.invocation_congr hadmits (fun _ _ _ => rfl) (fun _ _ => rfl) fun _ _ _ => rfl
  unfold RunState.elements
  rw [← hinvocation, ← hexhausted]
  rfl

section Elements

variable {earlier : List Plan.Step} {step : Plan.Step} {later : List Plan.Step}

/-- Two journals have the same entries for those of some steps that are done in both. -/
def Journal.Agree (j j' : Journal) (steps : List Plan.Step) : Prop :=
  ∀ name ∈ steps.map (·.name), name ∈ j.names → name ∈ j'.names → j.ofStep? name = j'.ofStep? name

/-- Every level of the lineage of a step has the same indices in both states. -/
theorem children?_eq (hplan : context.engine.plan.Coherent)
    (hfilled : ∀ i ∈ context.engine.plan.inputs, shape.Filled (.ofInput i.depth))
    (h : Reaches context shape j s) (h' : Reaches context shape j' s')
    (hsplit : context.engine.plan.steps = earlier ++ step :: later)
    (hagree : j.Agree j' earlier) (hdone : ∀ name ∈ step.dependsOn, name ∈ j.names)
    (hdone' : ∀ name ∈ step.dependsOn, name ∈ j'.names) {above : Lineage} {level : String}
    (hlevel : above ++ [level] <+: step.alignment.lineage) {index : Index}
    (hindex : index ∈ s.shape.indices above) :
    s'.shape.children? (above ++ [level]) index = s.shape.children? (above ++ [level]) index := by
  have hshows := h.shows hplan
  have hshows' := h'.shows hplan
  have hinput : (∃ i ∈ context.engine.plan.inputs, above ++ [level] <+: Lineage.ofInput i.depth) →
      s'.shape.children? (above ++ [level]) index = s.shape.children? (above ++ [level]) index := by
    rintro ⟨i, hi, hbegin⟩
    have hfill := hfilled i hi
    rw [hshows.indices_of_filled hfill ((List.prefix_append _ _).trans hbegin)] at hindex
    rw [hshows.children?_of_filled hfill hbegin hindex,
      hshows'.children?_of_filled hfill hbegin hindex]
  -- a level below the inputs was made by an earlier step, which is done in both states
  rcases hplan.level_cases (h.closed hplan) hsplit hdone hlevel with hi | ⟨-, hmem, hearlier⟩
  · exact hinput hi
  · rcases hplan.level_cases (h'.closed hplan) hsplit hdone' hlevel with hi | ⟨-, hmem', -⟩
    · exact hinput hi
    · rw [h.children?_of_done hplan hmem, h'.children?_of_done hplan hmem', Journal.count?,
        Journal.count?, List.getLast?_concat, Option.bind_some, Option.bind_some,
        hagree level hearlier hmem hmem']

/-- A step is started at the same elements when the steps before it left the same. -/
theorem elements_eq (hplan : context.engine.plan.Coherent)
    (hfilled : ∀ i ∈ context.engine.plan.inputs, shape.Filled (.ofInput i.depth))
    (h : Reaches context shape j s) (h' : Reaches context shape j' s')
    (hsplit : context.engine.plan.steps = earlier ++ step :: later)
    (hagree : j.Agree j' earlier) (hdone : ∀ name ∈ step.dependsOn, name ∈ j.names)
    (hdone' : ∀ name ∈ step.dependsOn, name ∈ j'.names) :
    s'.elements context step = s.elements context step := by
  have hshows := h.shows hplan
  have hshows' := h'.shows hplan
  have hstep := hplan.step hsplit
  -- all that the step reads was left by the steps on which it depends
  have hdependency : ∀ name ∈ step.dependsOn, j'.ofStep? name = j.ofStep? name := by
    intro name hname
    obtain ⟨e, he, rfl⟩ := hstep.exists_of_mem_dependsOn hname
    exact (hagree _ (List.mem_map_of_mem he) (hdone _ hname) (hdone' _ hname)).symm
  refine RunState.elements_congr rfl hstep.suits (fun g hg => ?_) (fun hsource index => ?_)
    fun hlevel _ hindex => children?_eq hplan hfilled h h' hsplit hagree hdone hdone' hlevel hindex
  · have hname : g ∈ step.dependsOn := hstep.mem_dependsOn.2 (Or.inr (hstep.mem_governedBy.1 hg))
    rw [hshows'.gates, hshows.gates, Journal.gate?, Journal.gate?, hdependency g hname]
  · have hname := hstep.mem_dependsOn.2 (Or.inl ⟨_, _, hsource⟩)
    rw [h'.get?_results_of_done hplan (hdone' _ hname), h.get?_results_of_done hplan
      (hdone _ hname), Journal.output?, Journal.output?, hdependency _ hname]

end Elements

/-! ### What a step leaves -/

/-- What was recorded of a step is found later on. -/
theorem Journal.ofStep?_of_prefix {more : Journal} (hbegin : j <+: more) (hnodup : more.names.Nodup)
    {name : String} (hname : name ∈ j.names) : j.ofStep? name = more.ofStep? name := by
  obtain ⟨e, he, rfl⟩ := List.mem_map.1 hname
  have hnodup' : j.names.Nodup := hnodup.sublist (hbegin.sublist.map _)
  rw [Journal.ofStep?_of_mem hnodup' he, Journal.ofStep?_of_mem hnodup (hbegin.subset he)]

/-- Two states of runs on the same inputs, in which the entries of earlier steps agree, start a step
    at the same elements. -/
theorem Origin.unique (hplan : context.engine.plan.Coherent)
    (hfilled : ∀ i ∈ context.engine.plan.inputs, shape.Filled (.ofInput i.depth))
    (h : Reaches context shape j s) (h' : Reaches context shape j' s')
    {earlier : List Plan.Step} {step : Plan.Step} {later : List Plan.Step}
    (hsplit : context.engine.plan.steps = earlier ++ step :: later) (hagree : j.Agree j' earlier)
    {elements elements' : Invocation} (horigin : Origin context shape j step elements)
    (horigin' : Origin context shape j' step elements') : elements' = elements := by
  obtain ⟨j₁, s₁, hreaches, hbegin, -, hready, rfl⟩ := horigin
  obtain ⟨j₁', s₁', hreaches', hbegin', -, hready', rfl⟩ := horigin'
  refine elements_eq hplan hfilled hreaches hreaches' hsplit (fun name hname hdone hdone' => ?_)
    (hreaches.tracks.ready step hready) (hreaches'.tracks.ready step hready')
  rw [Journal.ofStep?_of_prefix hbegin (h.tracks.journal_nodup hplan.steps_nodup) hdone,
    Journal.ofStep?_of_prefix hbegin' (h'.tracks.journal_nodup hplan.steps_nodup) hdone']
  exact hagree name hname ((hbegin.map _).subset hdone) ((hbegin'.map _).subset hdone')

/-- A step that is done in two runs on the same inputs has the same entry in both. -/
theorem Reaches.ofStep?_eq (hplan : context.engine.plan.Coherent)
    (hfilled : ∀ i ∈ context.engine.plan.inputs, shape.Filled (.ofInput i.depth))
    (h : Reaches context shape j s) (h' : Reaches context shape j' s') :
    j.Agree j' context.engine.plan.steps := by
  have hall : ∀ step ∈ context.engine.plan.steps, step.name ∈ j.names → step.name ∈ j'.names →
      j.ofStep? step.name = j'.ofStep? step.name := by
    -- by induction on the order of the steps: when the earlier ones agree, so do the elements
    refine Plan.forall_steps fun {earlier step later} hsplit hearlier hdone hdone' => ?_
    have hagree : j.Agree j' earlier := by
      intro name hname hdone hdone'
      obtain ⟨e, he, rfl⟩ := List.mem_map.1 hname
      exact hearlier e he hdone hdone'
    have hmem : step ∈ context.engine.plan.steps :=
      hsplit ▸ List.mem_append_right _ List.mem_cons_self
    obtain ⟨e, he, hstep⟩ := h.tracks.exists_entry hplan.steps_nodup hmem hdone
    obtain ⟨e', he', hstep'⟩ := h'.tracks.exists_entry hplan.steps_nodup hmem hdone'
    obtain ⟨elements, horigin, hreturned⟩ := h.origin_of_entry he
    obtain ⟨elements', horigin', hreturned'⟩ := h'.origin_of_entry he'
    rw [hstep] at horigin
    rw [hstep'] at horigin'
    cases Origin.unique hplan hfilled h h' hsplit hagree horigin horigin'
    have hsame : e = e' := hreturned.unique hreturned' (hstep.trans hstep'.symm)
    rw [← hstep, Journal.ofStep?_of_mem (h.tracks.journal_nodup hplan.steps_nodup) he, hsame,
      Journal.ofStep?_of_mem (h'.tracks.journal_nodup hplan.steps_nodup) he']
  intro name hname hdone hdone'
  obtain ⟨step, hstep, rfl⟩ := List.mem_map.1 hname
  exact hall step hstep hdone hdone'

/-- No run fails when one run on the same inputs is complete: what a task returns in the one can be
    recorded in the other as well. -/
theorem Reaches.failure_eq_none (hplan : context.engine.plan.Coherent)
    (hfilled : ∀ i ∈ context.engine.plan.inputs, shape.Filled (.ofInput i.depth))
    (h : Reaches context shape j s)
    (hall : ∀ step ∈ context.engine.plan.steps, step.name ∈ j.names)
    (h' : Reaches context shape j' s') : s'.failure = none := by
  induction h' with
  | initial => rfl
  | take _ _ hfailure _ => exact (RunState.take_failure _ _ _).trans hfailure
  | @finish j' s' i task hreaches htask ih =>
    have hmem := List.mem_of_getElem? htask
    rcases RunState.finish_cases context { s' with inFlight := s'.inFlight.eraseIdx i } task with
      ⟨-, outputs, -, hrecord, -⟩ | ⟨-, -, hfails⟩
    · obtain ⟨-, recording, -, events, branches, -, he⟩ := RunState.record_eq_ok hrecord
      rw [he]
      exact ih
    -- a task that fails here would have failed in the complete run as well
    · exfalso
      have hstep := hreaches.tracks.mem_steps_of_task hmem
      obtain ⟨earlier, later, hsplit⟩ := List.append_of_mem hstep
      have hagree : j.Agree j' earlier := fun name hname =>
        h.ofStep?_eq hplan hfilled hreaches name (by
          rw [hsplit, List.map_append]
          exact List.mem_append_left _ hname)
      -- the complete run has an entry of the step
      obtain ⟨e, he, hsame⟩ := h.tracks.exists_entry hplan.steps_nodup hstep (hall task.step hstep)
      obtain ⟨elements, horigin, hreturned⟩ := h.origin_of_entry he
      obtain ⟨hne, horigin'⟩ := hreaches.origin_of_task task hmem
      rw [hsame] at horigin
      cases Origin.unique hplan hfilled h hreaches hsplit hagree horigin horigin'
      rcases hreturned with ⟨hnil, -⟩ | ⟨-, outputs, houtcome, hlength, houtputs⟩
      · exact hne hnil
      · have hentry : (⟨task.step, (task.elements.map (·.1)).zip outputs⟩ : Entry) = e := by
          rw [← houtputs, ← hsame]
        have hrecordable := h.recordable_of_entry hplan he
        rw [← hentry] at hrecordable
        obtain ⟨s₁, hs₁⟩ := hreaches.exists_record hplan htask hlength hrecordable
        rw [hsame] at houtcome
        exact hfails outputs s₁ ih houtcome hs₁

end BatchFlow
