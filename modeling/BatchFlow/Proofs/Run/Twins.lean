import BatchFlow.Proofs.Run.Exhaustion
import BatchFlow.Proofs.Run.Restriction

namespace BatchFlow

/-!
# The run on a batch and the run on one of its elements

When what the single run has done is what the whole run has done for the element, a step sees in the
single run what it sees of the element in the whole run. Data nested in the batch is found below the
position in the one and below the position zero in the other; all other data is found at the same
index in both. The lineage of a step and those of all that it reads begin one another, so a step is
on one of these sides with everything that it sees.

* `Laid.Single` — the preparations of a batch and of one of its elements.
* `Twins` — the two runs after the same steps.
* `Twins.children?_inBatch`, `Twins.at?_inBatch`, `Twins.admits_inBatch` — numbers of children, data
  and branches that are found for the element; for all that is not in the batch there is a lemma
  beside each.
* `Twins.elements_eq` — the single run starts a step at the elements of the whole run that belong to
  the element.
-/

/-- The preparations of a batch and of its element at a position. -/
structure Laid.Single (position : Nat) (laid laid' : Laid) : Prop where
  picks : laid.Picks position laid'
  size : ∃ n, laid.shape.children? [Lineage.inputLevel] [] = some n ∧ position < n
  size' : laid'.shape.children? [Lineage.inputLevel] [] = some 1
  inputOnly : laid.shape.InputOnly
  inputOnly' : laid'.shape.InputOnly

/-- The run on a batch, and the run on its element at a position, in which the same steps are done
    and nothing has failed. -/
structure Twins (engine : Engine) (draw : String → Float) (position : Nat) (laid laid' : Laid)
    (j : Journal) (s s' : RunState) : Prop where
  coherent : engine.plan.Coherent
  separate : engine.plan.Local
  inputs : laid.Single position laid'
  whole : Reaches ⟨engine, laid.store, draw⟩ laid.shape j s
  single : Reaches ⟨engine, laid'.store, draw⟩ laid'.shape (j.pick position) s'
  unfailed : s.failure = none
  unfailed' : s'.failure = none

/-- Lineages that begin one another are both nested in the batch, or none is. -/
theorem Lineage.inBatch_of_prefix {l l' : Lineage} (h : l <+: l') (hne : l ≠ []) :
    l.inBatch = l'.inBatch := by
  obtain ⟨rest, rfl⟩ := h
  cases l with
  | nil => exact absurd rfl hne
  | cons root l => rfl

/-- The levels of an input are nested in the batch. -/
theorem Lineage.inBatch_ofInput (depth : Nat) : (ofInput (depth + 1)).inBatch = true := by
  rw [ofInput, List.replicate_succ]
  exact beq_self_eq_true _

/-- A lineage in the batch has levels. -/
theorem Lineage.ne_nil_of_inBatch {l : Lineage} (h : l.inBatch) : l ≠ [] := by
  rintro rfl
  cases h

/-- Outside the batch the inputs note nothing. -/
theorem BatchStructure.InputOnly.children?_eq_none {shape : BatchStructure} (h : shape.InputOnly)
    {l : Lineage} (hne : l ≠ []) (hout : l.inBatch = false) (index : Index) :
    shape.children? l index = none := by
  refine Option.eq_none_iff_forall_ne_some.2 fun n hn => ?_
  obtain ⟨depth, rfl⟩ := h l index n hn
  cases depth with
  | zero => exact hne rfl
  | succ depth =>
    rw [Lineage.inBatch_ofInput] at hout
    cases hout

namespace Twins

variable {engine : Engine} {draw : String → Float} {position : Nat} {laid laid' : Laid}
  {j : Journal} {s s' : RunState}

/-! ### What is found for the element -/

/-- The results of both runs are what is recorded of them. -/
theorem get?_results (h : Twins engine draw position laid laid' j s s') (name : String)
    (index : Index) : s.results.get? (name, index) = j.output? name index ∧
      s'.results.get? (name, index) = (j.pick position).output? name index :=
  ⟨(h.whole.shows h.coherent).get?_results h.unfailed name index,
    (h.single.shows h.coherent).get?_results h.unfailed' name index⟩

/-- The numbers of children of both runs come from the inputs or are recorded. -/
theorem children?_eq (h : Twins engine draw position laid laid' j s s') (l : Lineage)
    (index : Index) :
    s.shape.children? l index = (laid.shape.children? l index).or (j.count? l index) ∧
      s'.shape.children? l index =
        (laid'.shape.children? l index).or ((j.pick position).count? l index) :=
  ⟨(h.whole.shows h.coherent).children?_eq h.unfailed l index,
    (h.single.shows h.coherent).children?_eq h.unfailed' l index⟩

/-- The outputs of a step in the batch lie at elements of the batch. -/
theorem outputs_ne_nil (h : Twins engine draw position laid laid' j s s') {e : Entry} (he : e ∈ j)
    (hin : e.step.alignment.lineage.inBatch) : ∀ o ∈ e.outputs, o.1 ≠ [] := by
  intro o ho
  have hmem := h.whole.tracks.mem_steps_of_entry he
  obtain ⟨earlier, later, hsplit⟩ := List.append_of_mem hmem
  have hsuits := (h.coherent.step hsplit).suits
  obtain ⟨elements, ⟨j₁, s₁, -, -, -, -, rfl⟩, hreturned⟩ := h.whole.origin_of_entry he
  rcases hreturned with ⟨-, hnil⟩ | ⟨-, outputs, -, -, houtputs⟩
  · rw [hnil] at ho
    cases ho
  · rw [houtputs] at ho
    obtain ⟨x, hx, hindex⟩ := List.mem_map.1 (List.of_mem_zip ho).1
    have hx : x ∈ (s₁.view ⟨engine, laid.store, draw⟩).invocation (s₁.governing e.step) e.step := by
      rw [RunState.elements] at hx
      split at hx
      · cases hx
      · exact hx
    -- the lineage of the indices is not empty
    have hindices := View.mem_indices_of_mem_invocation hx
    have hlength := BatchStructure.length_of_mem_indices hindices
    have hlineage : Lineage.inBatch (if e.step.manifest.transform = .decrement then
        e.step.alignment.lineage.take (e.step.alignment.input - 1)
          else e.step.alignment.lineage) := by
      split
      · rename_i ht
        rw [← (hsuits.decrement ht).2.2, h.separate.inBatch_output h.coherent hmem]
        exact hin
      · exact hin
    rw [← hindex]
    intro hnil
    rw [hnil] at hlength
    exact Lineage.ne_nil_of_inBatch hlineage (List.length_eq_zero_iff.1 hlength.symm)

/-- The entry of a step is an entry of that step. -/
theorem step_of_ofStep? (h : Twins engine draw position laid laid' j s s') {step : Plan.Step}
    (hstep : step ∈ engine.plan.steps) {e : Entry} (he : j.ofStep? step.name = some e) :
    e ∈ j ∧ e.step = step := by
  obtain ⟨hmem, hname⟩ := Journal.mem_of_ofStep? he
  exact ⟨hmem, List.inj_on_of_nodup_map h.coherent.steps_nodup
    (h.whole.tracks.mem_steps_of_entry hmem) hstep hname⟩

/-- Inside the batch outputs are those below the position. -/
theorem output?_inBatch (h : Twins engine draw position laid laid' j s s') {step : Plan.Step}
    (hstep : step ∈ engine.plan.steps) (hin : step.alignment.lineage.inBatch) (rest : Index) :
    (j.pick position).output? step.name (0 :: rest) = j.output? step.name (position :: rest) := by
  refine Journal.output?_pick fun e he => ?_
  obtain ⟨hmem, hsame⟩ := h.step_of_ofStep? hstep he
  rw [← hsame] at hin
  rw [Entry.produced_pick hin (h.outputs_ne_nil hmem hin), ← restrict_reverse]
  exact get?_restrict position _ _ _

/-- Outside the batch outputs are the same. -/
theorem output?_of_not_inBatch (h : Twins engine draw position laid laid' j s s') {step : Plan.Step}
    (hstep : step ∈ engine.plan.steps) (hout : step.alignment.lineage.inBatch = false)
    (index : Index) : (j.pick position).output? step.name index = j.output? step.name index := by
  refine Journal.output?_pick fun e he => ?_
  obtain ⟨-, hsame⟩ := h.step_of_ofStep? hstep he
  rw [← hsame] at hout
  rw [Entry.pick_of_not_inBatch hout]

/-- No step that is done takes data into the batch or out of it. -/
theorem inBatch_output (h : Twins engine draw position laid laid' j s s') {e : Entry} (he : e ∈ j) :
    e.step.alignment.outputLineage.inBatch = e.step.alignment.lineage.inBatch :=
  h.separate.inBatch_output h.coherent (h.whole.tracks.mem_steps_of_entry he)

/-- Inside the batch numbers of children are those below the position. -/
theorem children?_inBatch (h : Twins engine draw position laid laid' j s s') {l : Lineage}
    (hin : l.inBatch) (rest : Index) :
    s'.shape.children? l (0 :: rest) = s.shape.children? l (position :: rest) := by
  have hcount : (j.pick position).count? l (0 :: rest) = j.count? l (position :: rest) :=
    Journal.count?_pick fun e he => e.get?_counts_pick (h.inBatch_output he) hin rest
  rw [(h.children?_eq _ _).2, (h.children?_eq _ _).1, h.inputs.picks.count, hcount]

/-- Outside the batch numbers of children are the same. -/
theorem children?_of_not_inBatch (h : Twins engine draw position laid laid' j s s') {l : Lineage}
    (hne : l ≠ []) (hout : l.inBatch = false) (index : Index) :
    s'.shape.children? l index = s.shape.children? l index := by
  have hcount : (j.pick position).count? l index = j.count? l index :=
    Journal.count?_pick fun e he =>
      e.get?_counts_pick_of_not_inBatch (h.inBatch_output he) hout index
  -- the structure of the inputs has nothing outside the batch
  rw [(h.children?_eq _ _).2, (h.children?_eq _ _).1,
    h.inputs.inputOnly.children?_eq_none hne hout,
    h.inputs.inputOnly'.children?_eq_none hne hout,
    Option.none_or, Option.none_or, hcount]

/-! ### What a step sees of its sources and branches -/

/-- What is found for a source in the batch. -/
theorem at?_inBatch (h : Twins engine draw position laid laid' j s s') {earlier : List Plan.Step}
    (hearlier : ∀ e ∈ earlier, e ∈ engine.plan.steps) {source : Plan.Source} {l : Lineage}
    (hon : source.On engine.plan earlier l) (hin : l.inBatch) (rest : Index) :
    lookup? laid'.store s'.results (0 :: rest) source =
      lookup? laid.store s.results (position :: rest) source := by
  have hpos : 0 < l.length := List.length_pos_iff.2 (Lineage.ne_nil_of_inBatch hin)
  cases hon with
  | @input i hi =>
    rw [Lineage.length_ofInput] at hpos
    obtain ⟨depth, hdepth⟩ := Nat.exists_eq_add_of_lt hpos
    rw [hdepth]
    exact h.inputs.picks.element _ _
  | @step e property he =>
    have hmem := hearlier e he
    obtain ⟨before, after, hsplit⟩ := List.append_of_mem hmem
    rw [(h.coherent.step hsplit).suits.output_length] at hpos
    obtain ⟨depth, hdepth⟩ := Nat.exists_eq_add_of_lt hpos
    rw [h.separate.inBatch_output h.coherent hmem] at hin
    rw [lookup?, lookup?, hdepth, (h.get?_results _ _).2, (h.get?_results _ _).1]
    exact congrArg (Option.map _) (h.output?_inBatch hmem hin _)

/-- What is found for a source above the batch, or in none. -/
theorem at?_of_not_inBatch (h : Twins engine draw position laid laid' j s s')
    {earlier : List Plan.Step} (hearlier : ∀ e ∈ earlier, e ∈ engine.plan.steps)
    {source : Plan.Source} {l : Lineage} (hon : source.On engine.plan earlier l)
    (hout : l.inBatch = false) (index : Index) :
    lookup? laid'.store s'.results index source = lookup? laid.store s.results index source := by
  cases hon with
  | @input i hi =>
    cases hdepth : i.depth with
    | zero => exact h.inputs.picks.single _
    | succ depth =>
      rw [hdepth, Lineage.inBatch_ofInput] at hout
      cases hout
  | @step e property he =>
    have hmem := hearlier e he
    rw [h.separate.inBatch_output h.coherent hmem] at hout
    rw [lookup?, lookup?, (h.get?_results _ _).2, (h.get?_results _ _).1]
    exact congrArg (Option.map _) (h.output?_of_not_inBatch hmem hout _)

/-- Data that is not nested is found at every index alike. -/
theorem lookup?_of_depth {inputs : InputStore} {results : ResultStore} {source : Plan.Source}
    (hdepth : source.depth? = none ∨ source.depth? = some 0) (index index' : Index) :
    lookup? inputs results index source = lookup? inputs results index' source := by
  cases source with
  | literal value => rfl
  | input name depth =>
    obtain rfl : depth = 0 := by simpa [Plan.Source.depth?] using hdepth
    rfl
  | step name property depth =>
    obtain rfl : depth = 0 := by simpa [Plan.Source.depth?] using hdepth
    rfl

section Step

variable {earlier : List Plan.Step} {step : Plan.Step} {later : List Plan.Step}

/-- An earlier step is a step of the plan. -/
theorem mem_steps_of_split {plan : Plan} (hsplit : plan.steps = earlier ++ step :: later) :
    ∀ e ∈ earlier, e ∈ plan.steps := fun _ he => hsplit ▸ List.mem_append_left _ he

/-- What a step in the batch finds for its sources. -/
theorem source_inBatch (h : Twins engine draw position laid laid' j s s')
    (hsplit : engine.plan.steps = earlier ++ step :: later)
    (hin : step.alignment.lineage.inBatch) {source : Plan.Source} (hsource : source ∈ step.sources)
    (rest : Index) :
    lookup? laid'.store s'.results (0 :: rest) source =
      lookup? laid.store s.results (position :: rest) source := by
  have hearlier := mem_steps_of_split hsplit
  rcases (h.coherent.step hsplit).source source hsource with hnone | ⟨l, hon, hbegin⟩
  · cases source with
    | literal value => rfl
    | _ => cases hnone
  · by_cases hne : l = []
    · subst hne
      rw [h.at?_of_not_inBatch hearlier hon rfl]
      exact lookup?_of_depth (Or.inr (hon.depth?_eq h.coherent hearlier)) _ _
    · rw [← Lineage.inBatch_of_prefix hbegin hne] at hin
      exact h.at?_inBatch hearlier hon hin rest

/-- What a step that is not in the batch finds for its sources. -/
theorem source_of_not_inBatch (h : Twins engine draw position laid laid' j s s')
    (hsplit : engine.plan.steps = earlier ++ step :: later)
    (hout : step.alignment.lineage.inBatch = false) {source : Plan.Source}
    (hsource : source ∈ step.sources) (index : Index) :
    lookup? laid'.store s'.results index source = lookup? laid.store s.results index source := by
  have hearlier := mem_steps_of_split hsplit
  rcases (h.coherent.step hsplit).source source hsource with hnone | ⟨l, hon, hbegin⟩
  · cases source with
    | literal value => rfl
    | _ => cases hnone
  · refine h.at?_of_not_inBatch hearlier hon ?_ index
    by_cases hne : l = []
    · subst hne
      rfl
    · rw [Lineage.inBatch_of_prefix hbegin hne, hout]

/-- A step that decided about another did so for the element as it did in the batch. -/
theorem admits_iff (h : Twins engine draw position laid laid' j s s')
    (hsplit : engine.plan.steps = earlier ++ step :: later) {index index' : Index}
    (hlength : index'.length = index.length)
    (hdecides : ∀ e, j.Decides step.name e → ((e.pick position).Selects step.name
      (index'.take e.step.alignment.input) ↔
        e.Selects step.name (index.take e.step.alignment.input))) :
    s'.branches.admits (s'.governing step) index' = s.branches.admits (s.governing step) index := by
  have hstep := h.coherent.step hsplit
  rw [Bool.eq_iff_iff]
  refine (h.single.admits_iff h.coherent hstep).trans
    (Iff.trans ?_ (h.whole.admits_iff h.coherent hstep).symm)
  rw [hlength]
  constructor
  · intro hall e he
    exact (hall _ (Journal.decides_pick.2 ⟨e, he, rfl⟩)).imp_right (hdecides e he).1
  · intro hall e' he'
    obtain ⟨e, he, rfl⟩ := Journal.decides_pick.1 he'
    exact (hall e he).imp_right (hdecides e he).2

/-- The lineage of a step that decided about another begins that of the other. -/
theorem lineage_of_decides (h : Twins engine draw position laid laid' j s s')
    (hsplit : engine.plan.steps = earlier ++ step :: later) {e : Entry}
    (he : j.Decides step.name e) : e.step.alignment.lineage <+: step.alignment.lineage ∧
      e.step.alignment.lineage.length = e.step.alignment.input := by
  have hmem := h.whole.tracks.mem_steps_of_entry he.1
  obtain ⟨before, after, hsplit'⟩ := List.append_of_mem hmem
  exact ⟨((h.coherent.step hsplit).governor e.step hmem he.2.2).2,
    (h.coherent.step hsplit').suits.length⟩

/-- Inside the batch an element is admitted when the one below the position is. -/
theorem admits_inBatch (h : Twins engine draw position laid laid' j s s')
    (hsplit : engine.plan.steps = earlier ++ step :: later)
    (hin : step.alignment.lineage.inBatch) (rest : Index) :
    s'.branches.admits (s'.governing step) (0 :: rest) =
      s.branches.admits (s.governing step) (position :: rest) := by
  refine h.admits_iff hsplit rfl fun e he => ?_
  obtain ⟨hbegin, hlength⟩ := h.lineage_of_decides hsplit he
  by_cases hne : e.step.alignment.lineage = []
  · rw [← hlength, hne, Entry.pick_of_not_inBatch (by rw [hne]; rfl)]
    rfl
  · rw [← Lineage.inBatch_of_prefix hbegin hne] at hin
    obtain ⟨depth, hdepth⟩ := Nat.exists_eq_add_of_lt (List.length_pos_iff.2 hne)
    -- a step in the batch decides at the position or below
    rw [← hlength, hdepth]
    exact Entry.selects_pick hin

/-- Outside the batch the same elements are admitted. -/
theorem admits_of_not_inBatch (h : Twins engine draw position laid laid' j s s')
    (hsplit : engine.plan.steps = earlier ++ step :: later)
    (hout : step.alignment.lineage.inBatch = false) (index : Index) :
    s'.branches.admits (s'.governing step) index = s.branches.admits (s.governing step) index := by
  refine h.admits_iff hsplit rfl fun e he => ?_
  have hsame : e.step.alignment.lineage.inBatch = false := by
    by_cases hne : e.step.alignment.lineage = []
    · rw [hne]
      rfl
    · rw [Lineage.inBatch_of_prefix (h.lineage_of_decides hsplit he).1 hne, hout]
  rw [Entry.pick_of_not_inBatch hsame]

end Step

/-! ### The elements at which a step runs -/

/-- The children of an element are those of the same element in the batch. -/
theorem expand_relabel {shape shape' : BatchStructure} {l : Lineage} {parents : List Index}
    (hne : ∀ parent ∈ parents, parent ≠ [])
    (hchildren : ∀ rest, shape'.children? l (0 :: rest) = shape.children? l (position :: rest)) :
    shape'.expand l ((parents.filter (Index.isBelow position)).map Index.toFirst) =
      ((shape.expand l parents).filter (Index.isBelow position)).map Index.toFirst := by
  unfold BatchStructure.expand
  induction parents with
  | nil => rfl
  | cons parent parents ih =>
    obtain ⟨hparent, hrest⟩ := List.forall_mem_cons.1 hne
    obtain ⟨k, rest, rfl⟩ := List.exists_cons_of_ne_nil hparent
    rw [List.flatMap_cons, List.filter_append, List.map_append, ← ih hrest]
    by_cases hk : k = position
    · subst hk
      simp [List.filter_map, Function.comp_def, hchildren]
    · simp [List.filter_map, Function.comp_def, hk]

/-- Inside the batch the indices are those below the position. -/
theorem indices_inBatch (h : Twins engine draw position laid laid' j s s') {l : Lineage}
    (hin : l.inBatch) : s'.shape.indices l =
      ((s.shape.indices l).filter (Index.isBelow position)).map Index.toFirst := by
  induction l using List.reverseRecOn with
  | nil => cases hin
  | append_singleton l level ih =>
    by_cases hne : l = []
    · subst hne
      obtain ⟨n, hn, hposition⟩ := h.inputs.size
      have hlevel : level = Lineage.inputLevel := by simpa [Lineage.inBatch] using hin
      have hwhole : s.shape.children? [level] [] = some n := by
        rw [hlevel]
        exact (h.whole.shows h.coherent).extends_inputs _ _ _ hn
      have hsingle : s'.shape.children? [level] [] = some 1 := by
        rw [hlevel]
        exact (h.single.shows h.coherent).extends_inputs _ _ _ h.inputs.size'
      have hrange : (List.range n).filter (· == position) = [position] := by
        rw [List.filter_beq, List.count_eq_one_of_mem List.nodup_range (List.mem_range.2 hposition)]
        rfl
      -- at the first level there is one element instead of all
      rw [BatchStructure.indices_snoc, BatchStructure.indices_snoc]
      simp [BatchStructure.expand, hwhole, hsingle, List.filter_map, Function.comp_def, hrange]
    · rw [← Lineage.inBatch_of_prefix (List.prefix_append l [level]) hne] at hin
      have hbelow : ∀ parent ∈ s.shape.indices l, parent ≠ [] := by
        rintro parent hparent rfl
        exact hne (List.length_eq_zero_iff.1 (BatchStructure.length_of_mem_indices hparent).symm)
      rw [BatchStructure.indices_snoc, BatchStructure.indices_snoc, ih hin]
      -- further down the children of the element are the same
      refine expand_relabel hbelow fun rest => h.children?_inBatch ?_ rest
      rw [← Lineage.inBatch_of_prefix (List.prefix_append l [level]) hne]
      exact hin

/-- Outside the batch the indices are the same. -/
theorem indices_of_not_inBatch (h : Twins engine draw position laid laid' j s s') {l : Lineage}
    (hout : l.inBatch = false) : s'.shape.indices l = s.shape.indices l := by
  refine BatchStructure.indices_congr fun above level hbegin parent _ => ?_
  have hne : above ++ [level] ≠ [] := by simp
  rw [← Lineage.inBatch_of_prefix hbegin hne] at hout
  exact h.children?_of_not_inBatch hne hout parent

section Step

variable {earlier : List Plan.Step} {step : Plan.Step} {later : List Plan.Step}

/-- What the single run shows of a step in the batch is what the whole run shows below the
    position. -/
theorem relabels_inBatch (h : Twins engine draw position laid laid' j s s')
    (hsplit : engine.plan.steps = earlier ++ step :: later)
    (hin : step.alignment.lineage.inBatch) :
    View.Relabels (Index.isBelow position) Index.toFirst step
      (s.view ⟨engine, laid.store, draw⟩) (s.governing step)
      (s'.view ⟨engine, laid'.store, draw⟩) (s'.governing step) := by
  have hmem : step ∈ engine.plan.steps := hsplit ▸ List.mem_append_right _ List.mem_cons_self
  constructor
  case snoc =>
    intro index k hkeep
    rw [Index.eq_cons_of_isBelow hkeep]
    exact ⟨by simp, rfl⟩
  case admits =>
    intro index hkeep
    rw [Index.eq_cons_of_isBelow hkeep]
    exact h.admits_inBatch hsplit hin _
  case value =>
    intro index hkeep source hsource
    rw [Index.eq_cons_of_isBelow hkeep]
    exact h.source_inBatch hsplit hin hsource _
  case elements => exact fun _ => h.indices_inBatch hin
  case parents =>
    intro ht
    rw [← ((h.coherent.step hsplit).suits.decrement ht).2.2]
    refine h.indices_inBatch ?_
    rw [h.separate.inBatch_output h.coherent hmem]
    exact hin
  -- below a position the children are those of the same parent with the position set to zero
  case children =>
    intro _ parent _ hkeep
    rw [Index.eq_cons_of_isBelow hkeep]
    exact congrArg (·.getD 0) (h.children?_inBatch hin _)

/-- What the single run shows of a step that is not in the batch is what the whole run shows. -/
theorem invocation_of_not_inBatch (h : Twins engine draw position laid laid' j s s')
    (hsplit : engine.plan.steps = earlier ++ step :: later)
    (hout : step.alignment.lineage.inBatch = false) :
    (s'.view ⟨engine, laid'.store, draw⟩).invocation (s'.governing step) step =
      (s.view ⟨engine, laid.store, draw⟩).invocation (s.governing step) step := by
  refine View.invocation_congr (h.admits_of_not_inBatch hsplit hout)
    (fun index source hsource => h.source_of_not_inBatch hsplit hout hsource index)
    (fun l hl => h.indices_of_not_inBatch ?_) fun ht parent _ => ?_
  · by_cases hne : l = []
    · rw [hne]
      rfl
    · rw [Lineage.inBatch_of_prefix hl hne, hout]
  · obtain ⟨level, hlineage⟩ := (h.coherent.step hsplit).suits.exists_folded ht
    have hne : step.alignment.lineage ≠ [] := by
      rw [← hlineage]
      exact List.append_ne_nil_of_right_ne_nil _ (List.cons_ne_nil _ _)
    exact h.children?_of_not_inBatch hne hout parent

/-- The single run starts a step at the elements of the whole run that belong to the element. -/
theorem elements_eq (h : Twins engine draw position laid laid' j s s')
    (hsplit : engine.plan.steps = earlier ++ step :: later) (hready : step ∈ s.ready)
    (hready' : step ∈ s'.ready) :
    s'.elements ⟨engine, laid'.store, draw⟩ step =
      if step.alignment.lineage.inBatch then
        ((s.elements ⟨engine, laid.store, draw⟩ step).filter fun x =>
          Index.isBelow position x.1).map fun x => (Index.toFirst x.1, x.2)
      else s.elements ⟨engine, laid.store, draw⟩ step := by
  have hmem : step ∈ engine.plan.steps := hsplit ▸ List.mem_append_right _ List.mem_cons_self
  have hlevel := h.separate.decides step hmem
  -- by the condition on deciding steps no exhausted branch hides elements in either run
  rw [h.whole.elements_eq_invocation h.coherent hready hlevel,
    h.single.elements_eq_invocation h.coherent hready' hlevel]
  cases hin : step.alignment.lineage.inBatch with
  | true => exact View.invocation_relabel (h.relabels_inBatch hsplit hin)
  | false => exact h.invocation_of_not_inBatch hsplit hin

end Step

end Twins

end BatchFlow
