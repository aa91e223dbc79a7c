import BatchFlow.Proofs.Block.Contract
import BatchFlow.Proofs.Run.Twins

namespace BatchFlow

/-!
# The elements of a batch do not see each other

The run on a batch and the run on one of its elements go side by side, step after step in the order
of the plan, so the record of the single run is the one of the whole run.

* `Twins.returned`, `Twins.recordable` — what a step returns in the single run, and that it can be
  recorded.
* `Twins.perform`, `exists_twins` — the two runs stay side by side.
* `Twins.outputValue_eq` — the outputs of the workflow.
* `run_pick_eq_ok` — the run on one element of a batch.
-/

/-- A block that deals with elements one by one returns for some of them what it returns for these
    among all. -/
theorem Task.outcome_filter {context : RunContext}
    (hblocks : ∀ blockType block, context.engine.blocks.get? blockType = some block →
      block.IsElementwise)
    {step : Plan.Step} {elements : Invocation} {outputs : List Output}
    (h : Task.outcome context ⟨step, elements⟩ = .ok outputs) (keep : Index → Bool)
    (f : Index → Index) :
    let kept := (elements.filter fun x => keep x.1).map fun x => (f x.1, x.2)
    ∃ outputs', Task.outcome context ⟨step, kept⟩ = .ok outputs' ∧
      outputs'.length = kept.length ∧ (kept.map (·.1)).zip outputs' =
        (((elements.map (·.1)).zip outputs).filter fun o => keep o.1).map
          fun o => (f o.1, o.2) := by
  intro kept
  unfold Task.outcome at h ⊢
  cases hblock : context.engine.blocks.get? step.blockType with
  | none =>
    simp only [hblock] at h
    cases h
  | some block =>
    have helementwise := hblocks _ _ hblock
    simp only [hblock, helementwise.executeAll_eq] at h ⊢
    -- an elementwise block maps over the elements, and a `mapM` that succeeds on a list succeeds
    -- on what a filter keeps of it
    obtain ⟨outputs', houtputs', hzip⟩ := mapM_filter keep h
    have hvalues : kept.map (·.2) = (elements.filter fun x => keep x.1).map (·.2) := List.map_map
    have hindices : kept.map (·.1) = ((elements.filter fun x => keep x.1).map (·.1)).map f := by
      rw [List.map_map, List.map_map]
      rfl
    refine ⟨outputs', hvalues ▸ houtputs', ?_, ?_⟩
    · have hlength := (mapM_eq_ok.1 houtputs').length_eq
      rw [← hvalues, List.length_map] at hlength
      exact hlength.symm
    · rw [hindices, List.zip_map_left, hzip]
      rfl

namespace Twins

variable {engine : Engine} {draw : String → Float} {position : Nat} {laid laid' : Laid}
  {j : Journal} {s s' : RunState} {earlier : List Plan.Step} {step : Plan.Step}
  {later : List Plan.Step}

/-! ### One step -/

/-- In the single run a step returns what it returned for the element. -/
theorem returned (h : Twins engine draw position laid laid' j s s')
    (hblocks : ∀ blockType block, engine.blocks.get? blockType = some block → block.IsElementwise)
    (hsplit : engine.plan.steps = earlier ++ step :: later) (hready : step ∈ s.ready)
    (hready' : step ∈ s'.ready) {outputs : List (Index × Output)}
    (hreturned : Entry.Returned ⟨engine, laid.store, draw⟩
      (s.elements ⟨engine, laid.store, draw⟩ step) ⟨step, outputs⟩) :
    Entry.Returned ⟨engine, laid'.store, draw⟩ (s'.elements ⟨engine, laid'.store, draw⟩ step)
      (Entry.pick position ⟨step, outputs⟩) := by
  have helements := h.elements_eq hsplit hready hready'
  cases hin : step.alignment.lineage.inBatch with
  | false =>
    rw [hin] at helements
    rw [helements, Entry.pick_of_not_inBatch hin]
    exact hreturned
  | true =>
    rw [hin, if_pos rfl] at helements
    rw [helements]
    generalize s.elements ⟨engine, laid.store, draw⟩ step = elements at hreturned
    have hpick : (Entry.pick position ⟨step, outputs⟩).outputs =
        (outputs.filter fun o => Index.isBelow position o.1).map
          fun o => (Index.toFirst o.1, o.2) :=
      Entry.pick_outputs hin
    rcases hreturned with ⟨rfl, hnil⟩ | ⟨-, results, houtcome, -, houtputs⟩
    · cases (show outputs = [] from hnil)
      exact Or.inl ⟨rfl, hpick⟩
    · cases (show outputs = _ from houtputs)
      obtain ⟨results', houtcome', hlength', hzip⟩ :=
        Task.outcome_filter hblocks houtcome (Index.isBelow position) Index.toFirst
      rw [← hzip] at hpick
      generalize (elements.filter fun x => Index.isBelow position x.1).map
        (fun x => (Index.toFirst x.1, x.2)) = kept at *
      -- when the step ran for other elements only, it is passed over in the single run
      by_cases hkept : kept = []
      · subst hkept
        exact Or.inl ⟨rfl, hpick⟩
      · exact Or.inr ⟨hkept, results', houtcome', hlength', hpick⟩

/-- In the single run what a step returns can be recorded when it can be in the whole run. -/
theorem recordable (h : Twins engine draw position laid laid' j s s') {e : Entry}
    (hstep : e.step ∈ engine.plan.steps) (hrecordable : e.Recordable laid.shape) :
    (e.pick position).Recordable laid'.shape := by
  obtain ⟨hfits, hcounts⟩ := hrecordable
  have hbatch := h.separate.inBatch_output h.coherent hstep
  cases hin : e.step.alignment.lineage.inBatch with
  | true =>
    constructor
    · intro o ho
      rw [Entry.pick_outputs hin] at ho
      obtain ⟨o', ho', rfl⟩ := List.mem_map.1 ho
      exact hfits o' (List.mem_filter.1 ho').1
    · intro c hc
      rw [Entry.counts_pick hin] at hc ⊢
      obtain ⟨⟨⟨l, index⟩, n⟩, hmem, rfl⟩ := List.mem_map.1 hc
      obtain ⟨hmem, hbelow⟩ := List.mem_filter.1 hmem
      have hindex : index = position :: index.tail := Index.eq_cons_of_isBelow hbelow
      have hcount := hcounts _ hmem
      rw [hindex] at hcount
      show (laid'.shape.children? l (0 :: index.tail)).or
        (Table.get? (restrict position e.counts) (l, 0 :: index.tail)) = some n
      rw [h.inputs.picks.count, get?_restrict]
      exact hcount
  | false =>
    rw [Entry.pick_of_not_inBatch hin]
    refine ⟨hfits, fun c hc => ?_⟩
    obtain ⟨hlineage, items, hmem⟩ := e.key_of_mem_counts (List.mem_map_of_mem hc)
    -- a step that fans out has a level of its own
    have hne : c.1.1 ≠ [] := by
      obtain ⟨earlier, later, hsplit⟩ := List.append_of_mem hstep
      obtain ⟨-, hincrement⟩ := hfits _ hmem
      rw [hlineage, ((h.coherent.step hsplit).suits.increment hincrement).2]
      simp
    have hout : c.1.1.inBatch = false := by rw [hlineage, hbatch, hin]
    have hnone : laid'.shape.counts.get? c.1 = laid.shape.counts.get? c.1 :=
      (h.inputs.inputOnly'.children?_eq_none hne hout c.1.2).trans
        (h.inputs.inputOnly.children?_eq_none hne hout c.1.2).symm
    rw [hnone]
    exact hcounts c hc

/-- The two runs perform a step side by side, unless the whole run fails. -/
theorem perform (h : Twins engine draw position laid laid' j s s')
    (hblocks : ∀ blockType block, engine.blocks.get? blockType = some block → block.IsElementwise)
    (hsplit : engine.plan.steps = j.map (·.step) ++ step :: later)
    (hs : s.failure = none ∧ s.inFlight = []) (hs' : s'.failure = none ∧ s'.inFlight = [])
    (hnone : (s.perform ⟨engine, laid.store, draw⟩ step).failure = none) :
    let t := s.perform ⟨engine, laid.store, draw⟩ step
    let t' := s'.perform ⟨engine, laid'.store, draw⟩ step
    t.inFlight = [] ∧ (t'.failure = none ∧ t'.inFlight = []) ∧
      ∃ outputs, Twins engine draw position laid laid' (j ++ [⟨step, outputs⟩]) t t' := by
  intro t t'
  have hmem : step ∈ engine.plan.steps := hsplit ▸ List.mem_append_right _ List.mem_cons_self
  have hsplit' : engine.plan.steps = (j.pick position).map (·.step) ++ step :: later := by
    rw [hsplit, Journal.pick, List.map_map]
    rfl
  have hready := h.whole.ready_of_inOrder h.coherent hs.1 hs.2 hsplit
  have hready' := h.single.ready_of_inOrder h.coherent hs'.1 hs'.2 hsplit'
  -- the whole run says what the block returned; the run of the single element returns the part of
  -- it below the position
  obtain ⟨outputs, hreturned, hwhole, hinFlight⟩ :=
    exists_returned_of_perform h.whole hs.1 hs.2 hready hnone
  have hrecordable : Entry.Recordable laid.shape ⟨step, outputs⟩ :=
    hwhole.recordable_of_entry h.coherent (List.mem_append_right _ (List.mem_singleton.2 rfl))
  obtain ⟨hsingle, hfailure', hinFlight'⟩ := reaches_perform_of_returned h.coherent h.single hs'.1
    hs'.2 hready' (h.returned hblocks hsplit hready hready' hreturned)
    (h.recordable hmem hrecordable)
  refine ⟨hinFlight, ⟨hfailure', hinFlight'⟩, outputs, h.coherent, h.separate, h.inputs, hwhole, ?_,
    hnone, hfailure'⟩
  rw [Journal.pick, List.map_append]
  exact hsingle

/-! ### All steps -/

variable (engine draw) in
/-- The two runs perform the steps of a plan side by side, as far as the whole run does not fail. -/
theorem exists_twins (hplan : engine.plan.Coherent) (hlocal : engine.plan.Local)
    (hinputs : laid.Single position laid')
    (hblocks : ∀ blockType block, engine.blocks.get? blockType = some block → block.IsElementwise)
    (hsplit : engine.plan.steps = earlier ++ later) :
    let t := earlier.foldl (RunState.perform ⟨engine, laid.store, draw⟩)
      (.initial engine.plan laid.shape)
    let t' := earlier.foldl (RunState.perform ⟨engine, laid'.store, draw⟩)
      (.initial engine.plan laid'.shape)
    t.failure = none → t.inFlight = [] ∧ (t'.failure = none ∧ t'.inFlight = []) ∧
      ∃ j, j.map (·.step) = earlier ∧ Twins engine draw position laid laid' j t t' := by
  induction earlier using List.reverseRecOn generalizing later with
  | nil =>
    exact fun _ =>
      ⟨rfl, ⟨rfl, rfl⟩, [], rfl, hplan, hlocal, hinputs, .initial, .initial, rfl, rfl⟩
  | append_singleton earlier step ih =>
    intro t t' hnone
    rw [List.append_assoc, List.singleton_append] at hsplit
    have ih := ih hsplit
    simp only [t, t', List.foldl_append, List.foldl_cons, List.foldl_nil] at hnone ⊢
    generalize earlier.foldl (RunState.perform ⟨engine, laid.store, draw⟩)
      (.initial engine.plan laid.shape) = s at ih hnone ⊢
    generalize earlier.foldl (RunState.perform ⟨engine, laid'.store, draw⟩)
      (.initial engine.plan laid'.shape) = s' at ih ⊢
    -- a failure is never undone, so the steps before had none
    have hfailure : s.failure = none := by
      cases hs : s.failure with
      | none => rfl
      | some fault =>
        rw [perform_of_failure hs, hs] at hnone
        cases hnone
    obtain ⟨hinFlight, hs', j, hj, htwins⟩ := ih hfailure
    rw [← hj] at hsplit
    obtain ⟨hinFlight', ht', outputs, htwins'⟩ :=
      htwins.perform hblocks hsplit ⟨hfailure, hinFlight⟩ hs' hnone
    exact ⟨hinFlight', ht', _, by rw [List.map_append, hj]; rfl, htwins'⟩

/-! ### The records -/

/-- What is nested below one position is nested below zero in the single run. -/
theorem nest_eq (h : Twins engine draw position laid laid' j s s') {leaf leaf' : Index → Json}
    (hleaf : ∀ rest, leaf' (0 :: rest) = leaf (position :: rest)) (levels : Lineage)
    {above : Lineage} (hin : above.inBatch) (rest : Index) :
    nest s'.shape leaf' above levels (0 :: rest) =
      nest s.shape leaf above levels (position :: rest) := by
  induction levels generalizing above rest with
  | nil => exact hleaf rest
  | cons level levels ih =>
    have hbelow : Lineage.inBatch (above ++ [level]) = true := by
      rw [← Lineage.inBatch_of_prefix (List.prefix_append _ _) (Lineage.ne_nil_of_inBatch hin)]
      exact hin
    rw [nest, nest, h.children?_inBatch hbelow]
    refine congrArg Json.array (List.map_congr_left fun k _ => ?_)
    exact ih hbelow (rest ++ [k])

/-- An output of the workflow is the same for the element in both runs. -/
theorem outputValue_eq (h : Twins engine draw position laid laid' j s s') {output : Plan.Output}
    (houtput : output ∈ engine.plan.outputs) :
    outputValue laid'.store s'.results s'.shape 0 output =
      outputValue laid.store s.results s.shape position output := by
  obtain ⟨hon, hroot⟩ := h.coherent.output output houtput
  have hdepth := hon.depth?_eq h.coherent fun _ he => he
  unfold outputValue
  rw [hdepth]
  cases hl : output.lineage with
  | nil =>
    rw [hl] at hon
    exact congrArg Json.ofOption (h.at?_of_not_inBatch (fun _ he => he) hon rfl [])
  | cons root levels =>
    have hin : Lineage.inBatch (root :: levels) := by
      rw [hroot root (by rw [hl]; rfl)]
      exact beq_self_eq_true _
    have habove : Lineage.inBatch [root] := hin
    rw [hl] at hon
    refine h.nest_eq (fun rest => ?_) levels habove []
    exact congrArg Json.ofOption (h.at?_inBatch (fun _ he => he) hon hin rest)

end Twins

/-- The preparations of a batch and of one of its elements. -/
theorem single_of_prepare {plan : Plan} (hplan : plan.Coherent) {parameters : Table String Json}
    {position : Nat} {p : Prepared} (h : prepare plan.inputs parameters = .ok p)
    (hposition : position < p.batchSize) :
    ∃ p', prepare plan.inputs (plan.pick parameters position) = .ok p' ∧ p'.batchSize = 1 ∧
      p.toLaid.Single position p'.toLaid := by
  obtain ⟨p', hp', hsize, hpicks⟩ := prepare_pick hplan h hposition
  obtain ⟨given, batches, hprepares⟩ := prepares_of_prepare h
  obtain ⟨given', batches', hprepares'⟩ := prepares_of_prepare hp'
  refine ⟨p', hp', hsize, hpicks, ⟨_, hprepares.children?_inputLevel, hposition⟩, ?_,
    inputOnly_of_prepare hplan h, inputOnly_of_prepare hplan hp'⟩
  rw [hprepares'.children?_inputLevel, hsize]

/-- The run in order on one element of a batch gives the record of that element. -/
theorem Plan.runInOrder_pick {plan : Plan} (hplan : plan.Coherent) (hlocal : plan.Local)
    {blocks : Table String Block}
    (hblocks : ∀ blockType block, blocks.get? blockType = some block → block.IsElementwise)
    {draw : String → Float} {parameters : Table String Json} {records : List Record}
    (hrun : plan.runInOrder blocks draw parameters = .ok records) {position : Nat}
    (hposition : position < records.length) :
    plan.runInOrder blocks draw (plan.pick parameters position) = .ok [records[position]] := by
  obtain ⟨p, s, hprepare, rfl, hfailure, rfl⟩ := runInOrder_eq_ok_iff.1 hrun
  have hsize : position < p.batchSize := by simpa [assemble] using hposition
  obtain ⟨p', hprepare', hsize', hsingle⟩ := single_of_prepare hplan hprepare hsize
  let engine : Engine := ⟨plan, blocks, {}⟩
  obtain ⟨-, ⟨hfailure', -⟩, j, -, htwins⟩ := Twins.exists_twins engine draw hplan hlocal
    hsingle hblocks (List.append_nil plan.steps).symm hfailure
  refine runInOrder_eq_ok_iff.2 ⟨p', _, hprepare', rfl, hfailure', ?_⟩
  rw [hsize']
  simp only [assemble, List.getElem_map, List.getElem_range, List.range_one, List.map_cons,
    List.map_nil]
  refine congrArg (fun record : Record => [record])
    (List.map_congr_left fun output houtput => ?_)
  exact congrArg (Prod.mk output.name) (htwins.outputValue_eq houtput)

/-- The elements of a batch do not see each other: when a compiled plan keeps them apart and its
    blocks deal with them one by one, the run on one element of the batch succeeds when the run on
    the batch does, and its record is the one of that element. -/
theorem run_pick_eq_ok {registry : Registry} {initParameters : Table String Json} {d : Definition}
    {plan : Plan} (hcompile : d.compile registry initParameters = .ok plan) (hlocal : plan.Local)
    {blocks : Table String Block}
    (hblocks : ∀ blockType block, blocks.get? blockType = some block → block.IsElementwise)
    {settings settings' : Settings} {order order' : CompletionOrder} {draw : String → Float}
    {parameters : Table String Json} {records : List Record}
    (hrun : (Engine.run ⟨plan, blocks, settings⟩ parameters { order, draw }).result = .ok records)
    {position : Nat} (hposition : position < records.length) :
    (Engine.run ⟨plan, blocks, settings'⟩ (plan.pick parameters position)
      { order := order', draw }).result = .ok [records[position]] := by
  have hplan := Definition.coherent_of_compile hcompile
  have hinOrder : plan.runInOrder blocks draw parameters = .ok records :=
    (Engine.run_eq_ok_iff hplan parameters rfl).1 hrun
  exact (Engine.run_eq_ok_iff hplan _ rfl).2
    (Plan.runInOrder_pick hplan hlocal hblocks hinOrder hposition)

/-- A scripted block deals with elements one by one unless it loses some. -/
theorem Catalog.isElementwise_scripted {behavior : Behavior} (manifest : Manifest)
    (h : ∀ count, behavior ≠ .drop count) : (scripted manifest behavior).IsElementwise := by
  intro call inputs
  show behavior.executeBatch manifest call inputs = _
  unfold Behavior.executeBatch
  cases behavior with
  | drop count => exact absurd rfl (h count)
  | _ => exact bind_pure _

namespace Sample

/-- Lists are taken apart, and put together again where an element names the step for it. -/
def regroup : Definition where
  version := "1.0"
  inputs := [.batch "x" 1 []]
  steps := [
    ⟨"Split", "split", [("value", .string "$inputs.x")]⟩,
    ⟨"Gate", "gate", [("value", .string "$inputs.x"), ("next", .string "$steps.fold")]⟩,
    ⟨"Fold", "fold", [("items", .string "$steps.split.item")]⟩]
  outputs := [⟨"out", "$steps.fold.items"⟩]

/-- Returns the items of a list, one by one. -/
def split : Block := Catalog.scripted
  { blockType := "Split", transform := .increment
    properties := [{ name := "value", kind := .data [] true }]
    outputs := [⟨"item", []⟩] } (.split "value")

/-- Selects the steps that an element names. -/
def gate : Block := Catalog.scripted
  { blockType := "Gate", acceptsBatchInput := true, flowControl := true
    properties := [{ name := "value", kind := .data [] true },
      { name := "next", kind := .stepTargets }] } (.route "value")

/-- Returns the list that it is given. -/
def fold : Block := Catalog.scripted
  { blockType := "Fold", transform := .decrement
    properties := [{ name := "items", kind := .data [] true }]
    outputs := [⟨"items", []⟩] } .echo

/-- The registry of the blocks. -/
def regroupBlocks : Registry := [("Split", split), ("Gate", gate), ("Fold", fold)]

/-- A list that names the step which folds it, twice, and an empty one. -/
def regroupInputs : Table String Json :=
  [("x", .array [.array [.string "fold", .string "fold"], .array []])]

end Sample

/-- The run on the first of two lists. -/
theorem run_pick_regroup : ∃ plan, Sample.regroup.compile Sample.regroupBlocks [] = .ok plan ∧
    plan.Local ∧ (Engine.run ⟨plan, Sample.regroupBlocks, {}⟩ Sample.regroupInputs).result =
      .ok [[("out", .array [.string "fold", .string "fold"])], [("out", .null)]] ∧
    (Engine.run ⟨plan, Sample.regroupBlocks, {}⟩ (plan.pick Sample.regroupInputs 0)).result =
      .ok [[("out", .array [.string "fold", .string "fold"])]] := by
  have hrun : ((Sample.regroup.compile Sample.regroupBlocks []).toOption.bind fun plan =>
      if plan.Local then
        (Engine.run ⟨plan, Sample.regroupBlocks, {}⟩ Sample.regroupInputs).result.toOption
      else none) =
        some [[("out", .array [.string "fold", .string "fold"])], [("out", .null)]] := by
    decide +kernel
  obtain ⟨plan, hcompile, hrun⟩ := Option.bind_eq_some_iff.1 hrun
  have hcompile := toOption_eq_some.1 hcompile
  have hlocal : plan.Local := by
    by_contra hnot
    rw [if_neg hnot] at hrun
    cases hrun
  rw [if_pos hlocal] at hrun
  have hblocks : ∀ blockType block, Sample.regroupBlocks.get? blockType = some block →
      block.IsElementwise := by
    intro blockType block hblock
    have hmem := Table.mem_of_get? hblock
    simp only [Sample.regroupBlocks, List.mem_cons, Prod.mk.injEq, List.not_mem_nil,
      or_false] at hmem
    rcases hmem with ⟨-, rfl⟩ | ⟨-, rfl⟩ | ⟨-, rfl⟩ <;>
      exact Catalog.isElementwise_scripted _ fun count h => by cases h
  have hwhole := toOption_eq_some.1 hrun
  exact ⟨plan, hcompile, hlocal, hwhole, run_pick_eq_ok hcompile hlocal hblocks hwhole (by decide)⟩

end BatchFlow
