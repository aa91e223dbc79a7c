import BatchFlow.Proofs.Run.Stored
import BatchFlow.Proofs.Run.InOrder

namespace BatchFlow

/-!
# The masks of branches

A branch is opened at the depth of the data that the deciding step takes, and an element is looked
up in its mask at that depth. The mask holds the elements at which the step ran. Both agree, unless
the step folds batches: then it runs at parents, one level above, and no element is ever found.

* `Plan.Step.elementDepth` — the length of the indices at which a step runs.
* `Reaches.length_of_mem_outputs` — a step that is done has decided at such indices.
* `Reaches.exists_mask` — the depth and the mask of a branch.
* `Branch.admits_below_iff` — what a branch does with the elements below a selected one.
* `honoured_iff` — which decisions are honoured.
-/

/-- The length of the indices at which a step runs. -/
def Plan.Step.elementDepth (step : Plan.Step) : Nat :=
  if step.manifest.transform = .decrement then step.alignment.input - 1 else step.alignment.input

/-- The elements of a step have one level per unit of their depth. -/
theorem Plan.Step.length_elementLineage {step : Plan.Step}
    (hsuits : step.alignment.Suits step.name step.manifest) :
    step.elementLineage.length = step.elementDepth := by
  rw [elementLineage, elementDepth]
  split
  · rw [List.length_take, hsuits.length]
    omega
  · exact hsuits.length

/-- A step runs at the depth of its data exactly when it does not fold. -/
theorem Plan.Step.elementDepth_eq_iff {step : Plan.Step}
    (hsuits : step.alignment.Suits step.name step.manifest) :
    step.elementDepth = step.alignment.input ↔ step.manifest.transform ≠ .decrement := by
  rw [elementDepth]
  by_cases ht : step.manifest.transform = .decrement
  · obtain ⟨hpos, -⟩ := hsuits.decrement ht
    rw [if_pos ht]
    exact iff_of_false (by omega) (fun hne => hne ht)
  · rw [if_neg ht]
    exact iff_of_true rfl ht

/-- Indices of one length have another given length only if there are none. -/
theorem Branch.forall_length_eq_iff {mask : List Index} {length : Nat}
    (hlength : ∀ index ∈ mask, index.length = length) {depth : Nat} :
    (∀ index ∈ mask, index.length = depth) ↔ length = depth ∨ mask = [] := by
  cases mask with
  | nil => simp
  | cons first rest =>
    have hfirst := hlength first List.mem_cons_self
    simp only [reduceCtorEq, or_false]
    constructor
    · intro hall
      rw [← hfirst, hall first List.mem_cons_self]
    · intro hdepth index hindex
      rw [hlength index hindex, hdepth]

/-- A branch whose mask has indices of one length only finds an element below one of them exactly
    when they are as long as the branch is deep. -/
theorem Branch.admits_below_iff {b : Branch} {mask : List Index} (hmask : b.mask = some mask)
    {length : Nat} (hlength : ∀ index ∈ mask, index.length = length) {chosen index : Index}
    (hchosen : chosen ∈ mask) (hbelow : chosen <+: index) (hdeep : b.depth ≤ index.length) :
    b.admits index ↔ length = b.depth := by
  have hadmits : b.admits index ↔ index.take b.depth ∈ mask := by
    have hlt : ¬ index.length < b.depth := by omega
    simp [Branch.admits, hmask, hlt]
  rw [hadmits]
  constructor
  · intro hfound
    have htake := hlength _ hfound
    rw [List.length_take] at htake
    omega
  · intro he
    rw [← he, ← hlength chosen hchosen, ← List.prefix_iff_eq_take.1 hbelow]
    exact hchosen

section Reaches

variable {context : RunContext} {shape : BatchStructure} {j : Journal} {s : RunState}

/-- A step that is done has returned something at indices of the depth at which it runs only. -/
theorem Reaches.length_of_mem_outputs (hplan : context.engine.plan.Coherent)
    (h : Reaches context shape j s) {e : Entry} (he : e ∈ j) {o : Index × Output}
    (ho : o ∈ e.outputs) : o.1.length = e.step.elementDepth := by
  obtain ⟨elements, ⟨j', s', -, -, -, -, rfl⟩, hreturned⟩ := h.origin_of_entry he
  obtain ⟨earlier, later, hsplit⟩ := List.append_of_mem (h.tracks.mem_steps_of_entry he)
  have hsuits := (hplan.step hsplit).suits
  rcases hreturned with ⟨-, hnil⟩ | ⟨-, outputs, -, -, houtputs⟩
  · rw [hnil] at ho
    cases ho
  · rw [houtputs] at ho
    obtain ⟨element, helement, hindex⟩ := List.mem_map.1 (List.of_mem_zip ho).1
    -- a step whose branch is exhausted runs nowhere
    have hmem : element ∈ (s'.view context).invocation (s'.governing e.step) e.step := by
      rw [RunState.elements] at helement
      split at helement
      · cases helement
      · exact helement
    rw [← hindex, BatchStructure.length_of_mem_indices (View.mem_indices_of_mem_invocation hmem)]
    exact Plan.Step.length_elementLineage hsuits

/-- The branch of a step and a target has the depth of the data that the step takes. Its mask holds
    the indices at which the step selected the target, all of the depth at which the step runs. -/
theorem Reaches.exists_mask (hplan : context.engine.plan.Coherent) (h : Reaches context shape j s)
    {g : Plan.Step} (hg : g ∈ context.engine.plan.steps) {target : String} {id : BranchId}
    (hid : s.branches.byEdge.get? (g.name, target) = some id) :
    ∃ mask, (s.branches.get id).mask = some mask ∧
      (s.branches.get id).depth = g.alignment.input ∧ target ∈ g.targets ∧
      (∀ index, index ∈ mask ↔ ∃ e ∈ j, e.step = g ∧ e.Selects target index) ∧
      ∀ index ∈ mask, index.length = g.elementDepth := by
  have hgate : s.branches.gate? (g.name, target) =
      some ((s.branches.get id).depth, (s.branches.get id).mask) := by
    rw [Branches.gate?, hid, Option.map_some]
  have hnodup := h.tracks.journal_nodup hplan.steps_nodup
  obtain ⟨e, ⟨he, -, htarget⟩, hname, hdepth, hmask⟩ :=
    ((h.shows hplan).gate?_eq_some hnodup).1 hgate
  have hstep : e.step = g :=
    List.inj_on_of_nodup_map hplan.steps_nodup (h.tracks.mem_steps_of_entry he) hg hname
  subst hstep
  refine ⟨_, hmask.symm, hdepth.symm, htarget, fun index => ?_, fun index hindex => ?_⟩
  · rw [Entry.mem_selected_iff]
    constructor
    · intro hselects
      exact ⟨e, he, rfl, hselects⟩
    · rintro ⟨e', he', hstep, hselects⟩
      -- a step is recorded once
      cases List.inj_on_of_nodup_map hnodup he' he (congrArg Plan.Step.name hstep)
      exact hselects
  · obtain ⟨next, houtput, -⟩ := Entry.mem_selected_iff.1 hindex
    exact h.length_of_mem_outputs hplan he houtput

end Reaches

/-- Which decisions are honoured. In every state of a run of a compiled plan, the mask of a branch
    holds the indices at which the deciding step selected the target. They have the length at which
    elements are looked up, and the branch admits what lies below them, unless the step folds
    batches: then they are all shorter and nothing below them is admitted. -/
theorem honoured_iff {registry : Registry} {initParameters : Table String Json} {d : Definition}
    {context : RunContext} {shape : BatchStructure} {j : Journal} {s : RunState}
    (hcompile : d.compile registry initParameters = .ok context.engine.plan)
    (h : Reaches context shape j s) {g t : Plan.Step} (hg : g ∈ context.engine.plan.steps)
    (ht : t ∈ context.engine.plan.steps) {id : BranchId}
    (hid : s.branches.byEdge.get? (g.name, t.name) = some id) :
    ∃ mask, (s.branches.get id).mask = some mask ∧
      (∀ index, index ∈ mask ↔ ∃ e ∈ j, e.step = g ∧ e.Selects t.name index) ∧
      ((∀ index ∈ mask, index.length = (s.branches.get id).depth) ↔
        g.manifest.transform ≠ .decrement ∨ mask = []) ∧
      ∀ chosen ∈ mask, ∀ index ∈ s.shape.indices t.alignment.lineage, chosen <+: index →
        ((s.branches.get id).admits index ↔ g.manifest.transform ≠ .decrement) := by
  have hplan := Definition.coherent_of_compile hcompile
  obtain ⟨mask, hmask, hdepth, htarget, hdecided, hlength⟩ := h.exists_mask hplan hg hid
  obtain ⟨before, after, hsplit⟩ := List.append_of_mem hg
  obtain ⟨earlier, later, hsplit'⟩ := List.append_of_mem ht
  have hsuits := (hplan.step hsplit).suits
  have hsame : g.elementDepth = (s.branches.get id).depth ↔ g.manifest.transform ≠ .decrement := by
    rw [hdepth]
    exact Plan.Step.elementDepth_eq_iff hsuits
  refine ⟨mask, hmask, hdecided, ?_, ?_⟩
  · rw [Branch.forall_length_eq_iff hlength, hsame]
  · intro chosen hchosen index hindex hbelow
    -- the target lies at or below the step that decides about it
    have hbegin := ((hplan.step hsplit').governor g hg htarget).2.length_le
    rw [hsuits.length] at hbegin
    rw [Branch.admits_below_iff hmask hlength hchosen hbelow, hsame]
    rw [hdepth, BatchStructure.length_of_mem_indices hindex]
    exact hbegin

namespace Sample

/-- A step that folds the batch to decide about another one that shows its elements. -/
def gated : Definition where
  version := "1.0"
  inputs := [.batch "x" 1 []]
  steps := [
    ⟨"Gate", "gate", [("value", .string "$inputs.x"), ("next", .string "$steps.show")]⟩,
    ⟨"Show", "show", [("value", .string "$inputs.x")]⟩]
  outputs := [⟨"out", "$steps.show.value"⟩]

/-- The registry of the blocks. -/
def gatedBlocks : Registry :=
  [("Gate", Catalog.scripted
      { blockType := "Gate", acceptsBatchInput := true, flowControl := true, transform := .decrement
        properties := [{ name := "value", kind := .data [] true },
          { name := "next", kind := .stepTargets }] } (.route "next")),
    ("Show", Catalog.scripted
      { blockType := "Show", properties := [{ name := "value", kind := .data [] true }]
        outputs := [⟨"value", []⟩] } .echo)]

/-- A batch of two values. -/
def gatedInputs : Prepared :=
  (prepare [⟨"x", 1, .ofInput 1, none⟩]
    [("x", .array [.bool true, .bool false])]).toOption.getD ⟨{}, 0⟩

/-- What does not change during a run on these inputs. -/
def gatedContext (plan : Plan) : RunContext :=
  ⟨⟨plan, gatedBlocks, {}⟩, gatedInputs.store, fun _ => 0.5⟩

/-- The state in which the first step has decided. -/
def gatedState (plan : Plan) : RunState :=
  (plan.steps.take 1).foldl (RunState.perform (gatedContext plan))
    (.initial plan gatedInputs.shape)

end Sample

/-- A step that folds a batch has decided for its target, and no element is admitted. -/
theorem honoured_gated : ∃ (plan : Plan) (j : Journal) (g t : Plan.Step) (id : BranchId),
    Sample.gated.compile Sample.gatedBlocks [] = .ok plan ∧
    Reaches (Sample.gatedContext plan) Sample.gatedInputs.shape j (Sample.gatedState plan) ∧
    let s := Sample.gatedState plan
    s.branches.byEdge.get? (g.name, t.name) = some id ∧
    g.manifest.transform = .decrement ∧
    (∃ e ∈ j, e.step = g ∧ e.Selects t.name []) ∧
    [0] ∈ s.shape.indices t.alignment.lineage ∧
    (s.branches.get id).admits [0] = false := by
  have hfound : ((Sample.gated.compile Sample.gatedBlocks []).toOption.bind fun plan =>
      let s := Sample.gatedState plan
      (plan.step? "gate").bind fun g => (plan.step? "show").bind fun t =>
      (s.branches.byEdge.get? (g.name, t.name)).bind fun id =>
        if g.manifest.transform = .decrement ∧ (s.branches.get id).mask = some [[]] ∧
          [0] ∈ s.shape.indices t.alignment.lineage then some () else none).isSome := by
    decide +kernel
  obtain ⟨_, hfound⟩ := Option.isSome_iff_exists.1 hfound
  obtain ⟨plan, hcompile, hfound⟩ := Option.bind_eq_some_iff.1 hfound
  obtain ⟨g, hg, hfound⟩ := Option.bind_eq_some_iff.1 hfound
  obtain ⟨t, ht, hfound⟩ := Option.bind_eq_some_iff.1 hfound
  obtain ⟨id, hid, hfound⟩ := Option.bind_eq_some_iff.1 hfound
  obtain ⟨⟨hfolds, hmask, hindex⟩, -⟩ := Option.ite_none_right_eq_some.1 hfound
  have hcompile : Sample.gated.compile Sample.gatedBlocks [] =
      .ok (Sample.gatedContext plan).engine.plan := toOption_eq_some.1 hcompile
  obtain ⟨j, hreaches, -⟩ := exists_reaches_inOrder (Definition.coherent_of_compile hcompile)
    Sample.gatedInputs.shape (List.take_append_drop 1 plan.steps).symm
  obtain ⟨mask, hmask', hdecided, -, hadmits⟩ := honoured_iff hcompile hreaches
    (List.mem_of_find?_eq_some hg) (List.mem_of_find?_eq_some ht) hid
  cases hmask.symm.trans hmask'
  refine ⟨plan, j, g, t, id, hcompile, hreaches, hid, hfolds,
    (hdecided []).1 List.mem_cons_self, hindex, ?_⟩
  rw [Bool.eq_false_iff]
  exact fun h => (hadmits [] List.mem_cons_self [0] hindex List.nil_prefix).1 h hfolds

end BatchFlow
