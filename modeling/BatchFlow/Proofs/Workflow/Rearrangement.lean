import BatchFlow.Proofs.Graph.Canonical
import BatchFlow.Proofs.Workflow.Lineages
import Mathlib.Data.List.Find

namespace BatchFlow

/-!
# Which workflows line up

In whatever order the steps of a resolved workflow are aligned, as long as no edge leads backward,
the same lineages are found or none. Nor does it matter in which order a step has its properties or
a property its named terms, although the messages of refusals may tell of other sources then.

* `Argument.Rearranges`, `Workflow.Step.Rearranges` — steps that differ in such orders only.
* `Arranged.exists_align_mapSteps_iff`, `Arranged.get?_align_mapSteps` — they are aligned or refused
  together, and in the same way.
* `Workflow.Sorted` — the orders of steps in which no edge leads backward.
* `Definition.align_iff_linesUp` — when a resolved workflow is aligned, and on which lineages.
-/

/-- Whether two arguments differ in the order of named terms or targets only. -/
inductive Argument.Rearranges : Argument → Argument → Prop
  | term (t : Term) : Rearranges (.term t) (.term t)
  | targets {steps steps' : List String} : steps'.Perm steps →
      Rearranges (.targets steps) (.targets steps')
  | map {entries entries' : Table String Term} : entries'.Perm entries →
      Rearranges (.map entries) (.map entries')

namespace Workflow

/-- Whether two steps differ in the order of their properties, named terms and targets only. Their
    manifests may list the properties in different orders. -/
structure Step.Rearranges (step step' : Step) : Prop where
  name : step'.name = step.name
  transform : step'.manifest.transform = step.manifest.transform
  flowControl : step'.manifest.flowControl = step.manifest.flowControl
  acceptsBatchInput : step'.manifest.acceptsBatchInput = step.manifest.acceptsBatchInput
  property? : ∀ property, step'.manifest.property? property = step.manifest.property? property
  arguments : ∃ rearrange : String → Argument → Argument,
    (∀ property a, Argument.Rearranges a (rearrange property a)) ∧
      step'.arguments.Perm (step.arguments.map fun entry => (entry.1, rearrange entry.1 entry.2))

/-- A workflow with other steps in the places of its own. -/
def mapSteps (w : Workflow) (f : Step → Step) : Workflow := { w with steps := w.steps.map f }

end Workflow

/-- Targets stay targets. -/
theorem Argument.Rearranges.isTargets_eq {a a' : Argument} (h : a.Rearranges a') :
    a'.isTargets = a.isTargets := by
  cases h <;> rfl

/-- The selectors stay the same up to order. -/
theorem Argument.Rearranges.selectors_perm {a a' : Argument} (h : a.Rearranges a') :
    a'.selectors.Perm a.selectors := by
  cases h with
  | term t => exact List.Perm.refl _
  | targets h => exact h.map _
  | map h => exact h.flatMap_right _

namespace Workflow

section Rearranges

variable {w : Workflow} {step step' : Step} {f : Step → Step} {taken : String → Lineage}
  {lineages : Selector → Lineage} {lineage : Lineage} {order : List String}

namespace Step.Rearranges

/-- The arguments stay the same up to rearrangement. -/
theorem mem_arguments_iff (h : step.Rearranges step') : ∃ rearrange : String → Argument → Argument,
    (∀ property a, Argument.Rearranges a (rearrange property a)) ∧ ∀ property a',
      (property, a') ∈ step'.arguments ↔
        ∃ a, (property, a) ∈ step.arguments ∧ a' = rearrange property a := by
  obtain ⟨rearrange, hrearrange, hperm⟩ := h.arguments
  refine ⟨rearrange, hrearrange, fun property a' => ?_⟩
  rw [hperm.mem_iff, List.mem_map]
  constructor
  · rintro ⟨⟨property', a⟩, ha, he⟩
    cases he
    exact ⟨a, ha, rfl⟩
  · rintro ⟨a, ha, rfl⟩
    exact ⟨(property, a), ha, rfl⟩

/-- The selectors of each property stay the same. -/
theorem feeds_iff (h : step.Rearranges step') {property : String} {s : Selector} :
    step'.Feeds property s ↔ step.Feeds property s := by
  obtain ⟨rearrange, hrearrange, hmem⟩ := h.mem_arguments_iff
  constructor
  · rintro ⟨a', ha', hkind, hs⟩
    obtain ⟨a, ha, rfl⟩ := (hmem property a').1 ha'
    have hsame := hrearrange property a
    exact ⟨a, ha, hsame.isTargets_eq ▸ hkind, hsame.selectors_perm.mem_iff.1 hs⟩
  · rintro ⟨a, ha, hkind, hs⟩
    have hsame := hrearrange property a
    exact ⟨_, (hmem property _).2 ⟨a, ha, rfl⟩, hsame.isTargets_eq ▸ hkind,
      hsame.selectors_perm.mem_iff.2 hs⟩

/-- The sources of a step stay the same. -/
theorem hasSource_iff (h : step.Rearranges step') {s : Selector} :
    step'.HasSource s ↔ step.HasSource s :=
  exists_congr fun _ => h.feeds_iff

/-- The targets of a step stay the same. -/
theorem mem_targets_iff (h : step.Rearranges step') {target : String} :
    target ∈ step'.targets ↔ target ∈ step.targets := by
  obtain ⟨rearrange, hrearrange, hmem⟩ := h.mem_arguments_iff
  rw [Step.mem_targets_iff, Step.mem_targets_iff]
  constructor
  · rintro ⟨property, steps', ha', htarget⟩
    obtain ⟨a, ha, hsame⟩ := (hmem property _).1 ha'
    cases hsame ▸ hrearrange property a with
    | targets hperm => exact ⟨property, _, ha, hperm.mem_iff.1 htarget⟩
  · rintro ⟨property, steps, ha, htarget⟩
    have hsame := hrearrange property (.targets steps)
    generalize hto : rearrange property (.targets steps) = a' at hsame
    cases hsame with
    | targets hperm =>
      exact ⟨property, _, (hmem property _).2 ⟨_, ha, hto.symm⟩, hperm.mem_iff.2 htarget⟩

/-- On one lineage a rearranged step has the same alignment. -/
theorem alignmentOn_eq (h : step.Rearranges step') : step'.alignmentOn = step.alignmentOn := by
  funext lineage
  simp only [alignmentOn, produced, h.transform, h.name]

/-- The longest lineage of the sources stays the same. -/
theorem isLongest_iff (h : step.Rearranges step') :
    IsLongest lineages step' lineage ↔ IsLongest lineages step lineage := by
  constructor
  · rintro ⟨hbound, hreached⟩
    simp only [h.hasSource_iff] at hbound hreached
    exact ⟨hbound, hreached⟩
  · rintro ⟨hbound, hreached⟩
    simp only [← h.hasSource_iff] at hbound hreached
    exact ⟨hbound, hreached⟩

/-- Sources that line up still do. -/
theorem linesUp_iff (h : step.Rearranges step') :
    LinesUp lineages step' ↔ LinesUp lineages step := by
  have haccepts : ∀ property, acceptsBatch step' property = acceptsBatch step property :=
    fun property => by rw [acceptsBatch, acceptsBatch, h.property?]
  constructor
  · rintro ⟨hproperty, hcomparable, hdecides, hcollapses⟩
    simp only [h.feeds_iff, h.hasSource_iff, h.transform, h.flowControl, h.acceptsBatchInput,
      haccepts] at hproperty hcomparable hdecides hcollapses
    exact ⟨hproperty, hcomparable, hdecides, hcollapses⟩
  · rintro ⟨hproperty, hcomparable, hdecides, hcollapses⟩
    simp only [← h.feeds_iff, ← h.hasSource_iff, ← h.transform, ← h.flowControl,
      ← h.acceptsBatchInput, ← haccepts] at hproperty hcomparable hdecides hcollapses
    exact ⟨hproperty, hcomparable, hdecides, hcollapses⟩

end Step.Rearranges

/-- The names of steps stay the same. -/
theorem map_name_mapSteps (hf : ∀ step ∈ w.steps, step.Rearranges (f step)) :
    (w.mapSteps f).steps.map (·.name) = w.steps.map (·.name) := by
  rw [mapSteps, List.map_map]
  exact List.map_congr_left fun step hstep => (hf step hstep).name

/-- A step is found under the name that it had. -/
theorem step?_mapSteps (hf : ∀ step ∈ w.steps, step.Rearranges (f step)) (name : String) :
    (w.mapSteps f).step? name = (w.step? name).map f := by
  rw [step?, mapSteps, List.find?_map]
  refine congrArg _ (List.find?_congr fun step hstep => ?_)
  rw [Function.comp_apply, (hf step hstep).name]

/-- What a selector points at keeps its lineage. -/
theorem lineageAt_mapSteps (hf : ∀ step ∈ w.steps, step.Rearranges (f step)) :
    (w.mapSteps f).lineageAt taken = w.lineageAt taken := by
  have hstep : ∀ owner, ((w.mapSteps f).step? owner).elim [] (·.produced (taken owner)) =
      (w.step? owner).elim [] (·.produced (taken owner)) := by
    intro owner
    rw [step?_mapSteps hf]
    cases hfound : w.step? owner with
    | none => rfl
    | some step =>
      have hsame := hf step (name_of_step? hfound).2
      exact congrArg Alignment.outputLineage (congrFun hsame.alignmentOn_eq (taken owner))
  funext s
  cases s with
  | input name => rfl
  | output owner property => exact hstep owner
  | allOutputs owner => exact hstep owner
  | step owner => exact hstep owner

/-- Lineages that follow the sources still do. -/
theorem Traces.mapSteps (htraces : w.Traces taken)
    (hf : ∀ step ∈ w.steps, step.Rearranges (f step)) : (w.mapSteps f).Traces taken := by
  intro step' hstep'
  obtain ⟨step, hstep, rfl⟩ := List.mem_map.1 hstep'
  rw [lineageAt_mapSteps hf, (hf step hstep).isLongest_iff, (hf step hstep).name]
  exact htraces step hstep

/-- An arrangement of the steps is one of the rearranged steps. -/
theorem Arranged.mapSteps (harranged : w.Arranged order)
    (hf : ∀ step ∈ w.steps, step.Rearranges (f step)) : (w.mapSteps f).Arranged order := by
  constructor
  case perm =>
    rw [map_name_mapSteps hf]
    exact harranged.perm
  case nodup => exact harranged.nodup
  case found =>
    intro name hname
    obtain ⟨step, hstep⟩ := harranged.found name hname
    exact ⟨f step, by rw [step?_mapSteps hf, hstep]; rfl⟩
  case source =>
    intro before name after hsplit step' hstep' s hs
    rw [step?_mapSteps hf] at hstep'
    obtain ⟨step, hstep, rfl⟩ := Option.map_eq_some_iff.1 hstep'
    have hpoints := harranged.source hsplit hstep
      ((hf step (name_of_step? hstep).2).hasSource_iff.1 hs)
    -- what a selector points into is a matter of the inputs, which are the same
    cases s <;> exact hpoints

/-- Alignment does not see the order of properties and named terms. -/
theorem Arranged.exists_align_mapSteps_iff (harranged : w.Arranged order)
    (htargets : ∀ step ∈ w.steps, ∀ target ∈ step.targets, target ∈ order)
    (hf : ∀ step ∈ w.steps, step.Rearranges (f step)) (htraces : w.Traces taken) :
    (∃ aligned, (w.mapSteps f).align order = .ok aligned) ↔
      ∃ aligned, w.align order = .ok aligned := by
  have htargets' : ∀ step ∈ (w.mapSteps f).steps, ∀ target ∈ step.targets, target ∈ order := by
    intro step' hstep' target htarget
    obtain ⟨step, hstep, rfl⟩ := List.mem_map.1 hstep'
    exact htargets step hstep target ((hf step hstep).mem_targets_iff.1 htarget)
  rw [(harranged.mapSteps hf).exists_align_iff htargets' (htraces.mapSteps hf),
    harranged.exists_align_iff htargets htraces, lineageAt_mapSteps hf]
  refine List.forall_mem_map.trans (forall₂_congr fun step hstep => ?_)
  rw [(hf step hstep).linesUp_iff, GovernsAlong, (hf step hstep).name]
  simp only [(hf step hstep).mem_targets_iff, GovernsAlong]

/-- Nor do the alignments that are found depend on this order, or on that of the steps. -/
theorem Arranged.get?_align_mapSteps {order' : List String}
    {aligned aligned' : Table String Alignment} (harranged : w.Arranged order)
    (harranged' : w.Arranged order') (hf : ∀ step ∈ w.steps, step.Rearranges (f step))
    (htraces : w.Traces taken) (haligned : w.align order = .ok aligned)
    (haligned' : (w.mapSteps f).align order' = .ok aligned') (name : String) :
    aligned'.get? name = aligned.get? name := by
  have horder : name ∈ order' ↔ name ∈ order := by
    rw [harranged'.perm.mem_iff, harranged.perm.mem_iff]
  obtain ⟨hlined, hnone⟩ := harranged.lined_of_align htraces haligned
  obtain ⟨hlined', hnone'⟩ :=
    (harranged'.mapSteps hf).lined_of_align (htraces.mapSteps hf) haligned'
  by_cases hname : name ∈ order
  · obtain ⟨step, hstep, hget⟩ := hlined name hname
    obtain ⟨step', hstep', hget'⟩ := hlined' name (horder.2 hname)
    rw [step?_mapSteps hf, hstep] at hstep'
    cases hstep'
    rw [hget', hget, (hf step (name_of_step? hstep).2).alignmentOn_eq]
  · rw [hnone name hname, hnone' name (hname ∘ horder.1)]

end Rearranges

/-- Whether an order lists all steps and no edge between steps leads backward in it. -/
structure Sorted (w : Workflow) (order : List String) : Prop where
  perm : order.Perm (w.steps.map (·.name))
  forward : ∀ e ∈ w.graph.edges, ∀ a b, e.source = .step a → e.target = .step b →
    order.idxOf a < order.idxOf b

end Workflow

namespace Definition

open Workflow

variable {registry : Registry} {d : Definition} {w : Workflow} {order : List String}

/-- The order in which the steps are compiled is such an order. -/
theorem Resolves.sorted_of_stepOrder (hw : d.Resolves registry w) (h : w.stepOrder = .ok order) :
    w.Sorted order := by
  have hperm := hw.stepOrder_perm h
  have hnodup : order.Nodup := hperm.nodup_iff.2 hw.step_names_nodup
  refine ⟨hperm, fun e he a b hsource htarget => ?_⟩
  have hb : b ∈ order := hperm.mem_iff.2 (hw.step_node_iff.1 (htarget ▸ w.graph.target_mem e he))
  obtain ⟨before, after, hsplit⟩ := List.append_of_mem hb
  have ha := mem_before_of_edge h hsplit ⟨e, he, hsource, htarget⟩
  subst hsplit
  exact (idxOf_lt_idxOf_iff hnodup).2 ha

/-- A sorted order arranges the steps. -/
theorem Resolves.arranged_of_sorted (hw : d.Resolves registry w) (h : w.Sorted order) :
    w.Arranged order := by
  refine hw.arranged h.perm ?_
  rintro before name after rfl other ⟨e, he, hsource, htarget⟩
  have hnodup := h.perm.nodup_iff.2 hw.step_names_nodup
  exact (idxOf_lt_idxOf_iff hnodup).1 (h.forward e he other name hsource htarget)

/-- A resolved workflow has lineages. In every order of its steps alignment succeeds exactly when
    on these lineages the data of every step lines up and every step lies on the lineages of those
    about which it decides. Then each step takes data of the one longest lineage among those of its
    sources. None of this depends on the order of the steps, of their properties or of the terms in
    these. -/
theorem align_iff_linesUp (h : d.resolve registry = .ok w) (horder : w.Sorted order) :
    (∃ taken, w.Traces taken) ∧
    (∀ taken, w.Traces taken →
      ((∃ aligned, w.align order = .ok aligned) ↔
        ∀ step ∈ w.steps, LinesUp (w.lineageAt taken) step ∧ GovernsAlong taken step) ∧
      ∀ aligned, w.align order = .ok aligned → ∀ step ∈ w.steps,
        aligned.get? step.name = some (step.alignmentOn (taken step.name)) ∧
          ∀ lineage, IsLongest (w.lineageAt taken) step lineage ↔ lineage = taken step.name) ∧
    ∀ f : Step → Step, (∀ step ∈ w.steps, step.Rearranges (f step)) →
      ∀ order', w.Sorted order' →
        ((∃ aligned', (w.mapSteps f).align order' = .ok aligned') ↔
          ∃ aligned, w.align order = .ok aligned) ∧
        ∀ aligned aligned', w.align order = .ok aligned →
          (w.mapSteps f).align order' = .ok aligned' →
            ∀ name, aligned'.get? name = aligned.get? name := by
  have hw := resolves_of_resolve h
  have harranged := hw.arranged_of_sorted horder
  have htargets : ∀ {order}, w.Sorted order → ∀ step ∈ w.steps, ∀ target ∈ step.targets,
      target ∈ order := fun hsorted step hstep target htarget =>
    hsorted.perm.mem_iff.2 (hw.target_declared hstep htarget)
  obtain ⟨found, hfound⟩ := harranged.exists_traces
  refine ⟨⟨found, hfound⟩, fun taken htraces => ?_, fun f hf order' horder' => ?_⟩
  -- the lineages decide about acceptance, and an accepted alignment shows them
  · have halign := harranged.exists_align_iff (htargets horder) htraces
    refine ⟨halign, fun aligned haligned step hstep => ?_⟩
    obtain ⟨hlined, -⟩ := harranged.lined_of_align htraces haligned
    obtain ⟨step', hstep', hget⟩ := hlined step.name (harranged.name_mem hstep)
    obtain rfl : step' = step := Option.some.inj (hstep'.symm.trans (hw.step?_eq_some hstep))
    have hlines := (halign.1 ⟨aligned, haligned⟩ step' hstep).1
    have hjoins := (htraces step' hstep).joins hlines.comparable
    exact ⟨hget, fun lineage => ⟨hjoins.eq_of_isLongest, fun he => he ▸ hjoins.isLongest⟩⟩
  · have harranged' := hw.arranged_of_sorted horder'
    refine ⟨?_, fun aligned aligned' haligned haligned' => ?_⟩
    -- both are the same condition on the lineages
    · rw [harranged'.exists_align_mapSteps_iff (htargets horder') hf hfound,
        harranged'.exists_align_iff (htargets horder') hfound,
        harranged.exists_align_iff (htargets horder) hfound]
    · exact harranged.get?_align_mapSteps harranged' hf hfound haligned haligned'

end Definition

namespace Sample

/-- An argument with its terms in reverse order. -/
def reversedArgument : Argument → Argument
  | .map entries => .map entries.reverse
  | a => a

/-- A step with its properties and their terms in reverse order. -/
def reversed (step : Workflow.Step) : Workflow.Step :=
  { step with
    arguments := (step.arguments.map fun entry => (entry.1, reversedArgument entry.2)).reverse }

/-- Reversing the properties rearranges a step. -/
theorem rearranges_reversed (step : Workflow.Step) : step.Rearranges (reversed step) := by
  refine ⟨rfl, rfl, rfl, rfl, fun _ => rfl, fun _ => reversedArgument, fun _ a => ?_,
    List.reverse_perm _⟩
  cases a with
  | term t => exact .term t
  | targets steps => exact .targets (List.Perm.refl _)
  | map entries => exact .map (List.reverse_perm _)

end Sample

/-- The step that puts items beside their list takes data of the lineage of the items, also when the
    list is named after them. -/
theorem align_iff_linesUp_pairs : ∃ w aligned,
    Sample.pairs.resolve Sample.pairsBlocks = .ok w ∧
    w.align ["split", "pass", "pair", "collect"] = .ok aligned ∧
    (aligned.get? "pair").map (·.lineage) = some ["<workflow_input>", "split"] ∧
    (∃ taken, w.Traces taken ∧ taken "pair" = ["<workflow_input>", "split"] ∧
      ∀ step ∈ w.steps,
        Workflow.LinesUp (w.lineageAt taken) step ∧ Workflow.GovernsAlong taken step) ∧
    ∃ aligned', (w.mapSteps Sample.reversed).align ["split", "pass", "pair", "collect"] =
      .ok aligned' ∧ ∀ name, aligned'.get? name = aligned.get? name := by
  have hfound : ((Sample.pairs.resolve Sample.pairsBlocks).toOption.bind fun w =>
      w.stepOrder.toOption.bind fun order => (w.align order).toOption.bind fun aligned =>
        if order = ["split", "pass", "pair", "collect"] ∧ "pair" ∈ w.steps.map (·.name) ∧
          (aligned.get? "pair").map (·.lineage) = some ["<workflow_input>", "split"]
        then some () else none).isSome := by
    decide +kernel
  obtain ⟨_, hfound⟩ := Option.isSome_iff_exists.1 hfound
  obtain ⟨w, hresolve, hfound⟩ := Option.bind_eq_some_iff.1 hfound
  obtain ⟨order, horder, hfound⟩ := Option.bind_eq_some_iff.1 hfound
  obtain ⟨aligned, haligned, hfound⟩ := Option.bind_eq_some_iff.1 hfound
  obtain ⟨⟨rfl, hpair, hlineage⟩, -⟩ := Option.ite_none_right_eq_some.1 hfound
  have hresolve := toOption_eq_some.1 hresolve
  have haligned := toOption_eq_some.1 haligned
  have hsorted := (Definition.resolves_of_resolve hresolve).sorted_of_stepOrder
    (toOption_eq_some.1 horder)
  obtain ⟨⟨taken, htraces⟩, hlines, hrearranged⟩ :=
    Definition.align_iff_linesUp hresolve hsorted
  obtain ⟨halign, hlined⟩ := hlines taken htraces
  obtain ⟨hiff, hsame⟩ := hrearranged Sample.reversed
    (fun step _ => Sample.rearranges_reversed step) _ hsorted
  obtain ⟨aligned', haligned'⟩ := hiff.2 ⟨aligned, haligned⟩
  obtain ⟨step, hstep, hname⟩ := List.mem_map.1 hpair
  have htaken : taken "pair" = ["<workflow_input>", "split"] := by
    have hget := (hlined aligned haligned step hstep).1
    rw [hname] at hget
    simpa [hget, Workflow.Step.alignmentOn] using hlineage
  exact ⟨w, aligned, hresolve, haligned, hlineage,
    ⟨taken, htraces, htaken, halign.1 ⟨aligned, haligned⟩⟩, aligned', haligned',
    hsame aligned aligned' haligned haligned'⟩

end BatchFlow
