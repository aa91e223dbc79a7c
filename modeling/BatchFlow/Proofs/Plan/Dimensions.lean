import BatchFlow.Catalog.Scripted
import BatchFlow.Proofs.Plan.Coherence

namespace BatchFlow

/-!
# Depths and lineages of compiled plans

A run cuts indices to the depths that stand in the plan. Depths and lineages are settled in three
places: where a step is aligned, where its selectors are bound, and where an output is bound. What
they have settled fits together:

* `Plan.data?` — the depth and the lineage of the data at which a source points, looked up by name.
* `Plan.Step.Aligned`, `Plan.Aligned` — how depths and lineages go together in a plan.
* `Definition.aligned_of_compile` — they do so in every compiled plan.
-/

namespace Plan

/-- The depth and the lineage of the data at which a source points; a literal has neither. -/
def data? (p : Plan) : Source → Option (Nat × Lineage)
  | .literal _ => none
  | .input name _ => (p.input? name).map fun i => (i.depth, i.lineage)
  | .step name _ _ => (p.step? name).map fun e => (e.alignment.output, e.alignment.outputLineage)

/-- How the depths and lineages of a step go together with those of the data that it takes and of
    the steps that decide about it. -/
structure Step.Aligned (p : Plan) (step : Step) : Prop where
  lineage_length : step.alignment.lineage.length = step.alignment.input
  outputLineage_length : step.alignment.outputLineage.length = step.alignment.output
  output_eq : (step.alignment.output : Int) = step.alignment.input + step.manifest.transform.offset
  source : ∀ s ∈ step.sources, ∀ depth, s.depth? = some depth → ∃ lineage,
    p.data? s = some (depth, lineage) ∧ depth ≤ step.alignment.input ∧
      lineage <+: step.alignment.lineage
  deepest : 0 < step.alignment.input → ∃ s ∈ step.sources, s.depth? = some step.alignment.input
  governor : ∀ g ∈ p.steps, step.name ∈ g.targets → g.alignment.lineage <+: step.alignment.lineage

/-- How depths and lineages go together in a plan. -/
structure Aligned (p : Plan) : Prop where
  step : ∀ step ∈ p.steps, step.Aligned p
  output : ∀ o ∈ p.outputs, o.source.depth? = some o.lineage.length ∧
    p.data? o.source = some (o.lineage.length, o.lineage) ∧
    (o.lineage = [] ∨ o.lineage.head? = some Lineage.inputLevel)

/-- A look-up by name finds the data at which a source points. -/
theorem Source.On.data?_eq {p : Plan} (hplan : p.Coherent) {earlier : List Step}
    (hearlier : ∀ e ∈ earlier, e ∈ p.steps) {s : Source} {l : Lineage} (h : s.On p earlier l) :
    p.data? s = some (l.length, l) := by
  cases h with
  | @input i hi =>
    have hfound : p.input? i.name = some i := Table.find?_name hplan.inputs_nodup hi
    simp [data?, hfound, hplan.input_lineage i hi]
  | @step e property he =>
    have hfound : p.step? e.name = some e := Table.find?_name hplan.steps_nodup (hearlier e he)
    obtain ⟨before, after, hsplit⟩ := List.append_of_mem (hearlier e he)
    simp [data?, hfound, (hplan.step hsplit).suits.output_length]

end Plan

/-- The depth changes as the transform says. -/
theorem Workflow.Alignment.Suits.output_eq {name : String} {m : Manifest} {a : Alignment}
    (h : a.Suits name m) : (a.output : Int) = a.input + m.transform.offset := by
  cases ht : m.transform with
  | identity =>
    have := (h.identity ht).1
    simp only [Transform.offset]
    omega
  | increment =>
    have := (h.increment ht).1
    simp only [Transform.offset]
    omega
  | decrement =>
    obtain ⟨hpos, hout, -⟩ := h.decrement ht
    simp only [Transform.offset]
    omega

namespace Plan.Coherent

variable {p : Plan}

/-- A step of a coherent plan is aligned with its sources. -/
theorem step_aligned (hplan : p.Coherent) {step : Step} (hstep : step ∈ p.steps) :
    step.Aligned p := by
  obtain ⟨earlier, later, hsplit⟩ := List.append_of_mem hstep
  have hearlier : ∀ e ∈ earlier, e ∈ p.steps := fun e he => hsplit ▸ List.mem_append_left _ he
  have h := hplan.step hsplit
  constructor
  case lineage_length => exact h.suits.length
  case outputLineage_length => exact h.suits.output_length
  case output_eq => exact h.suits.output_eq
  -- literals have no depth; other sources have the length of their lineage
  case source =>
    intro s hs depth hdepth
    rcases h.source s hs with hnone | ⟨l, hon, hbegin⟩
    · rw [hnone] at hdepth
      cases hdepth
    · obtain rfl : l.length = depth := by simpa [hon.depth?_eq hplan hearlier] using hdepth
      exact ⟨l, hon.data?_eq hplan hearlier, h.suits.length ▸ hbegin.length_le, hbegin⟩
  case deepest =>
    intro hpos
    obtain ⟨s, hs, hon⟩ := h.deepest hpos
    exact ⟨s, hs, by rw [hon.depth?_eq hplan hearlier, h.suits.length]⟩
  case governor => exact fun g hg ht => (h.governor g hg ht).2

/-- A coherent plan is aligned. -/
theorem aligned (hplan : p.Coherent) : p.Aligned where
  step _ hstep := hplan.step_aligned hstep
  output o ho := by
    obtain ⟨hon, hroot⟩ := hplan.output o ho
    refine ⟨hon.depth?_eq hplan fun _ he => he, hon.data?_eq hplan fun _ he => he, ?_⟩
    cases hl : o.lineage with
    | nil => exact Or.inl rfl
    | cons root rest =>
      right
      rw [List.head?_cons, hroot root (by rw [hl, List.head?_cons])]

end Plan.Coherent

/-- In a compiled plan depths and lineages fit together: those of a step and of what it produces,
    of the data that it takes, of the steps that decide about it, and of the outputs. -/
theorem Definition.aligned_of_compile {registry : Registry} {initParameters : Table String Json}
    {d : Definition} {p : Plan} (h : d.compile registry initParameters = .ok p) : p.Aligned :=
  (Definition.coherent_of_compile h).aligned

namespace Sample

/-- Lists are taken apart, each item is put beside its list where a step decides for it, and the
    pairs are collected. -/
def pairs : Definition where
  version := "1.0"
  inputs := [.batch "x" 1 []]
  steps := [
    ⟨"Split", "split", [("value", .string "$inputs.x")]⟩,
    ⟨"Pass", "pass", [("value", .string "$inputs.x"), ("next", .string "$steps.pair")]⟩,
    ⟨"Pair", "pair", [("parts", .object [("list", .string "$inputs.x"),
      ("item", .string "$steps.split.item"), ("word", .string "of")])]⟩,
    ⟨"Collect", "collect", [("items", .string "$steps.pair.seen")]⟩]
  outputs := [⟨"out", "$steps.collect.items"⟩, ⟨"items", "$steps.split.item"⟩]

/-- The registry of the blocks. -/
def pairsBlocks : Registry :=
  [("Split", Catalog.scripted
      { blockType := "Split", transform := .increment
        properties := [{ name := "value", kind := .data [] true }]
        outputs := [⟨"item", []⟩] } (.split "value")),
    ("Pass", Catalog.scripted
      { blockType := "Pass", acceptsBatchInput := true, flowControl := true
        properties := [{ name := "value", kind := .data [] true },
          { name := "next", kind := .stepTargets }] } (.route "next")),
    ("Pair", Catalog.scripted
      { blockType := "Pair"
        properties := [{ name := "parts", kind := .dataMap [] true }]
        outputs := [⟨"seen", []⟩] } .inputs),
    ("Collect", Catalog.scripted
      { blockType := "Collect", transform := .decrement
        properties := [{ name := "items", kind := .data [] true }]
        outputs := [⟨"items", []⟩] } .echo)]

/-- Two lists, the second empty. -/
def pairsInput : Table String Json := [("x", .array [.array [.bool true, .null], .array []])]

end Sample

/-- The split adds a level, the pairing keeps it, and the collection folds it. -/
theorem aligned_of_compile_pairs : ∃ p, Sample.pairs.compile Sample.pairsBlocks [] = .ok p ∧
    p.steps.map (fun step => (step.name, step.alignment.input, step.alignment.output)) =
      [("split", 1, 2), ("pass", 1, 1), ("pair", 2, 2), ("collect", 2, 1)] ∧ p.Aligned := by
  have hdepths : (Sample.pairs.compile Sample.pairsBlocks []).toOption.map (fun p => p.steps.map
      fun step => (step.name, step.alignment.input, step.alignment.output)) =
        some [("split", 1, 2), ("pass", 1, 1), ("pair", 2, 2), ("collect", 2, 1)] := by
    decide +kernel
  obtain ⟨p, hcompile, hdepths⟩ := Option.map_eq_some_iff.1 hdepths
  have hcompile := toOption_eq_some.1 hcompile
  exact ⟨p, hcompile, hdepths, Definition.aligned_of_compile hcompile⟩

end BatchFlow
