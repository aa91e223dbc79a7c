import BatchFlow.Plan.Compile
import BatchFlow.Proofs.Graph.Order
import BatchFlow.Proofs.Workflow.Alignment
import Mathlib.Data.List.Sort

namespace BatchFlow

/-!
# What compilation does

* `Resolves.stepOrder_perm`, `Workflow.mem_before_of_edge` — the steps are ordered so that edges go
  forward.
* `Plan.compileSteps_eq_ok` — every step is compiled after the steps before it.
* `Plan.sources_of_compileStep` — a compiled step looks for its values where its selectors point.
* `Plan.mem_dependencies_iff`, `Plan.mem_governors_iff` — for which steps a step waits, and which
  decide about it.
* `Plan.dependencies_eq_filter` — sorting the former by their places and dropping repeats picks them
  from the order.
-/

/-! ### The order of the steps -/

/-- A node has the name of a step when it is that step. -/
theorem Node.stepName?_eq_some {node : Node} {name : String} :
    node.stepName? = some name ↔ node = .step name := by
  cases node <;> simp [Node.stepName?]

/-- The order lists every step once. -/
theorem Definition.Resolves.stepOrder_perm {registry : Registry} {d : Definition} {w : Workflow}
    (hw : d.Resolves registry w) {order : List String} (h : w.stepOrder = .ok order) :
    order.Perm (w.steps.map (·.name)) := by
  unfold Workflow.stepOrder at h
  obtain ⟨nodes, hnodes, h⟩ := bind_eq_ok.1 h
  cases pure_eq_ok.1 h
  have hperm := Graph.topologicalOrder_perm (orGraphFault_eq_ok.1 hnodes)
  rw [hw.graph_nodes] at hperm
  refine (hperm.filterMap Node.stepName?).trans (List.Perm.of_eq ?_)
  rw [List.filterMap_append, List.filterMap_append, List.filterMap_map, List.filterMap_map,
    List.filterMap_map]
  have hinput : (Node.stepName? ∘ fun i : Workflow.Input => .input i.name) = fun _ => none := rfl
  have hstep : (Node.stepName? ∘ fun s : Workflow.Step => .step s.name) = some ∘ (·.name) := rfl
  have houtput : (Node.stepName? ∘ fun o : Workflow.Output => .output o.name) = fun _ => none := rfl
  rw [hinput, hstep, houtput, List.filterMap_eq_map]
  simp

/-- The order has no step twice, and every step from which an edge leads. -/
theorem Workflow.stepOrder_eq_ok {w : Workflow} {order : List String}
    (h : w.stepOrder = .ok order) : order.Nodup ∧
      ∀ e ∈ w.graph.edges, ∀ name, e.source = .step name → name ∈ order := by
  unfold Workflow.stepOrder at h
  obtain ⟨nodes, hnodes, h⟩ := bind_eq_ok.1 h
  cases pure_eq_ok.1 h
  have hperm := Graph.topologicalOrder_perm (orGraphFault_eq_ok.1 hnodes)
  constructor
  · refine (hperm.nodup_iff.2 w.graph.nodes_nodup).filterMap fun a b name ha hb => ?_
    exact (Node.stepName?_eq_some.1 ha).trans (Node.stepName?_eq_some.1 hb).symm
  · intro e he name hsource
    refine List.mem_filterMap.2 ⟨e.source, hperm.mem_iff.2 (w.graph.source_mem e he), ?_⟩
    exact Node.stepName?_eq_some.2 hsource

/-- Edges go forward in the order of the steps. -/
theorem Workflow.mem_before_of_edge {w : Workflow} {order : List String}
    (h : w.stepOrder = .ok order) {before : List String} {name : String} {after : List String}
    (ho : order = before ++ name :: after) {other : String}
    (he : ∃ e ∈ w.graph.edges, e.source = .step other ∧ e.target = .step name) :
    other ∈ before := by
  unfold Workflow.stepOrder at h
  obtain ⟨nodes, hnodes, h⟩ := bind_eq_ok.1 h
  cases pure_eq_ok.1 h
  -- the order of the steps is that of the nodes without inputs and outputs, so a place in it is a
  -- place among the nodes
  obtain ⟨left, right, rfl, hleft, hright⟩ := List.filterMap_eq_append_iff.1 ho
  obtain ⟨skipped, node, rest, rfl, hskipped, hnode, -⟩ := List.filterMap_eq_cons_iff.1 hright
  cases Node.stepName?_eq_some.1 hnode
  obtain ⟨e, hmem, hsource, htarget⟩ := he
  have hsplit : left ++ (skipped ++ .step name :: rest) = (left ++ skipped) ++ .step name :: rest :=
    (List.append_assoc _ _ _).symm
  have hbefore := Graph.source_mem_before (orGraphFault_eq_ok.1 hnodes) hsplit hmem htarget
  rw [hsource] at hbefore
  rcases List.mem_append.1 hbefore with hmem | hmem
  · rw [← hleft]
    exact List.mem_filterMap.2 ⟨_, hmem, rfl⟩
  · cases hskipped _ hmem

namespace Plan

/-! ### One step after another -/

/-- What a compiled step has of its step, of the order and of the steps before it. -/
theorem compileStep_eq_ok {w : Workflow} {order : List String} {compiled : List Step}
    {a : Workflow.Alignment} {step : Workflow.Step} {next : Step}
    (h : compileStep w order compiled a step = .ok next) :
    next.name = step.name ∧ next.blockType = step.blockType ∧ next.manifest = step.manifest ∧
      next.targets = step.targets ∧ next.governedBy = governors w order step.name ∧
      next.dependsOn = dependencies w.graph order step.name ∧ next.alignment = a ∧
      (∀ property b, (property, b) ∈ next.bindings →
        ∃ argument, (property, argument) ∈ step.arguments ∧ bind w compiled argument = .ok b) ∧
      ∀ property argument, (property, argument) ∈ step.arguments →
        ∃ b ∈ next.bindings.values, bind w compiled argument = .ok b := by
  unfold compileStep at h
  obtain ⟨bindings, hbindings, h⟩ := bind_eq_ok.1 h
  cases pure_eq_ok.1 h
  refine ⟨rfl, rfl, rfl, rfl, rfl, rfl, rfl, fun property b hb => ?_,
    fun property argument ha => ?_⟩
  -- arguments and bindings correspond one by one
  · obtain ⟨⟨property, argument⟩, ha, he⟩ := exists_of_mem_mapM hbindings hb
    obtain ⟨b, hbind, he⟩ := bind_eq_ok.1 he
    cases pure_eq_ok.1 he
    exact ⟨argument, ha, hbind⟩
  · obtain ⟨entry, hmem, he⟩ := exists_mem_of_mapM hbindings ha
    obtain ⟨b, hb, he⟩ := bind_eq_ok.1 he
    cases pure_eq_ok.1 he
    exact ⟨b, List.mem_map.2 ⟨_, hmem, rfl⟩, hb⟩

/-- A step binds the properties for which it has arguments, in their order. -/
theorem keys_bindings_of_compileStep {w : Workflow} {order : List String} {compiled : List Step}
    {a : Workflow.Alignment} {step : Workflow.Step} {next : Step}
    (h : compileStep w order compiled a step = .ok next) :
    Table.keys next.bindings = Table.keys step.arguments := by
  unfold compileStep at h
  obtain ⟨bindings, hbindings, h⟩ := bind_eq_ok.1 h
  cases pure_eq_ok.1 h
  refine map_eq_of_mapM hbindings fun argument entry hentry => ?_
  obtain ⟨b, -, he⟩ := bind_eq_ok.1 hentry
  cases pure_eq_ok.1 he
  rfl

/-- Every step is compiled after the steps before it. -/
theorem compileSteps_eq_ok {w : Workflow} {order : List String}
    {aligned : Table String Workflow.Alignment} {compiled steps : List Step} {names : List String}
    (h : compileSteps w order aligned compiled names = .ok steps)
    (hfound : ∀ name ∈ names, ∃ step a, w.step? name = some step ∧ aligned.get? name = some a) :
    ∃ tail, steps = compiled ++ tail ∧ tail.map (·.name) = names ∧
      ∀ earlier next later, tail = earlier ++ next :: later →
        ∃ step a, w.step? next.name = some step ∧ aligned.get? next.name = some a ∧
          compileStep w order (compiled ++ earlier) a step = .ok next := by
  induction names generalizing compiled with
  | nil =>
    cases h
    exact ⟨[], by simp, rfl, fun earlier _ _ he => by simp at he⟩
  | cons name rest ih =>
    obtain ⟨⟨step, a, hstep, ha⟩, hrest⟩ := List.forall_mem_cons.1 hfound
    simp only [compileSteps, hstep, ha] at h
    obtain ⟨first, hfirst, h⟩ := bind_eq_ok.1 h
    obtain ⟨tail, rfl, hnames, htail⟩ := ih h hrest
    have hname : first.name = name :=
      (compileStep_eq_ok hfirst).1.trans (Workflow.name_of_step? hstep).1
    refine ⟨first :: tail, by simp, by rw [List.map_cons, hname, hnames], ?_⟩
    intro earlier next later he
    -- the first step was compiled just now, the others by induction
    cases earlier with
    | nil =>
      obtain ⟨rfl, -⟩ : first = next ∧ tail = later := by simpa using he
      refine ⟨step, a, hname ▸ hstep, hname ▸ ha, by simpa using hfirst⟩
    | cons other earlier =>
      obtain ⟨rfl, hsplit⟩ : first = other ∧ tail = earlier ++ next :: later := by simpa using he
      obtain ⟨step', a', hstep', ha', hnext⟩ := htail _ _ _ hsplit
      exact ⟨step', a', hstep', ha', by simpa using hnext⟩

/-! ### Where a step looks for its values -/

/-- A selector is bound to an input of the workflow, or to a step compiled before. -/
theorem bindSelector_eq_ok {w : Workflow} {compiled : List Step} {s : Selector} {source : Source}
    (h : bindSelector w compiled s = .ok source) :
    (∃ name input, s = .input name ∧ w.input? name = some input ∧
        source = .input name input.depth) ∨
      ∃ owner step property, s.stepName? = some owner ∧
        compiled.find? (·.name == owner) = some step ∧
        source = .step owner property step.alignment.output ∧
        ((∃ p, s = .output owner p) ∨ s = .allOutputs owner) := by
  simp only [bindSelector] at h
  split at h
  · rename_i name
    split at h
    · rename_i input hinput
      cases h
      exact Or.inl ⟨name, input, rfl, hinput, rfl⟩
    · cases h
  · rename_i owner property
    split at h
    · rename_i step hstep
      cases h
      exact Or.inr ⟨owner, step, some property, rfl, hstep, rfl, Or.inl ⟨property, rfl⟩⟩
    · cases h
  · rename_i owner
    split at h
    · rename_i step hstep
      cases h
      exact Or.inr ⟨owner, step, none, rfl, hstep, rfl, Or.inr rfl⟩
    · cases h
  · cases h

/-- The sources of a bound argument are literals and what its selectors are bound to. -/
theorem mem_sources_of_bind {w : Workflow} {compiled : List Step} {a : Argument} {b : Binding}
    (h : bind w compiled a = .ok b) :
    (∀ source ∈ b.sources, source.depth? = none ∨
        a.isTargets = false ∧ ∃ s ∈ a.selectors, bindSelector w compiled s = .ok source) ∧
      (a.isTargets = false → ∀ s ∈ a.selectors,
        ∃ source ∈ b.sources, bindSelector w compiled s = .ok source) := by
  -- a term has at most one selector, and no selector if it is a literal
  have hterm : ∀ {t : Term} {source : Source}, bindTerm w compiled t = .ok source →
      source.depth? = none ∧ t.selectors = [] ∨
        ∃ s, t.selectors = [s] ∧ bindSelector w compiled s = .ok source := by
    intro t source ht
    cases t with
    | literal value => cases ht; exact Or.inl ⟨rfl, rfl⟩
    | selector s => exact Or.inr ⟨s, rfl, ht⟩
  cases a with
  | targets steps =>
    cases h
    refine ⟨fun source hs => Or.inl ?_, fun hf => by cases hf⟩
    cases List.mem_singleton.1 hs
    rfl
  | term t =>
    obtain ⟨source, hsource, h⟩ := bind_eq_ok.1 h
    cases pure_eq_ok.1 h
    refine ⟨fun source' hs => ?_, fun _ s hs => ⟨source, List.mem_cons_self, ?_⟩⟩
    · cases List.mem_singleton.1 hs
      rcases hterm hsource with ⟨hnone, -⟩ | ⟨s, hs, hb⟩
      · exact Or.inl hnone
      · exact Or.inr ⟨rfl, s, by rw [Argument.selectors, hs]; exact List.mem_cons_self, hb⟩
    · rcases hterm hsource with ⟨-, hnil⟩ | ⟨s', hs', hb⟩
      · rw [Argument.selectors, hnil] at hs; cases hs
      · rw [Argument.selectors, hs'] at hs
        cases List.mem_singleton.1 hs
        exact hb
  | map entries =>
    obtain ⟨bound, hbound, h⟩ := bind_eq_ok.1 h
    cases pure_eq_ok.1 h
    refine ⟨fun source hs => ?_, fun _ s hs => ?_⟩
    · obtain ⟨⟨name, source'⟩, hmem, rfl⟩ := List.mem_map.1 hs
      obtain ⟨⟨name', t⟩, ht, he⟩ := exists_of_mem_mapM hbound hmem
      obtain ⟨source'', hsource, he⟩ := bind_eq_ok.1 he
      cases pure_eq_ok.1 he
      rcases hterm hsource with ⟨hnone, -⟩ | ⟨s, hs, hb⟩
      · exact Or.inl hnone
      · have hmem : s ∈ t.selectors := by rw [hs]; exact List.mem_cons_self
        exact Or.inr ⟨rfl, s, List.mem_flatMap.2 ⟨_, ht, hmem⟩, hb⟩
    · obtain ⟨⟨name, t⟩, ht, hst⟩ := List.mem_flatMap.1 hs
      have hst : s ∈ t.selectors := hst
      obtain ⟨entry, hmem, he⟩ := exists_mem_of_mapM hbound ht
      obtain ⟨source, hsource, he⟩ := bind_eq_ok.1 he
      cases pure_eq_ok.1 he
      refine ⟨source, List.mem_map.2 ⟨_, hmem, rfl⟩, ?_⟩
      rcases hterm hsource with ⟨-, hnil⟩ | ⟨s', hs', hb⟩
      · rw [hnil] at hst; cases hst
      · rw [hs'] at hst
        cases List.mem_singleton.1 hst
        exact hb

/-- A compiled step looks for its values where its selectors point. -/
theorem sources_of_compileStep {w : Workflow} {order : List String} {compiled : List Step}
    {a : Workflow.Alignment} {step : Workflow.Step} {next : Step}
    (h : compileStep w order compiled a step = .ok next) :
    (∀ source ∈ next.sources, source.depth? = none ∨
        ∃ s, step.HasSource s ∧ bindSelector w compiled s = .ok source) ∧
      ∀ s, step.HasSource s → ∃ source ∈ next.sources, bindSelector w compiled s = .ok source := by
  obtain ⟨-, -, -, -, -, -, -, hfrom, hto⟩ := compileStep_eq_ok h
  constructor
  · intro source hsource
    obtain ⟨b, hb, hsource⟩ := List.mem_flatMap.1 hsource
    obtain ⟨⟨property, b⟩, hentry, rfl⟩ := List.mem_map.1 hb
    obtain ⟨argument, hargument, hbind⟩ := hfrom property b hentry
    rcases (mem_sources_of_bind hbind).1 source hsource with hnone | ⟨hkind, s, hs, hbound⟩
    · exact Or.inl hnone
    · exact Or.inr ⟨s, ⟨property, argument, hargument, hkind, hs⟩, hbound⟩
  · rintro s ⟨property, argument, hargument, hkind, hs⟩
    obtain ⟨b, hb, hbind⟩ := hto property argument hargument
    obtain ⟨source, hsource, hbound⟩ := (mem_sources_of_bind hbind).2 hkind s hs
    exact ⟨source, List.mem_flatMap.2 ⟨b, hb, hsource⟩, hbound⟩

/-- A compiled step looks at the outputs of those steps from which it takes data. -/
theorem takes_iff_of_compileStep {w : Workflow} {order : List String} {compiled : List Step}
    {a : Workflow.Alignment} {step : Workflow.Step} {next : Step}
    (h : compileStep w order compiled a step = .ok next) {name : String} :
    step.Takes name ↔ ∃ property depth, .step name property depth ∈ next.sources := by
  obtain ⟨hfrom, hto⟩ := sources_of_compileStep h
  constructor
  · rintro ⟨s, hs, hname⟩
    obtain ⟨source, hsource, hbound⟩ := hto s hs
    -- a selector that names a step is bound to that step
    rcases bindSelector_eq_ok hbound with
      ⟨_, _, rfl, -, -⟩ | ⟨owner, e, property, howner, -, rfl, -⟩
    · cases hname
    · cases hname.symm.trans howner
      exact ⟨property, _, hsource⟩
  · rintro ⟨property, depth, hsource⟩
    rcases hfrom _ hsource with hnone | ⟨s, hs, hbound⟩
    · cases hnone
    · rcases bindSelector_eq_ok hbound with ⟨_, _, -, -, he⟩ | ⟨owner, e, _, howner, -, he, -⟩
      · cases he
      · cases he
        exact ⟨s, hs, howner⟩

/-! ### For which steps a step waits -/

section Sorted

variable {order names : List String}

/-- Names that are in an order are compared by their places. -/
theorem standsBy_iff {name other : String} (hname : name ∈ order) (hother : other ∈ order) :
    standsBy order name other ↔ order.idxOf name ≤ order.idxOf other := by
  simp only [standsBy, idxOf?_of_mem hname, idxOf?_of_mem hother, decide_eq_true_eq]

/-- Names are inserted as the library inserts into a sorted list. -/
theorem insertByPlace_eq (order names : List String) (name : String) :
    insertByPlace order name names = names.orderedInsert (standsBy order · ·) name := by
  induction names with
  | nil => rfl
  | cons other rest ih => rw [insertByPlace, List.orderedInsert_cons, ih]

/-- Names are sorted as the library sorts by insertion. -/
theorem sortByPlace_eq (order names : List String) :
    sortByPlace order names = names.insertionSort (standsBy order · ·) := by
  induction names with
  | nil => rfl
  | cons name rest ih =>
    rw [List.insertionSort_cons, ← ih, ← insertByPlace_eq]
    rfl

/-- Sorting keeps the names. -/
theorem mem_sortByPlace {name : String} : name ∈ sortByPlace order names ↔ name ∈ names := by
  rw [sortByPlace_eq, List.mem_insertionSort]

/-- Sorted names stand by their places. -/
theorem pairwise_sortByPlace (order names : List String) :
    (sortByPlace order names).Pairwise fun a b => standsBy order a b := by
  have : Std.Total fun a b => standsBy order a b = true := ⟨fun a b => by
    simp only [standsBy]
    cases order.idxOf? a <;> cases order.idxOf? b <;> simp
    omega⟩
  have : IsTrans String fun a b => standsBy order a b = true := ⟨fun a b c => by
    simp only [standsBy]
    cases order.idxOf? a <;> cases order.idxOf? b <;> cases order.idxOf? c <;> simp
    omega⟩
  rw [sortByPlace_eq]
  exact List.pairwise_insertionSort _ names

/-- Sorting names of an order by their places and dropping repeats picks them from the order. -/
theorem dropRepeats_sortByPlace (hnodup : order.Nodup) (hnames : ∀ name ∈ names, name ∈ order) :
    dropRepeats (sortByPlace order names) = order.filter names.contains := by
  have hsorted : (sortByPlace order names).Pairwise fun a b =>
      a = b ∨ order.idxOf a < order.idxOf b := by
    refine (pairwise_sortByPlace order names).imp_of_mem fun {a b} ha hb hab => ?_
    have ha := hnames a (mem_sortByPlace.1 ha)
    have hle := (standsBy_iff ha (hnames b (mem_sortByPlace.1 hb))).1 hab
    rcases Nat.eq_or_lt_of_le hle with heq | hlt
    · exact Or.inl ((List.idxOf_inj ha).1 heq)
    · exact Or.inr hlt
  have hleft : (dropRepeats (sortByPlace order names)).Pairwise fun a b =>
      order.idxOf a < order.idxOf b := pairwise_dropRepeats hsorted Nat.lt_trans
  have hright := (pairwise_idxOf hnodup).filter names.contains
  -- both are sorted by the places and have the same names
  have hperm : (dropRepeats (sortByPlace order names)).Perm (order.filter names.contains) := by
    refine (List.perm_ext_iff_of_nodup (hleft.imp fun {a b} hlt => ?_)
      (hnodup.filter _)).2 fun name => ?_
    · rintro rfl
      exact Nat.lt_irrefl _ hlt
    · rw [mem_dropRepeats, mem_sortByPlace, List.mem_filter, List.contains_iff_mem]
      exact (and_iff_right_of_imp (hnames name)).symm
  refine hperm.eq_of_pairwise (fun a b _ _ hab hba => ?_) hleft hright
  exact absurd (Nat.lt_trans hab hba) (Nat.lt_irrefl _)

end Sorted

/-- The steps before a step are those from which an edge leads to it. -/
theorem mem_predecessors_iff {g : Graph} {name other : String} :
    other ∈ (g.predecessors (.step name)).filterMap (·.1.stepName?) ↔
      ∃ e ∈ g.edges, e.source = .step other ∧ e.target = .step name := by
  rw [List.mem_filterMap]
  constructor
  · rintro ⟨⟨node, kind⟩, hmem, hname⟩
    obtain ⟨e, he, heq⟩ := List.mem_map.1 hmem
    cases heq
    obtain ⟨he, htarget⟩ := List.mem_filter.1 he
    exact ⟨e, he, Node.stepName?_eq_some.1 hname, by simpa using htarget⟩
  · rintro ⟨e, he, hsource, htarget⟩
    refine ⟨(e.source, e.kind), List.mem_map.2 ⟨e, List.mem_filter.2 ⟨he, ?_⟩, rfl⟩, ?_⟩
    · simpa using htarget
    · rw [hsource]; rfl

/-- A step waits for the steps from which an edge leads to it. -/
theorem mem_dependencies_iff {g : Graph} {order : List String} {name other : String} :
    other ∈ dependencies g order name ↔
      ∃ e ∈ g.edges, e.source = .step other ∧ e.target = .step name := by
  rw [dependencies, mem_dropRepeats, mem_sortByPlace, mem_predecessors_iff]

/-- A step waits for those steps of the order from which an edge leads to it, as they stand
    there. -/
theorem dependencies_eq_filter {w : Workflow} {order : List String} (h : w.stepOrder = .ok order)
    (name : String) : dependencies w.graph order name = order.filter
      ((w.graph.predecessors (.step name)).filterMap (·.1.stepName?)).contains := by
  obtain ⟨hnodup, hsources⟩ := Workflow.stepOrder_eq_ok h
  refine dropRepeats_sortByPlace hnodup fun other hother => ?_
  obtain ⟨e, he, hsource, -⟩ := mem_predecessors_iff.1 hother
  exact hsources e he other hsource

/-- The governors of a step are those in the order that target it. -/
theorem mem_governors_iff {w : Workflow} {order : List String} {name other : String} :
    other ∈ governors w order name ↔
      other ∈ order ∧ ∃ step, w.step? other = some step ∧ name ∈ step.targets := by
  unfold governors
  rw [List.mem_filter]
  refine and_congr_right fun _ => ?_
  split
  · rename_i step hstep
    simp [hstep]
  · rename_i hnone
    simp [hnone]

end Plan

end BatchFlow
