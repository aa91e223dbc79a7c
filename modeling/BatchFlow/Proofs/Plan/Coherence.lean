import BatchFlow.Proofs.Plan.Compile
import Mathlib.Data.List.Induction
import Mathlib.Data.List.Nodup

namespace BatchFlow

/-!
# Compiled plans are coherent

* `Plan.Source.On` — the lineage of the data at which a source of a step points.
* `Plan.Coherent` — what holds of every compiled plan: a step takes data from the inputs and from
  steps before it, all on its own lineage, and waits for them and for the steps that decide about
  it, which come before it and lie on its lineage as well.
* `Definition.coherent_of_compile` — compiled plans are coherent.
* `Definition.exists_compileStep` — the step of the workflow from which a step was compiled.
* `Definition.dependsOn_sublist_of_compile` — for which steps a step waits, and in which order.
* `Definition.input_shown_of_compile` — an output that selects an input shows its data.
* `Definition.outputs_nodup_of_compile` — the outputs have different names.
-/

namespace Plan

/-- The lineage of the data at which a source points, behind some steps of a plan. -/
inductive Source.On (p : Plan) (earlier : List Step) : Source → Lineage → Prop where
  | input {i : Input} : i ∈ p.inputs → On p earlier (.input i.name i.depth) (.ofInput i.depth)
  | step {e : Step} (property : Option String) : e ∈ earlier →
      On p earlier (.step e.name property e.alignment.output) e.alignment.outputLineage

/-- What holds of a step of a compiled plan and the steps before it. -/
structure Step.Coherent (p : Plan) (earlier : List Step) (step : Step) : Prop where
  suits : step.alignment.Suits step.name step.manifest
  source : ∀ s ∈ step.sources, s.depth? = none ∨
    ∃ l, s.On p earlier l ∧ l <+: step.alignment.lineage
  deepest : 0 < step.alignment.input → ∃ s ∈ step.sources, s.On p earlier step.alignment.lineage
  named : ∀ {name property depth}, .step name property depth ∈ step.sources → isName name
  governor : ∀ g ∈ p.steps, step.name ∈ g.targets →
    g ∈ earlier ∧ g.alignment.lineage <+: step.alignment.lineage
  mem_governedBy : ∀ {name}, name ∈ step.governedBy ↔
    ∃ g ∈ p.steps, g.name = name ∧ step.name ∈ g.targets
  mem_dependsOn : ∀ {name}, name ∈ step.dependsOn ↔
    (∃ property depth, .step name property depth ∈ step.sources) ∨
      ∃ g ∈ p.steps, g.name = name ∧ step.name ∈ g.targets

/-- What holds of a compiled plan. -/
structure Coherent (p : Plan) : Prop where
  steps_nodup : p.stepNames.Nodup
  inputs_nodup : (p.inputs.map (·.name)).Nodup
  input_lineage : ∀ i ∈ p.inputs, i.lineage = .ofInput i.depth
  step : ∀ {earlier step later}, p.steps = earlier ++ step :: later → step.Coherent p earlier
  output : ∀ o ∈ p.outputs, o.source.On p p.steps o.lineage ∧
    ∀ root, o.lineage.head? = some root → root = Lineage.inputLevel

/-- What holds of a step when it holds of all steps before it holds of every step. -/
theorem forall_steps {p : Plan} {P : Step → Prop}
    (h : ∀ {earlier step later}, p.steps = earlier ++ step :: later →
      (∀ e ∈ earlier, P e) → P step) :
    ∀ step ∈ p.steps, P step := by
  have hbefore : ∀ earlier later, p.steps = earlier ++ later → ∀ step ∈ earlier, P step := by
    intro earlier
    induction earlier using List.reverseRecOn with
    | nil => exact fun _ _ => List.forall_mem_nil _
    | append_singleton earlier last ih =>
      intro later hsplit
      rw [List.append_assoc, List.singleton_append] at hsplit
      have hearlier := ih _ hsplit
      exact List.forall_mem_append.2 ⟨hearlier, List.forall_mem_singleton.2 (h hsplit hearlier)⟩
  exact hbefore p.steps [] (List.append_nil _).symm

/-- A step waits for steps before it. -/
theorem Step.Coherent.exists_of_mem_dependsOn {p : Plan} {earlier : List Step} {step : Step}
    (h : step.Coherent p earlier) {name : String} (hname : name ∈ step.dependsOn) :
    ∃ other ∈ earlier, other.name = name := by
  rcases h.mem_dependsOn.1 hname with ⟨property, depth, hsource⟩ | ⟨g, hg, rfl, ht⟩
  · rcases h.source _ hsource with hnone | ⟨l, hon, -⟩
    · cases hnone
    · cases hon with
      | step _ he => exact ⟨_, he, rfl⟩
  · exact ⟨g, (h.governor g hg ht).1, rfl⟩

/-- The data of a source is nested as deep as its lineage says. -/
theorem Source.On.depth?_eq {p : Plan} (hplan : p.Coherent) {earlier : List Step}
    (hearlier : ∀ e ∈ earlier, e ∈ p.steps) {s : Source} {l : Lineage} (h : s.On p earlier l) :
    s.depth? = some l.length := by
  cases h with
  | input hi => rw [Source.depth?, Lineage.length_ofInput]
  | step property he =>
    obtain ⟨before, after, hsplit⟩ := List.append_of_mem (hearlier _ he)
    rw [Source.depth?, (hplan.step hsplit).suits.output_length]

/-- A list of names with the names of the dependencies of each step in it. -/
def Closed (p : Plan) (names : List String) : Prop :=
  ∀ step ∈ p.steps, step.name ∈ names → ∀ name ∈ step.dependsOn, name ∈ names

/-- A level of the lineage of a step is one of an input, or it was brought about by a step before
    it, which is in every closed list that has what the step waits for. -/
theorem Coherent.level_cases {p : Plan} (hplan : p.Coherent) {names : List String}
    (hclosed : p.Closed names) {earlier : List Step} {step : Step} {later : List Step}
    (hsplit : p.steps = earlier ++ step :: later) (hnames : ∀ name ∈ step.dependsOn, name ∈ names)
    {above : Lineage} {level : String} (hlevel : above ++ [level] <+: step.alignment.lineage) :
    (∃ i ∈ p.inputs, above ++ [level] <+: Lineage.ofInput i.depth) ∨
      isName level ∧ level ∈ names ∧ level ∈ earlier.map (·.name) := by
  induction hn : earlier.length using Nat.strongRecOn generalizing earlier step later with
  | ind n ih =>
    have hstep := hplan.step hsplit
    have hpos : 0 < step.alignment.input := by
      have := hlevel.length_le
      rw [hstep.suits.length, List.length_append, List.length_singleton] at this
      omega
    -- the deepest source has the whole lineage of the step, so the level is one of its data
    obtain ⟨s, hs, hon⟩ := hstep.deepest hpos
    generalize hl : step.alignment.lineage = l at hon hlevel
    cases hon with
    | input hi => exact Or.inl ⟨_, hi, hlevel⟩
    | @step e property he =>
      obtain ⟨before, after, rfl⟩ := List.append_of_mem he
      have hsplit' : p.steps = before ++ e :: (after ++ step :: later) := by
        rw [hsplit, List.append_assoc, List.cons_append]
      have hname : e.name ∈ names := hnames _ (hstep.mem_dependsOn.2 (Or.inl ⟨_, _, hs⟩))
      have hmem : e ∈ p.steps := hsplit' ▸ List.mem_append_right _ List.mem_cons_self
      -- the step that the data comes from lies before this one
      have hbefore : above ++ [level] <+: e.alignment.lineage →
          (∃ i ∈ p.inputs, above ++ [level] <+: Lineage.ofInput i.depth) ∨
            isName level ∧ level ∈ names ∧ level ∈ (before ++ e :: after).map (·.name) := by
        intro hlevel
        have hlt : before.length < n := by
          rw [← hn, List.length_append, List.length_cons]
          omega
        refine (ih _ hlt hsplit' (hclosed e hmem hname) hlevel rfl).imp_right ?_
        rintro ⟨hisName, hin, hearlier⟩
        exact ⟨hisName, hin, by rw [List.map_append]; exact List.mem_append_left _ hearlier⟩
      have hsuits := (hplan.step hsplit').suits
      cases ht : e.manifest.transform with
      | identity =>
        rw [(hsuits.identity ht).2] at hlevel
        exact hbefore hlevel
      | increment =>
        -- the step adds one level, its own; the others are those of its inputs
        rw [(hsuits.increment ht).2, List.prefix_concat_iff] at hlevel
        rcases hlevel with he' | hlevel
        · have hlast : level = e.name := by simpa using (List.append_inj' he' rfl).2
          exact Or.inr ⟨hlast ▸ hstep.named hs, hlast ▸ hname, hlast ▸ List.mem_map_of_mem he⟩
        · exact hbefore hlevel
      | decrement =>
        rw [(hsuits.decrement ht).2.2] at hlevel
        exact hbefore (hlevel.trans (List.take_prefix _ _))

/-! ### Where selectors point -/

/-- A workflow, the order of its steps and their alignments, from which a plan is made. -/
structure Made (w : Workflow) (order : List String) (aligned : Table String Workflow.Alignment)
    (p : Plan) : Prop where
  order_eq : w.stepOrder = .ok order
  aligned_eq : w.align order = .ok aligned
  inputs_eq : p.inputs = w.inputs.map compileInput
  steps_eq : compileSteps w order aligned [] order = .ok p.steps
  outputs_eq : w.outputs.mapM (compileOutput p.inputs p.steps) = .ok p.outputs

/-- A plan is made from some order and some alignment. -/
theorem made_of_plan {w : Workflow} {initParameters : Table String Json} {p : Plan}
    (h : w.plan initParameters = .ok p) : ∃ order aligned, Made w order aligned p := by
  unfold Workflow.plan at h
  obtain ⟨⟨⟩, -, h⟩ := bind_eq_ok.1 h
  obtain ⟨order, horder, h⟩ := bind_eq_ok.1 h
  obtain ⟨aligned, haligned, h⟩ := bind_eq_ok.1 h
  obtain ⟨steps, hsteps, h⟩ := bind_eq_ok.1 h
  obtain ⟨outputs, houtputs, h⟩ := bind_eq_ok.1 h
  cases pure_eq_ok.1 h
  exact ⟨order, aligned, horder, haligned, rfl, hsteps, houtputs⟩

section Made

variable {registry : Registry} {d : Definition} {w : Workflow} {order : List String}
  {aligned : Table String Workflow.Alignment} {p : Plan}

/-- What is found by its name is there, with that name. -/
theorem mem_of_find? {steps : List Step} {name : String} {e : Step}
    (h : steps.find? (·.name == name) = some e) : e ∈ steps ∧ e.name = name :=
  ⟨List.mem_of_find?_eq_some h, by simpa using List.find?_some h⟩

/-- An input that is found by its name is there, with that name. -/
theorem input_of_input? {name : String} {input : Workflow.Input} (h : w.input? name = some input) :
    input ∈ w.inputs ∧ input.name = name :=
  ⟨List.mem_of_find?_eq_some h, by simpa using List.find?_some h⟩

/-- An input of a plan has levels of supplied batches. -/
theorem Made.input_lineage (h : Made w order aligned p) {i : Input} (hi : i ∈ p.inputs) :
    i.lineage = .ofInput i.depth := by
  rw [h.inputs_eq] at hi
  obtain ⟨input, -, rfl⟩ := List.mem_map.1 hi
  rfl

/-- No step stands twice in the order. -/
theorem Made.order_nodup (h : Made w order aligned p) (hw : d.Resolves registry w) :
    order.Nodup :=
  (hw.stepOrder_perm h.order_eq).nodup_iff.2 hw.step_names_nodup

/-- Every step of the order has an alignment, which goes with the steps before it. -/
theorem Made.aligns (h : Made w order aligned p) (hw : d.Resolves registry w)
    {before : List String} {name : String} {after : List String}
    (ho : order = before ++ name :: after) :
    ∃ step a earlier, w.step? name = some step ∧ aligned.get? name = some a ∧
      Workflow.Aligns w earlier step a ∧
      ∀ n, earlier.get? n = if n ∈ before then aligned.get? n else none := by
  obtain ⟨hall, -⟩ := Workflow.align_eq_ok h.aligned_eq
  have hnone : ∀ n b, Table.get? ([] : Table String Workflow.Alignment) n = some b →
      b.outputLineage.length = b.output := fun n b hb => by cases hb
  exact (Workflow.alignAll_eq_ok hall (h.order_nodup hw) (fun _ _ => rfl) hnone).2
    before name after ho

/-- The steps of the plan are those of the workflow in order, compiled one after another. -/
theorem Made.steps (h : Made w order aligned p) (hw : d.Resolves registry w) :
    p.stepNames = order ∧ ∀ earlier next later, p.steps = earlier ++ next :: later →
      ∃ step a, w.step? next.name = some step ∧ aligned.get? next.name = some a ∧
        compileStep w order earlier a step = .ok next := by
  have hfound : ∀ name ∈ order, ∃ step a, w.step? name = some step ∧
      aligned.get? name = some a := by
    intro name hname
    obtain ⟨before, after, ho⟩ := List.append_of_mem hname
    obtain ⟨step, a, -, hstep, ha, -, -⟩ := h.aligns hw ho
    exact ⟨step, a, hstep, ha⟩
  obtain ⟨tail, htail, hnames, hcompiled⟩ := compileSteps_eq_ok h.steps_eq hfound
  rw [List.nil_append] at htail
  subst htail
  exact ⟨hnames, fun earlier next later he => by simpa using hcompiled earlier next later he⟩

/-- A step of the plan is a step of the workflow with an alignment. -/
theorem Made.step_of_mem (h : Made w order aligned p) (hw : d.Resolves registry w) {e : Step}
    (he : e ∈ p.steps) : ∃ step, w.step? e.name = some step ∧ e.targets = step.targets ∧
      aligned.get? e.name = some e.alignment := by
  obtain ⟨earlier, later, hsplit⟩ := List.append_of_mem he
  obtain ⟨step, a, hstep, ha, hcompiled⟩ := (h.steps hw).2 earlier e later hsplit
  obtain ⟨-, -, -, htargets, -, -, halignment, -⟩ := compileStep_eq_ok hcompiled
  exact ⟨step, hstep, htargets, halignment ▸ ha⟩

/-- A selector is bound to data whose lineage is the one for which the step was aligned. -/
theorem Made.on_of_bindSelector (h : Made w order aligned p) (hw : d.Resolves registry w)
    {earlier : List Step} {rest : List Step} (hsplit : p.steps = earlier ++ rest)
    {known : Table String Workflow.Alignment}
    (hknown : ∀ n, known.get? n = if n ∈ earlier.map (·.name) then aligned.get? n else none)
    {s : Selector} {source : Source} (hbound : bindSelector w earlier s = .ok source)
    {data : Workflow.Source} (hdata : Workflow.sourceOf w known s = .ok data) :
    source.On p earlier data.lineage := by
  rcases bindSelector_eq_ok hbound with
    ⟨name, input, rfl, hinput, rfl⟩ | ⟨owner, e, property, -, hfind, rfl, hs⟩
  · simp only [Workflow.sourceOf, hinput] at hdata
    cases hdata
    obtain ⟨hmem, rfl⟩ := input_of_input? hinput
    have hcompiled : compileInput input ∈ p.inputs := by
      rw [h.inputs_eq]
      exact List.mem_map_of_mem hmem
    exact .input hcompiled
  · obtain ⟨hmem, rfl⟩ := mem_of_find? hfind
    have he : e ∈ p.steps := hsplit ▸ List.mem_append_left _ hmem
    obtain ⟨-, -, -, ha⟩ := h.step_of_mem hw he
    -- the owner stands before, so its alignment is the one that was known
    have hget : known.get? e.name = some e.alignment := by
      rw [hknown, if_pos (List.mem_map_of_mem hmem), ha]
    have hlineage : data = ⟨s.text, e.alignment.output, e.alignment.outputLineage⟩ := by
      rcases hs with ⟨q, rfl⟩ | rfl
      · simp only [Workflow.sourceOf, hget] at hdata
        cases hdata
        rfl
      · simp only [Workflow.sourceOf, hget] at hdata
        cases hdata
        rfl
    rw [hlineage]
    exact .step property hmem

/-- The order lists the steps of the plan. -/
theorem Made.order_split (h : Made w order aligned p) (hw : d.Resolves registry w)
    {earlier : List Step} {next : Step} {later : List Step}
    (hsplit : p.steps = earlier ++ next :: later) :
    order = earlier.map (·.name) ++ next.name :: later.map (·.name) := by
  rw [← (h.steps hw).1, stepNames, hsplit, List.map_append, List.map_cons]

/-- A step of the plan stands among those compiled before another one when an edge leads there. -/
theorem Made.mem_earlier_of_edge (h : Made w order aligned p) (hw : d.Resolves registry w)
    {earlier : List Step} {next : Step} {later : List Step}
    (hsplit : p.steps = earlier ++ next :: later) {name : String}
    (he : ∃ e ∈ w.graph.edges, e.source = .step name ∧ e.target = .step next.name) :
    name ∈ earlier.map (·.name) :=
  Workflow.mem_before_of_edge h.order_eq (h.order_split hw hsplit) he

/-- The steps that decide about another, in the plan and in the workflow. -/
theorem Made.governor_iff (h : Made w order aligned p) (hw : d.Resolves registry w)
    {name target : String} :
    (∃ g ∈ p.steps, g.name = name ∧ target ∈ g.targets) ↔
      ∃ step ∈ w.steps, step.name = name ∧ target ∈ step.targets := by
  constructor
  · rintro ⟨g, hg, rfl, ht⟩
    obtain ⟨step, hstep, htargets, -⟩ := h.step_of_mem hw hg
    obtain ⟨hname, hmem⟩ := Workflow.name_of_step? hstep
    exact ⟨step, hmem, hname, htargets ▸ ht⟩
  · rintro ⟨step, hmem, rfl, ht⟩
    have horder : step.name ∈ p.stepNames := by
      rw [(h.steps hw).1]
      exact (hw.stepOrder_perm h.order_eq).mem_iff.2 (List.mem_map_of_mem hmem)
    obtain ⟨g, hg, hname⟩ := List.mem_map.1 horder
    obtain ⟨step', hstep', htargets, -⟩ := h.step_of_mem hw hg
    rw [hname, hw.step?_eq_some hmem] at hstep'
    cases hstep'
    exact ⟨g, hg, hname, htargets ▸ ht⟩

/-! ### One step of a plan -/

/-- How a step of a plan came about: it was compiled from a step of the workflow behind the steps
    before it, and aligned with those of them that were known. -/
structure Step.MadeFrom (w : Workflow) (order : List String)
    (aligned known : Table String Workflow.Alignment) (earlier : List Step) (next : Step)
    (step : Workflow.Step) : Prop where
  found : w.step? next.name = some step
  compiled : compileStep w order earlier next.alignment step = .ok next
  aligned_eq : aligned.get? next.name = some next.alignment
  aligns : Workflow.Aligns w known step next.alignment
  known_eq : ∀ n, known.get? n = if n ∈ earlier.map (·.name) then aligned.get? n else none

variable {known : Table String Workflow.Alignment} {earlier : List Step} {next : Step}
  {later : List Step} {step : Workflow.Step}

/-- Each step of a plan is made from a step of the workflow and the steps before it. -/
theorem Made.exists_madeFrom (h : Made w order aligned p) (hw : d.Resolves registry w)
    (hsplit : p.steps = earlier ++ next :: later) :
    ∃ step known, next.MadeFrom w order aligned known earlier step := by
  obtain ⟨step, a, hstep, ha, hnext⟩ := (h.steps hw).2 earlier next later hsplit
  obtain ⟨step', a', known, hstep', ha', haligns, hknown⟩ :=
    h.aligns hw (h.order_split hw hsplit)
  cases hstep.symm.trans hstep'
  cases ha.symm.trans ha'
  obtain ⟨-, -, -, -, -, -, rfl, -⟩ := compileStep_eq_ok hnext
  exact ⟨step, known, hstep, hnext, ha, haligns, hknown⟩

/-- The data of a bound selector lies on the lineage for which the step was aligned. -/
theorem Made.exists_data (h : Made w order aligned p) (hw : d.Resolves registry w)
    (hsplit : p.steps = earlier ++ next :: later)
    (hfrom : next.MadeFrom w order aligned known earlier step) {s : Selector} {source : Source}
    (hs : step.HasSource s) (hbound : bindSelector w earlier s = .ok source) :
    ∃ data, Workflow.sourceOf w known s = .ok data ∧ source.On p earlier data.lineage ∧
      data.lineage.length = data.depth ∧ data.lineage <+: next.alignment.lineage := by
  obtain ⟨data, hdata, hlength, hbegin⟩ := hfrom.aligns.source s hs
  have hon := h.on_of_bindSelector hw hsplit hfrom.known_eq hbound hdata
  exact ⟨data, hdata, hon, hlength, hbegin⟩

/-- One of the sources of a step lies as deep as the step itself. -/
theorem Made.deepest (h : Made w order aligned p) (hw : d.Resolves registry w)
    (hsplit : p.steps = earlier ++ next :: later)
    (hfrom : next.MadeFrom w order aligned known earlier step) (hpos : 0 < next.alignment.input) :
    ∃ source ∈ next.sources, source.On p earlier next.alignment.lineage := by
  obtain ⟨s, data, hs, hdata, hdepth⟩ := hfrom.aligns.deepest hpos
  obtain ⟨source, hsource, hbound⟩ := (sources_of_compileStep hfrom.compiled).2 s hs
  obtain ⟨data', hdata', hon, hlength, hbegin⟩ := h.exists_data hw hsplit hfrom hs hbound
  cases hdata.symm.trans hdata'
  have hlineage : data.lineage = next.alignment.lineage :=
    hbegin.eq_of_length (by rw [hlength, hdepth, hfrom.aligns.suits.length])
  exact ⟨source, hsource, hlineage ▸ hon⟩

/-- An edge into a step is data that it takes or a decision about it. -/
theorem Made.edge_iff (h : Made w order aligned p) (hw : d.Resolves registry w)
    (hfrom : next.MadeFrom w order aligned known earlier step) {name : String} :
    (∃ e ∈ w.graph.edges, e.source = .step name ∧ e.target = .step next.name) ↔
      (∃ property depth, .step name property depth ∈ next.sources) ∨
        ∃ g ∈ p.steps, g.name = name ∧ next.name ∈ g.targets := by
  obtain ⟨hname, hmem⟩ := Workflow.name_of_step? hfrom.found
  rw [hw.edge_iff, h.governor_iff hw, ← takes_iff_of_compileStep hfrom.compiled]
  refine or_congr_left ⟨?_, fun htakes => ⟨step, hmem, hname, htakes⟩⟩
  rintro ⟨taker, htaker, hsame, htakes⟩
  have hfound := hw.step?_eq_some htaker
  rw [hsame] at hfound
  cases hfrom.found.symm.trans hfound
  exact htakes

/-- A step that decides about another comes before it and lies on its lineage. -/
theorem Made.governor (h : Made w order aligned p) (hw : d.Resolves registry w)
    (hsplit : p.steps = earlier ++ next :: later)
    (hfrom : next.MadeFrom w order aligned known earlier step) {g : Step} (hg : g ∈ p.steps)
    (ht : next.name ∈ g.targets) :
    g ∈ earlier ∧ g.alignment.lineage <+: next.alignment.lineage := by
  have hnodup : p.stepNames.Nodup := (h.steps hw).1 ▸ h.order_nodup hw
  have hbefore := h.mem_earlier_of_edge hw hsplit
    ((h.edge_iff hw hfrom).2 (Or.inr ⟨g, hg, rfl, ht⟩))
  obtain ⟨g', hg', hsame⟩ := List.mem_map.1 hbefore
  have he : g' = g :=
    List.inj_on_of_nodup_map hnodup (hsplit ▸ List.mem_append_left _ hg') hg hsame
  obtain ⟨gstep, hgstep, hgtargets, hgaligned⟩ := h.step_of_mem hw hg
  obtain ⟨hgname, hgmem⟩ := Workflow.name_of_step? hgstep
  have hgoverns := Workflow.governs_of_checkGovernance
    ((Workflow.align_eq_ok h.aligned_eq).2 gstep hgmem) (hgname ▸ hgaligned) (hgtargets ▸ ht)
    hfrom.aligned_eq
  exact ⟨he ▸ hg', hgoverns.2⟩

/-- The steps of a compiled plan are coherent. -/
theorem Made.step_coherent (h : Made w order aligned p) (hw : d.Resolves registry w)
    (hsplit : p.steps = earlier ++ next :: later) : next.Coherent p earlier := by
  obtain ⟨step, known, hfrom⟩ := h.exists_madeFrom hw hsplit
  obtain ⟨hname, hmem⟩ := Workflow.name_of_step? hfrom.found
  obtain ⟨-, -, hmanifest, -, hgoverned, hdepends, -⟩ := compileStep_eq_ok hfrom.compiled
  constructor
  case suits =>
    rw [← hname, hmanifest]
    exact hfrom.aligns.suits
  -- a source is a literal or comes from a selector, and then from data that lines up
  case source =>
    intro source hsource
    rcases (sources_of_compileStep hfrom.compiled).1 source hsource with hnone | ⟨s, hs, hbound⟩
    · exact Or.inl hnone
    · obtain ⟨data, -, hon, -, hbegin⟩ := h.exists_data hw hsplit hfrom hs hbound
      exact Or.inr ⟨data.lineage, hon, hbegin⟩
  case deepest => exact h.deepest hw hsplit hfrom
  case named =>
    intro name property depth hsource
    exact hw.isName_of_takes hmem
      ((takes_iff_of_compileStep hfrom.compiled).2 ⟨property, depth, hsource⟩)
  case governor => exact fun g hg ht => h.governor hw hsplit hfrom hg ht
  case mem_governedBy =>
    intro name
    rw [hgoverned, mem_governors_iff, h.governor_iff hw, hname]
    constructor
    · rintro ⟨-, g, hg, ht⟩
      obtain ⟨hgname, hgmem⟩ := Workflow.name_of_step? hg
      exact ⟨g, hgmem, hgname, ht⟩
    · rintro ⟨g, hg, rfl, ht⟩
      exact ⟨(hw.stepOrder_perm h.order_eq).mem_iff.2 (List.mem_map_of_mem hg), g,
        hw.step?_eq_some hg, ht⟩
  case mem_dependsOn =>
    intro name
    rw [hdepends, mem_dependencies_iff, hname, ← h.edge_iff hw hfrom]

/-- A step waits for steps of the plan, for each once and in its order. -/
theorem Made.dependsOn_sublist (h : Made w order aligned p) (hw : d.Resolves registry w)
    {earlier : List Step} {step : Step} {later : List Step}
    (hsplit : p.steps = earlier ++ step :: later) : step.dependsOn.Sublist p.stepNames := by
  obtain ⟨wstep, a, -, -, hcompiled⟩ := (h.steps hw).2 earlier step later hsplit
  obtain ⟨-, -, -, -, -, hdepends, -⟩ := compileStep_eq_ok hcompiled
  rw [hdepends, dependencies_eq_filter h.order_eq, ← (h.steps hw).1]
  exact List.filter_sublist

/-! ### A whole plan -/

/-- The outputs of a compiled plan show data of its inputs and steps. -/
theorem Made.output_coherent (h : Made w order aligned p) {o : Output} (ho : o ∈ p.outputs) :
    o.source.On p p.steps o.lineage ∧
      ∀ root, o.lineage.head? = some root → root = Lineage.inputLevel := by
  obtain ⟨output, -, h'⟩ := exists_of_mem_mapM h.outputs_eq ho
  unfold compileOutput at h'
  obtain ⟨⟨source, lineage⟩, hbound, h'⟩ := bind_eq_ok.1 h'
  have hon : source.On p p.steps lineage := by
    simp only [bindOutput] at hbound
    -- what an output points at is an input of the plan or one of its steps
    split at hbound
    · split at hbound
      · rename_i name _ _ i hi
        cases hbound
        have hmem : i ∈ p.inputs := List.mem_of_find?_eq_some hi
        obtain rfl : i.name = name := by simpa using List.find?_some hi
        rw [h.input_lineage hmem]
        exact .input hmem
      · cases hbound
    · split at hbound
      · rename_i e he
        cases hbound
        obtain ⟨hmem, rfl⟩ := mem_of_find? he
        exact .step _ hmem
      · cases hbound
    · split at hbound
      · rename_i e he
        cases hbound
        obtain ⟨hmem, rfl⟩ := mem_of_find? he
        exact .step _ hmem
      · cases hbound
    · cases hbound
  dsimp only at h'
  split at h'
  · rename_i root hroot
    split at h'
    · cases h'
    · rename_i hinput
      cases pure_eq_ok.1 h'
      refine ⟨hon, fun root' hroot' => ?_⟩
      rw [hroot] at hroot'
      cases hroot'
      exact Classical.not_not.1 hinput
  · rename_i hnone
    cases pure_eq_ok.1 h'
    exact ⟨hon, fun root' hroot' => by rw [hnone] at hroot'; cases hroot'⟩

/-- The outputs of a compiled plan show the data that their selectors address. -/
theorem Made.bindOutput_eq (h : Made w order aligned p) {o : Output} (ho : o ∈ p.outputs) :
    bindOutput p.inputs p.steps o.selector = .ok (o.source, o.lineage) := by
  obtain ⟨output, -, hcompiled⟩ := exists_of_mem_mapM h.outputs_eq ho
  unfold compileOutput at hcompiled
  obtain ⟨⟨source, lineage⟩, hbound, hcompiled⟩ := bind_eq_ok.1 hcompiled
  dsimp only at hcompiled
  split at hcompiled
  · split at hcompiled
    · cases hcompiled
    · cases pure_eq_ok.1 hcompiled
      exact hbound
  · cases pure_eq_ok.1 hcompiled
    exact hbound

/-- The outputs of a compiled plan have the names of those of the workflow. -/
theorem Made.output_names (h : Made w order aligned p) :
    p.outputs.map (·.name) = w.outputs.map (·.name) := by
  refine map_eq_of_mapM h.outputs_eq fun output compiled hcompiled => ?_
  unfold compileOutput at hcompiled
  obtain ⟨⟨source, lineage⟩, -, hcompiled⟩ := bind_eq_ok.1 hcompiled
  dsimp only at hcompiled
  split at hcompiled
  · split at hcompiled
    · cases hcompiled
    · cases pure_eq_ok.1 hcompiled
      rfl
  · cases pure_eq_ok.1 hcompiled
    rfl

end Made

/-- Plans made from a workflow are coherent. -/
theorem Made.coherent {registry : Registry} {d : Definition} {w : Workflow} {order : List String}
    {aligned : Table String Workflow.Alignment} {p : Plan} (h : Made w order aligned p)
    (hw : d.Resolves registry w) : p.Coherent where
  steps_nodup := (h.steps hw).1 ▸ h.order_nodup hw
  inputs_nodup := by
    rw [h.inputs_eq, List.map_map]
    exact hw.input_names_nodup
  input_lineage _ hi := h.input_lineage hi
  step hsplit := h.step_coherent hw hsplit
  output _ ho := h.output_coherent ho

end Plan

section Compile

variable {registry : Registry} {initParameters : Table String Json} {d : Definition} {p : Plan}

/-- A compiled plan is made from the workflow to which its definition resolves. -/
theorem Definition.exists_made (h : d.compile registry initParameters = .ok p) :
    ∃ w order aligned, d.Resolves registry w ∧ Plan.Made w order aligned p := by
  unfold Definition.compile at h
  obtain ⟨w, hresolve, h⟩ := bind_eq_ok.1 h
  obtain ⟨order, aligned, hmade⟩ := Plan.made_of_plan h
  exact ⟨w, order, aligned, Definition.resolves_of_resolve hresolve, hmade⟩

/-- Compiled plans are coherent. -/
theorem Definition.coherent_of_compile (h : d.compile registry initParameters = .ok p) :
    p.Coherent := by
  obtain ⟨w, order, aligned, hw, hmade⟩ := exists_made h
  exact hmade.coherent hw

/-- A step of a compiled plan was compiled from a step of the workflow. -/
theorem Definition.exists_compileStep (h : d.compile registry initParameters = .ok p)
    {step : Plan.Step} (hstep : step ∈ p.steps) :
    ∃ w earlier wstep, d.Resolves registry w ∧ wstep ∈ w.steps ∧
      Plan.compileStep w p.stepNames earlier step.alignment wstep = .ok step := by
  obtain ⟨w, order, aligned, hw, hmade⟩ := exists_made h
  obtain ⟨earlier, later, hsplit⟩ := List.append_of_mem hstep
  obtain ⟨wstep, known, hfrom⟩ := hmade.exists_madeFrom hw hsplit
  exact ⟨w, earlier, wstep, hw, (Workflow.name_of_step? hfrom.found).2,
    (hmade.steps hw).1 ▸ hfrom.compiled⟩

/-- The steps of a compiled plan wait for steps of the plan, for each once and in its order. -/
theorem Definition.dependsOn_sublist_of_compile (h : d.compile registry initParameters = .ok p)
    {step : Plan.Step} (hstep : step ∈ p.steps) : step.dependsOn.Sublist p.stepNames := by
  obtain ⟨w, order, aligned, hw, hmade⟩ := exists_made h
  obtain ⟨earlier, later, hsplit⟩ := List.append_of_mem hstep
  exact hmade.dependsOn_sublist hw hsplit

/-- An output of a compiled plan that selects an input shows its data. -/
theorem Definition.input_shown_of_compile (h : d.compile registry initParameters = .ok p)
    {i : Plan.Input} (hi : i ∈ p.inputs) {o : Plan.Output} (ho : o ∈ p.outputs)
    (hselector : o.selector = .input i.name) :
    o.source = .input i.name i.depth ∧ o.lineage = .ofInput i.depth := by
  obtain ⟨w, order, aligned, hw, hmade⟩ := exists_made h
  have hbound := hmade.bindOutput_eq ho
  have hfind : p.inputs.find? (·.name == i.name) = some i :=
    Table.find?_name (hmade.coherent hw).inputs_nodup hi
  rw [hselector, Plan.bindOutput, hfind] at hbound
  obtain ⟨hsource, hlineage⟩ := Prod.mk.inj (Except.ok.inj hbound)
  exact ⟨hsource.symm, hlineage.symm.trans (hmade.input_lineage hi)⟩

/-- The outputs of a compiled plan have different names. -/
theorem Definition.outputs_nodup_of_compile (h : d.compile registry initParameters = .ok p) :
    (p.outputs.map (·.name)).Nodup := by
  obtain ⟨w, order, aligned, hw, hmade⟩ := exists_made h
  rw [hmade.output_names]
  exact hw.output_names_nodup

end Compile

end BatchFlow
