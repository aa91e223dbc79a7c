import BatchFlow.Catalog.FlowControl
import BatchFlow.Proofs.Run.Executions
import BatchFlow.Proofs.Run.Governors
import BatchFlow.Proofs.Run.Honest
import BatchFlow.Proofs.Run.Rooted

namespace BatchFlow

/-!
# Branches that exclude each other

A condition chooses one of two lists of steps at each element at which it runs. A step that one of
the lists has and the other has not runs below an element only if its list was chosen there, so two
steps of different lists never run below the same element.

* `Plan.Step.namesIn` — the names that a step passes for one of its properties.
* `Catalog.condition_eq_ok` — a condition returns what one of two properties lists.
* `Reaches.decision_of_condition` — so does a step with that block, at every element.
* `Executes.selected_above` — a step runs only below elements for which it was selected.
* `exclusive_branches` — targets of different lists exclude each other.
-/

/-- The names that a step passes for one of its properties. -/
def Plan.Step.namesIn (step : Plan.Step) (property : String) : List String :=
  match step.bindings.get? property with
  | some (.source (.literal value)) => value.strings?.getD []
  | _ => []

/-- The names that are passed for a property for targets are names of targets. -/
theorem Plan.Step.PassesTargets.mem_targets {step : Plan.Step} (h : step.PassesTargets)
    {property : String} (hlists : step.manifest.ListsTargets property) {name : String}
    (hname : name ∈ step.namesIn property) : name ∈ step.targets := by
  unfold Plan.Step.namesIn at hname
  split at hname
  · rename_i value hbinding
    obtain ⟨names, he, hnames⟩ := h property _ (Table.mem_of_get? hbinding) hlists
    cases he
    cases htexts : (Json.ofStrings names).strings? with
    | none =>
      rw [htexts] at hname
      cases hname
    | some texts =>
      rw [htexts] at hname
      exact hnames name (Json.mem_of_lists_ofStrings (Json.lists_of_strings? htexts hname))
  · cases hname

/-- A step that reads a property for targets reads the names that are passed for it. -/
theorem View.namesIn_eq {view : View} {governing : List BranchId} {step : Plan.Step}
    (h : step.PassesTargets) {property : String} (hlists : step.manifest.ListsTargets property)
    {x : Index × Values} (hx : x ∈ view.invocation governing step) {names : List String}
    (hread : x.2.optional? property [] Json.strings? = some names) :
    names = step.namesIn property := by
  obtain ⟨cursor, hvalues⟩ := View.exists_of_mem_invocation hx
  unfold Table.optional? at hread
  rw [hvalues, Table.get?_mapValues step.bindings
    (fun _ b => view.bindingValue governing cursor b)] at hread
  unfold Plan.Step.namesIn
  cases hbinding : step.bindings.get? property with
  | none =>
    rw [hbinding] at hread
    exact (Option.some.inj hread).symm
  | some b =>
    obtain ⟨passed, rfl, -⟩ := h property b (Table.mem_of_get? hbinding) hlists
    rw [hbinding, Option.map_some, View.bindingValue_literal] at hread
    show names = (Json.ofStrings passed).strings?.getD []
    rw [show (Json.ofStrings passed).strings? = some names from hread]
    rfl

/-- A condition returns what one of its two properties for targets lists. -/
theorem Catalog.condition_eq_ok {call : Call} {inputs : Values} {output : Output}
    (h : condition.execute call inputs = .ok output) :
    ∃ property names, (property = "steps_if_true" ∨ property = "steps_if_false") ∧
      inputs.optional? property [] Json.strings? = some names ∧ output = .decision names := by
  obtain ⟨read, hread, h⟩ := bind_eq_ok.1 h
  obtain ⟨outcome, -, h⟩ := bind_eq_ok.1 h
  obtain ⟨statement, -, hread⟩ := Option.bind_eq_some_iff.1 (Catalog.readInputs_eq_ok.1 hread)
  obtain ⟨parameters, -, hread⟩ := Option.bind_eq_some_iff.1 hread
  obtain ⟨ifTrue, hifTrue, hread⟩ := Option.bind_eq_some_iff.1 hread
  obtain ⟨ifFalse, hifFalse, hread⟩ := Option.bind_eq_some_iff.1 hread
  cases hread
  cases pure_eq_ok.1 h
  cases outcome with
  | true => exact ⟨_, ifTrue, Or.inl rfl, hifTrue, rfl⟩
  | false => exact ⟨_, ifFalse, Or.inr rfl, hifFalse, rfl⟩

section Reaches

variable {context : RunContext} {shape : BatchStructure} {j : Journal} {s : RunState}

/-- What a task returned for an element came of the values of the element, when the block of its
    step deals with elements one by one. -/
theorem Entry.Returned.exists_execute {block : Block} (hblock : block.IsElementwise)
    {elements : Invocation} {e : Entry} (h : e.Returned context elements)
    (hbound : ∀ other, context.engine.blocks.get? e.step.blockType = some other → other = block)
    {o : Index × Output} (ho : o ∈ e.outputs) :
    ∃ x ∈ elements, x.1 = o.1 ∧ ∃ call, block.execute call x.2 = .ok o.2 := by
  rcases h with ⟨-, hnil⟩ | ⟨-, outputs, houtcome, -, houtputs⟩
  · rw [hnil] at ho
    cases ho
  · unfold Task.outcome at houtcome
    split at houtcome
    · rename_i other hfound
      rw [hbound other hfound, hblock.executeAll_eq, mapM_eq_ok,
        List.forall₂_map_left_iff] at houtcome
      rw [houtputs] at ho
      obtain ⟨x, hx, hindex, hexecute⟩ := forall_mem_zip_of_forall₂ houtcome o ho
      exact ⟨x, hx, hindex, _, hexecute⟩
    · cases houtcome

/-- A step with a condition as its block decides at each element for what one of two properties
    lists. -/
theorem Reaches.decision_of_condition (h : Reaches context shape j s) {e : Entry} (he : e ∈ j)
    (htargets : e.step.PassesTargets) (hmanifest : e.step.manifest = Catalog.condition.manifest)
    (hbound : ∀ block, context.engine.blocks.get? e.step.blockType = some block →
      block = Catalog.condition)
    {index : Index} {next : List String} (hnext : (index, .decision next) ∈ e.outputs) :
    next = e.step.namesIn "steps_if_true" ∨ next = e.step.namesIn "steps_if_false" := by
  obtain ⟨elements, ⟨j', s', -, -, -, -, rfl⟩, hreturned⟩ := h.origin_of_entry he
  have helementwise : Catalog.condition.IsElementwise := fun _ _ => rfl
  obtain ⟨x, hx, -, call, hexecute⟩ := hreturned.exists_execute helementwise hbound hnext
  obtain ⟨property, names, hproperty, hread, houtput⟩ := Catalog.condition_eq_ok hexecute
  cases houtput
  have hmem : x ∈ (s'.view context).invocation (s'.governing e.step) e.step := by
    rw [RunState.elements] at hx
    split at hx
    · cases hx
    · exact hx
  have hlists : e.step.manifest.ListsTargets property := by
    rw [hmanifest]
    rcases hproperty with rfl | rfl <;> decide
  have hnames := View.namesIn_eq htargets hlists hmem hread
  rcases hproperty with rfl | rfl
  · exact Or.inl hnames
  · exact Or.inr hnames

/-- A step that is done has decided once at an element. -/
theorem Reaches.decision_unique (hplan : context.engine.plan.Coherent)
    (h : Reaches context shape j s) {e : Entry} (he : e ∈ j) {index : Index} {o o' : Output}
    (ho : (index, o) ∈ e.outputs) (ho' : (index, o') ∈ e.outputs) : o = o' := by
  have hnodup := (h.indices_of_entry hplan he).1
  exact congrArg Prod.snd (List.inj_on_of_nodup_map hnodup ho ho' rfl)

end Reaches

namespace Executes

variable {context : RunContext} {shape : BatchStructure} {j : Journal} {started : List Task}
  {s : RunState}

/-- A step that does not fold runs at or below the depth of the steps that decide about it. -/
theorem input_le_length (hplan : context.engine.plan.Coherent)
    (h : Executes context shape j started s) {a : Task} (ha : a ∈ started)
    (hkeeps : a.step.manifest.transform ≠ .decrement) {g : Plan.Step}
    (hg : g ∈ context.engine.plan.steps) (htarget : a.step.name ∈ g.targets) {index : Index}
    (hindex : index ∈ a.indices) : g.alignment.input ≤ index.length := by
  obtain ⟨-, j', s', hreaches, -, -, hready, -⟩ := h.origin a ha
  obtain ⟨earlier, later, hsplit⟩ := List.append_of_mem (hreaches.tracks.mem_steps_of_ready hready)
  obtain ⟨before, after, hsplit'⟩ := List.append_of_mem hg
  have hstep := hplan.step hsplit
  have hbelow := (hstep.governor g hg htarget).2.length_le
  rw [(hplan.step hsplit').suits.length, hstep.suits.length] at hbelow
  rwa [h.length_of_mem_indices hplan ha hindex,
    (Plan.Step.elementDepth_eq_iff hstep.suits).2 hkeeps]

/-- A step that does not fold runs only below elements for which every step that decides about it
    has selected it. -/
theorem selected_above (hplan : context.engine.plan.Coherent)
    (h : Executes context shape j started s) {a : Task} (ha : a ∈ started)
    (hkeeps : a.step.manifest.transform ≠ .decrement) {g : Plan.Step}
    (hg : g ∈ context.engine.plan.steps) (hflow : g.manifest.flowControl = true)
    (htarget : a.step.name ∈ g.targets) {index : Index} (hindex : index ∈ a.indices) :
    ∃ e ∈ j, e.step = g ∧ e.Selects a.step.name (index.take g.alignment.input) := by
  have hbelow := h.input_le_length hplan ha hkeeps hg htarget hindex
  obtain ⟨-, j', s', hreaches, hbegin, -, hready, helements⟩ := h.origin a ha
  obtain ⟨x, hx, rfl⟩ := List.mem_map.1 hindex
  rw [helements] at hx
  have hadmits := RunState.admits_of_mem_elements hx
  rw [hreaches.admits_ready_iff hplan hready] at hadmits
  rcases hadmits g hg htarget hflow with hshort | ⟨e, he, hstep, hselects⟩
  · omega
  · exact ⟨e, hbegin.subset he, hstep, hselects⟩

end Executes

/-- The two lists of a condition exclude each other, in every run. Take a step that the condition
    lists for the case that its statement holds and not for the case that it does not, and another
    one for which it is the other way round. Both are started only below elements at which the
    condition was started itself, and never below the same element. -/
theorem exclusive_branches {registry : Registry} {settings : Settings}
    {initParameters : Table String Json} {d : Definition} {context : RunContext}
    {shape : BatchStructure} {j : Journal} {started : List Task} {s : RunState}
    (hengine : Engine.ofDefinition registry settings initParameters d = .ok context.engine)
    (h : Executes context shape j started s) {g t f : Plan.Step}
    (hg : g ∈ context.engine.plan.steps)
    (hblock : registry.get? g.blockType = some Catalog.condition)
    (ht : t.name ∈ g.namesIn "steps_if_true" ∧ t.name ∉ g.namesIn "steps_if_false")
    (hf : f.name ∈ g.namesIn "steps_if_false" ∧ f.name ∉ g.namesIn "steps_if_true")
    (htkeeps : t.manifest.transform ≠ .decrement) (hfkeeps : f.manifest.transform ≠ .decrement) :
    let depth := g.alignment.input
    (∀ a ∈ started, a.step = t → ∀ b ∈ started, b.step = f →
      ∀ i ∈ a.indices, ∀ k ∈ b.indices, i.take depth ≠ k.take depth) ∧
    ∀ a ∈ started, a.step = t ∨ a.step = f → ∀ i ∈ a.indices,
      depth ≤ i.length ∧ ∃ c ∈ started, c.step = g ∧ i.take depth ∈ c.indices := by
  intro depth
  obtain ⟨hcompile, hblocks⟩ := Engine.ofDefinition_eq_ok hengine
  have hplan := Definition.coherent_of_compile hcompile
  have hreaches := h.reaches
  have hpasses := Definition.passesTargets_of_compile hcompile hg
  have hmanifest : g.manifest = Catalog.condition.manifest := by
    have hfound := Definition.manifest_of_compile hcompile hg
    rw [Registry.manifest?, hblock] at hfound
    exact (Option.some.inj hfound).symm
  have hbound : ∀ block, context.engine.blocks.get? g.blockType = some block →
      block = Catalog.condition := by
    intro block hfound
    exact Option.some.inj ((hblocks _ _ hfound).symm.trans hblock)
  have hflow : g.manifest.flowControl = true := hmanifest ▸ rfl
  have htarget : t.name ∈ g.targets := hpasses.mem_targets (hmanifest ▸ by decide) ht.1
  have hftarget : f.name ∈ g.targets := hpasses.mem_targets (hmanifest ▸ by decide) hf.1
  constructor
  · rintro a ha rfl b hb rfl i hi k hk hsame
    obtain ⟨e, he, hstep, next, hnext, hchosen⟩ :=
      h.selected_above hplan ha htkeeps hg hflow htarget hi
    obtain ⟨e', he', hstep', next', hnext', hchosen'⟩ :=
      h.selected_above hplan hb hfkeeps hg hflow hftarget hk
    -- the condition is recorded once and has decided once at the common element
    obtain rfl : e = e' := List.inj_on_of_nodup_map
      (hreaches.tracks.journal_nodup hplan.steps_nodup) he he'
      (congrArg Plan.Step.name (hstep.trans hstep'.symm))
    rw [← hsame] at hnext'
    obtain rfl : next = next' :=
      Output.decision.inj (hreaches.decision_unique hplan he hnext hnext')
    subst hstep
    rcases hreaches.decision_of_condition he hpasses hmanifest hbound hnext with rfl | rfl
    · exact hf.2 hchosen'
    · exact ht.2 hchosen
  · intro a ha hstep i hi
    have hkeeps : a.step.manifest.transform ≠ .decrement := by
      rcases hstep with rfl | rfl
      · exact htkeeps
      · exact hfkeeps
    have htarget : a.step.name ∈ g.targets := by
      rcases hstep with rfl | rfl
      · exact htarget
      · exact hftarget
    obtain ⟨e, he, hsame, next, hnext, -⟩ := h.selected_above hplan ha hkeeps hg hflow htarget hi
    obtain ⟨c, hc, hcstep, hindex⟩ := h.exists_of_output e he _ hnext
    refine ⟨?_, c, hc, hcstep.trans hsame, hindex⟩
    exact h.input_le_length hplan ha hkeeps hg htarget hi

namespace Sample

/-- Elements that are true are shown by one step, and those that are false by another one. -/
def sorted : Definition where
  version := "1.0"
  inputs := [.batch "x" 1 []]
  steps := [
    ⟨"Condition", "check", [
      ("condition_statement", .object [("type", .string "UnaryStatement"),
        ("operand", .object [("type", .string "DynamicOperand"),
          ("operand_name", .string "value")]),
        ("operator", .object [("type", .string "(Boolean) is True")])]),
      ("evaluation_parameters", .object [("value", .string "$inputs.x")]),
      ("steps_if_true", .array [.string "$steps.yes"]),
      ("steps_if_false", .array [.string "$steps.no"])]⟩,
    ⟨"Show", "yes", [("value", .string "$inputs.x")]⟩,
    ⟨"Show", "no", [("value", .string "$inputs.x")]⟩]
  outputs := [⟨"yes", "$steps.yes.value"⟩, ⟨"no", "$steps.no.value"⟩]

/-- The registry of the blocks. -/
def sortedBlocks : Registry :=
  [("Condition", Catalog.condition),
    ("Show", Catalog.scripted
      { blockType := "Show", properties := [{ name := "value", kind := .data [] true }]
        outputs := [⟨"value", []⟩] } .echo)]

/-- A batch of two values. -/
def sortedInputs : Prepared :=
  (prepare [⟨"x", 1, .ofInput 1, none⟩]
    [("x", .array [.bool true, .bool false])]).toOption.getD ⟨{}, 0⟩

/-- What does not change during a run on these inputs. -/
def sortedContext (engine : Engine) : RunContext := ⟨engine, sortedInputs.store, fun _ => 0.5⟩

/-- The state in which the condition has decided. -/
def sortedState (engine : Engine) : RunState :=
  (engine.plan.steps.take 1).foldl (RunState.perform (sortedContext engine))
    (.initial engine.plan sortedInputs.shape)

/-- The state in which a ready step has been taken. -/
def sortedTaken (engine : Engine) (s : RunState) (step : Plan.Step) : RunState :=
  RunState.take (sortedContext engine) { s with ready := s.ready.erase step } step

end Sample

/-- Both targets are under way, each at the element that was decided for it. -/
theorem exclusive_branches_sorted : ∃ (engine : Engine) (j : Journal) (started : List Task)
    (s : RunState) (g yes no : Plan.Step),
    Engine.ofDefinition Sample.sortedBlocks {} [] Sample.sorted = .ok engine ∧
    Executes (Sample.sortedContext engine) Sample.sortedInputs.shape j started s ∧
    g.alignment.input = 1 ∧
    (∃ a ∈ started, a.step = yes ∧ a.indices = [[0]] ∧
      ∃ c ∈ started, c.step = g ∧ [0] ∈ c.indices) ∧
    (∃ b ∈ started, b.step = no ∧ b.indices = [[1]]) ∧
    ∀ a ∈ started, a.step = yes → ∀ b ∈ started, b.step = no →
      ∀ i ∈ a.indices, ∀ k ∈ b.indices, i.take 1 ≠ k.take 1 := by
  have hfound : ((Engine.ofDefinition Sample.sortedBlocks {} [] Sample.sorted).toOption.bind
      fun engine => (engine.plan.step? "check").bind fun g =>
        (engine.plan.step? "yes").bind fun yes => (engine.plan.step? "no").bind fun no =>
        let s := Sample.sortedState engine
        let s' := Sample.sortedTaken engine s yes
        let s'' := Sample.sortedTaken engine s' no
        s''.inFlight[0]?.bind fun a => s''.inFlight[1]?.bind fun b =>
        if g.blockType = "Condition" ∧ g.alignment.input = 1 ∧
          yes.name = "yes" ∧ no.name = "no" ∧
          g.namesIn "steps_if_true" = ["yes"] ∧ g.namesIn "steps_if_false" = ["no"] ∧
          yes.manifest.transform ≠ .decrement ∧ no.manifest.transform ≠ .decrement ∧
          s.failure.isNone ∧ s'.failure.isNone ∧ yes ∈ s.ready ∧ no ∈ s'.ready ∧
          a.step = yes ∧ a.indices = [[0]] ∧ b.step = no ∧ b.indices = [[1]]
        then some () else none).isSome := by
    decide +kernel
  obtain ⟨_, hfound⟩ := Option.isSome_iff_exists.1 hfound
  obtain ⟨engine, hengine, hfound⟩ := Option.bind_eq_some_iff.1 hfound
  obtain ⟨g, hg, hfound⟩ := Option.bind_eq_some_iff.1 hfound
  obtain ⟨yes, -, hfound⟩ := Option.bind_eq_some_iff.1 hfound
  obtain ⟨no, -, hfound⟩ := Option.bind_eq_some_iff.1 hfound
  obtain ⟨a, ha, hfound⟩ := Option.bind_eq_some_iff.1 hfound
  obtain ⟨b, hb, hfound⟩ := Option.bind_eq_some_iff.1 hfound
  obtain ⟨⟨htype, hinput, hyes, hno, hifTrue, hifFalse, hkeeps, hkeeps', hfailure, hfailure',
    hready, hready', hastep, hindices, hbstep, hindices'⟩, -⟩ :=
    Option.ite_none_right_eq_some.1 hfound
  have hengine : Engine.ofDefinition Sample.sortedBlocks {} [] Sample.sorted =
      .ok (Sample.sortedContext engine).engine := toOption_eq_some.1 hengine
  have hplan := Definition.coherent_of_compile (Engine.ofDefinition_eq_ok hengine).1
  obtain ⟨j, hreaches, -⟩ := exists_reaches_inOrder hplan
    Sample.sortedInputs.shape (List.take_append_drop 1 engine.plan.steps).symm
  have hreaches : Reaches (Sample.sortedContext engine) Sample.sortedInputs.shape j
      (Sample.sortedState engine) := hreaches
  have htaken := (hreaches.take hready (Option.isNone_iff_eq_none.1 hfailure)).take hready'
    (Option.isNone_iff_eq_none.1 hfailure')
  obtain ⟨started, hexecutes⟩ := htaken.exists_executes
  have ha := hexecutes.mem_of_inFlight a (List.mem_of_getElem? ha)
  have hb := hexecutes.mem_of_inFlight b (List.mem_of_getElem? hb)
  have hblock : Sample.sortedBlocks.get? g.blockType = some Catalog.condition := by
    rw [htype]
    rfl
  obtain ⟨hexclusive, hbelow⟩ := exclusive_branches hengine hexecutes (t := yes) (f := no)
    (List.mem_of_find?_eq_some hg) hblock (by rw [hifTrue, hifFalse, hyes]; decide)
    (by rw [hifTrue, hifFalse, hno]; decide) hkeeps hkeeps'
  rw [hinput] at hexclusive hbelow
  obtain ⟨-, habove⟩ := hbelow a ha (Or.inl hastep) [0] (hindices ▸ List.mem_cons_self)
  exact ⟨engine, _, started, _, g, yes, no, hengine, hexecutes, hinput,
    ⟨a, ha, hastep, hindices, habove⟩, ⟨b, hb, hbstep, hindices'⟩, hexclusive⟩

end BatchFlow
