import BatchFlow.Catalog.Vision
import BatchFlow.Proofs.Plan.Blocks
import BatchFlow.Proofs.Run.Assembly
import BatchFlow.Proofs.Run.Liveness
import BatchFlow.Proofs.Run.Rooted

namespace BatchFlow

/-!
# Collapsing and nesting

A step that collapses gathers the values of another step while the run goes on; the records nest the
same values when it is over. Both make the same lists, with a slot for every child.

* `Plan.Step.Collapses` — a step that collapses the values of another one.
* `Definition.collapses_of_compile` — what its alignment and its bindings are in a compiled plan.
* `Reaches.mem_elements_of_collapses` — what it is given for a parent.
* `Reaches.get?_collapsed` — what it leaves there when it is done.
* `gathered_eq_nest` — the records nest the same list.
* `collapsed_eq_nested` — what this means for a run.
-/

/-- What the children of an index have recorded, in order; null for one that recorded nothing. -/
def gathered (results : ResultStore) (shape : BatchStructure) (step : Plan.Step)
    (property : Option String) (parent : Index) : Json :=
  .array ((List.range ((shape.children? step.alignment.outputLineage parent).getD 0)).map fun k =>
    recorded results step.name property (parent ++ [k]))

/-- What the records show of an output below an index; above the batch this is the list of what all
    of them show. -/
def shownBelow? (records : List Record) (output : String) : Index → Option Json
  | [] => some (.array (records.map fun record => .ofOption (record.get? output)))
  | position :: path => do ((← records[position]?).get? output).bind (·.follow? path)

/-- A step that collapses the values of another one and about which no step decides. -/
structure Plan.Step.Collapses (c source : Plan.Step) (property : Option String) : Prop where
  manifest : c.manifest = Catalog.dimensionCollapse.manifest
  governedBy : c.governedBy = []
  bindings : c.bindings =
    [("data", .source (.step source.name property source.alignment.output))]
  lineage : c.alignment.lineage = source.alignment.outputLineage
  input : c.alignment.input = source.alignment.output
  suits : c.alignment.Suits c.name c.manifest

/-! ### In a compiled plan -/

/-- A step with the collapsing block takes nothing but its data, so it lies on the lineage of the
    step from which the data comes. -/
theorem Definition.collapses_of_compile {registry : Registry} {initParameters : Table String Json}
    {d : Definition} {p : Plan} (h : d.compile registry initParameters = .ok p)
    {source c : Plan.Step} (hsource : source ∈ p.steps) (hc : c ∈ p.steps)
    (hblock : registry.get? c.blockType = some Catalog.dimensionCollapse)
    (hfree : c.governedBy = []) {property : Option String} {depth : Nat}
    (hdata : ("data", .source (.step source.name property depth)) ∈ c.bindings) :
    depth = source.alignment.output ∧ c.Collapses source property := by
  have hplan := Definition.coherent_of_compile h
  have hmanifest : c.manifest = Catalog.dimensionCollapse.manifest := by
    have hm := Definition.manifest_of_compile h hc
    rw [Registry.manifest?, hblock] at hm
    exact (Option.some.inj hm).symm
  -- the block has one property, so the data is all that is bound
  have hkeys : (Table.keys c.bindings).Sublist ["data"] := by
    have hsublist := Definition.keys_bindings_of_compile h hc (by rw [hmanifest]; decide)
    rwa [hmanifest] at hsublist
  have hbindings : c.bindings = [("data", .source (.step source.name property depth))] := by
    have hlength := hkeys.length_le
    rw [Table.keys, List.length_map] at hlength
    obtain ⟨only, honly⟩ := List.length_eq_one_iff.1
      (Nat.le_antisymm hlength (List.length_pos_of_mem hdata))
    rw [honly] at hdata ⊢
    rw [List.mem_singleton.1 hdata]
  obtain ⟨earlier, later, hsplit⟩ := List.append_of_mem hc
  have hstep := hplan.step hsplit
  have hdecrement : c.manifest.transform = .decrement := by rw [hmanifest]; rfl
  obtain ⟨s, hs, hon⟩ := hstep.deepest (hstep.suits.decrement hdecrement).1
  have honly : s = .step source.name property depth := by
    simpa [Plan.Step.sources, hbindings, Table.values, Plan.Binding.sources] using hs
  rw [honly] at hon
  generalize hlineage : c.alignment.lineage = l at hon
  generalize hname : source.name = name at hon
  cases hon with
  | @step e _ he =>
    -- the data comes from the step that has the name of the source
    have hmem : e ∈ p.steps := hsplit ▸ List.mem_append_left _ he
    obtain rfl : source = e := List.inj_on_of_nodup_map hplan.steps_nodup hsource hmem hname
    obtain ⟨before, after, hsplit'⟩ := List.append_of_mem hsource
    have hlength := (hplan.step hsplit').suits.output_length
    have hinput : c.alignment.input = source.alignment.output := by
      rw [← hstep.suits.length, hlineage, hlength]
    exact ⟨rfl, hmanifest, hfree, hbindings, hlineage, hinput, hstep.suits⟩

namespace Plan.Step.Collapses

variable {c source : Plan.Step} {property : Option String}

/-- A step that collapses folds a level. -/
theorem transform_eq (h : c.Collapses source property) : c.manifest.transform = .decrement := by
  rw [h.manifest]
  rfl

/-- The step produces its lists one level above the values. -/
theorem exists_level (h : c.Collapses source property) : ∃ level,
    source.alignment.outputLineage = c.alignment.outputLineage ++ [level] := by
  obtain ⟨level, hlevel⟩ := h.suits.exists_folded h.transform_eq
  refine ⟨level, ?_⟩
  rw [(h.suits.decrement h.transform_eq).2.2, hlevel, h.lineage]

/-- The lists are one level less deep than the values. -/
theorem output_eq (h : c.Collapses source property) :
    c.alignment.output + 1 = source.alignment.output := by
  obtain ⟨hpos, houtput, -⟩ := h.suits.decrement h.transform_eq
  rw [← h.input]
  omega

end Plan.Step.Collapses

/-! ### What the step is given -/

section Reaches

variable {context : RunContext} {shape : BatchStructure} {j : Journal} {s : RunState}
  {c source : Plan.Step} {property : Option String} {parent : Index}

/-- The step sees the values of the children as the records show them. -/
theorem RunState.bindingValue_of_collapses (h : c.Collapses source property)
    (hlength : parent.length = c.alignment.output) (s : RunState) (context : RunContext) :
    (s.view context).bindingValue [] (.parent parent
        ((s.shape.children? c.alignment.lineage parent).getD 0) c.alignment.input)
      (.source (.step source.name property source.alignment.output)) =
        gathered s.results s.shape source property parent := by
  have hdepth : parent.length + 1 = source.alignment.output := by rw [hlength, h.output_eq]
  rw [View.bindingValue, View.resolve, h.input, Plan.Source.depth?, if_pos rfl, h.lineage]
  refine congrArg Json.array ?_
  rw [View.children, List.map_map]
  apply List.map_congr_left
  intro k _
  -- no branch restricts the step, so it sees every child
  have hchild : ∀ value, (s.view context).child? [] (parent ++ [k]) value =
      lookup? context.inputs s.results (parent ++ [k]) value := fun _ => if_pos rfl
  have hshown : (parent ++ [k]).length ≤ source.alignment.output := by simp [hdepth]
  rw [Function.comp_apply, hchild, ofOption_lookup?_step hshown]

/-- A parent that has children is an index at which the step can run. -/
theorem Reaches.mem_indices_of_collapses (hplan : context.engine.plan.Coherent)
    (h : Reaches context shape j s) (hnone : s.failure = none) (hrooted : shape.Rooted)
    (hc : c.Collapses source property)
    (hchildren : 0 < (s.shape.children? source.alignment.outputLineage parent).getD 0) :
    parent ∈ s.shape.indices c.alignment.outputLineage := by
  obtain ⟨level, hlevel⟩ := hc.exists_level
  rw [hlevel] at hchildren
  cases hcount : s.shape.children? (c.alignment.outputLineage ++ [level]) parent with
  | none => simp [hcount] at hchildren
  | some n => exact h.rooted hplan hrooted hnone _ _ _ _ hcount

/-- The step is given the values of the children of every parent that has some. -/
theorem Reaches.mem_elements_of_collapses (hplan : context.engine.plan.Coherent)
    (h : Reaches context shape j s) (hnone : s.failure = none) (hrooted : shape.Rooted)
    (hc : c.Collapses source property)
    (hchildren : 0 < (s.shape.children? source.alignment.outputLineage parent).getD 0) :
    (parent, [("data", gathered s.results s.shape source property parent)]) ∈
      s.elements context c := by
  have hparent := h.mem_indices_of_collapses hplan hnone hrooted hc hchildren
  have hlength := (BatchStructure.length_of_mem_indices hparent).trans hc.suits.output_length
  have hgoverning : s.governing c = [] := by
    rw [RunState.governing, Branches.governing, hc.governedBy]
    rfl
  -- the fold accepts empty values, so it runs for a parent with children even when none of them
  -- has a value
  have hvalues : (s.view context).values? []
      (.parent parent ((s.shape.children? c.alignment.lineage parent).getD 0) c.alignment.input) c
      (0 < (s.shape.children? c.alignment.lineage parent).getD 0 &&
        c.manifest.acceptsEmptyValues) =
      some [("data", gathered s.results s.shape source property parent)] := by
    refine View.values?_eq_some_iff.2 ⟨Or.inl ?_, ?_⟩
    · have hempty : c.manifest.acceptsEmptyValues = true := by rw [hc.manifest]; rfl
      rw [hc.lineage, hempty]
      simp [hchildren]
    · rw [hc.bindings, List.map_singleton, RunState.bindingValue_of_collapses hc hlength]
  rw [RunState.elements, hgoverning, View.invocation_eq_collapsing hc.transform_eq]
  simp only [List.any_nil, Bool.false_eq_true, if_false]
  refine List.mem_filterMap.2 ⟨parent, List.mem_filter.2 ⟨?_, rfl⟩, ?_⟩
  · rwa [← (hc.suits.decrement hc.transform_eq).2.2]
  · exact Option.map_eq_some_iff.2 ⟨_, hvalues, rfl⟩

/-! ### What the step leaves -/

/-- What is related to an item stands beside it. -/
theorem exists_mem_zip_of_forall₂ {α β γ : Type} {R : α → β → Prop} {f : α → γ} {xs : List α}
    {ys : List β} (h : List.Forall₂ R xs ys) {x : α} (hx : x ∈ xs) :
    ∃ y, (f x, y) ∈ (xs.map f).zip ys ∧ R x y := by
  induction h with
  | nil => cases hx
  | @cons x' y' xs ys hxy _ ih =>
    rw [List.map_cons, List.zip_cons_cons]
    rcases List.mem_cons.1 hx with rfl | hx
    · exact ⟨y', List.mem_cons_self, hxy⟩
    · obtain ⟨y, hmem, hy⟩ := ih hx
      exact ⟨y, List.mem_cons_of_mem _ hmem, hy⟩

/-- The collapsing block returns the list that it is given. -/
theorem Task.mem_outputs_of_collapse
    (hblock : ∀ block, context.engine.blocks.get? c.blockType = some block →
      block = Catalog.dimensionCollapse)
    {elements : Invocation} {outputs : List Output}
    (h : Task.outcome context ⟨c, elements⟩ = .ok outputs) {items : List Json}
    (hmem : (parent, [("data", .array items)]) ∈ elements) :
    (parent, .values [("output", .array items)]) ∈ (elements.map (·.1)).zip outputs := by
  have helementwise : Catalog.dimensionCollapse.IsElementwise := fun _ _ => rfl
  unfold Task.outcome at h
  split at h
  · rename_i block hfound
    rw [hblock block hfound, helementwise.executeAll_eq, mapM_eq_ok,
      List.forall₂_map_left_iff] at h
    obtain ⟨output, houtput, hexecute⟩ := exists_mem_zip_of_forall₂ h hmem
    cases hexecute
    exact houtput
  · cases h

/-- What a step that is done returned for an element is recorded there. -/
theorem Reaches.get?_of_mem_outputs (hplan : context.engine.plan.Coherent)
    (h : Reaches context shape j s) {e : Entry} (he : e ∈ j) {index : Index} {values : Values}
    (hmem : (index, .values values) ∈ e.outputs) :
    s.results.get? (e.step.name, index) = some values := by
  have hkeys : (Table.keys e.produced).Nodup := Entry.nodup_keys_produced
    (h.indices_of_entry hplan he).1 (h.recordable_of_entry hplan he).1
  have hproduced : ((e.step.name, index), values) ∈ e.produced :=
    List.mem_flatMap.2 ⟨_, hmem, List.mem_cons_self⟩
  rw [h.get?_results_of_done hplan (List.mem_map_of_mem he), Journal.output?,
    Journal.ofStep?_of_mem (h.tracks.journal_nodup hplan.steps_nodup) he, Option.bind_some]
  refine Table.get?_of_mem ?_ (List.mem_reverse.2 hproduced)
  rw [Table.keys, List.map_reverse, List.nodup_reverse]
  exact hkeys

/-- When the step is done it has left the list of the children at every parent that has some,
    although results may have been added since it was started. -/
theorem Reaches.get?_collapsed (hplan : context.engine.plan.Coherent)
    (h : Reaches context shape j s) (hnone : s.failure = none) (hrooted : shape.Rooted)
    (hfilled : ∀ i ∈ context.engine.plan.inputs, shape.Filled (.ofInput i.depth))
    (hc : c.Collapses source property) (hmem : c ∈ context.engine.plan.steps)
    (hblock : ∀ block, context.engine.blocks.get? c.blockType = some block →
      block = Catalog.dimensionCollapse) (hdone : c.name ∈ j.names)
    (hchildren : 0 < (s.shape.children? source.alignment.outputLineage parent).getD 0) :
    s.results.get? (c.name, parent) =
      some [("output", gathered s.results s.shape source property parent)] := by
  obtain ⟨e, he, rfl⟩ := h.tracks.exists_entry hplan.steps_nodup hmem hdone
  obtain ⟨elements, ⟨j', s', hreaches, hbegin, -, hready, rfl⟩, hreturned⟩ := h.origin_of_entry he
  obtain ⟨earlier, later, hsplit⟩ := List.append_of_mem hmem
  -- the step would be given the same now as when it was started
  have hdepends := hreaches.tracks.ready _ hready
  have hagree : j'.Agree j earlier := fun name _ hname _ =>
    Journal.ofStep?_of_prefix hbegin (h.tracks.journal_nodup hplan.steps_nodup) hname
  have hsame : s.elements context e.step = s'.elements context e.step :=
    elements_eq hplan hfilled hreaches h hsplit hagree hdepends
      fun name hname => (hbegin.map _).subset (hdepends name hname)
  have hgiven := h.mem_elements_of_collapses hplan hnone hrooted hc hchildren
  rw [hsame] at hgiven
  rcases hreturned with ⟨hnil, -⟩ | ⟨-, outputs, houtcome, -, houtputs⟩
  · rw [hnil] at hgiven
    cases hgiven
  · have hreturn := Task.mem_outputs_of_collapse hblock houtcome hgiven
    rw [← houtputs] at hreturn
    exact h.get?_of_mem_outputs hplan he hreturn

end Reaches

/-! ### What the records nest -/

section Nest

variable {c source : Plan.Step} {property : Option String} {parent : Index}

/-- The records nest the list of the children below their parent. -/
theorem gathered_eq_nest (hc : c.Collapses source property)
    (hlength : parent.length = c.alignment.output) (inputs : InputStore) (results : ResultStore)
    (shape : BatchStructure) :
    nest shape (fun index => .ofOption (lookup? inputs results index
        (.step source.name property source.alignment.output)))
      (source.alignment.outputLineage.take parent.length)
      (source.alignment.outputLineage.drop parent.length) parent =
        gathered results shape source property parent := by
  obtain ⟨level, hlevel⟩ := hc.exists_level
  have hdepth : parent.length + 1 = source.alignment.output := by rw [hlength, hc.output_eq]
  have habove : c.alignment.outputLineage.length = parent.length := by
    rw [hc.suits.output_length, hlength]
  rw [hlevel, List.take_left' habove, List.drop_left' habove, nest, gathered, hlevel]
  refine congrArg Json.array (List.map_congr_left fun k _ => ?_)
  rw [nest, ofOption_lookup?_step]
  simp [hdepth]

/-- An output that shows a step lies on the lineage of what the step produces. -/
theorem Plan.Coherent.output_on_step {p : Plan} (hplan : p.Coherent) {o : Plan.Output}
    (ho : o ∈ p.outputs) (hmem : source ∈ p.steps) {depth : Nat}
    (hsource : o.source = .step source.name property depth) :
    o.lineage = source.alignment.outputLineage := by
  have hon := (hplan.output o ho).1
  rw [hsource] at hon
  generalize o.lineage = l at hon
  generalize hname : source.name = name at hon
  cases hon with
  | @step e _ he =>
    obtain rfl : source = e := List.inj_on_of_nodup_map hplan.steps_nodup hmem he hname
    rfl

section Assemble

variable {outputs : List Plan.Output} {batchSize : Nat}
  {inputs : InputStore} {results : ResultStore}
  {shape : BatchStructure} {o : Plan.Output}

/-- Above the batch the records list the values of all their elements. -/
theorem shownBelow?_nil (houtputs : (outputs.map (·.name)).Nodup) (ho : o ∈ outputs) :
    shownBelow? (assemble outputs batchSize inputs results shape) o.name [] =
      some (.array ((List.range batchSize).map fun k => outputValue inputs results shape k o)) := by
  rw [shownBelow?, assemble, List.map_map]
  refine congrArg (some ∘ Json.array) (List.map_congr_left fun k _ => ?_)
  have hget : Table.get? (outputs.map fun o => (o.name, outputValue inputs results shape k o))
      o.name = some (outputValue inputs results shape k o) := Table.get?_map_name houtputs ho
  rw [Function.comp_apply, hget]
  rfl

/-- Below a position the record of this position decides. -/
theorem shownBelow?_cons (houtputs : (outputs.map (·.name)).Nodup) (ho : o ∈ outputs)
    {position : Nat} (hposition : position < batchSize) (path : Index) :
    shownBelow? (assemble outputs batchSize inputs results shape) o.name (position :: path) =
      (outputValue inputs results shape position o).follow? path := by
  have hget : Table.get? (outputs.map fun o =>
      (o.name, outputValue inputs results shape position o)) o.name =
        some (outputValue inputs results shape position o) := Table.get?_map_name houtputs ho
  simp only [shownBelow?, assemble, List.getElem?_map, List.getElem?_range hposition,
    Option.map_some, Option.bind_eq_bind, Option.bind_some, hget]

end Assemble

variable {context : RunContext} {prepared : Prepared} {j : Journal} {s : RunState}

/-- The records of a run show the list of the children of an index in the place of the index. -/
theorem Reaches.shownBelow?_eq (hplan : context.engine.plan.Coherent)
    (houtputs : (context.engine.plan.outputs.map (·.name)).Nodup) {parameters : Table String Json}
    (hprepare : prepare context.engine.plan.inputs parameters = .ok prepared)
    (h : Reaches context prepared.shape j s) (hc : c.Collapses source property)
    (hmem : source ∈ context.engine.plan.steps)
    (hparent : parent ∈ s.shape.indices c.alignment.outputLineage) {o : Plan.Output}
    (ho : o ∈ context.engine.plan.outputs)
    (hsource : o.source = .step source.name property source.alignment.output) :
    shownBelow? (assemble context.engine.plan.outputs prepared.batchSize prepared.store s.results
      s.shape) o.name parent = some (gathered s.results s.shape source property parent) := by
  obtain ⟨level, hlevel⟩ := hc.exists_level
  have hlength := BatchStructure.length_of_mem_indices hparent
  have hlineage := hplan.output_on_step ho hmem hsource
  have hdepth : o.source.depth? = some source.alignment.output := by rw [hsource]; rfl
  have hpos : 0 < source.alignment.output := by rw [← hc.output_eq]; omega
  have hroot := (hplan.output o ho).2
  rw [hlineage, hlevel] at hroot
  cases parent with
  | nil =>
    -- above the batch every record shows one of the children
    have hnil : c.alignment.outputLineage = [] := List.eq_nil_of_length_eq_zero hlength.symm
    rw [hnil, List.nil_append] at hlevel hroot
    obtain rfl := hroot level rfl
    obtain ⟨given, batches, hprepares⟩ := prepares_of_prepare hprepare
    have hsize : s.shape.children? [Lineage.inputLevel] [] = some prepared.batchSize :=
      (h.shows hplan).extends_inputs _ _ _ hprepares.children?_inputLevel
    rw [shownBelow?_nil houtputs ho, gathered, hlevel, hsize, Option.getD_some]
    refine congrArg (some ∘ Json.array) (List.map_congr_left fun k _ => ?_)
    rw [outputValue_of_depth_pos hdepth hpos, hlineage, hlevel, hsource]
    exact ofOption_lookup?_step hpos
  | cons position path =>
    rw [List.length_cons] at hlength
    -- the position is one of the batch, so there is a record for it
    have hposition : position < prepared.batchSize := by
      have hfirst := BatchStructure.take_mem_indices hparent 1
      cases hl : c.alignment.outputLineage with
      | nil => simp [hl] at hlength
      | cons root rest =>
        rw [hl] at hroot hfirst
        rw [hroot root rfl] at hfirst
        obtain ⟨position', hlt, he⟩ := (h.mem_inputLevel_iff hplan hprepare).1 hfirst
        obtain rfl : position = position' := by simpa using he
        exact hlt
    have hlong : path.length < o.lineage.length := by
      rw [hlineage, hlevel, List.length_append, ← hlength]
      omega
    have htake : o.lineage.take (path.length + 1) = c.alignment.outputLineage := by
      rw [hlineage, hlevel, List.take_left' hlength.symm]
    have houtput : (position :: path).length = c.alignment.output := by
      rw [List.length_cons, hlength, hc.suits.output_length]
    rw [shownBelow?_cons houtputs ho hposition, outputValue_of_depth_pos hdepth hpos,
      follow?_nest hlong (htake ▸ hparent), hsource, hlineage]
    exact congrArg some (gathered_eq_nest hc houtput _ _ _)

end Nest

/-- Collapsing agrees with nesting: in a run that succeeds, a step that collapses the values of
    another one and about which no step decides leaves, at every parent that has children, the list
    that the records nest of the same values there, with a slot for every child in order and null
    for a child without a value. -/
theorem collapsed_eq_nested {registry : Registry} {settings : Settings}
    {initParameters : Table String Json} {d : Definition} {engine : Engine}
    (hengine : Engine.ofDefinition registry settings initParameters d = .ok engine)
    {source c : Plan.Step} (hsource : source ∈ engine.plan.steps) (hc : c ∈ engine.plan.steps)
    (hblock : registry.get? c.blockType = some Catalog.dimensionCollapse)
    (hfree : c.governedBy = []) {property : Option String} {depth : Nat}
    (hdata : ("data", .source (.step source.name property depth)) ∈ c.bindings)
    {parameters : Table String Json} {options : RunOptions} {records : List Record}
    (hrun : (engine.run parameters options).result = .ok records) :
    ∃ prepared, prepare engine.plan.inputs parameters = .ok prepared ∧
      let final := engine.finalState options prepared
      ∀ parent, 0 < (final.shape.children? source.alignment.outputLineage parent).getD 0 →
        let list := gathered final.results final.shape source property parent
        parent.length + 1 = source.alignment.output ∧
        final.results.get? (c.name, parent) = some [("output", list)] ∧
        nest final.shape (fun index => .ofOption (lookup? prepared.store final.results index
            (.step source.name property depth)))
          (source.alignment.outputLineage.take parent.length)
          (source.alignment.outputLineage.drop parent.length) parent = list ∧
        ∀ o ∈ engine.plan.outputs, o.source = .step source.name property depth →
          shownBelow? records o.name parent = some list := by
  obtain ⟨hcompile, hblocks⟩ := Engine.ofDefinition_eq_ok hengine
  have hplan := Definition.coherent_of_compile hcompile
  obtain ⟨rfl, hcollapses⟩ :=
    Definition.collapses_of_compile hcompile hsource hc hblock hfree hdata
  obtain ⟨prepared, j, hprepare, hreaches, hfailure, hready, hinFlight, rfl⟩ :=
    Engine.exists_reaches_of_run_eq_ok hrun
  refine ⟨prepared, hprepare, fun parent hchildren => ?_⟩
  have hrooted := rooted_of_prepare hplan hprepare
  have hparent := hreaches.mem_indices_of_collapses hplan hfailure hrooted hcollapses hchildren
  have hlength := (BatchStructure.length_of_mem_indices hparent).trans
    hcollapses.suits.output_length
  refine ⟨by rw [hlength, hcollapses.output_eq], ?_, gathered_eq_nest hcollapses hlength _ _ _,
    fun o ho hshows => ?_⟩
  · -- in the end every step is done, the collapsing one among them
    have hdone := hreaches.tracks.all_done hplan hfailure hready hinFlight c hc
    have hcollapsing : ∀ block, engine.blocks.get? c.blockType = some block →
        block = Catalog.dimensionCollapse := fun block hfound =>
      Option.some.inj ((hblocks _ _ hfound).symm.trans hblock)
    exact hreaches.get?_collapsed hplan hfailure hrooted
      (fun i hi => filled_of_prepare hplan hprepare hi)
      hcollapses hc hcollapsing hdone hchildren
  · exact hreaches.shownBelow?_eq hplan (Definition.outputs_nodup_of_compile hcompile) hprepare
      hcollapses hsource hparent ho hshows

namespace Sample

/-- Items that name the step that shows them are shown, and what is shown is collapsed. -/
def chosen : Definition where
  version := "1.0"
  inputs := [.batch "x" 2 []]
  steps := [
    ⟨"Choose", "choose", [("value", .string "$inputs.x"), ("next", .string "$steps.show")]⟩,
    ⟨"Show", "show", [("value", .string "$inputs.x")]⟩,
    ⟨"DimensionCollapse", "fold", [("data", .string "$steps.show.value")]⟩]
  outputs := [⟨"shown", "$steps.show.value"⟩, ⟨"folded", "$steps.fold.output"⟩]

/-- The registry of the blocks. -/
def chosenBlocks : Registry :=
  [("Choose", Catalog.scripted
      { blockType := "Choose", acceptsBatchInput := true, flowControl := true
        properties := [{ name := "value", kind := .data [] true },
          { name := "next", kind := .stepTargets }] } (.route "value")),
    ("Show", Catalog.scripted
      { blockType := "Show", properties := [{ name := "value", kind := .data [] true }]
        outputs := [⟨"value", []⟩] } .echo),
    ("DimensionCollapse", Catalog.dimensionCollapse)]

/-- One of two items is shown, then none of one, then there are none. -/
def chosenInput : Table String Json :=
  [("x", .array [.array [.null, .string "show"], .array [.bool true], .array []])]

end Sample

/-- Items that are not shown leave null in the list of their parent, also when it has no others. -/
theorem collapsed_eq_nested_chosen : ∃ engine records source c,
    Engine.ofDefinition Sample.chosenBlocks {} [] Sample.chosen = .ok engine ∧
    (engine.run Sample.chosenInput {}).result = .ok records ∧
    engine.plan.step? "show" = some source ∧ engine.plan.step? "fold" = some c ∧
    ∃ prepared, prepare engine.plan.inputs Sample.chosenInput = .ok prepared ∧
      let final := engine.finalState {} prepared
      let first := Json.array [.null, .string "show"]
      let second := Json.array [.null]
      final.results.get? ("fold", [0]) = some [("output", first)] ∧
      final.results.get? ("fold", [1]) = some [("output", second)] ∧
      shownBelow? records "shown" [0] = some first ∧
      shownBelow? records "shown" [1] = some second := by
  have hfound : ((Engine.ofDefinition Sample.chosenBlocks {} [] Sample.chosen).toOption.bind
      fun engine => (engine.run Sample.chosenInput {}).result.toOption.bind fun records =>
        (engine.plan.step? "show").bind fun source => (engine.plan.step? "fold").bind fun c =>
        (prepare engine.plan.inputs Sample.chosenInput).toOption.bind fun prepared =>
          let final := engine.finalState {} prepared
          if c.blockType = "DimensionCollapse" ∧ c.governedBy = [] ∧ source.name = "show" ∧
            c.name = "fold" ∧ ("data", .source (.step "show" (some "value") 2)) ∈ c.bindings ∧
            (∃ o ∈ engine.plan.outputs, o.name = "shown" ∧
              o.source = .step "show" (some "value") 2) ∧
            0 < (final.shape.children? source.alignment.outputLineage [0]).getD 0 ∧
            0 < (final.shape.children? source.alignment.outputLineage [1]).getD 0 ∧
            gathered final.results final.shape source (some "value") [0] =
              .array [.null, .string "show"] ∧
            gathered final.results final.shape source (some "value") [1] = .array [.null]
          then some () else none).isSome := by
    decide +kernel
  obtain ⟨_, hfound⟩ := Option.isSome_iff_exists.1 hfound
  obtain ⟨engine, hengine, hfound⟩ := Option.bind_eq_some_iff.1 hfound
  obtain ⟨records, hrun, hfound⟩ := Option.bind_eq_some_iff.1 hfound
  obtain ⟨source, hsource, hfound⟩ := Option.bind_eq_some_iff.1 hfound
  obtain ⟨c, hc, hfound⟩ := Option.bind_eq_some_iff.1 hfound
  obtain ⟨prepared, hprepare, hfound⟩ := Option.bind_eq_some_iff.1 hfound
  obtain ⟨⟨htype, hfree, hsourceName, hname, hdata, ⟨o, ho, hoName, hshows⟩, hfirst, hsecond,
    hlist, hlist'⟩, -⟩ := Option.ite_none_right_eq_some.1 hfound
  have hengine := toOption_eq_some.1 hengine
  have hrun := toOption_eq_some.1 hrun
  have hblock : Sample.chosenBlocks.get? c.blockType = some Catalog.dimensionCollapse := by
    rw [htype]
    rfl
  rw [← hsourceName] at hdata hshows
  obtain ⟨prepared', hprepare', hall⟩ := collapsed_eq_nested hengine
    (List.mem_of_find?_eq_some hsource) (List.mem_of_find?_eq_some hc) hblock hfree hdata hrun
  cases (toOption_eq_some.1 hprepare).symm.trans hprepare'
  obtain ⟨-, hresult, -, hshown⟩ := hall [0] hfirst
  obtain ⟨-, hresult', -, hshown'⟩ := hall [1] hsecond
  have hshown := hshown o ho hshows
  have hshown' := hshown' o ho hshows
  rw [hlist, hname] at hresult
  rw [hlist', hname] at hresult'
  rw [hlist, hoName] at hshown
  rw [hlist', hoName] at hshown'
  exact ⟨engine, records, source, c, hengine, hrun, hsource, hc, prepared, hprepare', hresult,
    hresult', hshown, hshown'⟩

end BatchFlow
