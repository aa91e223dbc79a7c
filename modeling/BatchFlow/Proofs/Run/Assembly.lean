import BatchFlow.Proofs.Plan.Dimensions
import BatchFlow.Proofs.Run.Stored

namespace BatchFlow

/-!
# What records show

A record nests the values of an output as the batch is nested. Whatever a step has recorded is found
in it by following the index of the element.

* `Json.follow?` — the value at a position of nested lists.
* `follow?_nest` — where the values of an output are found.
* `ShownAt`, `Assembled` — what is found in a record, and in all of them.
* `compiled_kept` — in every run of a compiled plan results and structure stay aligned, and the
  records show all that was recorded.
-/

/-- The value at a position of nested lists. -/
def Json.follow? : Json → List Nat → Option Json
  | value, [] => some value
  | .array items, position :: rest => items[position]?.bind fun item => item.follow? rest
  | _, _ :: _ => none

/-- Below a list stand its items. -/
theorem Json.follow?_concat {value : Json} {path : List Nat} {items : List Json}
    (h : value.follow? path = some (.array items)) (position : Nat) :
    value.follow? (path ++ [position]) = items[position]? := by
  induction path generalizing value with
  | nil =>
    cases h
    cases hitem : items[position]? <;> simp [follow?, hitem]
  | cons first rest ih =>
    cases value with
    | array outer =>
      obtain ⟨item, hitem, hrest⟩ := Option.bind_eq_some_iff.1 h
      rw [List.cons_append, follow?, hitem, Option.bind_some]
      exact ih hrest
    | _ => cases h

/-! ### One output -/

/-- What is found in the value of an output at a position of the batch: at every index above the
    last level a list of as many items as children were noted, and at every index of the lineage
    the value of that index. -/
structure ShownAt (shape : BatchStructure) (lineage : Lineage) (leaf : Index → Json)
    (position : Nat) (value : Json) : Prop where
  root : [position] ∈ shape.indices (lineage.take 1)
  list : ∀ path : Index, path.length + 1 < lineage.length →
    position :: path ∈ shape.indices (lineage.take (path.length + 1)) →
    ∃ items, value.follow? path = some (.array items) ∧ items.length =
      (shape.children? (lineage.take (path.length + 2)) (position :: path)).getD 0
  leaf : ∀ path : Index, position :: path ∈ shape.indices lineage →
    value.follow? path = some (leaf (position :: path))

section Nest

variable {shape : BatchStructure} {lineage : Lineage} {leaf : Index → Json} {position : Nat}

/-- Following an index leads to the values that are nested below it. -/
theorem follow?_nest {path : Index} (hlength : path.length < lineage.length)
    (hindex : position :: path ∈ shape.indices (lineage.take (path.length + 1))) :
    (nest shape leaf (lineage.take 1) (lineage.drop 1) [position]).follow? path =
      some (nest shape leaf (lineage.take (path.length + 1)) (lineage.drop (path.length + 1))
        (position :: path)) := by
  induction path using List.reverseRecOn with
  | nil => rfl
  | append_singleton path k ih =>
    rw [List.length_append, List.length_singleton] at hlength hindex ⊢
    have htake : lineage.take (path.length + 1 + 1) =
        lineage.take (path.length + 1) ++ [lineage[path.length + 1]] :=
      List.take_succ_eq_append_getElem hlength
    -- the index is that of a child of the index above
    rw [htake] at hindex ⊢
    obtain ⟨parent, hparent, k', hk, he⟩ := BatchStructure.mem_indices_snoc.1 hindex
    rw [← List.cons_append] at he
    obtain ⟨rfl, hlast⟩ := List.append_inj' he rfl
    obtain rfl : k = k' := by simpa using hlast
    have habove := ih (Nat.lt_of_succ_lt hlength) hparent
    rw [List.drop_eq_getElem_cons hlength, nest] at habove
    rw [Json.follow?_concat habove, List.getElem?_map, List.getElem?_range hk, Option.map_some]
    rfl

/-- The values of an output, nested, show what they are nested of. -/
theorem shownAt_nest (hroot : [position] ∈ shape.indices (lineage.take 1)) :
    ShownAt shape lineage leaf position
      (nest shape leaf (lineage.take 1) (lineage.drop 1) [position]) where
  root := hroot
  list path hlength hindex := by
    rw [follow?_nest (Nat.lt_of_succ_lt hlength) hindex, List.drop_eq_getElem_cons hlength, nest,
      ← List.take_succ_eq_append_getElem hlength]
    exact ⟨_, rfl, by rw [List.length_map, List.length_range]⟩
  leaf path hindex := by
    have hlength : path.length + 1 = lineage.length := BatchStructure.length_of_mem_indices hindex
    have hindex' : position :: path ∈ shape.indices (lineage.take (path.length + 1)) := by
      rwa [hlength, List.take_length]
    rw [follow?_nest (by omega) hindex', hlength, List.drop_length]
    rfl

/-- What is shown depends on the values at the indices of the lineage only. -/
theorem ShownAt.congr {leaf' : Index → Json} {value : Json}
    (h : ShownAt shape lineage leaf position value)
    (hleaf : ∀ index ∈ shape.indices lineage, leaf index = leaf' index) :
    ShownAt shape lineage leaf' position value where
  root := h.root
  list := h.list
  leaf path hindex := hleaf _ hindex ▸ h.leaf path hindex

end Nest

/-! ### All records -/

section OutputValue

variable {inputs : InputStore} {results : ResultStore} {shape : BatchStructure} {position : Nat}
  {o : Plan.Output}

/-- Data that is not nested is shown as it is found at the empty index. -/
theorem outputValue_of_depth_zero (h : o.source.depth? = some 0) :
    outputValue inputs results shape position o =
      .ofOption (lookup? inputs results [] o.source) := by
  unfold outputValue
  rw [h]
  rfl

/-- Data that is nested is shown as it lies below the position of the record. -/
theorem outputValue_of_depth_pos {depth : Nat} (h : o.source.depth? = some depth)
    (hpos : 0 < depth) : outputValue inputs results shape position o =
      nest shape (fun index => .ofOption (lookup? inputs results index o.source))
        (o.lineage.take 1) (o.lineage.drop 1) [position] := by
  obtain ⟨n, rfl⟩ := Nat.exists_eq_succ_of_ne_zero (Nat.ne_of_gt hpos)
  unfold outputValue
  rw [h]
  rfl

end OutputValue

/-- What a step recorded at an index, as an output shows it; null if it recorded nothing. -/
def recorded (results : ResultStore) (step : String) (property : Option String) (index : Index) :
    Json :=
  .ofOption ((results.get? (step, index)).map (selectOutput · property))

/-- What the records of a run that ended in some state show. -/
structure Assembled (plan : Plan) (prepared : Prepared) (s : RunState) (records : List Record) :
    Prop where
  length : records.length = prepared.batchSize
  names : ∀ record ∈ records, Table.keys record = plan.outputs.map (·.name)
  /-- Data that is not nested is the same in every record. -/
  single : ∀ o ∈ plan.outputs, o.source.depth? = some 0 → ∃ value,
    (∀ record ∈ records, record.get? o.name = some value) ∧
    ∀ step property, o.source = .step step property 0 → value = recorded s.results step property []
  nested : ∀ o ∈ plan.outputs, ∀ step property depth, o.source = .step step property depth →
    0 < depth → o.lineage.length = depth ∧ ∀ position record, records[position]? = some record →
      ∃ value, record.get? o.name = some value ∧
        ShownAt s.shape o.lineage (recorded s.results step property) position value
  /-- Nothing that was recorded is lost. -/
  shown : ∀ o ∈ plan.outputs, ∀ step property depth, o.source = .step step property depth →
    0 < depth → ∀ index values, s.results.get? (step, index) = some values →
      ∃ position path record value, index = position :: path ∧
        records[position]? = some record ∧ record.get? o.name = some value ∧
        value.follow? path = some (selectOutput values property)

/-- The data of an output of a step is nested as deep as its lineage says. -/
theorem Plan.Coherent.output_length {p : Plan} (hplan : p.Coherent) {o : Plan.Output}
    (ho : o ∈ p.outputs) {step : String} {property : Option String} {depth : Nat}
    (hsource : o.source = .step step property depth) : o.lineage.length = depth := by
  have hdepth := (hplan.output o ho).1.depth?_eq hplan fun _ he => he
  rw [hsource] at hdepth
  exact (Option.some.inj hdepth).symm

section Assemble

variable {context : RunContext} {prepared : Prepared} {j : Journal} {s : RunState}

/-- The positions of the batch are the indices of the workflow input. -/
theorem Reaches.mem_inputLevel_iff (hplan : context.engine.plan.Coherent)
    {parameters : Table String Json}
    (hprepare : prepare context.engine.plan.inputs parameters = .ok prepared)
    (h : Reaches context prepared.shape j s) {index : Index} :
    index ∈ s.shape.indices [Lineage.inputLevel] ↔
      ∃ position < prepared.batchSize, index = [position] := by
  obtain ⟨given, batches, hprepares⟩ := prepares_of_prepare hprepare
  have hsize : s.shape.children? [Lineage.inputLevel] [] = some prepared.batchSize :=
    (h.shows hplan).extends_inputs _ _ _ hprepares.children?_inputLevel
  rw [show [Lineage.inputLevel] = [] ++ [Lineage.inputLevel] from rfl,
    BatchStructure.mem_indices_snoc]
  simp [hsize]

/-- A record consists of the values of the outputs at its position. -/
theorem getElem?_assemble {outputs : List Plan.Output} {batchSize : Nat} {inputs : InputStore}
    {results : ResultStore} {shape : BatchStructure} {position : Nat} {record : Record}
    (h : (assemble outputs batchSize inputs results shape)[position]? = some record) :
    position < batchSize ∧ record = outputs.map fun output =>
      (output.name, outputValue inputs results shape position output) := by
  rw [assemble, List.getElem?_map] at h
  obtain ⟨position', hposition, rfl⟩ := Option.map_eq_some_iff.1 h
  obtain ⟨hlt, hsame⟩ := List.getElem?_eq_some_iff.1 hposition
  rw [List.getElem_range] at hsame
  rw [List.length_range] at hlt
  exact ⟨hlt, by rw [hsame]⟩

/-- A record has each output under its name. -/
theorem get?_assemble {outputs : List Plan.Output} (houtputs : (outputs.map (·.name)).Nodup)
    {batchSize : Nat} {inputs : InputStore} {results : ResultStore} {shape : BatchStructure}
    {position : Nat} {record : Record}
    (h : (assemble outputs batchSize inputs results shape)[position]? = some record)
    {o : Plan.Output} (ho : o ∈ outputs) :
    record.get? o.name = some (outputValue inputs results shape position o) := by
  rw [(getElem?_assemble h).2]
  exact Table.get?_map_name houtputs ho

/-- The values of a step are found under the indices at which it recorded them. -/
theorem ofOption_lookup?_step {inputs : InputStore} {results : ResultStore} {step : String}
    {property : Option String} {depth : Nat} {index : Index} (h : index.length ≤ depth) :
    Json.ofOption (lookup? inputs results index (.step step property depth)) =
      recorded results step property index := by
  rw [lookup?, List.take_of_length_le h]
  rfl

/-- In the record at a position a nested output of a step shows what was recorded below it. -/
theorem Reaches.shownAt (hplan : context.engine.plan.Coherent) {parameters : Table String Json}
    (hprepare : prepare context.engine.plan.inputs parameters = .ok prepared)
    (h : Reaches context prepared.shape j s) {o : Plan.Output}
    (ho : o ∈ context.engine.plan.outputs) {step : String} {property : Option String} {depth : Nat}
    (hsource : o.source = .step step property depth) (hpos : 0 < depth) {position : Nat}
    (hposition : position < prepared.batchSize) :
    o.lineage.length = depth ∧
      ShownAt s.shape o.lineage (recorded s.results step property) position
        (outputValue prepared.store s.results s.shape position o) := by
  obtain rfl := hplan.output_length ho hsource
  have hdepth : o.source.depth? = some o.lineage.length := by
    rw [hsource]
    rfl
  -- the first level of the output is that of the workflow input
  have hfirst : o.lineage.take 1 = [Lineage.inputLevel] := by
    cases hl : o.lineage with
    | nil =>
      rw [hl] at hpos
      exact absurd hpos (Nat.lt_irrefl 0)
    | cons root rest =>
      rw [(hplan.output o ho).2 root (by rw [hl]; rfl)]
      rfl
  have hmem : [position] ∈ s.shape.indices (o.lineage.take 1) := by
    rw [hfirst]
    exact (h.mem_inputLevel_iff hplan hprepare).2 ⟨position, hposition, rfl⟩
  rw [outputValue_of_depth_pos hdepth hpos]
  refine ⟨rfl, (shownAt_nest hmem).congr fun index hindex => ?_⟩
  rw [hsource]
  exact ofOption_lookup?_step (Nat.le_of_eq (BatchStructure.length_of_mem_indices hindex))

/-- What a step of a nested output recorded stands at an index of a position of the batch. -/
theorem Reaches.position_of_recorded (hplan : context.engine.plan.Coherent)
    {parameters : Table String Json}
    (hprepare : prepare context.engine.plan.inputs parameters = .ok prepared)
    (h : Reaches context prepared.shape j s) {o : Plan.Output}
    (ho : o ∈ context.engine.plan.outputs) {step : String} {property : Option String} {depth : Nat}
    (hsource : o.source = .step step property depth) (hpos : 0 < depth) {index : Index}
    {values : Values} (hrecorded : s.results.get? (step, index) = some values) :
    index ∈ s.shape.indices o.lineage ∧
      ∃ position path, position < prepared.batchSize ∧ index = position :: path := by
  obtain ⟨hon, hroot⟩ := hplan.output o ho
  have hkey : (step, index) ∈ Table.keys s.results :=
    List.mem_map_of_mem (Table.mem_of_get? hrecorded)
  obtain ⟨st, hst, hname, hindex⟩ := (h.placed hplan).index _ hkey
  -- an output may name a step by its name only; names are unique, so the step that recorded the
  -- value is the step the output reads
  have hlineage : index ∈ s.shape.indices o.lineage := by
    rw [hsource] at hon
    generalize o.lineage = l at hon
    cases hon with
    | @step e _ he =>
      have hsame : st = e := List.inj_on_of_nodup_map hplan.steps_nodup hst he hname
      exact hsame ▸ hindex
  refine ⟨hlineage, ?_⟩
  have hdepth := hplan.output_length ho hsource
  have hlength := (BatchStructure.length_of_mem_indices hlineage).trans hdepth
  -- the first level of the lineage is that of the inputs, and its indices are the positions of the
  -- batch
  cases index with
  | nil =>
    rw [← hlength] at hpos
    exact absurd hpos (Nat.lt_irrefl 0)
  | cons position path =>
    have hfirst := BatchStructure.take_mem_indices hlineage 1
    cases hl : o.lineage with
    | nil =>
      rw [hl] at hdepth
      exact absurd hpos (hdepth ▸ Nat.lt_irrefl 0)
    | cons root rest =>
      rw [hl, hroot root (by rw [hl]; rfl)] at hfirst
      obtain ⟨position', hlt, he⟩ := (h.mem_inputLevel_iff hplan hprepare).1 hfirst
      obtain rfl : position = position' := by simpa using he
      exact ⟨position, path, hlt, rfl⟩

/-- The records of a run show all that was recorded. -/
theorem Reaches.assembled (hplan : context.engine.plan.Coherent)
    (houtputs : (context.engine.plan.outputs.map (·.name)).Nodup) {parameters : Table String Json}
    (hprepare : prepare context.engine.plan.inputs parameters = .ok prepared)
    (h : Reaches context prepared.shape j s) :
    Assembled context.engine.plan prepared s (assemble context.engine.plan.outputs
      prepared.batchSize prepared.store s.results s.shape) := by
  constructor
  case length => rw [assemble, List.length_map, List.length_range]
  case names =>
    intro record hrecord
    obtain ⟨position, hposition⟩ := List.getElem?_of_mem hrecord
    rw [(getElem?_assemble hposition).2, Table.keys, List.map_map]
    rfl
  -- an output of depth zero reads the same value at every position
  case single =>
    intro o ho hdepth
    refine ⟨.ofOption (lookup? prepared.store s.results [] o.source), fun record hrecord => ?_, ?_⟩
    · obtain ⟨position, hposition⟩ := List.getElem?_of_mem hrecord
      rw [get?_assemble houtputs hposition ho, outputValue_of_depth_zero hdepth]
    · intro step property hsource
      rw [hsource]
      exact ofOption_lookup?_step (Nat.le_refl 0)
  case nested =>
    intro o ho step property depth hsource hpos
    refine ⟨hplan.output_length ho hsource, fun position record hrecord => ?_⟩
    have hposition := (getElem?_assemble hrecord).1
    exact ⟨_, get?_assemble houtputs hrecord ho,
      (h.shownAt hplan hprepare ho hsource hpos hposition).2⟩
  -- the recorded index starts with a position of the batch, so a record stands there
  case shown =>
    intro o ho step property depth hsource hpos index values hrecorded
    obtain ⟨hindex, position, path, hposition, rfl⟩ :=
      h.position_of_recorded hplan hprepare ho hsource hpos hrecorded
    have hlength : position < (assemble context.engine.plan.outputs prepared.batchSize
        prepared.store s.results s.shape).length := by
      rwa [assemble, List.length_map, List.length_range]
    have hrecord := List.getElem?_eq_getElem hlength
    refine ⟨position, path, _, _, rfl, hrecord, get?_assemble houtputs hrecord ho, ?_⟩
    rw [(h.shownAt hplan hprepare ho hsource hpos hposition).2.leaf path hindex, recorded,
      hrecorded]
    rfl

end Assemble

/-- In every run of a compiled plan results and structure stay aligned: every result stands at an
    index of the lineage of its step, none is written twice, and a number of children that was
    noted never changes. Therefore the records of a run that succeeds have the size of the batch
    and the outputs in the order of the plan, nested as the structure says, and show all that was
    recorded. -/
theorem compiled_kept {registry : Registry} {initParameters : Table String Json} {d : Definition}
    {plan : Plan} (hcompile : d.compile registry initParameters = .ok plan)
    (blocks : Table String Block) (settings : Settings) :
    (∀ store draw shape j s, Reaches ⟨⟨plan, blocks, settings⟩, store, draw⟩ shape j s →
      Kept ⟨⟨plan, blocks, settings⟩, store, draw⟩ s) ∧
    ∀ parameters options records,
      (Engine.run ⟨plan, blocks, settings⟩ parameters options).result = .ok records →
      ∃ prepared j, prepare plan.inputs parameters = .ok prepared ∧
        let final := Engine.finalState ⟨plan, blocks, settings⟩ options prepared
        Reaches ⟨⟨plan, blocks, settings⟩, prepared.store, options.draw⟩ prepared.shape j final ∧
          Assembled plan prepared final records := by
  have hplan := Definition.coherent_of_compile hcompile
  refine ⟨fun store draw shape j s h => h.kept hplan, fun parameters options records hrun => ?_⟩
  rcases Engine.run_cases ⟨plan, blocks, settings⟩ parameters options with
    ⟨fault, -, hresult⟩ | hresult | ⟨prepared, hprepare, hresult⟩
  · cases hresult.symm.trans hrun
  · cases hresult.symm.trans hrun
  · obtain ⟨-, rfl⟩ := Engine.resultOf_eq_ok_iff.1 (hresult.symm.trans hrun)
    obtain ⟨j, hreaches, -, -⟩ :=
      Engine.exists_reaches_finalState ⟨plan, blocks, settings⟩ options prepared
    exact ⟨prepared, j, hprepare, hreaches, hreaches.assembled hplan
      (Definition.outputs_nodup_of_compile hcompile) hprepare⟩

/-- A run on two lists, the second of which is empty: every result stands at its index, and the
    records show the items. -/
theorem compiled_kept_pairs :
    ∃ plan, Sample.pairs.compile Sample.pairsBlocks [] = .ok plan ∧
      ∃ prepared records,
        let final := Engine.finalState ⟨plan, Sample.pairsBlocks, {}⟩ {} prepared
        Kept ⟨⟨plan, Sample.pairsBlocks, {}⟩, prepared.store, fun _ => 0.5⟩ final ∧
          Assembled plan prepared final records ∧
          Table.keys final.results = [("split", [0, 0]), ("split", [0, 1]), ("pair", [0, 0]),
            ("pair", [0, 1]), ("collect", [0])] ∧
          records.map (·.get? "items") =
            [some (.array [.bool true, .null]), some (.array [])] := by
  have hrun : ((Sample.pairs.compile Sample.pairsBlocks []).toOption.bind fun plan =>
      (prepare plan.inputs Sample.pairsInput).toOption.bind fun prepared =>
        (Engine.run ⟨plan, Sample.pairsBlocks, {}⟩ Sample.pairsInput {}).result.toOption.map
          fun records => (Table.keys (Engine.finalState ⟨plan, Sample.pairsBlocks, {}⟩ {}
            prepared).results, records.map (·.get? "items"))) =
      some ([("split", [0, 0]), ("split", [0, 1]), ("pair", [0, 0]), ("pair", [0, 1]),
        ("collect", [0])], [some (.array [.bool true, .null]), some (.array [])]) := by
    decide +kernel
  obtain ⟨plan, hcompile, hrun⟩ := Option.bind_eq_some_iff.1 hrun
  obtain ⟨prepared, hprepare, hrun⟩ := Option.bind_eq_some_iff.1 hrun
  obtain ⟨records, hrun, hshown⟩ := Option.map_eq_some_iff.1 hrun
  obtain ⟨hkeys, hitems⟩ := Prod.mk.inj hshown
  have hcompile := toOption_eq_some.1 hcompile
  obtain ⟨hkept, hassembled⟩ := compiled_kept hcompile Sample.pairsBlocks {}
  obtain ⟨prepared', j, hprepare', hreaches, hassembled⟩ :=
    hassembled Sample.pairsInput {} records (toOption_eq_some.1 hrun)
  cases (toOption_eq_some.1 hprepare).symm.trans hprepare'
  exact ⟨plan, hcompile, prepared, records, hkept _ _ _ _ _ hreaches, hassembled, hkeys, hitems⟩

end BatchFlow
