import BatchFlow.Proofs.Run.Assembly
import BatchFlow.Proofs.Run.Inputs

namespace BatchFlow

/-!
# Inputs that are shown

An input is laid out flat, one value per index, beside the numbers of its children. An output that
shows the input nests the values again, and what comes out is what was supplied.

* `Plan.Input.given?` — what an input gives to one element of the batch.
* `Laid.Holds` — a value, with all that is nested in it, is laid out below an index.
* `Laid.Keeps` — what lies below an index of an input is left as it is.
* `layOut_holds`, `Prepares.holds` — every value that is supplied is laid out.
* `nest_of_holds` — what is laid out below an index is nested to the value that it was.
* `shown_as_given` — what this means for the records of a run.
-/

/-- What an input gives to the element at a position: its value or default if it is not nested, else
    its element at this position. A single element stands for all, and so does one value where one
    level of nesting is asked for. -/
def Plan.Input.given? (input : Plan.Input) (parameters : Table String Json) (position : Nat) :
    Option Json :=
  match input.depth, parameters.get? input.name with
  | 0, some value => some value
  | 0, none => some (.ofOption input.default)
  | _ + 1, some (.array [element]) => some element
  | _ + 1, some (.array elements) => elements[position]?
  | 1, some value => some value
  | _, _ => none

/-- The value is laid out below the index, some levels deep: each list as the number of its items,
    and what is no list any more under its own index. -/
def Laid.Holds (laid : Laid) (input : Plan.Input) : (levels : Nat) → Index → Json → Prop
  | 0, index, value => laid.store.get? (input.name, index) = some value
  | levels + 1, index, value => ∃ items, value = .array items ∧
      laid.shape.children? (input.lineage.take (index.length + 1)) index = some items.length ∧
      ∀ k item, items[k]? = some item → laid.Holds input levels (index ++ [k]) item

/-- What an input has at an index or below is left as it is, and so is all that was noted. -/
structure Laid.Keeps (name : String) (index : Index) (laid laid' : Laid) : Prop where
  shape : laid.shape.Extends laid'.shape
  store : ∀ below, laid'.store.get? (name, index ++ below) = laid.store.get? (name, index ++ below)

namespace Laid

variable {name : String} {input : Plan.Input} {levels : Nat} {index : Index} {value : Json}
  {laid laid' laid'' : Laid}

/-- Nothing is lost when nothing happens. -/
theorem Keeps.refl (laid : Laid) : Keeps name index laid laid := ⟨.refl _, fun _ => rfl⟩

/-- What is kept twice is kept. -/
theorem Keeps.trans (h : Keeps name index laid laid') (h' : Keeps name index laid' laid'') :
    Keeps name index laid laid'' :=
  ⟨h.shape.trans h'.shape, fun below => (h'.store below).trans (h.store below)⟩

/-- What is kept at an index is kept below it. -/
theorem Keeps.below (h : Keeps name index laid laid') (k : Nat) :
    Keeps name (index ++ [k]) laid laid' where
  shape := h.shape
  store below := by
    rw [List.append_assoc]
    exact h.store _

/-- What is laid out stays laid out. -/
theorem Holds.keep (h : laid.Holds input levels index value)
    (hkeeps : Keeps input.name index laid laid') : laid'.Holds input levels index value := by
  induction levels generalizing index value with
  | zero =>
    have hsame := hkeeps.store []
    rw [List.append_nil] at hsame
    exact hsame.trans h
  | succ levels ih =>
    obtain ⟨items, rfl, hcount, hitems⟩ := h
    exact ⟨items, rfl, hkeeps.shape _ _ _ hcount,
      fun k item hitem => ih (hitems k item hitem) (hkeeps.below k)⟩

end Laid

/-! ### Laying out one value -/

section LayOut

variable {input : Plan.Input} {levels : Nat} {index : Index} {value : Json} {laid laid' : Laid}

/-- Laying out a value leaves what lies elsewhere. -/
theorem layOut_keeps {name : String} {other : Index}
    (hapart : ∀ below below', (input.name, index ++ below) ≠ (name, other ++ below'))
    (h : layOut input levels index value laid = .ok laid') : laid.Keeps name other laid' := by
  induction levels generalizing index value laid laid' with
  | zero =>
    cases h
    refine ⟨.refl _, fun below => ?_⟩
    have hne := hapart [] below
    rw [List.append_nil] at hne
    rw [Table.get?_put, if_neg hne]
  | succ levels ih =>
    obtain ⟨items, shape, rfl, hshape, hfold⟩ := layOut_succ h
    refine foldlM_invariant (fun laid' => laid.Keeps name other laid') hfold
      ⟨(BatchStructure.extends_register hshape).1, fun _ => rfl⟩ ?_
    rintro ⟨item, k⟩ - b b' hb hkeeps
    refine hkeeps.trans (ih (fun below below' => ?_) hb)
    rw [List.append_assoc]
    exact hapart _ _

/-- When each of some items is laid out under its own position, all of them are in the end. -/
theorem holds_of_foldlM {items : List Json}
    (h : items.zipIdx.foldlM (fun laid (item, position) =>
      layOut input levels (index ++ [position]) item laid) laid = .ok laid')
    (heach : ∀ index item laid laid', layOut input levels index item laid = .ok laid' →
      laid'.Holds input levels index item) {k : Nat} {item : Json} (hitem : items[k]? = some item) :
    laid'.Holds input levels (index ++ [k]) item := by
  have hall := by
    refine forall_of_foldlM (fun (x : Json × Nat) laid =>
      items[x.2]? = some x.1 → laid.Holds input levels (index ++ [x.2]) x.1) h ?_ ?_
    · rintro ⟨item, k⟩ - b b' hb -
      exact heach _ _ _ _ hb
    · -- an item at another position is laid out elsewhere
      rintro ⟨item, k⟩ hx b b' hb ⟨other, k'⟩ hholds hother
      by_cases hk : k = k'
      · obtain rfl := hk
        cases (mem_zipIdx_iff.1 hx).symm.trans hother
        exact heach _ _ _ _ hb
      · refine (hholds hother).keep (layOut_keeps (fun below below' he => hk ?_) hb)
        have hsame : k = k' ∧ below = below' := by simpa using congrArg Prod.snd he
        exact hsame.1
  exact hall (item, k) (mem_zipIdx_iff.2 hitem) hitem

/-- A value that was laid out lies below its index. -/
theorem layOut_holds (h : layOut input levels index value laid = .ok laid') :
    laid'.Holds input levels index value := by
  induction levels generalizing index value laid laid' with
  | zero =>
    cases h
    exact (Table.get?_put _ _ _ _).trans (if_pos rfl)
  | succ levels ih =>
    obtain ⟨items, shape, rfl, hshape, hfold⟩ := layOut_succ h
    have hextends : shape.Extends laid'.shape := by
      refine foldlM_invariant (fun laid' => shape.Extends laid'.shape) hfold (.refl shape) ?_
      rintro ⟨item, position⟩ - b b' hb hextends
      exact hextends.trans (layOut_extends hb)
    exact ⟨items, rfl, hextends _ _ _ (BatchStructure.extends_register hshape).2,
      fun k item hitem => holds_of_foldlM hfold (fun _ _ _ _ => ih) hitem⟩

/-- Laying out an input leaves what other inputs have. -/
theorem layOutAll_keeps {size : Nat} {batch : Plan.Input × List Json} {name : String}
    (hname : batch.1.name ≠ name) (h : layOutAll size laid batch = .ok laid') (index : Index) :
    laid.Keeps name index laid' := by
  refine foldlM_invariant (fun laid' => laid.Keeps name index laid') h (.refl laid) ?_
  rintro ⟨element, position⟩ - b b' hb hkeeps
  exact hkeeps.trans (layOut_keeps (fun _ _ he => hname (congrArg Prod.fst he)) hb)

/-- The elements of an input lie each under its position. -/
theorem layOutAll_holds {size : Nat} {batch : Plan.Input × List Json}
    (h : layOutAll size laid batch = .ok laid') {position : Nat} {element : Json}
    (helement : (broadcast size batch.2)[position]? = some element) :
    laid'.Holds batch.1 (batch.1.depth - 1) [position] element := by
  have hfold : (broadcast size batch.2).zipIdx.foldlM (fun laid (element, position) =>
      layOut batch.1 (batch.1.depth - 1) ([] ++ [position]) element laid) laid = .ok laid' := h
  exact holds_of_foldlM hfold (fun _ _ _ _ => layOut_holds) helement

end LayOut

/-! ### Laying out all inputs -/

/-- What is supplied for an input that is not nested is what it gives. -/
theorem given?_of_supplied {parameters : Table String Json} {input : Plan.Input} {value : Json}
    (h : supplied parameters input = .ok (input, value)) (hdepth : input.depth = 0)
    (position : Nat) : input.given? parameters position = some value := by
  unfold supplied at h
  unfold Plan.Input.given?
  rw [hdepth]
  cases hget : parameters.get? input.name with
  | some value' =>
    rw [hget] at h
    cases h
    rfl
  | none =>
    rw [hget] at h
    dsimp only at h
    split at h
    · cases h
    · cases h
      rfl

/-- A required input has a value that was supplied. -/
theorem get?_of_supplied {parameters : Table String Json} {input : Plan.Input} {value : Json}
    (h : supplied parameters input = .ok (input, value)) (hdepth : 0 < input.depth) :
    parameters.get? input.name = some value := by
  unfold supplied at h
  cases hget : parameters.get? input.name with
  | some value' =>
    rw [hget] at h
    cases h
    rfl
  | none =>
    have hrequired : input.isRequired = true := by simpa [Plan.Input.isRequired] using hdepth
    rw [hget, if_pos hrequired] at h
    cases h

/-- The elements of a batch, brought to the common size, are what its input gives. -/
theorem given?_of_elementsOf {parameters : Table String Json} {input : Plan.Input} {value : Json}
    (hget : parameters.get? input.name = some value) (hdepth : 0 < input.depth)
    {elements : List Json} (helements : elementsOf input value = .ok elements)
    {size position : Nat} {element : Json}
    (helement : (broadcast size elements)[position]? = some element) :
    input.given? parameters position = some element := by
  obtain ⟨depth, hdepth⟩ := Nat.exists_eq_succ_of_ne_zero (Nat.ne_of_gt hdepth)
  have hsingle : ∀ only, elements = [only] → only = element := by
    rintro only rfl
    obtain ⟨-, rfl⟩ := List.getElem?_eq_some_iff.1 helement
    exact (List.getElem_replicate ..).symm
  unfold elementsOf at helements
  unfold Plan.Input.given?
  rw [hget, hdepth]
  split at helements
  · cases helements
    match elements, helement with
    | [only], _ => exact congrArg some (hsingle only rfl)
    | [], helement => exact helement
    | _ :: _ :: _, helement => exact helement
  · rename_i hvalue
    split at helements
    · rename_i hone
      cases helements
      obtain rfl : depth = 0 := Nat.succ.inj (hdepth.symm.trans hone)
      cases value with
      | array items => exact absurd rfl (hvalue items)
      | _ => exact congrArg some (hsingle _ rfl)
    · cases helements

namespace Prepares

variable {inputs : List Plan.Input} {parameters : Table String Json} {p : Prepared}
  {given : List (Plan.Input × Json)} {batches : List (Plan.Input × List Json)}

/-- What is given is supplied for the inputs, for each under its name. -/
theorem given_names (h : Prepares inputs parameters p given batches) :
    given.map (·.1.name) = inputs.map (·.name) :=
  map_eq_of_mapM h.given_eq fun _ _ hsupplied => congrArg _ (supplied_input hsupplied)

/-- The batches stand in the order of their inputs. -/
theorem batches_names (h : Prepares inputs parameters p given batches) :
    batches.map (·.1.name) = (given.filter fun x => x.1.isRequired).map (·.1.name) := by
  refine map_eq_of_mapM h.batches_eq fun x batch hbatch => ?_
  obtain ⟨elements, -, he⟩ := bind_eq_ok.1 hbatch
  cases pure_eq_ok.1 he
  rfl

/-- No two batches have the same name. -/
theorem batch_unique (h : Prepares inputs parameters p given batches)
    (hinputs : (inputs.map (·.name)).Nodup) {batch batch' : Plan.Input × List Json}
    (hbatch : batch ∈ batches) (hbatch' : batch' ∈ batches)
    (hname : batch.1.name = batch'.1.name) : batch = batch' := by
  refine List.inj_on_of_nodup_map (f := fun batch => batch.1.name) ?_ hbatch hbatch' hname
  rw [h.batches_names]
  rw [← h.given_names] at hinputs
  exact (List.filter_sublist.map _).nodup hinputs

/-- What is given for an input that is a batch has its elements. -/
theorem exists_elementsOf (h : Prepares inputs parameters p given batches) {input : Plan.Input}
    {value : Json} (hgiven : (input, value) ∈ given) (hdepth : 0 < input.depth) :
    ∃ elements, (input, elements) ∈ batches ∧ elementsOf input value = .ok elements := by
  have hfilter : (input, value) ∈ given.filter fun x => x.1.isRequired :=
    List.mem_filter.2 ⟨hgiven, by simpa [Plan.Input.isRequired] using hdepth⟩
  obtain ⟨batch, hbatch, he⟩ := exists_mem_of_mapM h.batches_eq hfilter
  obtain ⟨elements, helements, he⟩ := bind_eq_ok.1 he
  cases pure_eq_ok.1 he
  exact ⟨elements, hbatch, helements⟩

/-- Every element of a batch is laid out under its position. -/
theorem holds (h : Prepares inputs parameters p given batches)
    (hinputs : (inputs.map (·.name)).Nodup) {batch : Plan.Input × List Json}
    (hbatch : batch ∈ batches) {position : Nat} {element : Json}
    (helement : (broadcast p.batchSize batch.2)[position]? = some element) :
    p.toLaid.Holds batch.1 (batch.1.depth - 1) [position] element := by
  have hall := by
    refine forall_of_foldlM (fun (batch : Plan.Input × List Json) laid => batch ∈ batches →
      ∀ position element, (broadcast p.batchSize batch.2)[position]? = some element →
        laid.Holds batch.1 (batch.1.depth - 1) [position] element) h.laid_eq ?_ ?_
    · intro batch hbatch b b' hb _ position element helement
      exact layOutAll_holds hb helement
    · intro batch hbatch b b' hb other hholds hother position element helement
      by_cases hname : batch.1.name = other.1.name
      · obtain rfl := h.batch_unique hinputs hbatch hother hname
        exact layOutAll_holds hb helement
      · exact (hholds hother position element helement).keep (layOutAll_keeps hname hb _)
  exact hall _ hbatch hbatch position element helement

/-- What an input gives that is not nested lies under the empty index. -/
theorem get?_given (h : Prepares inputs parameters p given batches)
    (hinputs : (inputs.map (·.name)).Nodup) {input : Plan.Input} (hinput : input ∈ inputs)
    {value : Json} (hgiven : (input, value) ∈ given) (hdepth : input.depth = 0) :
    p.store.get? (input.name, []) = some value := by
  let scalars := given.filter fun x => !x.1.isRequired
  have hscalar : (input, value) ∈ scalars :=
    List.mem_filter.2 ⟨hgiven, by simp [Plan.Input.isRequired, hdepth]⟩
  -- the values that are not nested are written one after another, each under its own name
  have hnodup : (scalars.map fun x => (x.1.name, ([] : Index))).Nodup := by
    rw [← h.given_names] at hinputs
    have hnames := ((List.filter_sublist (p := fun x => !x.1.isRequired)).map _).nodup hinputs
    exact List.Nodup.of_map Prod.fst (by rwa [List.map_map])
  refine foldlM_invariant (fun laid => laid.store.get? (input.name, []) = some value)
    h.laid_eq ?_ ?_
  · have hkeys : (Table.keys (scalars.map fun x => ((x.1.name, ([] : Index)), x.2))).Nodup := by
      rwa [Table.keys, List.map_map]
    have hstore := Table.ofList_eq hkeys
    rw [Table.ofList, List.foldl_map] at hstore
    exact (congrArg (Table.get? · _) hstore).trans (Table.get?_map_name hnodup hscalar)
  · -- and no batch has the name of an input that is not nested
    intro batch hbatch b b' hb hvalue
    obtain ⟨hmem, hpos⟩ := h.input_of_mem hbatch
    have hname : batch.1.name ≠ input.name := fun hname => by
      rw [List.inj_on_of_nodup_map hinputs hmem hinput hname, hdepth] at hpos
      exact Nat.lt_irrefl 0 hpos
    exact ((layOutAll_keeps hname hb []).store []).trans hvalue

end Prepares

/-! ### Showing an input -/

/-- What is laid out below an index is nested to the value that it was, in every structure in which
    no more than that is noted. -/
theorem nest_of_holds {laid : Laid} {input : Plan.Input} {shape : BatchStructure}
    {leaf : Index → Json} (hlineage : input.lineage = .ofInput input.depth)
    (hshape : laid.shape.Extends shape)
    (hleaf : ∀ index : Index, index.length = input.depth →
      leaf index = .ofOption (laid.store.get? (input.name, index)))
    {levels : Nat} {index : Index} {value : Json} (h : laid.Holds input levels index value)
    (hdepth : index.length + levels = input.depth) :
    nest shape leaf (.ofInput index.length) (.ofInput levels) index = value := by
  -- on the levels that are still to nest; the index grows at its end meanwhile, so it is general
  induction levels generalizing index value with
  | zero =>
    show leaf index = value
    rw [hleaf index hdepth, show laid.store.get? (input.name, index) = some value from h]
    rfl
  | succ levels ih =>
    obtain ⟨items, rfl, hcount, hitems⟩ := h
    have hlevel : input.lineage.take (index.length + 1) =
        Lineage.ofInput (index.length + 1) := by
      rw [hlineage, Lineage.take_ofInput, Nat.min_eq_left (by omega)]
    rw [hlevel] at hcount
    have hlevels : Lineage.ofInput (levels + 1) =
        Lineage.inputLevel :: Lineage.ofInput levels :=
      List.replicate_succ
    rw [hlevels, nest, ← Lineage.ofInput_succ, hshape _ _ _ hcount, Option.getD_some]
    refine congrArg Json.array (List.ext_getElem? fun k => ?_)
    rw [List.getElem?_map]
    cases hitem : items[k]? with
    | none =>
      rw [List.getElem?_eq_none_iff] at hitem
      rw [List.getElem?_eq_none (by rwa [List.length_range]), Option.map_none]
    | some item =>
      obtain ⟨hk, -⟩ := List.getElem?_eq_some_iff.1 hitem
      have hnested := ih (hitems k item hitem)
        (by rw [List.length_append, List.length_singleton]; omega)
      rw [List.length_append, List.length_singleton] at hnested
      rw [List.getElem?_range hk, Option.map_some, hnested]

/-- In every state of a run an output that shows an input has what the input gives. -/
theorem Reaches.given?_eq_outputValue {context : RunContext} {prepared : Prepared} {j : Journal}
    {s : RunState} (hplan : context.engine.plan.Coherent) {parameters : Table String Json}
    (hprepare : prepare context.engine.plan.inputs parameters = .ok prepared)
    (h : Reaches context prepared.shape j s) {input : Plan.Input}
    (hinput : input ∈ context.engine.plan.inputs) {o : Plan.Output}
    (hsource : o.source = .input input.name input.depth)
    (hlineage : o.lineage = .ofInput input.depth) {position : Nat}
    (hposition : position < prepared.batchSize) :
    input.given? parameters position =
      some (outputValue prepared.store s.results s.shape position o) := by
  obtain ⟨given, batches, hprepares⟩ := prepares_of_prepare hprepare
  obtain ⟨⟨input', value⟩, hgiven, hsupplied⟩ := exists_mem_of_mapM hprepares.given_eq hinput
  obtain rfl : input' = input := supplied_input hsupplied
  have hleaf : ∀ index : Index, index.length = input'.depth →
      Json.ofOption (lookup? prepared.store s.results index o.source) =
        .ofOption (prepared.store.get? (input'.name, index)) := fun index hlength => by
    rw [hsource, lookup?, ← hlength, List.take_length]
  have hsourceDepth : o.source.depth? = some input'.depth := by rw [hsource]; rfl
  rcases Nat.eq_zero_or_pos input'.depth with hdepth | hpos
  · have hvalue := hprepares.get?_given hplan.inputs_nodup hinput hgiven hdepth
    rw [given?_of_supplied hsupplied hdepth, outputValue_of_depth_zero (hdepth ▸ hsourceDepth),
      hleaf [] hdepth.symm, hvalue]
    rfl
  · -- the batch of the input has an element for the position, and it is laid out below it
    obtain ⟨elements, hbatch, helements⟩ := hprepares.exists_elementsOf hgiven hpos
    have hlength := length_broadcast ((commonSize_eq_ok hprepares.size_eq).2 _ hbatch)
    have helement := List.getElem?_eq_getElem (hlength.symm ▸ hposition)
    have hholds := hprepares.holds hplan.inputs_nodup hbatch helement
    have hnested := nest_of_holds (hplan.input_lineage _ hinput)
      (h.shows hplan).extends_inputs hleaf hholds
      (show 1 + (input'.depth - 1) = input'.depth by omega)
    have htake : o.lineage.take 1 = Lineage.ofInput 1 := by
      rw [hlineage, Lineage.take_ofInput, Nat.min_eq_left hpos]
    have hdrop : o.lineage.drop 1 = Lineage.ofInput (input'.depth - 1) := by
      rw [hlineage]
      exact List.drop_replicate
    rw [outputValue_of_depth_pos hsourceDepth hpos, htake, hdrop]
    exact (given?_of_elementsOf (get?_of_supplied hsupplied hpos) hpos helements helement).trans
      (congrArg some hnested.symm)

/-- Inputs pass through a run as they were supplied: in every record an output that selects an input
    has what the input gives to the element at the position of the record. -/
theorem shown_as_given {registry : Registry} {initParameters : Table String Json} {d : Definition}
    {plan : Plan} (hcompile : d.compile registry initParameters = .ok plan)
    (blocks : Table String Block) (settings : Settings) :
    ∀ parameters options records,
      (Engine.run ⟨plan, blocks, settings⟩ parameters options).result = .ok records →
      ∀ input ∈ plan.inputs, ∀ o ∈ plan.outputs, o.selector = .input input.name →
        ∀ position record, records[position]? = some record →
          ∃ value, input.given? parameters position = some value ∧
            record.get? o.name = some value := by
  intro parameters options records hrun input hinput o ho hselector position record hrecord
  have hplan := Definition.coherent_of_compile hcompile
  obtain ⟨prepared, j, hprepare, hreaches, -, -, -, rfl⟩ :=
    Engine.exists_reaches_of_run_eq_ok hrun
  obtain ⟨hsource, hlineage⟩ := Definition.input_shown_of_compile hcompile hinput ho hselector
  have hposition := (getElem?_assemble hrecord).1
  exact ⟨_, hreaches.given?_eq_outputValue hplan hprepare hinput hsource hlineage hposition,
    get?_assemble (Definition.outputs_nodup_of_compile hcompile) hrecord ho⟩

namespace Sample

/-- Two batches of different depths, one value for all, and a default, all shown. -/
def ragged : Definition where
  version := "1.0"
  inputs := [.batch "deep" 3 [], .batch "flat" 2 [], .batch "one" 1 [],
    .parameter "fallback" (some (.bool false)) []]
  steps := []
  outputs := [⟨"deep", "$inputs.deep"⟩, ⟨"flat", "$inputs.flat"⟩, ⟨"one", "$inputs.one"⟩,
    ⟨"fallback", "$inputs.fallback"⟩]

/-- The first element has two lists, one of them empty, and the second one has none. -/
def raggedInput : Table String Json :=
  [("deep", .array [.array [.array [.bool true], .array []], .array []]),
    ("flat", .array [.array [.bool true, .null], .array []]), ("one", .string "same")]

end Sample

/-- Empty lists are shown where they were supplied, a single value in every record. -/
theorem shown_as_given_ragged : ∃ plan records, Sample.ragged.compile [] [] = .ok plan ∧
    (Engine.run ⟨plan, [], {}⟩ Sample.raggedInput {}).result = .ok records ∧ records.length = 2 ∧
    plan.inputs.map (·.given? Sample.raggedInput 0) =
      [some (.array [.array [.bool true], .array []]), some (.array [.bool true, .null]),
        some (.string "same"), some (.bool false)] ∧
    plan.inputs.map (·.given? Sample.raggedInput 1) =
      [some (.array []), some (.array []), some (.string "same"), some (.bool false)] ∧
    ∀ input ∈ plan.inputs, ∀ position record, records[position]? = some record →
      record.get? input.name = input.given? Sample.raggedInput position := by
  have hfound : ((Sample.ragged.compile [] []).toOption.bind fun plan =>
      (Engine.run ⟨plan, [], {}⟩ Sample.raggedInput {}).result.toOption.bind fun records =>
        if records.length = 2 ∧
          plan.inputs.map (·.given? Sample.raggedInput 0) =
            [some (.array [.array [.bool true], .array []]), some (.array [.bool true, .null]),
              some (.string "same"), some (.bool false)] ∧
          plan.inputs.map (·.given? Sample.raggedInput 1) =
            [some (.array []), some (.array []), some (.string "same"), some (.bool false)] ∧
          ∀ input ∈ plan.inputs, ∃ o ∈ plan.outputs,
            o.selector = .input input.name ∧ o.name = input.name
        then some () else none).isSome := by
    decide +kernel
  obtain ⟨_, hfound⟩ := Option.isSome_iff_exists.1 hfound
  obtain ⟨plan, hcompile, hfound⟩ := Option.bind_eq_some_iff.1 hfound
  obtain ⟨records, hrun, hfound⟩ := Option.bind_eq_some_iff.1 hfound
  obtain ⟨⟨hlength, hfirst, hsecond, houtputs⟩, -⟩ := Option.ite_none_right_eq_some.1 hfound
  have hcompile := toOption_eq_some.1 hcompile
  have hrun := toOption_eq_some.1 hrun
  refine ⟨plan, records, hcompile, hrun, hlength, hfirst, hsecond, fun input hinput => ?_⟩
  intro position record hrecord
  obtain ⟨o, ho, hselector, hname⟩ := houtputs input hinput
  obtain ⟨value, hgiven, hshown⟩ := shown_as_given hcompile [] {} _ _ records hrun input hinput o ho
    hselector position record hrecord
  rw [← hname, hshown, hgiven]

end BatchFlow
