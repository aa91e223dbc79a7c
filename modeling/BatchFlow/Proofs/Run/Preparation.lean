import BatchFlow.Proofs.Run.Consistency

namespace BatchFlow

/-!
# Which inputs are accepted

Inputs that are laid out are consistent, since in the structure that they share a parent has one
number of children. So the inputs of a compiled plan are accepted exactly when they are consistent,
and what is laid out of them does not depend on the order in which this is done.

* `Laid.Holds.follow`, `Prepares.holds_at` — what is laid out below an index of an input.
* `Prepares.consistent` — inputs that are laid out are consistent.
* `Prepares.get?_eq_some_iff`, `Prepares.children?_eq_some_iff` — what is there in the end.
* `Prepares.mem_indices_iff` — which indices there are.
* `prepare_iff_consistent` — all of this for a compiled plan.
-/

/-! ### What is laid out is consistent -/

/-- Following two ways in a row is following the longer way. -/
theorem Json.follow?_append (value : Json) (path path' : List Nat) :
    value.follow? (path ++ path') = (value.follow? path).bind (·.follow? path') := by
  induction path generalizing value with
  | nil => rfl
  | cons position path ih =>
    cases value with
    | array items =>
      rw [List.cons_append, follow?, follow?]
      cases items[position]? with
      | none => rfl
      | some item => exact ih item
    | _ => rfl

/-- A child's value is found in that of its parent. -/
theorem Plan.Input.at?_concat (input : Plan.Input) (parameters : Table String Json)
    (size position : Nat) (path : Index) (k : Nat) :
    input.at? parameters size (position :: (path ++ [k])) =
      (input.at? parameters size (position :: path)).bind (·.follow? [k]) := by
  rw [at?, at?]
  split
  · simp only [Json.follow?_append, Option.bind_assoc]
  · rfl

/-- What is laid out below an index is found by following the value. -/
theorem Laid.Holds.follow {laid : Laid} {input : Plan.Input} {levels : Nat} {index path : Index}
    {value v : Json} (h : laid.Holds input levels index value)
    (hpath : path.length ≤ levels) (hv : value.follow? path = some v) :
    laid.Holds input (levels - path.length) (index ++ path) v := by
  induction path generalizing levels index value with
  | nil =>
    cases hv
    simpa using h
  | cons k path ih =>
    cases levels with
    | zero => cases hpath
    | succ levels =>
      obtain ⟨items, rfl, -, hitems⟩ := h
      obtain ⟨item, hitem, hrest⟩ := Option.bind_eq_some_iff.1 hv
      have hbelow := ih (hitems k item hitem) (Nat.le_of_succ_le_succ hpath) hrest
      simpa using hbelow

namespace Prepares

variable {inputs : List Plan.Input} {parameters : Table String Json} {input : Plan.Input}
  {given : List (Plan.Input × Json)} {batches : List (Plan.Input × List Json)} {p : Prepared}
  {position : Nat} {path index : Index} {value : Json}

/-- What an input has at an index is laid out below it. -/
theorem holds_at (h : Prepares inputs parameters p given batches)
    (hnames : (inputs.map (·.name)).Nodup) (hinput : input ∈ inputs)
    (hpath : path.length < input.depth)
    (hat : input.at? parameters p.batchSize (position :: path) = some value) :
    p.toLaid.Holds input (input.depth - 1 - path.length) (position :: path) value := by
  have hdepth : 0 < input.depth := Nat.zero_lt_of_lt hpath
  rw [Plan.Input.at?, Option.ite_none_right_eq_some] at hat
  obtain ⟨hposition, hat⟩ := hat
  obtain ⟨element, hgiven, hvalue⟩ := Option.bind_eq_some_iff.1 hat
  obtain ⟨elements, hbatch⟩ := h.exists_batch hinput hdepth
  obtain ⟨-, -, helements⟩ := (mem_batches_iff h.given_eq h.batches_eq).1 hbatch
  have hlength := (commonSize_eq_ok h.size_eq).2 _ hbatch
  rw [given?_eq_broadcast hdepth helements hlength hposition] at hgiven
  exact (h.holds hnames hbatch hgiven).follow (Nat.le_sub_one_of_lt hpath) hvalue

/-- Above its last level an input has lists, and the numbers of their items are noted. -/
theorem children?_at (h : Prepares inputs parameters p given batches)
    (hnames : (inputs.map (·.name)).Nodup) (hinput : input ∈ inputs)
    (hlineage : input.lineage = .ofInput input.depth) (hpath : path.length + 1 < input.depth)
    (hat : input.at? parameters p.batchSize (position :: path) = some value) :
    ∃ items, value = .array items ∧
      p.shape.children? (.ofInput (path.length + 2)) (position :: path) = some items.length := by
  have hholds := h.holds_at hnames hinput (Nat.lt_of_succ_lt hpath) hat
  rw [show input.depth - 1 - path.length = input.depth - path.length - 2 + 1 by omega] at hholds
  obtain ⟨items, hitems, hcount, -⟩ := hholds
  rw [hlineage, Lineage.take_ofInput, List.length_cons, Nat.min_eq_left hpath] at hcount
  exact ⟨items, hitems, hcount⟩

/-- Inputs that are laid out are consistent. -/
theorem consistent (h : Prepares inputs parameters p given batches)
    (hnames : (inputs.map (·.name)).Nodup)
    (hlineage : ∀ input ∈ inputs, input.lineage = .ofInput input.depth) :
    Consistent inputs parameters p.batchSize := by
  have hmem : ∀ {batch : Plan.Input × List Json}, batch ∈ batches ↔ batch.1 ∈ inputs ∧
      0 < batch.1.depth ∧ batch.1.elements? parameters = some batch.2 :=
    mem_batches_iff h.given_eq h.batches_eq
  have helements : ∀ input ∈ inputs, 0 < input.depth → ∃ value elements,
      parameters.get? input.name = some value ∧ elementsOf input value = .ok elements := by
    intro input hinput hdepth
    obtain ⟨elements, hbatch⟩ := h.exists_batch hinput hdepth
    obtain ⟨value, hvalue⟩ := elements?_eq_some_iff.1 (hmem.1 hbatch).2.2
    exact ⟨value, elements, hvalue⟩
  constructor
  case present =>
    intro input hinput hdepth
    obtain ⟨value, -, hvalue, -⟩ := helements input hinput hdepth
    exact ⟨value, hvalue⟩
  case nested =>
    intro input hinput hdepth value hvalue
    obtain ⟨value', elements, hvalue', hok⟩ := helements input hinput (by omega)
    cases hvalue.symm.trans hvalue'
    unfold elementsOf at hok
    split at hok
    · exact ⟨_, rfl⟩
    · rw [if_neg (by omega)] at hok
      cases hok
  case lengths =>
    intro input hinput hdepth elements hfound
    exact (commonSize_eq_ok h.size_eq).2 (input, elements) (hmem.2 ⟨hinput, hdepth, hfound⟩)
  case attained =>
    refine (attained_of_commonSize h.size_eq).imp_right fun ⟨batch, hbatch, hsize⟩ => ?_
    obtain ⟨hinput, hdepth, hfound⟩ := hmem.1 hbatch
    exact ⟨batch.1, hinput, hdepth, batch.2, hfound, hsize⟩
  case lists =>
    intro input hinput position path hpath value hat
    obtain ⟨items, hitems, -⟩ := h.children?_at hnames hinput (hlineage _ hinput) hpath hat
    exact ⟨items, hitems⟩
  -- two inputs with lists at one path have noted their lengths under one key, and a key has one
  -- count
  case agree =>
    intro input hinput other hother position path hpath hpath' items items' hat hat'
    obtain ⟨_, he, hcount⟩ := h.children?_at hnames hinput (hlineage _ hinput) hpath hat
    obtain ⟨_, he', hcount'⟩ := h.children?_at hnames hother (hlineage _ hother) hpath' hat'
    cases he
    cases he'
    exact Option.some.inj (hcount.symm.trans hcount')

/-- Nothing is there in the end but what the inputs have. -/
theorem within (h : Prepares inputs parameters p given batches)
    (hnames : (inputs.map (·.name)).Nodup)
    (hlineage : ∀ input ∈ inputs, input.lineage = .ofInput input.depth) :
    p.toLaid.Within (ValueAt inputs parameters p.batchSize)
      (CountAt inputs parameters p.batchSize) := by
  obtain ⟨p', hp', -, hwithin⟩ := (h.consistent hnames hlineage).exists_prepare hlineage
  cases (prepare_of_prepares h).symm.trans hp'
  exact hwithin

/-- In the end every input has its values, each at its index, and there are no others. -/
theorem get?_eq_some_iff (h : Prepares inputs parameters p given batches)
    (hnames : (inputs.map (·.name)).Nodup)
    (hlineage : ∀ input ∈ inputs, input.lineage = .ofInput input.depth) {key : String × Index} :
    p.store.get? key = some value ↔ ValueAt inputs parameters p.batchSize key value := by
  refine ⟨(h.within hnames hlineage).store key value, ?_⟩
  obtain ⟨name, index⟩ := key
  rintro ⟨input, hinput, rfl, hlength, hat⟩
  cases index with
  | nil =>
    have hdepth : input.depth = 0 := hlength.symm
    rw [Plan.Input.at?, if_pos hdepth] at hat
    obtain ⟨⟨input', value'⟩, hgiven, hsupplied⟩ := exists_mem_of_mapM h.given_eq hinput
    obtain rfl : input' = input := supplied_input hsupplied
    rw [given?_of_supplied hsupplied hdepth] at hat
    cases hat
    exact h.get?_given hnames hinput hgiven hdepth
  | cons position path =>
    have hdepth : path.length + 1 = input.depth := hlength
    have hholds := h.holds_at hnames hinput (by omega) hat
    rwa [show input.depth - 1 - path.length = 0 by omega] at hholds

/-- In the end the size of the batch is noted and the numbers of items of all lists that the inputs
    have above their last levels, and nothing else. -/
theorem children?_eq_some_iff (h : Prepares inputs parameters p given batches)
    (hnames : (inputs.map (·.name)).Nodup)
    (hlineage : ∀ input ∈ inputs, input.lineage = .ofInput input.depth) {lineage : Lineage}
    {count : Nat} : p.shape.children? lineage index = some count ↔
      CountAt inputs parameters p.batchSize (lineage, index) count := by
  refine ⟨(h.within hnames hlineage).shape (lineage, index) count, ?_⟩
  rintro (⟨he, rfl⟩ | ⟨input, hinput, position, path, items, he, hpath, hat, rfl⟩)
  · cases he
    exact h.children?_inputLevel
  · cases he
    obtain ⟨_, hitems, hcount⟩ := h.children?_at hnames hinput (hlineage _ hinput) hpath hat
    cases hitems
    exact hcount

/-- The indices of an input's levels are those at which the input has something. -/
theorem mem_indices_iff (h : Prepares inputs parameters p given batches)
    (hnames : (inputs.map (·.name)).Nodup) (hinput : input ∈ inputs)
    (hlineage : input.lineage = .ofInput input.depth) (hpath : path.length < input.depth) :
    position :: path ∈ p.shape.indices (.ofInput (path.length + 1)) ↔
      (input.at? parameters p.batchSize (position :: path)).isSome := by
  induction path using List.reverseRecOn with
  | nil =>
    have hdepth : 0 < input.depth := hpath
    obtain ⟨elements, hbatch⟩ := h.exists_batch hinput hdepth
    obtain ⟨-, -, helements⟩ := (mem_batches_iff h.given_eq h.batches_eq).1 hbatch
    have hlength := (commonSize_eq_ok h.size_eq).2 _ hbatch
    have hroot : [position] ∈ p.shape.indices ([] ++ [Lineage.inputLevel]) ↔
        position < p.batchSize := by
      rw [BatchStructure.mem_indices_snoc]
      simp [h.children?_inputLevel]
    refine hroot.trans ⟨fun hposition => ?_, fun hsome => ?_⟩
    · rw [Plan.Input.at?, if_pos hposition,
        given?_eq_broadcast hdepth helements hlength hposition,
        List.getElem?_eq_getElem ((length_broadcast hlength).symm ▸ hposition)]
      rfl
    · by_contra hposition
      rw [Plan.Input.at?, if_neg hposition] at hsome
      cases hsome
  | append_singleton path k ih =>
    rw [List.length_append, List.length_singleton] at hpath ⊢
    have habove := ih (Nat.lt_of_succ_lt hpath)
    rw [Lineage.ofInput_succ (path.length + 1), ← List.cons_append,
      BatchStructure.concat_mem_indices_iff, ← Lineage.ofInput_succ, habove, List.cons_append,
      Plan.Input.at?_concat]
    cases hat : input.at? parameters p.batchSize (position :: path) with
    | none => simp
    | some value =>
      -- there is a list above, and its items are the children
      obtain ⟨items, rfl, hcount⟩ := h.children?_at hnames hinput hlineage hpath hat
      simp [hcount, Json.follow?]

/-- At the depth of an input, which may be none at all, this is so as well. -/
theorem mem_indices_depth_iff (h : Prepares inputs parameters p given batches)
    (hnames : (inputs.map (·.name)).Nodup) (hinput : input ∈ inputs)
    (hlineage : input.lineage = .ofInput input.depth) (hlength : index.length = input.depth) :
    index ∈ p.shape.indices (.ofInput input.depth) ↔
      (input.at? parameters p.batchSize index).isSome := by
  cases index with
  | nil =>
    have hdepth : input.depth = 0 := hlength.symm
    refine iff_of_true (hdepth ▸ List.mem_cons_self) ?_
    rw [Plan.Input.at?, if_pos hdepth, Plan.Input.given?, hdepth]
    cases parameters.get? input.name <;> rfl
  | cons position path =>
    rw [← hlength]
    exact h.mem_indices_iff hnames hinput hlineage (hlength ▸ Nat.lt_succ_self path.length)

end Prepares

/-! ### Compiled plans -/

/-- The batches of some inputs and the size on which they agree. -/
def Batched (inputs : List Plan.Input) (parameters : Table String Json)
    (batches : List (Plan.Input × List Json)) (size : Nat) : Prop :=
  ∃ given, inputs.mapM (supplied parameters) = .ok given ∧
    (given.filter fun x => x.1.isRequired).mapM
      (fun x => do return (x.1, ← elementsOf x.1 x.2)) = .ok batches ∧
    commonSize none batches = .ok size

section Inputs

variable {inputs inputs' : List Plan.Input} {parameters : Table String Json} {input : Plan.Input}
  {size : Nat} {p p' : Prepared}

/-- Inputs are laid out exactly when they are consistent. -/
theorem exists_prepare_iff (hnames : (inputs.map (·.name)).Nodup)
    (hlineage : ∀ input ∈ inputs, input.lineage = .ofInput input.depth) :
    (∃ p, prepare inputs parameters = .ok p) ↔ ∃ size, Consistent inputs parameters size := by
  constructor
  · rintro ⟨p, hp⟩
    obtain ⟨given, batches, h⟩ := prepares_of_prepare hp
    exact ⟨p.batchSize, h.consistent hnames hlineage⟩
  · rintro ⟨size, h⟩
    obtain ⟨p, hp, -, -⟩ := h.exists_prepare hlineage
    exact ⟨p, hp⟩

/-- An input has a value in the store at the indices of its levels, and at no others. -/
theorem isSome_get?_iff (hnames : (inputs.map (·.name)).Nodup)
    (hlineage : ∀ input ∈ inputs, input.lineage = .ofInput input.depth)
    (hp : prepare inputs parameters = .ok p) (hinput : input ∈ inputs) (index : Index) :
    (p.store.get? (input.name, index)).isSome ↔
      index ∈ p.shape.indices (.ofInput input.depth) := by
  obtain ⟨given, batches, h⟩ := prepares_of_prepare hp
  -- a stored key belongs to one input only, because the names of the inputs are unique
  have hvalue : (p.store.get? (input.name, index)).isSome ↔ index.length = input.depth ∧
      (input.at? parameters p.batchSize index).isSome := by
    simp only [Option.isSome_iff_exists, h.get?_eq_some_iff hnames hlineage]
    constructor
    · rintro ⟨value, other, hother, hname, hlength, hat⟩
      obtain rfl := List.inj_on_of_nodup_map hnames hother hinput hname
      exact ⟨hlength, value, hat⟩
    · rintro ⟨hlength, value, hat⟩
      exact ⟨value, input, hinput, rfl, hlength, hat⟩
  rw [hvalue]
  constructor
  · rintro ⟨hlength, hat⟩
    exact (h.mem_indices_depth_iff hnames hinput (hlineage _ hinput) hlength).2 hat
  · intro hindex
    have hlength := BatchStructure.length_of_mem_indices hindex
    rw [Lineage.length_ofInput] at hlength
    exact ⟨hlength,
      (h.mem_indices_depth_iff hnames hinput (hlineage _ hinput) hlength).1 hindex⟩

/-- Agreement does not depend on the order of inputs. -/
theorem Consistent.of_mem_iff (h : Consistent inputs parameters size)
    (hmem : ∀ input, input ∈ inputs' ↔ input ∈ inputs) : Consistent inputs' parameters size := by
  obtain ⟨hpresent, hnested, hlengths, hattained, hlists, hagree⟩ := h
  simp only [← hmem] at hpresent hnested hlengths hattained hlists hagree
  exact ⟨hpresent, hnested, hlengths, hattained, hlists, hagree⟩

/-- Nor do the values. -/
theorem valueAt_congr (hmem : ∀ input, input ∈ inputs' ↔ input ∈ inputs) :
    ValueAt inputs' parameters size = ValueAt inputs parameters size := by
  funext key value
  simp only [ValueAt, hmem]

/-- Nor do the numbers of children. -/
theorem countAt_congr (hmem : ∀ input, input ∈ inputs' ↔ input ∈ inputs) :
    CountAt inputs' parameters size = CountAt inputs parameters size := by
  funext key count
  simp only [CountAt, hmem]

/-- Inputs in another order are laid out in the same way. -/
theorem prepare_perm (hnames : (inputs.map (·.name)).Nodup)
    (hlineage : ∀ input ∈ inputs, input.lineage = .ofInput input.depth)
    (hperm : inputs'.Perm inputs) (hp : prepare inputs parameters = .ok p)
    (hp' : prepare inputs' parameters = .ok p') :
    p'.batchSize = p.batchSize ∧ (∀ key, p'.store.get? key = p.store.get? key) ∧
      ∀ lineage index, p'.shape.children? lineage index = p.shape.children? lineage index := by
  have hmem : ∀ input, input ∈ inputs' ↔ input ∈ inputs := fun _ => hperm.mem_iff
  have hnames' : (inputs'.map (·.name)).Nodup := (hperm.map _).nodup_iff.2 hnames
  have hlineage' : ∀ input ∈ inputs', input.lineage = .ofInput input.depth :=
    fun input hinput => hlineage input ((hmem input).1 hinput)
  obtain ⟨given, batches, h⟩ := prepares_of_prepare hp
  obtain ⟨given', batches', h'⟩ := prepares_of_prepare hp'
  have hsize : p'.batchSize = p.batchSize := by
    obtain ⟨p'', hp'', hsize, -⟩ :=
      ((h.consistent hnames hlineage).of_mem_iff hmem).exists_prepare hlineage'
    cases hp'.symm.trans hp''
    exact hsize
  refine ⟨hsize, fun key => Option.ext fun value => ?_, fun lineage index =>
    Option.ext fun count => ?_⟩
  · rw [h'.get?_eq_some_iff hnames' hlineage', h.get?_eq_some_iff hnames hlineage, hsize,
      valueAt_congr hmem]
  · rw [h'.children?_eq_some_iff hnames' hlineage', h.children?_eq_some_iff hnames hlineage, hsize,
      countAt_congr hmem]

/-- Every element that is looked for in a batch is there: the one at its position, or the only one
    if it stands for all. -/
theorem Batched.exists_element {batches : List (Plan.Input × List Json)}
    (h : Batched inputs parameters batches size) {batch : Plan.Input × List Json}
    (hbatch : batch ∈ batches) {position : Nat} (hposition : position < size) :
    ∃ element, batch.2[if batch.2.length = 1 ∧ size ≠ 1 then 0 else position]? = some element ∧
      (broadcast size batch.2)[position]? = some element := by
  obtain ⟨given, -, -, hsize⟩ := h
  obtain ⟨input, elements⟩ := batch
  have hlength := (commonSize_eq_ok hsize).2 _ hbatch
  -- a batch of one element is repeated to the batch size; any other has that size already
  by_cases hone : elements.length = 1
  · obtain ⟨element, rfl⟩ := List.length_eq_one_iff.1 hone
    refine ⟨element, ?_, List.getElem?_replicate_of_lt hposition⟩
    split
    · rfl
    · rename_i hsame
      obtain rfl : position = 0 := by
        have : size = 1 := by simpa using hsame
        omega
      rfl
  · have hsame : broadcast size elements = elements := by
      unfold broadcast
      split
      · exact absurd rfl hone
      · rfl
    have hposition : position < elements.length := (hlength.resolve_left hone).symm ▸ hposition
    refine ⟨elements[position], ?_, ?_⟩
    · rw [if_neg fun h => hone h.1]
      exact List.getElem?_eq_getElem hposition
    · rw [hsame]
      exact List.getElem?_eq_getElem hposition

end Inputs

/-- The inputs of a compiled plan are accepted exactly when they are consistent, in a batch of the
    one size for which they are. Each input then has its values at the indices of its levels. All of
    this is the same in whatever order the inputs are declared. And whether or not the inputs are
    accepted, every element that is looked for is there, and every level has a name. -/
theorem prepare_iff_consistent {registry : Registry} {initParameters : Table String Json}
    {d : Definition} {plan : Plan} (hcompile : d.compile registry initParameters = .ok plan)
    (parameters : Table String Json) :
    ((∃ p, prepare plan.inputs parameters = .ok p) ↔
      ∃ size, Consistent plan.inputs parameters size) ∧
    (∀ p, prepare plan.inputs parameters = .ok p →
      (∀ size, Consistent plan.inputs parameters size ↔ size = p.batchSize) ∧
      ∀ input ∈ plan.inputs, ∀ index, (p.store.get? (input.name, index)).isSome ↔
        index ∈ p.shape.indices (.ofInput input.depth)) ∧
    (∀ inputs : List Plan.Input, inputs.Perm plan.inputs →
      ((∃ p', prepare inputs parameters = .ok p') ↔
        ∃ p, prepare plan.inputs parameters = .ok p) ∧
      ∀ p p', prepare plan.inputs parameters = .ok p → prepare inputs parameters = .ok p' →
        p'.batchSize = p.batchSize ∧ (∀ key, p'.store.get? key = p.store.get? key) ∧
          ∀ lineage index, p'.shape.children? lineage index = p.shape.children? lineage index) ∧
    (∀ batches size, Batched plan.inputs parameters batches size → ∀ batch ∈ batches,
      ∀ position < size, ∃ element,
        batch.2[if batch.2.length = 1 ∧ size ≠ 1 then 0 else position]? = some element ∧
          (broadcast size batch.2)[position]? = some element) ∧
    ∀ input ∈ plan.inputs, input.lineage.length = input.depth := by
  have hplan := Definition.coherent_of_compile hcompile
  have hnames := hplan.inputs_nodup
  have hlineage := hplan.input_lineage
  refine ⟨exists_prepare_iff hnames hlineage, fun p hp => ⟨fun size => ⟨fun h => ?_, ?_⟩, ?_⟩,
    fun inputs hperm => ⟨?_, fun p p' hp hp' => prepare_perm hnames hlineage hperm hp hp'⟩,
    fun batches size h batch hbatch position hposition => h.exists_element hbatch hposition,
    fun input hinput => by rw [hlineage input hinput, Lineage.length_ofInput]⟩
  · obtain ⟨p', hp', hsize, -⟩ := h.exists_prepare hlineage
    cases hp.symm.trans hp'
    exact hsize.symm
  · rintro rfl
    obtain ⟨given, batches, h⟩ := prepares_of_prepare hp
    exact h.consistent hnames hlineage
  · exact fun input hinput index => isSome_get?_iff hnames hlineage hp hinput index
  · have hnames' := (hperm.map (·.name)).nodup_iff.2 hnames
    have hlineage' : ∀ input ∈ inputs, input.lineage = .ofInput input.depth :=
      fun input hinput => hlineage input (hperm.mem_iff.1 hinput)
    -- consistency mentions the inputs by membership only, so their order is irrelevant to it
    rw [exists_prepare_iff hnames' hlineage', exists_prepare_iff hnames hlineage]
    exact exists_congr fun size => ⟨fun h => h.of_mem_iff fun _ => hperm.mem_iff.symm,
      fun h => h.of_mem_iff fun _ => hperm.mem_iff⟩

namespace Sample

/-- The first element has three lists in the one batch and two in the other. -/
def raggedClash : Table String Json :=
  [("deep", .array [.array [.array [.bool true], .array [], .array []]]),
    ("flat", .array [.array [.bool true, .null], .array []]), ("one", .string "same")]

end Sample

/-- Empty lists and a value that stands for all go together, lists of different lengths do not. -/
theorem prepare_iff_consistent_ragged : ∃ plan p p', Sample.ragged.compile [] [] = .ok plan ∧
    prepare plan.inputs Sample.raggedInput = .ok p ∧
    Consistent plan.inputs Sample.raggedInput 2 ∧
    p.shape.indices (.ofInput 3) = [[0, 0, 0]] ∧
    (∀ index, (p.store.get? ("deep", index)).isSome ↔ index = [0, 0, 0]) ∧
    prepare plan.inputs.reverse Sample.raggedInput = .ok p' ∧
    (∀ key, p'.store.get? key = p.store.get? key) ∧
    ¬∃ size, Consistent plan.inputs Sample.raggedClash size := by
  have hfound : ((Sample.ragged.compile [] []).toOption.bind fun plan =>
      (prepare plan.inputs Sample.raggedInput).toOption.bind fun p =>
        if p.batchSize = 2 ∧ p.shape.indices (.ofInput 3) = [[0, 0, 0]] ∧
          (∃ input ∈ plan.inputs, input.name = "deep" ∧ input.depth = 3) ∧
          (prepare plan.inputs Sample.raggedClash).toOption.isNone
        then some () else none).isSome := by
    decide +kernel
  obtain ⟨_, hfound⟩ := Option.isSome_iff_exists.1 hfound
  obtain ⟨plan, hcompile, hfound⟩ := Option.bind_eq_some_iff.1 hfound
  obtain ⟨p, hp, hfound⟩ := Option.bind_eq_some_iff.1 hfound
  obtain ⟨⟨hsize, hindices, ⟨deep, hdeep, hname, hdepth⟩, hclash⟩, -⟩ :=
    Option.ite_none_right_eq_some.1 hfound
  have hcompile := toOption_eq_some.1 hcompile
  have hp := toOption_eq_some.1 hp
  obtain ⟨-, hlaid, hperm, -⟩ := prepare_iff_consistent hcompile Sample.raggedInput
  obtain ⟨hconsistent, hstore⟩ := hlaid p hp
  obtain ⟨hiff, hsame⟩ := hperm plan.inputs.reverse (List.reverse_perm _)
  obtain ⟨p', hp'⟩ := hiff.2 ⟨p, hp⟩
  refine ⟨plan, p, p', hcompile, hp, (hconsistent 2).2 hsize.symm, hindices, fun index => ?_, hp',
    (hsame p p' hp hp').2.1, fun hfits => ?_⟩
  · rw [← hname, hstore deep hdeep index, hdepth, hindices, List.mem_singleton]
  · obtain ⟨q, hq⟩ := (prepare_iff_consistent hcompile Sample.raggedClash).1.2 hfits
    rw [hq] at hclash
    cases hclash

end BatchFlow
