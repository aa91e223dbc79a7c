import BatchFlow.Proofs.Run.PassThrough

namespace BatchFlow

/-!
# Inputs that go together

Inputs are laid out one after another into one structure, and a run is refused when two numbers of
children differ. Which inputs are accepted can be said of the values alone, whatever their order
(`Consistent`), and so can what is laid out in the end.

* `Plan.Input.elements?`, `Plan.Input.at?` — the elements of an input and its values at an index.
* `Consistent` — whether the values of inputs go together in a batch of some size.
* `ValueAt`, `CountAt` — what is laid out of them, and the numbers of children that are noted.
* `exists_layOut`, `Consistent.exists_layOutAll` — one value and one input are laid out when nothing
  that is there contradicts them.
* `Consistent.exists_prepare` — consistent inputs are laid out, and nothing else is.
-/

namespace Plan.Input

/-- The elements that are supplied for a nested input: the items of a list, or a single value where
    one level of nesting is asked for. -/
def elements? (input : Plan.Input) (parameters : Table String Json) : Option (List Json) :=
  match parameters.get? input.name with
  | some (.array items) => some items
  | some value => if input.depth = 1 then some [value] else none
  | none => none

/-- The value that an input has at an index in a batch of some size. -/
def at? (input : Plan.Input) (parameters : Table String Json) (size : Nat) : Index → Option Json
  | [] => if input.depth = 0 then input.given? parameters 0 else none
  | position :: path =>
    if position < size then (input.given? parameters position).bind (·.follow? path) else none

end Plan.Input

/-- Whether the values of inputs go together in a batch of some size. -/
structure Consistent (inputs : List Plan.Input) (parameters : Table String Json) (size : Nat) :
    Prop where
  /-- Nested inputs are supplied. -/
  present : ∀ input ∈ inputs, 0 < input.depth → ∃ value, parameters.get? input.name = some value
  /-- Inputs of two or more levels are supplied as lists. -/
  nested : ∀ input ∈ inputs, 2 ≤ input.depth → ∀ value, parameters.get? input.name = some value →
    ∃ items, value = .array items
  /-- A batch has one element or as many as all other batches. -/
  lengths : ∀ input ∈ inputs, 0 < input.depth → ∀ elements,
    input.elements? parameters = some elements → elements.length = 1 ∨ elements.length = size
  /-- The size is one unless some batch has it. -/
  attained : size = 1 ∨ ∃ input ∈ inputs, 0 < input.depth ∧ ∃ elements,
    input.elements? parameters = some elements ∧ elements.length = size
  /-- Above the last level of an input there are lists. -/
  lists : ∀ input ∈ inputs, ∀ position path, path.length + 1 < input.depth → ∀ value,
    input.at? parameters size (position :: path) = some value → ∃ items, value = .array items
  /-- Lists at the same index have equally many items. -/
  agree : ∀ input ∈ inputs, ∀ other ∈ inputs, ∀ position path, path.length + 1 < input.depth →
    path.length + 1 < other.depth → ∀ items items',
      input.at? parameters size (position :: path) = some (.array items) →
      other.at? parameters size (position :: path) = some (.array items') →
        items.length = items'.length

/-- What the inputs have under a name at an index of their depth. -/
def ValueAt (inputs : List Plan.Input) (parameters : Table String Json) (size : Nat)
    (key : String × Index) (value : Json) : Prop :=
  ∃ input ∈ inputs, input.name = key.1 ∧ key.2.length = input.depth ∧
    input.at? parameters size key.2 = some value

/-- How many children an index has by the inputs that are nested deeper. -/
def CountAt (inputs : List Plan.Input) (parameters : Table String Json) (size : Nat)
    (key : Lineage × Index) (count : Nat) : Prop :=
  (key = ([Lineage.inputLevel], []) ∧ count = size) ∨
    ∃ input ∈ inputs, ∃ position path items, key = (.ofInput (path.length + 2), position :: path) ∧
      path.length + 1 < input.depth ∧
      input.at? parameters size (position :: path) = some (.array items) ∧ count = items.length

/-! ### Elements -/

section Elements

variable {input : Plan.Input} {parameters : Table String Json} {elements : List Json} {size : Nat}

/-- An input gives the elements of the value that is supplied for it. -/
theorem elements?_eq_some_iff :
    input.elements? parameters = some elements ↔
      ∃ value, parameters.get? input.name = some value ∧ elementsOf input value = .ok elements := by
  unfold Plan.Input.elements?
  cases hget : parameters.get? input.name with
  | none => simp
  | some value =>
    cases value with
    | array items => simp [elementsOf]
    | _ => by_cases hone : input.depth = 1 <;> simp [elementsOf, hone]

/-- In a batch of the common size an input gives something to every element. -/
theorem given?_eq_broadcast (hdepth : 0 < input.depth)
    (helements : input.elements? parameters = some elements)
    (hlength : elements.length = 1 ∨ elements.length = size) {position : Nat}
    (hposition : position < size) :
    input.given? parameters position = (broadcast size elements)[position]? := by
  obtain ⟨value, hget, hvalue⟩ := elements?_eq_some_iff.1 helements
  have helement := List.getElem?_eq_getElem ((length_broadcast hlength).symm ▸ hposition)
  rw [helement]
  exact given?_of_elementsOf hget hdepth hvalue helement

end Elements

/-! ### Laying out one value -/

section LayOut

variable {input : Plan.Input} {levels : Nat} {index : Index} {value : Json} {laid : Laid}
  {values : String × Index → Json → Prop} {counts : Lineage × Index → Nat → Prop}

/-- Nothing is laid out but some values, and nothing is noted but some numbers of children. -/
structure Laid.Within (values : String × Index → Json → Prop)
    (counts : Lineage × Index → Nat → Prop) (laid : Laid) : Prop where
  store : ∀ key value, laid.store.get? key = some value → values key value
  shape : ∀ key count, laid.shape.counts.get? key = some count → counts key count

/-- A value that goes with what may be noted is laid out, and nothing but its parts is added. -/
theorem exists_layOut (hcounts : ∀ key n n', counts key n → counts key n' → n = n')
    (hwithin : laid.Within values counts)
    (hleaf : ∀ path v, path.length = levels → value.follow? path = some v →
      values (input.name, index ++ path) v)
    (hlist : ∀ path v, path.length < levels → value.follow? path = some v →
      ∃ items, v = .array items ∧
        counts (input.lineage.take (index.length + path.length + 1), index ++ path) items.length) :
    ∃ laid', layOut input levels index value laid = .ok laid' ∧ laid'.Within values counts := by
  induction levels generalizing index value laid with
  | zero =>
    refine ⟨_, rfl, fun key v hget => ?_, hwithin.shape⟩
    have hvalue := hleaf [] value rfl rfl
    rw [List.append_nil] at hvalue
    rw [Table.get?_put] at hget
    split at hget
    · rename_i hkey
      cases hget
      exact hkey ▸ hvalue
    · exact hwithin.store key v hget
  | succ levels ih =>
    obtain ⟨items, rfl, hcount⟩ := hlist [] value (Nat.succ_pos levels) rfl
    rw [List.append_nil, List.length_nil, Nat.add_zero] at hcount
    obtain ⟨shape, hshape⟩ := BatchStructure.register_eq_ok_iff.2 fun existing hexisting =>
      hcounts _ _ _ (hwithin.shape _ _ hexisting) hcount
    have hnoted : Laid.Within values counts { laid with shape } := by
      refine ⟨hwithin.store, fun key n hn => ?_⟩
      rw [BatchStructure.get?_register hshape key, Option.or_eq_some_iff, Table.get?_cons] at hn
      rcases hn with hn | ⟨-, hn⟩
      · exact hwithin.shape key n hn
      · split at hn
        · rename_i hkey
          cases hn
          exact hkey ▸ hcount
        · cases hn
    simp only [layOut, hshape]
    refine exists_foldlM (Laid.Within values counts) hnoted ?_
    rintro ⟨item, k⟩ hx b hb
    -- what lies in an item lies in the list, one turn further
    have hitem : ∀ path, (Json.array items).follow? (k :: path) = item.follow? path := by
      intro path
      simp [Json.follow?, mem_zipIdx_iff.1 hx]
    refine ih hb (fun path v hpath hv => ?_) fun path v hpath hv => ?_
    · have hbelow := hleaf (k :: path) v (by simpa using hpath) ((hitem path).trans hv)
      simpa using hbelow
    · have hbelow := hlist (k :: path) v (by simpa using hpath) ((hitem path).trans hv)
      simpa [Nat.add_assoc, Nat.add_comm 1] using hbelow

end LayOut

/-! ### Consistent inputs are laid out -/

section Prepare

variable {inputs : List Plan.Input} {parameters : Table String Json} {size : Nat}
  {input : Plan.Input} {elements : List Json} {given : List (Plan.Input × Json)}
  {batches : List (Plan.Input × List Json)} {laid : Laid} {p : Prepared}

/-- The batches are the elements of the nested inputs. -/
theorem mem_batches_iff (hgiven : inputs.mapM (supplied parameters) = .ok given)
    (hbatches : (given.filter fun x => x.1.isRequired).mapM
      (fun x => do return (x.1, ← elementsOf x.1 x.2)) = .ok batches) :
    (input, elements) ∈ batches ↔
      input ∈ inputs ∧ 0 < input.depth ∧ input.elements? parameters = some elements := by
  have hvalue : ∀ {input value}, (input, value) ∈ given → 0 < input.depth →
      parameters.get? input.name = some value := by
    intro input value hmem hdepth
    obtain ⟨input', -, hsupplied⟩ := exists_of_mem_mapM hgiven hmem
    obtain rfl : input = input' := supplied_input hsupplied
    exact get?_of_supplied hsupplied hdepth
  -- both lists come from `mapM`: one direction traces a batch back through them, the other pushes
  -- an input forward
  constructor
  · intro hmem
    obtain ⟨hinput, hdepth⟩ := input_of_mem_batches hgiven hbatches hmem
    obtain ⟨⟨input', value⟩, hvalues, he⟩ := exists_of_mem_mapM hbatches hmem
    obtain ⟨elements', helements, he⟩ := bind_eq_ok.1 he
    cases pure_eq_ok.1 he
    exact ⟨hinput, hdepth, elements?_eq_some_iff.2
      ⟨value, hvalue (List.mem_filter.1 hvalues).1 hdepth, helements⟩⟩
  · rintro ⟨hinput, hdepth, helements⟩
    obtain ⟨⟨input', value⟩, hmem, hsupplied⟩ := exists_mem_of_mapM hgiven hinput
    cases supplied_input hsupplied
    have hrequired : (input', value) ∈ given.filter fun x => x.1.isRequired :=
      List.mem_filter.2 ⟨hmem, by simpa [Plan.Input.isRequired] using hdepth⟩
    obtain ⟨batch, hbatch, he⟩ := exists_mem_of_mapM hbatches hrequired
    obtain ⟨elements', helements', he⟩ := bind_eq_ok.1 he
    cases pure_eq_ok.1 he
    have hsame := elements?_eq_some_iff.2 ⟨value, hvalue hmem hdepth, helements'⟩
    rwa [Option.some.inj (helements.symm.trans hsame)]

/-- Batches of one element or of a size that one of them has agree on this size. -/
theorem commonSize_of_agree {first : Option (Nat × String)}
    (hlengths : ∀ batch ∈ batches, batch.2.length = 1 ∨ batch.2.length = size)
    (hfirst : ∀ m name, first = some (m, name) → m = size)
    (hattained : first = none → size = 1 ∨ ∃ batch ∈ batches, batch.2.length = size) :
    commonSize first batches = .ok size := by
  -- the induction carries the size that was found so far: `first` is absent or has that size
  -- already
  induction batches generalizing first with
  | nil =>
    cases first with
    | none =>
      obtain rfl : size = 1 := (hattained rfl).resolve_right (by simp)
      rfl
    | some found => exact congrArg Except.ok (hfirst found.1 found.2 rfl)
  | cons batch rest ih =>
    obtain ⟨hlength, hrest⟩ := List.forall_mem_cons.1 hlengths
    unfold commonSize
    split
    · rename_i hone
      refine ih hrest hfirst fun hnone => ?_
      rcases hattained hnone with hsize | ⟨other, hother, hsize⟩
      · exact Or.inl hsize
      · rcases List.mem_cons.1 hother with rfl | hother
        · exact Or.inl (hsize.symm.trans hone)
        · exact Or.inr ⟨other, hother, hsize⟩
    · rename_i hone
      have hsize := hlength.resolve_left hone
      cases first with
      | none =>
        refine ih hrest (fun m name hm => ?_) fun hnone => absurd hnone (Option.some_ne_none _)
        cases hm
        exact hsize
      | some found =>
        have hfound := hfirst found.1 found.2 rfl
        dsimp only
        rw [if_pos (hsize.trans hfound.symm)]
        exact ih hrest hfirst fun hnone => absurd hnone (Option.some_ne_none _)

/-- The size on which batches agree is one, or one of them has it. -/
theorem attained_of_commonSize (h : commonSize none batches = .ok size) :
    size = 1 ∨ ∃ batch ∈ batches, batch.2.length = size := by
  induction batches with
  | nil =>
    cases h
    exact Or.inl rfl
  | cons batch rest ih =>
    unfold commonSize at h
    split at h
    · refine (ih h).imp_right fun hexists => ?_
      obtain ⟨other, hother, hsize⟩ := hexists
      exact ⟨other, List.mem_cons_of_mem _ hother, hsize⟩
    · exact Or.inr ⟨batch, List.mem_cons_self, ((commonSize_eq_ok h).1 _ _ rfl).symm⟩

/-- Inputs that agree give one number of children. -/
theorem Consistent.countAt_unique (h : Consistent inputs parameters size) {key : Lineage × Index}
    {n n' : Nat} (hn : CountAt inputs parameters size key n)
    (hn' : CountAt inputs parameters size key n') : n = n' := by
  rcases hn with ⟨rfl, rfl⟩ | ⟨input, hinput, position, path, items, rfl, hpath, hat, rfl⟩
  · rcases hn' with ⟨-, rfl⟩ | ⟨_, -, _, _, _, he, -⟩
    · rfl
    · cases he
  · rcases hn' with ⟨he, -⟩ | ⟨other, hother, position', path', items', he, hpath', hat', rfl⟩
    · cases he
    · obtain ⟨-, hindex⟩ := Prod.mk.inj he
      cases hindex
      exact h.agree input hinput other hother position path hpath hpath' items items' hat hat'

/-- The elements of a consistent input are laid out, and nothing is added but what the inputs
    have. -/
theorem Consistent.exists_layOutAll (h : Consistent inputs parameters size)
    (hinput : input ∈ inputs) (hdepth : 0 < input.depth)
    (hlineage : input.lineage = .ofInput input.depth)
    (helements : input.elements? parameters = some elements)
    (hwithin : laid.Within (ValueAt inputs parameters size) (CountAt inputs parameters size)) :
    ∃ laid', layOutAll size laid (input, elements) = .ok laid' ∧
      laid'.Within (ValueAt inputs parameters size) (CountAt inputs parameters size) := by
  refine exists_foldlM (Laid.Within _ _) hwithin ?_
  rintro ⟨element, position⟩ hmem b hb
  have helement := mem_zipIdx_iff.1 hmem
  have hlength := h.lengths input hinput hdepth elements helements
  have hposition : position < size := by
    obtain ⟨hlt, -⟩ := List.getElem?_eq_some_iff.1 helement
    rwa [length_broadcast hlength] at hlt
  have hat : ∀ path, input.at? parameters size (position :: path) = element.follow? path := by
    intro path
    rw [Plan.Input.at?, if_pos hposition,
      given?_eq_broadcast hdepth helements hlength hposition, helement]
    rfl
  -- leaves are stored at indices as long as the input is deep; every list above them registers a
  -- count that another input agrees with, since both are the length `CountAt` allows there
  refine exists_layOut (fun _ _ _ => h.countAt_unique) hb (fun path v hpath hv => ?_)
    fun path v hpath hv => ?_
  · have hindex : (position :: path).length = input.depth := by
      rw [List.length_cons, hpath, Nat.sub_add_cancel hdepth]
    exact ⟨input, hinput, rfl, hindex, (hat path).trans hv⟩
  · have hdeeper : path.length + 1 < input.depth := Nat.add_lt_of_lt_sub hpath
    obtain ⟨items, rfl⟩ := h.lists input hinput position path hdeeper v ((hat path).trans hv)
    refine ⟨items, rfl, Or.inr ⟨input, hinput, position, path, items, ?_, hdeeper,
      (hat path).trans hv, rfl⟩⟩
    rw [hlineage, Lineage.take_ofInput, List.length_singleton, Nat.min_eq_left (by omega),
      Nat.add_comm 1, List.singleton_append]

/-- Every input has a value. -/
theorem Consistent.exists_given (h : Consistent inputs parameters size) :
    ∃ given, inputs.mapM (supplied parameters) = .ok given := by
  refine exists_mapM_iff.2 fun input hinput => ?_
  unfold supplied
  cases hget : parameters.get? input.name with
  | some value => exact ⟨_, rfl⟩
  | none =>
    have hrequired : ¬input.isRequired = true := fun hrequired => by
      obtain ⟨value, hvalue⟩ :=
        h.present input hinput (by simpa [Plan.Input.isRequired] using hrequired)
      cases hget.symm.trans hvalue
    exact ⟨_, if_neg hrequired⟩

/-- Every batch has elements. -/
theorem Consistent.exists_batches (h : Consistent inputs parameters size)
    (hgiven : inputs.mapM (supplied parameters) = .ok given) :
    ∃ batches, (given.filter fun x => x.1.isRequired).mapM
      (fun x => do return (x.1, ← elementsOf x.1 x.2)) = .ok batches := by
  refine exists_mapM_iff.2 fun ⟨input, value⟩ hmem => ?_
  obtain ⟨hmem, hrequired⟩ := List.mem_filter.1 hmem
  have hdepth : 0 < input.depth := by simpa [Plan.Input.isRequired] using hrequired
  obtain ⟨input', hinput, hsupplied⟩ := exists_of_mem_mapM hgiven hmem
  obtain rfl : input = input' := supplied_input hsupplied
  have helements : ∃ elements, elementsOf input value = .ok elements := by
    by_cases hone : input.depth = 1
    · unfold elementsOf
      split
      · exact ⟨_, rfl⟩
      · exact ⟨_, if_pos hone⟩
    · obtain ⟨items, rfl⟩ :=
        h.nested input hinput (by omega) value (get?_of_supplied hsupplied hdepth)
      exact ⟨items, rfl⟩
  obtain ⟨elements, helements⟩ := helements
  exact ⟨_, bind_eq_ok.2 ⟨elements, helements, rfl⟩⟩

/-- Before the batches are laid out there are the values that are not nested, and the size. -/
theorem within_scalars (hgiven : inputs.mapM (supplied parameters) = .ok given) :
    Laid.Within (ValueAt inputs parameters size) (CountAt inputs parameters size) {
      store := (given.filter fun x => !x.1.isRequired).foldl
        (fun store x => store.put (x.1.name, []) x.2) []
      shape := ⟨[(([Lineage.inputLevel], []), size)]⟩ } := by
  -- before any batch is laid out the store holds the scalars only, and the only count is the batch
  -- size
  constructor
  · intro key value hget
    have hget : (Table.ofList ((given.filter fun x => !x.1.isRequired).map fun x =>
        ((x.1.name, ([] : Index)), x.2))).get? key = some value := by
      rw [Table.ofList, List.foldl_map]
      exact hget
    obtain ⟨⟨input, value⟩, hfilter, he⟩ :=
      List.mem_map.1 (Table.mem_of_mem_ofList (Table.mem_of_get? hget))
    cases he
    obtain ⟨hmem, hscalar⟩ := List.mem_filter.1 hfilter
    obtain ⟨input', hinput, hsupplied⟩ := exists_of_mem_mapM hgiven hmem
    obtain rfl : input = input' := supplied_input hsupplied
    have hdepth : input.depth = 0 := by simpa [Plan.Input.isRequired] using hscalar
    refine ⟨input, hinput, rfl, hdepth.symm, ?_⟩
    rw [Plan.Input.at?, if_pos hdepth]
    exact given?_of_supplied hsupplied hdepth 0
  · intro key count hget
    dsimp only at hget
    rw [Table.get?_cons] at hget
    split at hget
    · rename_i hkey
      cases hget
      exact Or.inl ⟨hkey.symm, rfl⟩
    · cases hget

/-- Consistent inputs are laid out, and nothing is laid out but what they have. -/
theorem Consistent.exists_prepare (h : Consistent inputs parameters size)
    (hlineage : ∀ input ∈ inputs, input.lineage = .ofInput input.depth) :
    ∃ p, prepare inputs parameters = .ok p ∧ p.batchSize = size ∧
      p.toLaid.Within (ValueAt inputs parameters size) (CountAt inputs parameters size) := by
  obtain ⟨given, hgiven⟩ := h.exists_given
  obtain ⟨batches, hbatches⟩ := h.exists_batches hgiven
  have hmem : ∀ {batch : Plan.Input × List Json}, batch ∈ batches ↔ batch.1 ∈ inputs ∧
      0 < batch.1.depth ∧ batch.1.elements? parameters = some batch.2 :=
    mem_batches_iff hgiven hbatches
  have hsize : commonSize none batches = .ok size := by
    refine commonSize_of_agree (fun batch hbatch => ?_) nofun fun _ => ?_
    · obtain ⟨hinput, hdepth, helements⟩ := hmem.1 hbatch
      exact h.lengths _ hinput hdepth _ helements
    · refine h.attained.imp_right fun ⟨input, hinput, hdepth, elements, helements, hsize⟩ => ?_
      exact ⟨(input, elements), hmem.2 ⟨hinput, hdepth, helements⟩, hsize⟩
  -- `Within` is what each batch needs of the layout before it and leaves for the batch after it.
  have hstep : ∀ batch ∈ batches, ∀ b : Laid,
      b.Within (ValueAt inputs parameters size) (CountAt inputs parameters size) →
        ∃ b', layOutAll size b batch = .ok b' ∧
          b'.Within (ValueAt inputs parameters size) (CountAt inputs parameters size) := by
    intro batch hbatch b hb
    obtain ⟨hinput, hdepth, helements⟩ := hmem.1 hbatch
    exact h.exists_layOutAll hinput hdepth (hlineage _ hinput) helements hb
  obtain ⟨laid, hlaid, hwithin⟩ := exists_foldlM (Laid.Within _ _) (within_scalars hgiven) hstep
  exact ⟨{ laid with batchSize := size },
    prepare_of_prepares ⟨hgiven, hbatches, hsize, hlaid⟩, rfl, hwithin⟩

end Prepare

end BatchFlow
