import BatchFlow.Proofs.Plan.Coherence
import BatchFlow.Proofs.Batch.Indices
import BatchFlow.Run.Inputs

namespace BatchFlow

/-!
# The structure of the inputs

* `BatchStructure.Filled` — a number of children has been noted for every index above each level of
  a lineage.
* `filled_of_prepare` — the inputs of a run fill the levels of every input.
* `inputOnly_of_prepare` — nothing is noted at the levels of steps.
* `prepare_eq_error` — a run that cannot be prepared is told which input is at fault.
-/

namespace BatchStructure

/-- A number of children has been noted for every index above each level of a lineage. -/
def Filled (s : BatchStructure) (l : Lineage) : Prop :=
  ∀ above level, above ++ [level] <+: l → ∀ index ∈ s.indices above,
    (s.children? (above ++ [level]) index).isSome

/-- Numbers of children have been noted below an index, down some levels of a lineage. -/
def Covered (s : BatchStructure) (l : Lineage) : (levels : Nat) → Index → Prop
  | 0, _ => True
  | levels + 1, index => ∃ n, s.children? (l.take (index.length + 1)) index = some n ∧
      ∀ k < n, s.Covered l levels (index ++ [k])

/-- Numbers that are known stay known. -/
theorem Covered.extend {s s' : BatchStructure} (h : s.Extends s') {l : Lineage} {levels : Nat}
    {index : Index} (hcovered : s.Covered l levels index) : s'.Covered l levels index := by
  induction levels generalizing index with
  | zero => trivial
  | succ levels ih =>
    obtain ⟨n, hn, hbelow⟩ := hcovered
    exact ⟨n, h _ _ _ hn, fun k hk => ih (hbelow k hk)⟩

/-- Nothing has been noted but at the levels of the workflow input. -/
def InputOnly (s : BatchStructure) : Prop :=
  ∀ l index n, s.children? l index = some n → ∃ depth, l = Lineage.ofInput depth

/-- A level of the workflow input may be noted. -/
theorem InputOnly.register {s s' : BatchStructure} (h : s.InputOnly) {depth : Nat} {parent : Index}
    {count : Nat} (hs' : s.register (.ofInput depth) parent count = .ok s') : s'.InputOnly := by
  intro l index n hn
  have hget : some n = _ := hn.symm.trans (get?_register hs' (l, index))
  cases he : s.counts.get? (l, index) with
  | some existing => exact h l index existing he
  | none =>
    rw [he, Option.none_or, Table.get?_cons] at hget
    split at hget
    · rename_i hkey
      cases hkey
      exact ⟨depth, rfl⟩
    · cases hget

end BatchStructure

/-- The first levels of an input are levels of an input. -/
theorem Lineage.take_ofInput (depth n : Nat) : (ofInput depth).take n = ofInput (min n depth) := by
  rw [ofInput, ofInput, List.take_replicate]

/-! ### Laying out one value -/

/-- The last level of an input is like the others. -/
theorem Lineage.ofInput_succ (depth : Nat) : ofInput (depth + 1) = ofInput depth ++ [inputLevel] :=
  List.replicate_succ'

/-- What begins the levels of an input are levels of the input. -/
theorem Lineage.eq_ofInput_of_concat {above : Lineage} {level : String} {depth : Nat}
    (h : above ++ [level] <+: ofInput depth) :
    above = ofInput above.length ∧ level = inputLevel ∧ above.length < depth := by
  have hall : ∀ name ∈ above ++ [level], name = inputLevel := fun name hname =>
    List.eq_of_mem_replicate (h.subset hname)
  have hlength := h.length_le
  rw [length_ofInput, List.length_append, List.length_singleton] at hlength
  exact ⟨List.eq_replicate_of_mem fun name hname => hall name (List.mem_append_left _ hname),
    hall level (List.mem_append_right _ List.mem_cons_self), hlength⟩

/-- Where levels remain, the children at the next one are known, and covered as well. -/
theorem BatchStructure.Covered.exists_children {s : BatchStructure} {depth n : Nat} {index : Index}
    (h : s.Covered (.ofInput depth) (depth - n) index) (hindex : index.length = n)
    (hn : n < depth) :
    ∃ count, s.children? (.ofInput (n + 1)) index = some count ∧
      ∀ k < count, s.Covered (.ofInput depth) (depth - (n + 1)) (index ++ [k]) := by
  rw [show depth - n = depth - (n + 1) + 1 by omega] at h
  obtain ⟨count, hcount, hbelow⟩ := h
  rw [hindex, Lineage.take_ofInput, Nat.min_eq_left hn] at hcount
  exact ⟨count, hcount, hbelow⟩

/-- An item stands at its position. -/
theorem mem_zipIdx_iff {α : Type} {items : List α} {item : α} {position : Nat} :
    (item, position) ∈ items.zipIdx ↔ items[position]? = some item := by
  rw [List.mem_zipIdx_iff_getElem?]

section LayOut

variable {input : Plan.Input} {levels : Nat} {index : Index} {value : Json} {laid laid' : Laid}

/-- A value that has to be nested further is a list, whose length is noted. -/
theorem layOut_succ (h : layOut input (levels + 1) index value laid = .ok laid') :
    ∃ items shape, value = .array items ∧
      laid.shape.register (input.lineage.take (index.length + 1)) index items.length = .ok shape ∧
      items.zipIdx.foldlM (fun laid (item, position) =>
        layOut input levels (index ++ [position]) item laid) { laid with shape } = .ok laid' := by
  cases value with
  | array items =>
    simp only [layOut] at h
    split at h
    · cases h
    · rename_i shape hshape
      exact ⟨items, shape, rfl, hshape, h⟩
  | _ => cases h

/-- Laying out keeps what has been noted. -/
theorem layOut_extends (h : layOut input levels index value laid = .ok laid') :
    laid.shape.Extends laid'.shape := by
  induction levels generalizing index value laid laid' with
  | zero =>
    cases h
    exact .refl _
  | succ levels ih =>
    obtain ⟨items, shape, rfl, hshape, hfold⟩ := layOut_succ h
    refine foldlM_invariant (fun laid' => laid.shape.Extends laid'.shape) hfold
      (BatchStructure.extends_register hshape).1 ?_
    rintro ⟨item, position⟩ - b b' hb hextends
    exact hextends.trans (ih hb)

/-- Laying out a value covers the levels below it. -/
theorem layOut_covered (h : layOut input levels index value laid = .ok laid') :
    laid'.shape.Covered input.lineage levels index := by
  induction levels generalizing index value laid laid' with
  | zero => trivial
  | succ levels ih =>
    -- what is noted for the list itself stays while its items are laid out
    obtain ⟨items, shape, rfl, hshape, hfold⟩ := layOut_succ h
    have hkept : shape.Extends laid'.shape := by
      refine foldlM_invariant (fun laid' => shape.Extends laid'.shape) hfold (.refl shape) ?_
      rintro ⟨item, position⟩ - b b' hb hextends
      exact hextends.trans (layOut_extends hb)
    have hbelow := by
      refine forall_of_foldlM (fun (x : Json × Nat) laid' =>
        laid'.shape.Covered input.lineage levels (index ++ [x.2])) hfold ?_ ?_
      · rintro ⟨item, position⟩ - b b' hb
        exact ih hb
      · rintro ⟨item, position⟩ - b b' hb other hcovered
        exact hcovered.extend (layOut_extends hb)
    refine ⟨items.length, hkept _ _ _ (BatchStructure.extends_register hshape).2, fun k hk => ?_⟩
    exact hbelow (items[k], k) (mem_zipIdx_iff.2 (List.getElem?_eq_getElem hk))

/-- Laying out a value notes levels of the workflow input only. -/
theorem layOut_inputOnly (hlineage : input.lineage = .ofInput input.depth)
    (hinput : laid.shape.InputOnly) (h : layOut input levels index value laid = .ok laid') :
    laid'.shape.InputOnly := by
  induction levels generalizing index value laid laid' with
  | zero =>
    cases h
    exact hinput
  | succ levels ih =>
    obtain ⟨items, shape, rfl, hshape, hfold⟩ := layOut_succ h
    rw [hlineage, Lineage.take_ofInput] at hshape
    refine foldlM_invariant (fun laid' => laid'.shape.InputOnly) hfold (hinput.register hshape) ?_
    rintro ⟨item, position⟩ - b b' hb hb'
    exact ih hb' hb

/-- A value that cannot be laid out is the fault of its input. -/
theorem layOut_eq_error {fault : RunFault}
    (h : layOut input levels index value laid = .error fault) :
    ∃ why, fault = .input input.name why := by
  induction levels generalizing index value laid with
  | zero => cases h
  | succ levels ih =>
    cases value with
    | array items =>
      simp only [layOut] at h
      split at h
      · cases h
        exact ⟨_, rfl⟩
      · obtain ⟨⟨item, position⟩, -, laid', h⟩ := exists_error_of_foldlM h
        exact ih h
    | _ =>
      cases h
      exact ⟨_, rfl⟩

end LayOut

/-! ### Laying out all inputs -/

/-- Every batch has the common size, or one element. -/
theorem commonSize_eq_ok {size : Option (Nat × String)} {batches : List (Plan.Input × List Json)}
    {n : Nat} (h : commonSize size batches = .ok n) :
    (∀ m first, size = some (m, first) → n = m) ∧
      ∀ batch ∈ batches, batch.2.length = 1 ∨ batch.2.length = n := by
  -- once a size is fixed the remaining batches cannot change it, which the first part of the
  -- statement records
  induction batches generalizing size with
  | nil =>
    cases h
    refine ⟨fun m first hs => ?_, List.forall_mem_nil _⟩
    rw [hs]
    rfl
  | cons batch rest ih =>
    obtain ⟨input, elements⟩ := batch
    unfold commonSize at h
    split at h
    · rename_i hone
      obtain ⟨hsize, hrest⟩ := ih h
      exact ⟨hsize, List.forall_mem_cons.2 ⟨Or.inl hone, hrest⟩⟩
    · split at h
      · obtain ⟨hsize, hrest⟩ := ih h
        refine ⟨fun m first hs => ?_, List.forall_mem_cons.2 ⟨Or.inr ?_, hrest⟩⟩
        · cases hs
        · exact (hsize _ _ rfl).symm
      · rename_i expected first
        split at h
        · rename_i hlength
          obtain ⟨hsize, hrest⟩ := ih h
          refine ⟨hsize, List.forall_mem_cons.2 ⟨Or.inr ?_, hrest⟩⟩
          exact hlength.trans (hsize _ _ rfl).symm
        · cases h

/-- A size that does not agree is the fault of an input. -/
theorem commonSize_eq_error {size : Option (Nat × String)} {batches : List (Plan.Input × List Json)}
    {fault : RunFault} (h : commonSize size batches = .error fault) :
    ∃ batch ∈ batches, ∃ why, fault = .input batch.1.name why := by
  induction batches generalizing size with
  | nil => cases h
  | cons batch rest ih =>
    have hrest : ∀ {size}, commonSize size rest = .error fault →
        ∃ batch' ∈ batch :: rest, ∃ why, fault = .input batch'.1.name why := fun h =>
      (ih h).imp fun _ found => ⟨List.mem_cons_of_mem _ found.1, found.2⟩
    obtain ⟨input, elements⟩ := batch
    unfold commonSize at h
    split at h
    · exact hrest h
    · split at h
      · exact hrest h
      · split at h
        · exact hrest h
        · cases h
          exact ⟨_, List.mem_cons_self, _, rfl⟩

/-- A batch of the common size or of one element has the common size when it is broadcast. -/
theorem length_broadcast {size : Nat} {elements : List Json}
    (h : elements.length = 1 ∨ elements.length = size) :
    (broadcast size elements).length = size := by
  unfold broadcast
  split
  · exact List.length_replicate
  · rename_i hne
    rcases h with hone | hsize
    · obtain ⟨element, rfl⟩ := List.length_eq_one_iff.1 hone
      exact absurd rfl (hne element)
    · exact hsize

/-- The parts of the preparation of a run. -/
structure Prepares (inputs : List Plan.Input) (parameters : Table String Json) (p : Prepared)
    (given : List (Plan.Input × Json)) (batches : List (Plan.Input × List Json)) : Prop where
  given_eq : inputs.mapM (supplied parameters) = .ok given
  batches_eq : (given.filter fun x => x.1.isRequired).mapM
    (fun x => do return (x.1, ← elementsOf x.1 x.2)) = .ok batches
  size_eq : commonSize none batches = .ok p.batchSize
  laid_eq : batches.foldlM (layOutAll p.batchSize) {
    store := (given.filter fun x => !x.1.isRequired).foldl
      (fun store x => store.put (x.1.name, []) x.2) []
    shape := ⟨[(([Lineage.inputLevel], []), p.batchSize)]⟩ } = .ok p.toLaid

/-- Values that are accepted are laid out one input after another. -/
theorem prepares_of_prepare {inputs : List Plan.Input} {parameters : Table String Json}
    {p : Prepared} (h : prepare inputs parameters = .ok p) :
    ∃ given batches, Prepares inputs parameters p given batches := by
  unfold prepare at h
  obtain ⟨given, hgiven, h⟩ := bind_eq_ok.1 h
  obtain ⟨batches, hbatches, h⟩ := bind_eq_ok.1 h
  obtain ⟨size, hsize, h⟩ := bind_eq_ok.1 h
  obtain ⟨laid, hlaid, h⟩ := bind_eq_ok.1 h
  cases pure_eq_ok.1 h
  exact ⟨given, batches, hgiven, hbatches, hsize, hlaid⟩

/-- Values that can be laid out one input after another are accepted. -/
theorem prepare_of_prepares {inputs : List Plan.Input} {parameters : Table String Json}
    {p : Prepared} {given : List (Plan.Input × Json)} {batches : List (Plan.Input × List Json)}
    (h : Prepares inputs parameters p given batches) : prepare inputs parameters = .ok p := by
  unfold prepare
  refine bind_eq_ok.2 ⟨given, h.given_eq, bind_eq_ok.2 ⟨batches, h.batches_eq, ?_⟩⟩
  exact bind_eq_ok.2 ⟨p.batchSize, h.size_eq, bind_eq_ok.2 ⟨p.toLaid, h.laid_eq, rfl⟩⟩

/-- A value is supplied for the input that asks for it. -/
theorem supplied_input {parameters : Table String Json} {input : Plan.Input}
    {given : Plan.Input × Json} (h : supplied parameters input = .ok given) : given.1 = input := by
  unfold supplied at h
  split at h
  · cases h
    rfl
  · split at h
    · cases h
    · cases h
      rfl

/-- The batches are those of the inputs that are batches. -/
theorem input_of_mem_batches {inputs : List Plan.Input} {parameters : Table String Json}
    {given : List (Plan.Input × Json)} {batches : List (Plan.Input × List Json)}
    (hgiven : inputs.mapM (supplied parameters) = .ok given)
    (hbatches : (given.filter fun x => x.1.isRequired).mapM
      (fun x => do return (x.1, ← elementsOf x.1 x.2)) = .ok batches)
    {batch : Plan.Input × List Json} (hb : batch ∈ batches) :
    batch.1 ∈ inputs ∧ 0 < batch.1.depth := by
  obtain ⟨⟨input, value⟩, hmem, he⟩ := exists_of_mem_mapM hbatches hb
  obtain ⟨elements, -, he⟩ := bind_eq_ok.1 he
  cases pure_eq_ok.1 he
  obtain ⟨hmem, hrequired⟩ := List.mem_filter.1 hmem
  obtain ⟨input', hinput, hsupplied⟩ := exists_of_mem_mapM hgiven hmem
  have hsame : input = input' := supplied_input hsupplied
  exact ⟨hsame ▸ hinput, by simpa [Plan.Input.isRequired] using hrequired⟩

/-- Inputs that cannot be prepared are the fault of one of them, which is named. -/
theorem prepare_eq_error {inputs : List Plan.Input} {parameters : Table String Json}
    {fault : RunFault} (h : prepare inputs parameters = .error fault) :
    ∃ input ∈ inputs, ∃ why, fault = .input input.name why := by
  unfold prepare at h
  -- one stage of `prepare` after the other, each naming the input it was working on
  rcases bind_eq_error.1 h with hgiven | ⟨given, hgiven, h⟩
  · obtain ⟨input, hinput, hfault⟩ := exists_error_of_mapM hgiven
    unfold supplied at hfault
    split at hfault
    · cases hfault
    · split at hfault
      · cases hfault
        exact ⟨input, hinput, _, rfl⟩
      · cases hfault
  rcases bind_eq_error.1 h with hbatches | ⟨batches, hbatches, h⟩
  · obtain ⟨⟨input, value⟩, hmem, hfault⟩ := exists_error_of_mapM hbatches
    obtain ⟨input', hinput, hsupplied⟩ := exists_of_mem_mapM hgiven (List.mem_filter.1 hmem).1
    have hsame : input = input' := supplied_input hsupplied
    rcases bind_eq_error.1 hfault with hfault | ⟨elements, -, hfault⟩
    · unfold elementsOf at hfault
      split at hfault
      · cases hfault
      · split at hfault
        · cases hfault
        · cases hfault
          exact ⟨input, hsame ▸ hinput, _, rfl⟩
    · cases hfault
  have hbatch : ∀ batch ∈ batches, batch.1 ∈ inputs := fun batch hb =>
    (input_of_mem_batches hgiven hbatches hb).1
  rcases bind_eq_error.1 h with hsize | ⟨size, -, h⟩
  · obtain ⟨batch, hb, why, rfl⟩ := commonSize_eq_error hsize
    exact ⟨batch.1, hbatch batch hb, why, rfl⟩
  rcases bind_eq_error.1 h with hlaid | ⟨laid, -, h⟩
  · obtain ⟨batch, hb, laid, hlaid⟩ := exists_error_of_foldlM hlaid
    obtain ⟨⟨element, position⟩, -, laid', hlaid⟩ := exists_error_of_foldlM hlaid
    obtain ⟨why, rfl⟩ := layOut_eq_error hlaid
    exact ⟨batch.1, hbatch batch hb, why, rfl⟩
  · cases h

namespace Prepares

variable {inputs : List Plan.Input} {parameters : Table String Json} {p : Prepared}
  {given : List (Plan.Input × Json)} {batches : List (Plan.Input × List Json)}

/-- A batch is that of an input with at least one level. -/
theorem input_of_mem (h : Prepares inputs parameters p given batches)
    {batch : Plan.Input × List Json} (hb : batch ∈ batches) :
    batch.1 ∈ inputs ∧ 0 < batch.1.depth :=
  input_of_mem_batches h.given_eq h.batches_eq hb

/-- An input with at least one level has a batch. -/
theorem exists_batch (h : Prepares inputs parameters p given batches) {input : Plan.Input}
    (hinput : input ∈ inputs) (hdepth : 0 < input.depth) :
    ∃ elements, (input, elements) ∈ batches := by
  obtain ⟨⟨input', value⟩, hgiven, hsupplied⟩ := exists_mem_of_mapM h.given_eq hinput
  cases supplied_input hsupplied
  have hfilter : (input', value) ∈ given.filter fun x => x.1.isRequired :=
    List.mem_filter.2 ⟨hgiven, by simpa [Plan.Input.isRequired] using hdepth⟩
  obtain ⟨batch, hbatch, he⟩ := exists_mem_of_mapM h.batches_eq hfilter
  obtain ⟨elements, -, he⟩ := bind_eq_ok.1 he
  cases pure_eq_ok.1 he
  exact ⟨elements, hbatch⟩

/-- The workflow input has as many elements as the batch. -/
theorem children?_inputLevel (h : Prepares inputs parameters p given batches) :
    p.shape.children? [Lineage.inputLevel] [] = some p.batchSize := by
  refine foldlM_invariant (fun laid => laid.shape.children? [Lineage.inputLevel] [] =
    some p.batchSize) h.laid_eq (Table.get?_cons _ _ _ _ |>.trans (if_pos rfl)) ?_
  intro batch _ b b' hb hsize
  refine foldlM_invariant (fun laid => laid.shape.children? [Lineage.inputLevel] [] =
    some p.batchSize) hb hsize ?_
  rintro ⟨element, position⟩ - c c' hc hsize
  exact layOut_extends hc _ _ _ hsize

/-- Below every element of a batch the levels of its input are covered. -/
theorem covered (h : Prepares inputs parameters p given batches) {input : Plan.Input}
    (hinput : input ∈ inputs) (hdepth : 0 < input.depth) {position : Nat}
    (hposition : position < p.batchSize) :
    p.shape.Covered input.lineage (input.depth - 1) [position] := by
  have hall := by
    refine forall_of_foldlM (fun (batch : Plan.Input × List Json) laid =>
      ∀ position < p.batchSize, laid.shape.Covered batch.1.lineage (batch.1.depth - 1) [position])
        h.laid_eq ?_ ?_
    · intro batch hbatch b b' hb position hposition
      -- each batch covers the elements that it has, and all of them after it was broadcast
      have hlength := length_broadcast ((commonSize_eq_ok h.size_eq).2 batch hbatch)
      have hbatch := by
        refine forall_of_foldlM (fun (x : Json × Nat) laid =>
          laid.shape.Covered batch.1.lineage (batch.1.depth - 1) [x.2]) hb ?_ ?_
        · rintro ⟨element, position⟩ - c c' hc
          exact layOut_covered hc
        · rintro ⟨element, position⟩ - c c' hc other hcovered
          exact hcovered.extend (layOut_extends hc)
      rw [← hlength] at hposition
      exact hbatch (_, position) (mem_zipIdx_iff.2 (List.getElem?_eq_getElem hposition))
    · intro batch _ b b' hb other hcovered position hposition
      refine foldlM_invariant (fun laid => laid.shape.Covered other.1.lineage (other.1.depth - 1)
        [position]) hb (hcovered position hposition) ?_
      rintro ⟨element, position⟩ - c c' hc hcovered
      exact hcovered.extend (layOut_extends hc)
  obtain ⟨elements, hbatch⟩ := h.exists_batch hinput hdepth
  exact hall _ hbatch position hposition

/-- Below every index of an input the remaining levels are covered. -/
theorem covered_of_mem_indices (h : Prepares inputs parameters p given batches) {input : Plan.Input}
    (hinput : input ∈ inputs) (hlineage : input.lineage = .ofInput input.depth) {n : Nat}
    (hn : n < input.depth) {index : Index} (hindex : index ∈ p.shape.indices (.ofInput (n + 1))) :
    p.shape.Covered (.ofInput input.depth) (input.depth - (n + 1)) index := by
  induction n generalizing index with
  | zero =>
    obtain ⟨parent, hparent, k, hk, rfl⟩ := BatchStructure.mem_indices_snoc.1
      (show index ∈ p.shape.indices ([] ++ [Lineage.inputLevel]) from hindex)
    cases List.mem_singleton.1 hparent
    rw [List.nil_append, h.children?_inputLevel] at hk
    exact hlineage ▸ h.covered hinput (by omega) hk
  | succ n ih =>
    -- the index is one of the children that are known for its parent
    rw [Lineage.ofInput_succ] at hindex
    obtain ⟨parent, hparent, k, hk, rfl⟩ := BatchStructure.mem_indices_snoc.1 hindex
    have hlength := BatchStructure.length_of_mem_indices hparent
    rw [Lineage.length_ofInput] at hlength
    obtain ⟨count, hcount, hbelow⟩ := (ih (by omega) hparent).exists_children hlength hn
    rw [← Lineage.ofInput_succ, hcount] at hk
    exact hbelow k hk

end Prepares

/-- The inputs of a run fill the levels of every input. -/
theorem filled_of_prepare {plan : Plan} (hplan : plan.Coherent) {parameters : Table String Json}
    {p : Prepared} (h : prepare plan.inputs parameters = .ok p) {input : Plan.Input}
    (hinput : input ∈ plan.inputs) : p.shape.Filled (.ofInput input.depth) := by
  obtain ⟨given, batches, hp⟩ := prepares_of_prepare h
  intro above level hbegin index hindex
  obtain ⟨habove, rfl, hlt⟩ := Lineage.eq_ofInput_of_concat hbegin
  have hlength := BatchStructure.length_of_mem_indices hindex
  generalize above.length = n at habove hlt hlength
  subst habove
  rw [← Lineage.ofInput_succ, Option.isSome_iff_exists]
  cases n with
  | zero =>
    -- at the first level the size of the batch is noted
    cases List.mem_singleton.1 hindex
    exact ⟨_, hp.children?_inputLevel⟩
  | succ n =>
    have hcovered := hp.covered_of_mem_indices hinput (hplan.input_lineage input hinput)
      (Nat.lt_of_succ_lt hlt) hindex
    obtain ⟨count, hcount, -⟩ := hcovered.exists_children hlength hlt
    exact ⟨count, hcount⟩

/-- The inputs of a run note nothing at the levels of steps. -/
theorem inputOnly_of_prepare {plan : Plan} (hplan : plan.Coherent) {parameters : Table String Json}
    {p : Prepared} (h : prepare plan.inputs parameters = .ok p) : p.shape.InputOnly := by
  obtain ⟨given, batches, hp⟩ := prepares_of_prepare h
  refine foldlM_invariant (fun laid => laid.shape.InputOnly) hp.laid_eq ?_ ?_
  · intro l index n hn
    have hn : (if ([Lineage.inputLevel], []) = (l, index) then some p.batchSize else none) =
      some n := hn
    split at hn
    · rename_i hkey
      cases hkey
      exact ⟨1, rfl⟩
    · cases hn
  · intro batch hbatch b b' hb hinput
    refine foldlM_invariant (fun laid => laid.shape.InputOnly) hb hinput ?_
    rintro ⟨element, position⟩ - c c' hc hinput
    exact layOut_inputOnly (hplan.input_lineage _ (hp.input_of_mem hbatch).1) hinput hc

end BatchFlow
