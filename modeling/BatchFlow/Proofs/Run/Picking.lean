import BatchFlow.Proofs.Run.Inputs

namespace BatchFlow

/-!
# One element of the inputs

The parameters of a run are cut down to one element of the batch. What is laid out for that element
alone is what is laid out for it as a part of the batch, under the position zero.

* `Plan.pick` — the parameters in which every batch is replaced by one of its elements.
* `Laid.Picks` — what is laid out under the position zero is what lies under another position.
* `layOut_picks`, `layOut_other` — laying out an element, and laying out another one.
* `prepare_pick` — the preparation of one element succeeds when that of the batch does.
-/

/-- The elements of a batch; a value that is no list stands for itself. -/
def Json.elements : Json → List Json
  | .array items => items
  | value => [value]

/-- The element at a position; the only one if there is one. -/
def pickElement (position : Nat) : List Json → Json
  | [element] => element
  | elements => elements[position]?.getD .null

/-- A batch of one element of a batch. -/
def pickValue (position : Nat) (value : Json) : Json :=
  .array [pickElement position value.elements]

/-- The parameters in which every batch is replaced by the batch of its element at a position. -/
def Plan.pick (plan : Plan) (parameters : Table String Json) (position : Nat) :
    Table String Json :=
  parameters.map fun entry => (entry.1,
    if (plan.input? entry.1).any (·.isRequired) then pickValue position entry.2 else entry.2)

/-! ### What lies below one position -/

/-- What is laid out under the position zero is what lies under another position, and what lies
    above the batch is the same. -/
structure Laid.Picks (position : Nat) (laid laid' : Laid) : Prop where
  element : ∀ name rest,
    laid'.store.get? (name, 0 :: rest) = laid.store.get? (name, position :: rest)
  single : ∀ name, laid'.store.get? (name, []) = laid.store.get? (name, [])
  count : ∀ l rest, laid'.shape.children? l (0 :: rest) = laid.shape.children? l (position :: rest)

namespace Laid.Picks

variable {position : Nat} {laid laid' : Laid}

/-- A value may be written below the position in both. -/
theorem put (h : laid.Picks position laid') (name : String) (rest : Index) (value : Json) :
    Picks position { laid with store := laid.store.put (name, position :: rest) value }
      { laid' with store := laid'.store.put (name, 0 :: rest) value } where
  element name' rest' := by
    rw [Table.get?_put, Table.get?_put, h.element]
    simp
  single name' := by
    rw [Table.get?_put, Table.get?_put, h.single]
    simp
  count := h.count

/-- What is written below another position is not seen. -/
theorem put_other (h : laid.Picks position laid') (name : String) {other : Nat}
    (hother : other ≠ position) (rest : Index) (value : Json) :
    Picks position { laid with store := laid.store.put (name, other :: rest) value } laid' where
  element name' rest' := by
    rw [Table.get?_put, if_neg fun he => hother (by cases he; rfl), h.element]
  single name' := by
    have hne : (name, other :: rest) ≠ (name', []) := fun he => nomatch congrArg Prod.snd he
    rw [Table.get?_put, if_neg hne, h.single]
  count := h.count

/-- A number of children may be noted below the position in both. -/
theorem register (h : laid.Picks position laid') {l : Lineage} {rest : Index} {count : Nat}
    {shape : BatchStructure} (hshape : laid.shape.register l (position :: rest) count = .ok shape) :
    ∃ shape', laid'.shape.register l (0 :: rest) count = .ok shape' ∧
      Picks position { laid with shape } { laid' with shape := shape' } := by
  have hexists : ∃ shape', laid'.shape.register l (0 :: rest) count = .ok shape' := by
    refine BatchStructure.register_eq_ok_iff.2 fun existing he => ?_
    rw [h.count] at he
    exact BatchStructure.register_eq_ok_iff.1 ⟨shape, hshape⟩ existing he
  obtain ⟨shape', hshape'⟩ := hexists
  refine ⟨shape', hshape', h.element, h.single, fun l' rest' => ?_⟩
  have hcount : laid'.shape.counts.get? (l', 0 :: rest') =
      laid.shape.counts.get? (l', position :: rest') := h.count l' rest'
  show shape'.counts.get? (l', 0 :: rest') = shape.counts.get? (l', position :: rest')
  rw [BatchStructure.get?_register hshape, BatchStructure.get?_register hshape', hcount]
  simp

/-- A number of children that is noted below another position is not seen. -/
theorem register_other (h : laid.Picks position laid') {l : Lineage} {other : Nat}
    (hother : other ≠ position) {rest : Index} {count : Nat} {shape : BatchStructure}
    (hshape : laid.shape.register l (other :: rest) count = .ok shape) :
    Picks position { laid with shape } laid' where
  element := h.element
  single := h.single
  count l' rest' := by
    show _ = shape.counts.get? (l', position :: rest')
    rw [h.count, BatchStructure.get?_register hshape, Table.get?_cons,
      if_neg fun he => hother (by cases he; rfl), Table.get?_nil, Option.or_none]
    rfl

end Laid.Picks

section LayOut

variable {input : Plan.Input} {levels : Nat} {rest : Index} {value : Json} {position : Nat}
  {laid laid₁ laid' : Laid}

/-- An element is laid out under the position zero as it is under its own. -/
theorem layOut_picks (h : layOut input levels (position :: rest) value laid = .ok laid₁)
    (hpicks : laid.Picks position laid') :
    ∃ laid₁', layOut input levels (0 :: rest) value laid' = .ok laid₁' ∧
      laid₁.Picks position laid₁' := by
  induction levels generalizing rest value laid laid₁ laid' with
  | zero =>
    cases h
    exact ⟨_, rfl, hpicks.put _ _ _⟩
  | succ levels ih =>
    obtain ⟨items, shape, rfl, hshape, hfold⟩ := layOut_succ h
    obtain ⟨shape', hshape', hpicks'⟩ := hpicks.register hshape
    obtain ⟨laid₁', hfold', hpicks₁⟩ := by
      refine foldlM_simulation (Laid.Picks position) (g := fun laid (x : Json × Nat) =>
        layOut input levels ((0 :: rest) ++ [x.2]) x.1 laid) hfold hpicks' ?_
      rintro ⟨item, k⟩ - b b' c hb hc
      exact ih hb hc
    refine ⟨laid₁', ?_, hpicks₁⟩
    have hlevel : laid'.shape.register (input.lineage.take ((0 :: rest).length + 1)) (0 :: rest)
        items.length = .ok shape' := hshape'
    simp only [layOut, hlevel]
    exact hfold'

/-- Laying out an element at another position changes nothing that is seen. -/
theorem layOut_other {other : Nat} (hother : other ≠ position)
    (h : layOut input levels (other :: rest) value laid = .ok laid₁)
    (hpicks : laid.Picks position laid') : laid₁.Picks position laid' := by
  induction levels generalizing rest value laid laid₁ with
  | zero =>
    cases h
    exact hpicks.put_other _ hother _ _
  | succ levels ih =>
    obtain ⟨items, shape, rfl, hshape, hfold⟩ := layOut_succ h
    refine foldlM_invariant (fun laid₁ => laid₁.Picks position laid') hfold
      (hpicks.register_other hother hshape) ?_
    rintro ⟨item, k⟩ - b b' hb hb'
    exact ih hb hb'

end LayOut

/-! ### Laying out the batches -/

/-- A batch of one element has that element at every position. -/
theorem getElem?_broadcast {size position : Nat} {elements : List Json}
    (hlength : elements.length = 1 ∨ elements.length = size) (hposition : position < size) :
    (broadcast size elements)[position]? = some (pickElement position elements) := by
  cases elements with
  | nil =>
    rcases hlength with hone | hsize
    · cases hone
    · rw [← hsize] at hposition
      exact absurd hposition (Nat.not_lt_zero _)
  | cons element rest =>
    cases rest with
    | nil => exact (List.getElem?_replicate ..).trans (if_pos hposition)
    | cons next rest =>
      have hlt : position < (element :: next :: rest).length := by
        rcases hlength with hone | hsize
        · cases hone
        · rwa [hsize]
      show (element :: next :: rest)[position]? =
        some ((element :: next :: rest)[position]?.getD .null)
      rw [List.getElem?_eq_getElem hlt]
      rfl

/-- A batch is laid out as its element is, as far as one position goes. -/
theorem layOutAll_picks {size position : Nat} {input : Plan.Input} {elements : List Json}
    {laid laid₁ laid' : Laid} (hlength : elements.length = 1 ∨ elements.length = size)
    (hposition : position < size) (h : layOutAll size laid (input, elements) = .ok laid₁)
    (hpicks : laid.Picks position laid') :
    ∃ laid₁', layOutAll 1 laid' (input, [pickElement position elements]) = .ok laid₁' ∧
      laid₁.Picks position laid₁' := by
  obtain ⟨before, after, hsplit⟩ :=
    List.append_of_mem (mem_zipIdx_iff.2 (getElem?_broadcast hlength hposition))
  -- every position stands once in the list
  have hnodup : ((broadcast size elements).zipIdx.map (·.2)).Nodup := by
    rw [List.zipIdx_map_snd]
    exact List.nodup_range'
  rw [hsplit, List.map_append, List.map_cons] at hnodup
  have hother : ∀ x ∈ before ++ after, x.2 ≠ position := by
    intro x hx he
    obtain ⟨hnotin, -⟩ := List.nodup_cons.1 (List.nodup_middle.1 hnodup)
    rw [← List.map_append] at hnotin
    exact hnotin (List.mem_map.2 ⟨x, hx, he⟩)
  -- the elements before and after the position change nothing that is seen, and the element itself
  -- is laid out in both
  unfold layOutAll at h
  rw [hsplit, List.foldlM_append] at h
  obtain ⟨laid₂, hbefore, h⟩ := bind_eq_ok.1 h
  rw [List.foldlM_cons] at h
  obtain ⟨laid₃, helement, hafter⟩ := bind_eq_ok.1 h
  have hpicks₂ : laid₂.Picks position laid' := by
    refine foldlM_invariant (fun laid => laid.Picks position laid') hbefore hpicks ?_
    rintro ⟨element, k⟩ hx b b' hb hb'
    exact layOut_other (hother _ (List.mem_append_left _ hx)) hb hb'
  obtain ⟨laid₁', hlaid₁', hpicks₃⟩ := layOut_picks helement hpicks₂
  refine ⟨laid₁', ?_, ?_⟩
  · show (layOut input (input.depth - 1) [0] (pickElement position elements) laid' >>= pure) = _
    rw [hlaid₁']
    rfl
  · refine foldlM_invariant (fun laid => laid.Picks position laid₁') hafter hpicks₃ ?_
    rintro ⟨element, k⟩ hx b b' hb hb'
    exact layOut_other (hother _ (List.mem_append_right _ hx)) hb hb'

/-! ### Preparing a run -/

variable {parameters : Table String Json} {position : Nat}

/-- The parameters are replaced name by name. -/
theorem get?_pick (plan : Plan) (name : String) :
    (plan.pick parameters position).get? name = (parameters.get? name).map fun value =>
      if (plan.input? name).any (·.isRequired) then pickValue position value else value :=
  Table.get?_mapValues parameters (fun name value =>
    if (plan.input? name).any (fun input : Plan.Input => input.isRequired) then
      pickValue position value else value) name

/-- What is supplied for an input, cut down to one element if it is a batch. -/
def pickGiven (position : Nat) (given : Plan.Input × Json) : Plan.Input × Json :=
  (given.1, if given.1.isRequired then pickValue position given.2 else given.2)

/-- What is supplied for an input is the picked element of what is supplied for the batch. -/
theorem supplied_pick {plan : Plan} (hplan : plan.Coherent) {input : Plan.Input}
    (hinput : input ∈ plan.inputs) {given : Plan.Input × Json}
    (h : supplied parameters input = .ok given) :
    supplied (plan.pick parameters position) input = .ok (pickGiven position given) := by
  have hfind : plan.input? input.name = some input := Table.find?_name hplan.inputs_nodup hinput
  unfold supplied at h ⊢
  rw [get?_pick, hfind, Option.any_some]
  cases hget : parameters.get? input.name with
  | some value =>
    rw [hget] at h
    cases h
    rfl
  | none =>
    rw [hget] at h
    dsimp only at h
    split at h
    · cases h
    · rename_i hrequired
      cases h
      rw [Option.map_none, pickGiven, if_neg hrequired, if_neg hrequired]

/-- A batch cut down to one element. -/
def pickBatch (position : Nat) (batch : Plan.Input × List Json) : Plan.Input × List Json :=
  (batch.1, [pickElement position batch.2])

/-- A picked batch has one element. -/
theorem elementsOf_pick {input : Plan.Input} {value : Json} {elements : List Json}
    (h : elementsOf input value = .ok elements) :
    elementsOf input (pickValue position value) = .ok [pickElement position elements] := by
  have he : value.elements = elements := by
    unfold elementsOf at h
    split at h
    · cases h
      rfl
    · rename_i hne
      split at h
      · cases h
        cases value with
        | array items => exact absurd rfl (hne items)
        | _ => rfl
      · cases h
  rw [pickValue, he]
  rfl

/-- Batches of one element have the common size one. -/
theorem commonSize_pick (batches : List (Plan.Input × List Json)) :
    commonSize none (batches.map (pickBatch position)) = .ok 1 := by
  induction batches with
  | nil => rfl
  | cons batch rest ih =>
    rw [List.map_cons, pickBatch, commonSize, if_pos List.length_singleton]
    exact ih

/-- All inputs have picked values. -/
theorem given_pick {plan : Plan} (hplan : plan.Coherent) {given : List (Plan.Input × Json)}
    (h : plan.inputs.mapM (supplied parameters) = .ok given) :
    plan.inputs.mapM (supplied (plan.pick parameters position)) =
      .ok (given.map (pickGiven position)) := by
  have hmap := mapM_map id (pickGiven position) h fun input hinput y hy =>
    supplied_pick hplan hinput hy
  rwa [List.map_id] at hmap

/-- All batches are picked. -/
theorem batches_pick {given : List (Plan.Input × Json)} {batches : List (Plan.Input × List Json)}
    (h : (given.filter fun x => x.1.isRequired).mapM
      (fun x => do return (x.1, ← elementsOf x.1 x.2)) = (.ok batches : Except RunFault _)) :
    ((given.map (pickGiven position)).filter fun x => x.1.isRequired).mapM
      (fun x => do return (x.1, ← elementsOf x.1 x.2)) =
        (.ok (batches.map (pickBatch position)) : Except RunFault _) := by
  rw [List.filter_map]
  refine mapM_map (pickGiven position) (pickBatch position) h ?_
  rintro ⟨input, value⟩ hmem batch hbatch
  obtain ⟨elements, helements, he⟩ := bind_eq_ok.1 hbatch
  cases pure_eq_ok.1 he
  obtain ⟨-, hrequired⟩ := List.mem_filter.1 hmem
  have hpick : pickGiven position (input, value) = (input, pickValue position value) :=
    congrArg (Prod.mk input) (if_pos hrequired)
  rw [hpick]
  exact bind_eq_ok.2 ⟨_, elementsOf_pick helements, rfl⟩

/-- Inputs that are no batch are supplied as they were. -/
theorem singles_pick (given : List (Plan.Input × Json)) :
    ((given.map (pickGiven position)).filter fun x => !x.1.isRequired) =
      given.filter fun x => !x.1.isRequired := by
  rw [List.filter_map]
  refine (List.map_congr_left fun x hx => ?_).trans (List.map_id _)
  obtain ⟨-, hsingle⟩ := List.mem_filter.1 hx
  have hsingle : x.1.isRequired = false := by simpa [pickGiven] using hsingle
  show (x.1, _) = x
  rw [hsingle]
  rfl

/-- Before any batch is laid out nothing lies below a position. -/
theorem picks_initial (size : Nat) (singles : List (Plan.Input × Json)) :
    let store : InputStore := singles.foldl (fun store x => store.put (x.1.name, []) x.2) []
    Laid.Picks position ⟨store, ⟨[(([Lineage.inputLevel], []), size)]⟩⟩
      ⟨store, ⟨[(([Lineage.inputLevel], []), 1)]⟩⟩ := by
  -- inputs that are no batch are stored at the empty index only
  have hnone : ∀ (name : String) (k : Nat) (rest : Index) (store : InputStore),
      store.get? (name, k :: rest) = none →
        (singles.foldl (fun store x => store.put (x.1.name, []) x.2) store).get?
          (name, k :: rest) = none := by
    intro name k rest
    induction singles with
    | nil => exact fun _ h => h
    | cons first others ih =>
      intro store hstore
      refine ih _ ?_
      have hne : (first.1.name, []) ≠ (name, k :: rest) := fun he => nomatch congrArg Prod.snd he
      rw [Table.get?_put, if_neg hne, hstore]
  have hcount : ∀ (n k : Nat) (l : Lineage) (rest : Index),
      BatchStructure.children? ⟨[(([Lineage.inputLevel], []), n)]⟩ l (k :: rest) = none := by
    intro n k l rest
    refine (Table.get?_cons _ _ _ _).trans (if_neg fun he => ?_)
    exact nomatch congrArg Prod.snd he
  constructor
  case element =>
    exact fun name rest => (hnone name _ rest [] rfl).trans (hnone name _ rest [] rfl).symm
  case single => exact fun name => rfl
  case count => exact fun l rest => (hcount _ _ l rest).trans (hcount _ _ l rest).symm

/-- When the inputs of a batch can be prepared, so can those of one of its elements. -/
theorem prepare_pick {plan : Plan} (hplan : plan.Coherent) {p : Prepared}
    (h : prepare plan.inputs parameters = .ok p) (hposition : position < p.batchSize) :
    ∃ p', prepare plan.inputs (plan.pick parameters position) = .ok p' ∧ p'.batchSize = 1 ∧
      p.toLaid.Picks position p'.toLaid := by
  obtain ⟨given, batches, hp⟩ := prepares_of_prepare h
  obtain ⟨laid', hlaid', hpicks⟩ := by
    refine foldlM_simulation (Laid.Picks position)
      (g := fun laid batch => layOutAll 1 laid (pickBatch position batch)) hp.laid_eq
      (picks_initial p.batchSize _) ?_
    rintro ⟨input, elements⟩ hbatch b b' c hb hc
    exact layOutAll_picks ((commonSize_eq_ok hp.size_eq).2 _ hbatch) hposition hb hc
  have hp' : Prepares plan.inputs (plan.pick parameters position) ⟨laid', 1⟩
      (given.map (pickGiven position)) (batches.map (pickBatch position)) := by
    constructor
    case given_eq => exact given_pick hplan hp.given_eq
    case batches_eq => exact batches_pick hp.batches_eq
    case size_eq => exact commonSize_pick batches
    case laid_eq =>
      rw [List.foldlM_map, singles_pick]
      exact hlaid'
  exact ⟨⟨laid', 1⟩, prepare_of_prepares hp', rfl, hpicks⟩

end BatchFlow
