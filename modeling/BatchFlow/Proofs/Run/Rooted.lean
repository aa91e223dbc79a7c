import BatchFlow.Proofs.Run.Stored

namespace BatchFlow

/-!
# Only elements have children

A number of children is noted for an element of the batch and for nothing else: by the inputs for
the elements that they lay out, and by a step for the elements at which it ran.

* `BatchStructure.Rooted` — every parent is an index of the levels above.
* `rooted_of_prepare` — the structure of the inputs is rooted.
* `Reaches.indices_of_entry` — a step that is done returned something at its own indices, each once.
* `Reaches.rooted` — the structure is rooted in every state of a run that has not failed.
-/

/-- Children are noted only for indices of the levels above. -/
def BatchStructure.Rooted (s : BatchStructure) : Prop :=
  ∀ above level index n, s.children? (above ++ [level]) index = some n → index ∈ s.indices above

/-- Noting the children of an index of the levels above keeps the structure rooted. -/
theorem BatchStructure.Rooted.register {s s' : BatchStructure} (h : s.Rooted) {above : Lineage}
    {level : String} {parent : Index} {count : Nat} (hparent : parent ∈ s.indices above)
    (hs' : s.register (above ++ [level]) parent count = .ok s') : s'.Rooted := by
  intro above' level' index n hn
  have hextends := (extends_register hs').1
  have hget : some n = _ := hn.symm.trans (get?_register hs' (above' ++ [level'], index))
  cases he : s.counts.get? (above' ++ [level'], index) with
  | some existing => exact hextends.mem_indices (h above' level' index existing he)
  | none =>
    rw [he, Option.none_or, Table.get?_cons] at hget
    split at hget
    · rename_i hkey
      obtain ⟨hlineage, rfl⟩ := Prod.mk.inj hkey
      obtain ⟨rfl, -⟩ := List.append_inj' hlineage rfl
      exact hextends.mem_indices hparent
    · cases hget

/-! ### The structure of the inputs -/

/-- Laying out a value below an index keeps the structure rooted. -/
theorem layOut_rooted {input : Plan.Input} {levels : Nat} {index : Index} {value : Json}
    {laid laid' : Laid} (hlineage : input.lineage = .ofInput input.depth)
    (hdepth : index.length + levels ≤ input.depth) (hrooted : laid.shape.Rooted)
    (hindex : index ∈ laid.shape.indices (.ofInput index.length))
    (h : layOut input levels index value laid = .ok laid') : laid'.shape.Rooted := by
  induction levels generalizing index value laid laid' with
  | zero =>
    cases h
    exact hrooted
  | succ levels ih =>
    obtain ⟨items, shape, rfl, hshape, hfold⟩ := layOut_succ h
    rw [hlineage, Lineage.take_ofInput, Nat.min_eq_left (by omega), Lineage.ofInput_succ] at hshape
    obtain ⟨hextends, hcount⟩ := BatchStructure.extends_register hshape
    -- the positions of the items are children of the index, and stay so while items are laid out
    have hchild : ∀ k < items.length,
        index ++ [k] ∈ shape.indices (.ofInput (index.length + 1)) := by
      intro k hk
      rw [Lineage.ofInput_succ]
      refine BatchStructure.mem_indices_snoc.2 ⟨index, hextends.mem_indices hindex, k, ?_, rfl⟩
      rwa [hcount, Option.getD_some]
    have hall : laid'.shape.Rooted ∧ shape.Extends laid'.shape := by
      refine foldlM_invariant (fun laid' => laid'.shape.Rooted ∧ shape.Extends laid'.shape) hfold
        ⟨hrooted.register hindex hshape, .refl shape⟩ ?_
      rintro ⟨item, k⟩ hitem b b' hb ⟨hrooted', hextends'⟩
      obtain ⟨hk, -⟩ := List.getElem?_eq_some_iff.1 (mem_zipIdx_iff.1 hitem)
      have hlength : (index ++ [k]).length = index.length + 1 := List.length_append
      refine ⟨ih (by omega) hrooted' ?_ hb, hextends'.trans (layOut_extends hb)⟩
      rw [hlength]
      exact hextends'.mem_indices (hchild k hk)
    exact hall.1

/-- Laying out a batch keeps what has been noted. -/
theorem layOutAll_extends {size : Nat} {batch : Plan.Input × List Json} {laid laid' : Laid}
    (h : layOutAll size laid batch = .ok laid') : laid.shape.Extends laid'.shape := by
  refine foldlM_invariant (fun laid' => laid.shape.Extends laid'.shape) h (.refl _) ?_
  rintro ⟨element, position⟩ - b b' hb hextends
  exact hextends.trans (layOut_extends hb)

/-- The positions of the batch are indices of the workflow input. -/
theorem BatchStructure.mem_indices_inputLevel {s : BatchStructure} {size position : Nat}
    (hsize : s.children? [Lineage.inputLevel] [] = some size) (hposition : position < size) :
    [position] ∈ s.indices (.ofInput 1) := by
  have hsnoc : Lineage.ofInput 1 = [] ++ [Lineage.inputLevel] := rfl
  rw [hsnoc, mem_indices_snoc]
  refine ⟨[], List.mem_cons_self, position, ?_, rfl⟩
  rwa [List.nil_append, hsize, Option.getD_some]

/-- Laying out a batch below the positions of the workflow input keeps the structure rooted. -/
theorem layOutAll_rooted {size : Nat} {batch : Plan.Input × List Json} {laid laid' : Laid}
    (hlineage : batch.1.lineage = .ofInput batch.1.depth) (hdepth : 0 < batch.1.depth)
    (hlength : (broadcast size batch.2).length = size) (hrooted : laid.shape.Rooted)
    (hsize : laid.shape.children? [Lineage.inputLevel] [] = some size)
    (h : layOutAll size laid batch = .ok laid') : laid'.shape.Rooted := by
  have hall : laid'.shape.Rooted ∧ laid.shape.Extends laid'.shape := by
    refine foldlM_invariant (fun laid' => laid'.shape.Rooted ∧ laid.shape.Extends laid'.shape) h
      ⟨hrooted, .refl _⟩ ?_
    rintro ⟨element, position⟩ helement b b' hb ⟨hrooted', hextends⟩
    obtain ⟨hposition, -⟩ := List.getElem?_eq_some_iff.1 (mem_zipIdx_iff.1 helement)
    have hindex := BatchStructure.mem_indices_inputLevel (hextends _ _ _ hsize)
      (hlength ▸ hposition)
    have hlevels : [position].length + (batch.1.depth - 1) ≤ batch.1.depth := by
      rw [List.length_singleton]
      omega
    exact ⟨layOut_rooted hlineage hlevels hrooted' hindex hb, hextends.trans (layOut_extends hb)⟩
  exact hall.1

/-- The structure of the inputs of a run is rooted. -/
theorem rooted_of_prepare {plan : Plan} (hplan : plan.Coherent) {parameters : Table String Json}
    {p : Prepared} (h : prepare plan.inputs parameters = .ok p) : p.shape.Rooted := by
  obtain ⟨given, batches, hp⟩ := prepares_of_prepare h
  have hall : p.shape.Rooted ∧ p.shape.children? [Lineage.inputLevel] [] = some p.batchSize := by
    refine foldlM_invariant (fun laid => laid.shape.Rooted ∧
      laid.shape.children? [Lineage.inputLevel] [] = some p.batchSize) hp.laid_eq
      ⟨?_, Table.get?_cons _ _ _ _ |>.trans (if_pos rfl)⟩ ?_
    · -- at first the size of the batch is all that is noted
      intro above level index n hn
      have hn : (if ([Lineage.inputLevel], []) = (above ++ [level], index) then some p.batchSize
        else none) = some n := hn
      split at hn
      · rename_i hkey
        obtain ⟨hlineage, rfl⟩ := Prod.mk.inj hkey
        obtain ⟨rfl, -⟩ := List.append_inj' (show [] ++ [Lineage.inputLevel] = _ from hlineage) rfl
        exact List.mem_cons_self
      · cases hn
    · intro batch hbatch b b' hb ⟨hrooted, hsize⟩
      obtain ⟨hmem, hdepth⟩ := hp.input_of_mem hbatch
      have hlength := length_broadcast ((commonSize_eq_ok hp.size_eq).2 batch hbatch)
      exact ⟨layOutAll_rooted (hplan.input_lineage _ hmem) hdepth hlength hrooted hsize hb,
        layOutAll_extends hb _ _ _ hsize⟩
  exact hall.1

/-! ### Every state of a run -/

section Reaches

variable {context : RunContext} {shape : BatchStructure} {j : Journal} {s : RunState}

/-- A step that is done returned something at indices of the lineage of its elements, at each
    once. -/
theorem Reaches.indices_of_entry (hplan : context.engine.plan.Coherent)
    (h : Reaches context shape j s) {e : Entry} (he : e ∈ j) :
    (e.outputs.map (·.1)).Nodup ∧
      ∀ index ∈ e.outputs.map (·.1), index ∈ s.shape.indices e.step.elementLineage := by
  obtain ⟨elements, ⟨j', s', hreaches, hbegin, hnone, -, rfl⟩, hreturned⟩ := h.origin_of_entry he
  have hextends := hreaches.shape_extends hplan hnone h hbegin
  have hsublist : (e.outputs.map (·.1)).Sublist (s'.shape.indices e.step.elementLineage) := by
    rcases hreturned with ⟨-, hnil⟩ | ⟨-, outputs, -, hlength, houtputs⟩
    · rw [hnil]
      exact List.nil_sublist _
    · rw [houtputs, List.map_fst_zip (by simp [hlength]), RunState.elements]
      split
      · exact List.nil_sublist _
      · exact View.invocation_sublist
  exact ⟨(BatchStructure.nodup_indices _).sublist hsublist,
    fun index hindex => hextends.mem_indices (hsublist.subset hindex)⟩

/-- In every state of a run that has not failed, children are noted only for indices of the levels
    above. -/
theorem Reaches.rooted (hplan : context.engine.plan.Coherent) (h : Reaches context shape j s)
    (hrooted : shape.Rooted) (hnone : s.failure = none) : s.shape.Rooted := by
  intro above level index n hn
  rw [(h.shows hplan).children?_eq hnone] at hn
  cases hinput : shape.children? (above ++ [level]) index with
  | some count =>
    exact (h.shows hplan).extends_inputs.mem_indices (hrooted above level index count hinput)
  | none =>
    -- a step that is done has fanned out there, so it ran at the parent
    rw [hinput, Option.none_or, Journal.count?, List.getLast?_concat, Option.bind_some] at hn
    obtain ⟨e, hfound, hcount⟩ := Option.bind_eq_some_iff.1 hn
    obtain ⟨he, -⟩ := Journal.mem_of_ofStep? hfound
    obtain ⟨hlineage, items, houtput⟩ :=
      e.key_of_mem_counts (List.mem_map_of_mem (Table.mem_of_get? hcount))
    obtain ⟨earlier, later, hsplit⟩ := List.append_of_mem (h.tracks.mem_steps_of_entry he)
    have hfits := (h.recordable_of_entry hplan he).1 _ houtput
    have hconcat := Plan.Step.outputLineage_eq_concat (hplan.step hsplit).suits hfits.2
    obtain ⟨rfl, -⟩ := List.append_inj' (hlineage.trans hconcat) rfl
    exact (h.indices_of_entry hplan he).2 _ (List.mem_map_of_mem houtput)

end Reaches

end BatchFlow
