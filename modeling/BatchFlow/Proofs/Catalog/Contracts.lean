import BatchFlow.Catalog.Builtins
import BatchFlow.Catalog.Models
import BatchFlow.Proofs.Block.Contract

namespace BatchFlow.Catalog

/-!
# The blocks of the catalog honour their manifests

* `honours_of_mem_builtins` — every built-in block returns what its manifest promises.
* `honours_of_mem_models` — and so do the stand-ins for models.
-/

/-- The properties are read as a record when the reader accepts them. -/
theorem readInputs_eq_ok {α : Type} {inputs : Values} {read : Values → Option α} {a : α} :
    readInputs inputs read = .ok a ↔ read inputs = some a := by
  unfold readInputs
  cases read inputs <;> simp

/-! ### Blocks that decide -/

/-- Either list of a condition is a list of declared targets. -/
theorem honours_condition : condition.Honours := by
  refine Block.honours_of_execute (fun _ _ => rfl) fun call inputs output h => ?_
  obtain ⟨read, hread, h⟩ := bind_eq_ok.1 h
  obtain ⟨outcome, -, h⟩ := bind_eq_ok.1 h
  obtain ⟨statement, -, hread⟩ := Option.bind_eq_some_iff.1 (readInputs_eq_ok.1 hread)
  obtain ⟨parameters, -, hread⟩ := Option.bind_eq_some_iff.1 hread
  obtain ⟨ifTrue, hifTrue, hread⟩ := Option.bind_eq_some_iff.1 hread
  obtain ⟨ifFalse, hifFalse, hread⟩ := Option.bind_eq_some_iff.1 hread
  cases hread
  cases pure_eq_ok.1 h
  refine ⟨rfl, ?_⟩
  cases outcome with
  | true => exact Manifest.declares_of_optional? (by decide) hifTrue
  | false => exact Manifest.declares_of_optional? (by decide) hifFalse

/-- The list of a gate, or none at all, is a list of declared targets. -/
theorem honours_continueIf : continueIf.Honours := by
  refine Block.honours_of_execute (fun _ _ => rfl) fun call inputs output h => ?_
  obtain ⟨read, hread, h⟩ := bind_eq_ok.1 h
  obtain ⟨outcome, -, h⟩ := bind_eq_ok.1 h
  obtain ⟨statement, -, hread⟩ := Option.bind_eq_some_iff.1 (readInputs_eq_ok.1 hread)
  obtain ⟨parameters, -, hread⟩ := Option.bind_eq_some_iff.1 hread
  obtain ⟨next, hnext, hread⟩ := Option.bind_eq_some_iff.1 hread
  cases hread
  cases pure_eq_ok.1 h
  refine ⟨rfl, ?_⟩
  cases outcome with
  | true => exact Manifest.declares_of_require? (by decide) hnext
  | false => exact List.forall_mem_nil _

/-- Either list of a random choice is a list of declared targets. -/
theorem honours_abTest : abTest.Honours := by
  refine Block.honours_of_execute (fun _ _ => rfl) fun call inputs output h => ?_
  obtain ⟨read, hread, h⟩ := bind_eq_ok.1 h
  obtain ⟨a, ha, hread⟩ := Option.bind_eq_some_iff.1 (readInputs_eq_ok.1 hread)
  obtain ⟨b, hb, hread⟩ := Option.bind_eq_some_iff.1 hread
  obtain ⟨probability, -, hread⟩ := Option.bind_eq_some_iff.1 hread
  cases hread
  split at h
  · cases pure_eq_ok.1 h
    refine ⟨rfl, ?_⟩
    split
    · exact Manifest.declares_of_require? (by decide) ha
    · exact Manifest.declares_of_require? (by decide) hb
  · cases h

/-! ### Blocks on images and detections -/

/-- A crop returns a nested batch. -/
theorem honours_crop : crop.Honours := by
  refine Block.honours_of_execute (fun _ _ => rfl) fun call inputs output h => ?_
  obtain ⟨read, -, h⟩ := bind_eq_ok.1 h
  obtain ⟨image, -, h⟩ := bind_eq_ok.1 h
  obtain ⟨detections, -, h⟩ := bind_eq_ok.1 h
  obtain ⟨crops, -, h⟩ := bind_eq_ok.1 h
  cases pure_eq_ok.1 h
  exact ⟨rfl, rfl⟩

/-- Lists of detections are values. -/
theorem exists_of_transformDetections {operations : List Query.Operation} {parameters : Values}
    {predictions : Json} {output : Output}
    (h : transformDetections operations parameters predictions = .ok output) :
    ∃ values, output = .values values := by
  obtain ⟨changed, -, h⟩ := bind_eq_ok.1 h
  split at h
  · exact ⟨_, (pure_eq_ok.1 h).symm⟩
  · cases h

/-- A filter of detections returns values. -/
theorem honours_detectionsFilter : detectionsFilter.Honours := by
  refine Block.honours_of_execute (fun _ _ => rfl) fun call inputs output h => ?_
  obtain ⟨read, -, h⟩ := bind_eq_ok.1 h
  obtain ⟨values, rfl⟩ := exists_of_transformDetections h
  exact ⟨rfl, by decide⟩

/-- A transformation of detections returns values. -/
theorem honours_detectionsTransformation : detectionsTransformation.Honours := by
  refine Block.honours_of_execute (fun _ _ => rfl) fun call inputs output h => ?_
  obtain ⟨read, -, h⟩ := bind_eq_ok.1 h
  obtain ⟨values, rfl⟩ := exists_of_transformDetections h
  exact ⟨rfl, by decide⟩

/-- A collapse returns values. -/
theorem honours_dimensionCollapse : dimensionCollapse.Honours := by
  refine Block.honours_of_execute (fun _ _ => rfl) fun call inputs output h => ?_
  obtain ⟨data, -, h⟩ := bind_eq_ok.1 h
  split at h
  · cases pure_eq_ok.1 h
    exact ⟨rfl, by decide⟩
  · cases h

/-- Every built-in block returns what its manifest promises. -/
theorem honours_of_mem_builtins : ∀ block ∈ builtins, block.Honours := by
  simp only [builtins, List.forall_mem_cons]
  exact ⟨honours_condition, honours_continueIf, honours_abTest, honours_crop,
    honours_detectionsFilter, honours_detectionsTransformation, honours_dimensionCollapse,
    List.forall_mem_nil _⟩

/-! ### Stand-ins for models -/

/-- The stand-in for a detector returns values. -/
theorem honours_objectDetection : objectDetection.Honours := by
  refine Block.honours_of_execute (fun _ _ => rfl) fun call inputs output h => ?_
  obtain ⟨image, -, h⟩ := bind_eq_ok.1 h
  cases pure_eq_ok.1 h
  exact ⟨rfl, by decide⟩

/-- The stand-in for a classifier returns values. -/
theorem honours_classification : classification.Honours := by
  refine Block.honours_of_execute (fun _ _ => rfl) fun call inputs output h => ?_
  obtain ⟨image, -, h⟩ := bind_eq_ok.1 h
  cases pure_eq_ok.1 h
  exact ⟨rfl, by decide⟩

/-- A stand-in that always fails returns nothing. -/
theorem honours_unavailable : unavailable.Honours :=
  Block.honours_of_execute (fun _ _ => rfl) fun _ _ _ h => by cases h

/-- The stand-ins for models return what their manifests promise. -/
theorem honours_of_mem_models : ∀ block ∈ models, block.Honours := by
  simp only [models, List.forall_mem_cons]
  exact ⟨honours_objectDetection, honours_classification, honours_unavailable,
    List.forall_mem_nil _⟩

end BatchFlow.Catalog
