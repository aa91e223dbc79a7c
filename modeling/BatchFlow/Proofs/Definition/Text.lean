import BatchFlow.Definition.Text
import BatchFlow.Proofs.Json.Printer

namespace BatchFlow

/-!
# The text of a definition determines the definition

The members of a declaration that may be left out have different names, and the properties of a step
stand behind the members that are its own, so no declaration is written like another.

* `InputDef.toJson_injective`, `StepDef.toJson_injective`, `OutputDef.toJson_injective` — the parts;
* `Definition.toJson_injective`, `Definition.text_injective` — the definition.
-/

/-- Lists of texts are told apart. -/
theorem Json.ofStrings_injective : Function.Injective Json.ofStrings := by
  intro texts texts' h
  exact List.map_injective_iff.2 (fun _ _ hs => Json.string.inj hs) (Json.array.inj h)

/-- The kinds are read off the member for them. -/
theorem kindMembers_injective : Function.Injective kindMembers := by
  intro kinds kinds' h
  cases kinds with
  | nil =>
    cases kinds' with
    | nil => rfl
    | cons kind' rest' => cases h
  | cons kind rest =>
    cases kinds' with
    | nil => cases h
    | cons kind' rest' =>
      exact Json.ofStrings_injective (Prod.mk.inj (List.cons.inj h).1).2

/-- Neither a default value nor kinds are taken for the other. -/
theorem defaultMember_append_inj {default default' : Option Json} {kinds kinds' : List String}
    (h : (default.map (("default_value", ·))).toList ++ kindMembers kinds =
      (default'.map (("default_value", ·))).toList ++ kindMembers kinds') :
    default = default' ∧ kinds = kinds' := by
  -- the member for kinds cannot be taken for that of the default
  have hapart : ∀ (j : Json) (kinds : List String) (members : List (String × Json)),
      ("default_value", j) :: members ≠ kindMembers kinds := by
    intro j kinds members he
    cases kinds with
    | nil => cases he
    | cons kind rest => exact absurd (Prod.mk.inj (List.cons.inj he).1).1 (by decide)
  cases default with
  | none =>
    cases default' with
    | none => exact ⟨rfl, kindMembers_injective h⟩
    | some j' => exact absurd h.symm (hapart j' kinds _)
  | some j =>
    cases default' with
    | none => exact absurd h (hapart j kinds' _)
    | some j' =>
      obtain ⟨hfirst, hrest⟩ := List.cons.inj h
      exact ⟨congrArg some (Prod.mk.inj hfirst).2, kindMembers_injective hrest⟩

/-- The type of an input is its first member. -/
theorem InputDef.toJson_injective : Function.Injective InputDef.toJson := by
  intro input input' h
  -- inputs of different types have different tags
  cases input with
  | image name =>
    cases input' with
    | image name' =>
      simp only [toJson, Json.object.injEq, List.cons.injEq, Prod.mk.injEq, Json.string.injEq,
        true_and, and_true] at h
      rw [h]
    | parameter => simp [toJson] at h
    | batch => simp [toJson] at h
  | parameter name default kinds =>
    cases input' with
    | image => simp [toJson] at h
    | parameter name' default' kinds' =>
      simp only [toJson, Json.object.injEq, List.cons_append, List.nil_append, List.cons.injEq,
        Prod.mk.injEq, Json.string.injEq, true_and] at h
      obtain ⟨rfl, hrest⟩ := h
      obtain ⟨rfl, rfl⟩ := defaultMember_append_inj hrest
      rfl
    | batch => simp [toJson] at h
  | batch name depth kinds =>
    cases input' with
    | image => simp [toJson] at h
    | parameter => simp [toJson] at h
    | batch name' depth' kinds' =>
      simp only [toJson, Json.ofNat, Json.object.injEq, List.cons_append, List.nil_append,
        List.cons.injEq, Prod.mk.injEq, Json.string.injEq, Json.number.injEq, Number.int.injEq,
        Int.natCast_inj, true_and] at h
      obtain ⟨rfl, rfl, hkinds⟩ := h
      rw [kindMembers_injective hkinds]

/-- The first two members of a step are its own, whatever its properties are called. -/
theorem StepDef.toJson_injective : Function.Injective StepDef.toJson := by
  rintro ⟨blockType, name, properties⟩ ⟨blockType', name', properties'⟩ h
  simp only [toJson, Json.object.injEq, List.cons_append, List.nil_append, List.cons.injEq,
    Prod.mk.injEq, Json.string.injEq, true_and] at h
  obtain ⟨rfl, rfl, rfl⟩ := h
  rfl

/-- Two outputs are never written as one value. -/
theorem OutputDef.toJson_injective : Function.Injective OutputDef.toJson := by
  rintro ⟨name, selector⟩ ⟨name', selector'⟩ h
  simp only [toJson, Json.object.injEq, List.cons.injEq, Prod.mk.injEq, Json.string.injEq,
    true_and, and_true] at h
  obtain ⟨rfl, rfl⟩ := h
  rfl

namespace Definition

/-- A definition is read off its JSON form. -/
theorem toJson_injective : Function.Injective Definition.toJson := by
  rintro ⟨version, inputs, steps, outputs⟩ ⟨version', inputs', steps', outputs'⟩ h
  simp only [toJson, Json.object.injEq, List.cons.injEq, Prod.mk.injEq, Json.string.injEq,
    Json.array.injEq, true_and, and_true] at h
  obtain ⟨rfl, hinputs, hsteps, houtputs⟩ := h
  rw [List.map_injective_iff.2 InputDef.toJson_injective hinputs,
    List.map_injective_iff.2 StepDef.toJson_injective hsteps,
    List.map_injective_iff.2 OutputDef.toJson_injective houtputs]

/-- Different definitions have different texts. -/
theorem text_injective : Function.Injective Definition.text :=
  Json.compact_injective.comp toJson_injective

end Definition

end BatchFlow
