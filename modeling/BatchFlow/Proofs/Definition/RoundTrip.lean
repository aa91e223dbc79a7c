import BatchFlow.Proofs.Definition.Text
import BatchFlow.Proofs.Outcome
import BatchFlow.Proofs.Table

namespace BatchFlow

/-!
# Definitions are read back

Not every definition has a JSON form from which it is read: a property that is called like one of
the step's own members would be taken for that member, and a default value of null for no default.
No value denotes such a definition. All others are read back as they were written.

* `InputDef.Readable`, `StepDef.Readable`, `Definition.Readable` — the definitions that are free of
  this.
* `Definition.readable_of_ofJson?` — what is read from a value is readable.
* `InputDef.ofJson?_toJson`, `StepDef.ofJson?_toJson`, `OutputDef.ofJson?_toJson` — each part is
  read back from its JSON form.
* `Definition.ofJson?_toJson_iff` — so is a whole definition, exactly when it is readable.
* `Definition.ofJson?_toJson_of_ofJson?` — what this means for definitions that were read.
-/

/-! ### Values of fields -/

namespace Json

/-- A natural number is read back. -/
@[simp] theorem nat?_ofNat (n : Nat) : (Json.ofNat n).nat? = some n := by
  show Int.toNat? (n : Int) = some n
  rfl

/-- A list of texts is read back. -/
@[simp] theorem strings?_ofStrings (texts : List String) :
    (Json.ofStrings texts).strings? = some texts :=
  mapM_map_eq_some fun _ _ => rfl

/-- Everything but null is read as itself. -/
theorem presentValue?_of_ne_null {j : Json} (h : j ≠ .null) :
    j.presentValue? = some (some j) := by
  cases j with
  | null => exact absurd rfl h
  | _ => rfl

/-- Null is never read as a value. -/
theorem ne_null_of_presentValue? {j : Json} {value : Option Json}
    (h : j.presentValue? = some value) : value ≠ some .null := by
  cases j <;> cases h <;> nofun

end Json

/-! ### What can be read -/

/-- Whether the default value is no null, which stands for no default. -/
def InputDef.Readable (input : InputDef) : Prop := input.default? ≠ some .null

/-- Whether no property is called like a member that is the step's own. -/
def StepDef.Readable (step : StepDef) : Prop :=
  "type" ∉ step.properties.keys ∧ "name" ∉ step.properties.keys

/-- Whether all parts of a definition can be read from their JSON form. -/
structure Definition.Readable (d : Definition) : Prop where
  inputs : ∀ input ∈ d.inputs, input.Readable
  steps : ∀ step ∈ d.steps, step.Readable

/-- A default value that was read is no null. -/
theorem InputDef.readable_of_ofJson? {j : Json} {input : InputDef}
    (h : InputDef.ofJson? j = some input) : input.Readable := by
  -- only a parameter has a default, which is null for none but never null itself
  unfold InputDef.ofJson? at h
  obtain ⟨⟨tag, body⟩, -, h⟩ := Option.bind_eq_some_iff.1 h
  dsimp only at h
  split at h
  · obtain ⟨fields, -, h⟩ := Option.bind_eq_some_iff.1 h
    obtain ⟨name, -, h⟩ := Option.bind_eq_some_iff.1 h
    cases h
    nofun
  · obtain ⟨fields, -, h⟩ := Option.bind_eq_some_iff.1 h
    obtain ⟨name, -, h⟩ := Option.bind_eq_some_iff.1 h
    obtain ⟨default, hdefault, h⟩ := Option.bind_eq_some_iff.1 h
    obtain ⟨kinds, -, h⟩ := Option.bind_eq_some_iff.1 h
    cases h
    show default ≠ some .null
    unfold Table.optional? at hdefault
    split at hdefault
    · cases hdefault
      nofun
    · exact Json.ne_null_of_presentValue? hdefault
  · obtain ⟨fields, -, h⟩ := Option.bind_eq_some_iff.1 h
    obtain ⟨name, -, h⟩ := Option.bind_eq_some_iff.1 h
    obtain ⟨depth, -, h⟩ := Option.bind_eq_some_iff.1 h
    obtain ⟨kinds, -, h⟩ := Option.bind_eq_some_iff.1 h
    cases h
    nofun
  · cases h

/-- The members of the step's own are left out of its properties. -/
theorem StepDef.readable_of_ofJson? {j : Json} {step : StepDef}
    (h : StepDef.ofJson? j = some step) : step.Readable := by
  unfold StepDef.ofJson? at h
  obtain ⟨members, -, h⟩ := Option.bind_eq_some_iff.1 h
  obtain ⟨blockType, -, h⟩ := Option.bind_eq_some_iff.1 h
  obtain ⟨name, -, h⟩ := Option.bind_eq_some_iff.1 h
  cases h
  constructor <;> simp [Table.keys]

/-- What is read from a value is readable. -/
theorem Definition.readable_of_ofJson? {j : Json} {d : Definition}
    (h : Definition.ofJson? j = some d) : d.Readable := by
  -- a list that is missing has no items to be read
  have hread : ∀ {α : Type} {read : Json → Option α} {fields : Table String Json} {name : String}
      {items : List α}, fields.optional? name [] (fun j => do (← j.array?).mapM read) = some items →
        ∀ item ∈ items, ∃ j, read j = some item := by
    intro α read fields name items hfield item hitem
    unfold Table.optional? at hfield
    split at hfield
    · cases hfield
      cases hitem
    · obtain ⟨values, -, hvalues⟩ := Option.bind_eq_some_iff.1 hfield
      obtain ⟨j, -, hj⟩ := exists_of_mem_mapM? hvalues hitem
      exact ⟨j, hj⟩
  unfold Definition.ofJson? at h
  obtain ⟨fields, -, h⟩ := Option.bind_eq_some_iff.1 h
  obtain ⟨version, -, h⟩ := Option.bind_eq_some_iff.1 h
  obtain ⟨inputs, hinputs, h⟩ := Option.bind_eq_some_iff.1 h
  obtain ⟨steps, hsteps, h⟩ := Option.bind_eq_some_iff.1 h
  obtain ⟨outputs, -, h⟩ := Option.bind_eq_some_iff.1 h
  cases h
  constructor
  · intro input hinput
    obtain ⟨j, hj⟩ := hread hinputs input hinput
    exact InputDef.readable_of_ofJson? hj
  · intro step hstep
    obtain ⟨j, hj⟩ := hread hsteps step hstep
    exact StepDef.readable_of_ofJson? hj

/-! ### Reading back -/

/-- The tag is read off the first member, and the others stay when none of them is called like
    it. -/
theorem Json.tagged?_object (tag : String) {members : Table String Json}
    (h : "type" ∉ members.keys) :
    Json.tagged? (.object (("type", .string tag) :: members)) = some (tag, .object members) := by
  have hkept : members.filter (fun entry => entry.1 != "type") = members := by
    refine List.filter_eq_self.2 fun entry hentry => bne_iff_ne.2 ?_
    rintro hname
    exact h (hname ▸ List.mem_map_of_mem hentry)
  simp [tagged?, taggedBy?, untag?, string?, hkept]

/-- The kinds are read off the member for them, or off its absence. -/
theorem optional?_kindMembers (kinds : List String) :
    Table.optional? (kindMembers kinds) "kind" [] Json.strings? = some kinds := by
  cases kinds with
  | nil => rfl
  | cons kind rest => exact Json.strings?_ofStrings _

/-- The member for kinds is called like no other. -/
theorem not_mem_keys_kindMembers {kinds : List String} {name : String} (h : name ≠ "kind") :
    name ∉ Table.keys (kindMembers kinds) := by
  cases kinds with
  | nil => exact List.not_mem_nil
  | cons kind rest => exact fun hmem => h (List.mem_singleton.1 hmem)

/-- The members of a parameter besides its type and name. -/
def parameterMembers (default : Option Json) (kinds : List String) : Table String Json :=
  (default.map (("default_value", ·))).toList ++ kindMembers kinds

/-- The default of a parameter is read back, also when there is none. -/
theorem optional?_default {default : Option Json} (h : default ≠ some .null) (kinds : List String) :
    (parameterMembers default kinds).optional? "default_value" none Json.presentValue? =
      some default := by
  cases default with
  | none =>
    have hkey : "default_value" ∉ Table.keys (kindMembers kinds) :=
      not_mem_keys_kindMembers (by decide)
    have hnone := Table.get?_eq_none_iff.2 hkey
    simp [parameterMembers, Table.optional?, hnone]
  | some value =>
    have hvalue : value ≠ .null := fun he => h (congrArg some he)
    simp [parameterMembers, Json.presentValue?_of_ne_null hvalue]

/-- The kinds of a parameter are read back, also when there are none. -/
theorem optional?_kinds (default : Option Json) (kinds : List String) :
    (parameterMembers default kinds).optional? "kind" [] Json.strings? = some kinds := by
  cases default <;> simp [parameterMembers, optional?_kindMembers]

/-- An input is read back as it was written. -/
theorem InputDef.ofJson?_toJson {input : InputDef} (h : input.Readable) :
    InputDef.ofJson? input.toJson = some input := by
  cases input with
  | image name => rfl
  | parameter name default kinds =>
    -- the tag is taken out by its name, so no other member may have it
    have htype :
        "type" ∉ Table.keys (("name", .string name) :: parameterMembers default kinds) := by
      have hkinds : "type" ∉ Table.keys (kindMembers kinds) := not_mem_keys_kindMembers (by decide)
      cases default <;> simpa [Table.keys, parameterMembers] using hkinds
    have htagged := Json.tagged?_object "WorkflowParameter" htype
    have hwritten : (parameter name default kinds).toJson =
        .object (("type", .string "WorkflowParameter") :: ("name", .string name) ::
          parameterMembers default kinds) := by
      simp [toJson, parameterMembers]
    have hdefault : (parameterMembers default kinds).optional? "default_value" none
        Json.presentValue? = some default := optional?_default h kinds
    rw [hwritten]
    simp [InputDef.ofJson?, htagged, Json.record?, Json.string?, hdefault, optional?_kinds]
  | batch name depth kinds =>
    have htype : "type" ∉ Table.keys (("name", .string name) ::
        ("dimensionality", .ofNat depth) :: kindMembers kinds) := by
      have hkinds : "type" ∉ Table.keys (kindMembers kinds) := not_mem_keys_kindMembers (by decide)
      simpa [Table.keys] using hkinds
    have htagged := Json.tagged?_object "WorkflowBatchInput" htype
    simp [InputDef.ofJson?, toJson, htagged, Json.record?, Json.string?, optional?_kindMembers]

/-- A step is read back as it was written. -/
theorem StepDef.ofJson?_toJson {step : StepDef} (h : step.Readable) :
    StepDef.ofJson? step.toJson = some step := by
  have hkept : step.properties.filter (fun entry => entry.1 != "type" && entry.1 != "name") =
      step.properties := by
    refine List.filter_eq_self.2 fun entry hentry => ?_
    have hkey : entry.1 ∈ step.properties.keys := List.mem_map_of_mem hentry
    have hne : entry.1 ≠ "type" ∧ entry.1 ≠ "name" :=
      ⟨fun he => h.1 (he ▸ hkey), fun he => h.2 (he ▸ hkey)⟩
    simp [hne]
  simp [StepDef.ofJson?, toJson, Json.object?, Json.string?, hkept]

/-- An output is read back as it was written. -/
theorem OutputDef.ofJson?_toJson (output : OutputDef) :
    OutputDef.ofJson? output.toJson = some output := rfl

namespace Definition

/-- A definition is read back from its JSON form exactly when it is readable. -/
theorem ofJson?_toJson_iff {d : Definition} :
    Definition.ofJson? d.toJson = some d ↔ d.Readable := by
  refine ⟨readable_of_ofJson?, fun h => ?_⟩
  have hinputs : (d.inputs.map InputDef.toJson).mapM InputDef.ofJson? = some d.inputs :=
    mapM_map_eq_some fun input hinput => InputDef.ofJson?_toJson (h.inputs input hinput)
  have hsteps : (d.steps.map StepDef.toJson).mapM StepDef.ofJson? = some d.steps :=
    mapM_map_eq_some fun step hstep => StepDef.ofJson?_toJson (h.steps step hstep)
  have houtputs : (d.outputs.map OutputDef.toJson).mapM OutputDef.ofJson? = some d.outputs :=
    mapM_map_eq_some fun output _ => OutputDef.ofJson?_toJson output
  simp [Definition.ofJson?, toJson, Json.record?, Json.string?, Json.array?, hinputs, hsteps,
    houtputs]

/-- A definition that was read from a value is read back from its JSON form, with all that it
    declares in the same order. And no other definition that can be read is written in the same
    way, be it as a value or as a text. -/
theorem ofJson?_toJson_of_ofJson? {j : Json} {d : Definition} (h : Definition.ofJson? j = some d) :
    Definition.ofJson? d.toJson = some d ∧
      ∀ j' d', Definition.ofJson? j' = some d' → d'.toJson = d.toJson ∨ d'.text = d.text →
        d' = d := by
  refine ⟨ofJson?_toJson_iff.2 (readable_of_ofJson? h), fun j' d' h' hsame => ?_⟩
  rcases hsame with hsame | hsame
  · -- both are read back, from the same value
    have hback := ofJson?_toJson_iff.2 (readable_of_ofJson? h')
    rw [hsame, ofJson?_toJson_iff.2 (readable_of_ofJson? h)] at hback
    exact (Option.some.inj hback).symm
  · exact text_injective hsame

namespace Sample

/-- A definition in which members stand in no particular order, one that no field is named after
    among them. The parameter is written as the list of its fields and has null for a default. -/
def unordered : Json := .object
  [("outputs", .array [.object [("selector", .string "$steps.s"), ("name", .string "out")]]),
    ("steps", .array [.object [("b", .string "$inputs.x"), ("name", .string "s"), ("a", .null),
      ("type", .string "t")]]),
    ("comment", .bool true),
    ("inputs", .array [.array [.string "WorkflowParameter", .string "p", .null],
      .object [("name", .string "x"), ("type", .string "WorkflowBatchInput")]]),
    ("version", .string "1.0")]

/-- What is read from it. -/
def unorderedRead : Definition where
  version := "1.0"
  inputs := [.parameter "p" none [], .batch "x" 1 []]
  steps := [⟨"t", "s", [("b", .string "$inputs.x"), ("a", .null)]⟩]
  outputs := [⟨"out", "$steps.s"⟩]

end Sample

/-- The value that is written differs from the one that was read, but denotes the same. -/
theorem ofJson?_toJson_unordered :
    Definition.ofJson? Sample.unordered = some Sample.unorderedRead ∧
      Sample.unorderedRead.toJson ≠ Sample.unordered ∧
      Definition.ofJson? Sample.unorderedRead.toJson = some Sample.unorderedRead ∧
      ∀ j' d', Definition.ofJson? j' = some d' →
        d'.toJson = Sample.unorderedRead.toJson ∨ d'.text = Sample.unorderedRead.text →
          d' = Sample.unorderedRead := by
  have hread : Definition.ofJson? Sample.unordered = some Sample.unorderedRead := by
    decide +kernel
  exact ⟨hread, by decide +kernel, ofJson?_toJson_of_ofJson? hread⟩

end Definition

end BatchFlow
