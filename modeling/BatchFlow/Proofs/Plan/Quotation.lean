import BatchFlow.Proofs.Plan.Refusals

namespace BatchFlow

/-!
# References are quoted as they were written

A definition is refused for a reference while its values are read, while references are looked up,
or while sources are bound. Some of these reasons quote the text that was read, and some the text of
the selector that was made of it. Either way what is quoted is written in the definition, or in the
default of a property.

* `PropertyKind.Reads`, `Definition.WritesAt`, `Definition.Writes` — where references are written.
* `Rejection.Quotes` — whether a reason quotes what is written there.
* `quotesValue_of_interpret`, `quotes_of_checkStep`, `quotes_of_resolve` — the reasons found while
  values are read, while references are looked up, and in all of resolution.
* `reference_quoted` — the reasons found by compilation.
-/

/-! ### Where references are written -/

/-- Whether a part of a value is read for a reference, by the kind of the property: the value
    itself, the members of a map, or the items of a list of targets. -/
def PropertyKind.Reads : PropertyKind → Json → Json → Prop
  | .data .., value, part => part = value
  | .dataMap .., value, part => ∃ members, value = .object members ∧ ∃ m ∈ members, m.2 = part
  | .stepTargets, value, part => part = value ∨ ∃ items, value = .array items ∧ part ∈ items
  | .config, _, _ => False

namespace Definition

variable (registry : Registry) (d : Definition)

/-- Whether a text stands where a reference may in a property of a step, in the step's own value or
    in the default. -/
def WritesAt (step property text : String) : Prop :=
  ∃ stepDef spec value, d.Gives registry stepDef spec value ∧ stepDef.name = step ∧
    spec.name = property ∧ spec.kind.Reads value (.string text)

/-- Whether a text stands where a reference may, in a property or in an output. -/
def Writes (text : String) : Prop :=
  (∃ step property, d.WritesAt registry step property text) ∨ ∃ o ∈ d.outputs, o.selector = text

end Definition

/-- Whether the reference that a reason quotes is written in a definition. One of the wrong kind is
    written in the property that is named with it. -/
def Rejection.Quotes (registry : Registry) (d : Definition) : Rejection → Prop
  | .reference text _ => d.Writes registry text
  | .incompatibleKinds text name step _ _ => d.WritesAt registry step name text
  | _ => True

/-- A value denotes a selector by its text. -/
theorem Json.Denotes.eq_text {value : Json} {s : Selector} (h : value.Denotes s) :
    value = .string s.text := by
  obtain ⟨raw, rfl, hparse⟩ := h
  rw [Selector.text_of_parse hparse]

/-- A selector that is mentioned in a value is written there. -/
theorem PropertyKind.Mentions.reads {kind : PropertyKind} {value : Json} {s : Selector}
    (h : kind.Mentions value s) : kind.Reads value (.string s.text) := by
  cases kind with
  | data kinds batch => exact h.eq_text.symm
  | dataMap kinds batch =>
    obtain ⟨members, hvalue, m, hm, hs⟩ := h
    exact ⟨members, hvalue, m, hm, hs.eq_text⟩
  | stepTargets =>
    rcases h with hs | ⟨items, hvalue, item, hitem, hs⟩
    · exact Or.inl hs.eq_text.symm
    · exact Or.inr ⟨items, hvalue, hs.eq_text ▸ hitem⟩
  | config => exact h.elim

/-! ### Reading values -/

section Interpret

variable {step : String} {spec : PropertySpec} {raw : Json} {r : Rejection}

/-- A malformed selector is refused with its text. -/
theorem orMalformed_eq_error {α : Type} {x : Except MalformedSelector α} :
    orMalformed x = .error r ↔ ∃ m, x = .error m ∧ r = .reference m.raw (.malformed m.fault) := by
  cases x <;> simp [orMalformed, MalformedSelector.toRejection, eq_comm]

/-- The fault of a selector carries the text that was read. -/
theorem raw_of_readSelector {text : String} {m : MalformedSelector}
    (h : readSelector text = .error m) : m.raw = text := by
  unfold readSelector at h
  split at h
  · cases h
  · cases h
    rfl

/-- A term that cannot be read is the text in the fault. -/
theorem raw_of_termRead {value : Json} {m : MalformedSelector} (h : Term.read value = .error m) :
    value = .string m.raw := by
  cases value with
  | string text =>
    rw [Term.read] at h
    split at h
    · cases hread : readSelector text with
      | ok s =>
        rw [hread] at h
        cases h
      | error fault =>
        rw [hread] at h
        cases h
        rw [raw_of_readSelector hread]
    · cases h
  | _ => cases h

/-- One of several terms is the text in the fault. -/
theorem raw_of_readTerms {members : List (String × Json)} {m : MalformedSelector}
    (h : readTerms members = .error m) : ∃ member ∈ members, member.2 = .string m.raw := by
  rw [readTerms_eq_mapM] at h
  obtain ⟨member, hmember, h⟩ := exists_error_of_mapM h
  rcases bind_eq_error.1 h with hread | ⟨_, -, hpure⟩
  · exact ⟨member, hmember, raw_of_termRead hread⟩
  · cases hpure

/-- Whether a reason quotes a reference in a value, or names the property that has the value. -/
def Rejection.QuotesValue (step : String) (spec : PropertySpec) (raw : Json) (r : Rejection) :
    Prop :=
  (∃ text fault, r = .reference text fault ∧ spec.kind.Reads raw (.string text)) ∨
    ∃ fault, r = .property step spec.name fault

/-- A term that is refused is quoted. -/
theorem quotesValue_of_data {kinds : List Kind} {batch : Bool}
    (hkind : spec.kind = .data kinds batch) (h : interpret step spec raw = .error r) :
    r.QuotesValue step spec raw := by
  simp only [interpret, hkind] at h
  refine Or.inl ?_
  rw [hkind]
  rcases bind_eq_error.1 h with h | ⟨t, ht, h⟩
  · obtain ⟨m, hread, rfl⟩ := orMalformed_eq_error.1 h
    exact ⟨m.raw, _, rfl, (raw_of_termRead hread).symm⟩
  · split at h
    · rename_i s hfind
      cases h
      have hdenotes := (mem_selectors_of_termRead (orMalformed_eq_ok.1 ht)).1
        (List.mem_of_find?_eq_some hfind)
      exact ⟨s.text, _, rfl, hdenotes.eq_text.symm⟩
    · cases h

/-- A map is refused for one of its terms, which is quoted. -/
theorem quotesValue_of_dataMap {kinds : List Kind} {batch : Bool}
    (hkind : spec.kind = .dataMap kinds batch) (h : interpret step spec raw = .error r) :
    r.QuotesValue step spec raw := by
  simp only [interpret, hkind] at h
  split at h
  · rename_i members
    refine Or.inl ?_
    rw [hkind]
    -- either a term could not be read, or one of those that were read is a step
    rcases bind_eq_error.1 h with h | ⟨entries, hentries, h⟩
    · obtain ⟨m, hread, rfl⟩ := orMalformed_eq_error.1 h
      exact ⟨m.raw, _, rfl, members, rfl, raw_of_readTerms hread⟩
    · split at h
      · rename_i s hfind
        cases h
        obtain ⟨member, hmember, hdenotes⟩ :=
          (mem_selectors_of_readTerms (orMalformed_eq_ok.1 hentries)).1
            (List.mem_of_find?_eq_some hfind)
        exact ⟨s.text, _, rfl, members, rfl, member, hmember, hdenotes.eq_text⟩
      · cases h
  · cases h
    exact Or.inr ⟨_, rfl⟩

/-- Targets are read at their places. -/
theorem reads_of_mem_targetValues {value : Json} (h : value ∈ targetValues raw) :
    PropertyKind.stepTargets.Reads raw value := by
  cases raw with
  | array items => exact Or.inr ⟨items, rfl, h⟩
  | _ => exact Or.inl (List.mem_singleton.1 h)

/-- A target that is refused is quoted if it is a text, else its property is named. -/
theorem quotes_of_interpretTarget {name : String} {value : Json}
    (h : interpretTarget step name value = .error r) :
    (∃ text fault, r = .reference text fault ∧ value = .string text) ∨
      ∃ fault, r = .property step name fault := by
  unfold interpretTarget at h
  split at h
  · rename_i text
    refine Or.inl ?_
    rcases bind_eq_error.1 h with h | ⟨s, -, h⟩
    · obtain ⟨m, hread, rfl⟩ := orMalformed_eq_error.1 h
      exact ⟨m.raw, _, rfl, by rw [raw_of_readSelector hread]⟩
    · split at h
      · cases h
      · cases h
        exact ⟨text, _, rfl, rfl⟩
  · cases h
    exact Or.inr ⟨_, rfl⟩

/-- Targets are refused for one of them, which is quoted. -/
theorem quotesValue_of_stepTargets (hkind : spec.kind = .stepTargets)
    (h : interpret step spec raw = .error r) : r.QuotesValue step spec raw := by
  rw [interpret_stepTargets hkind] at h
  rcases bind_eq_error.1 h with h | ⟨_, -, h⟩
  · obtain ⟨value, hvalue, h⟩ := exists_error_of_mapM h
    rcases quotes_of_interpretTarget h with ⟨text, fault, rfl, rfl⟩ | hproperty
    · refine Or.inl ⟨text, fault, rfl, ?_⟩
      rw [hkind]
      exact reads_of_mem_targetValues hvalue
    · exact Or.inr hproperty
  · cases h

/-- A value that is refused is refused for a reference in it, or by the name of its property. -/
theorem quotesValue_of_interpret (h : interpret step spec raw = .error r) :
    r.QuotesValue step spec raw := by
  cases hkind : spec.kind with
  | data kinds batch => exact quotesValue_of_data hkind h
  | dataMap kinds batch => exact quotesValue_of_dataMap hkind h
  | stepTargets => exact quotesValue_of_stepTargets hkind h
  | config =>
    simp only [interpret, hkind] at h
    split at h
    · split at h
      · cases h
        exact Or.inr ⟨_, rfl⟩
      · cases h
    · cases h

end Interpret

/-! ### Steps and outputs -/

section Definition

variable {registry : Registry} {d : Definition} {r : Rejection}

/-- A reason that quotes a value of a step quotes the definition of the step. -/
theorem Definition.Gives.quotes {stepDef : StepDef} {spec : PropertySpec} {raw : Json}
    (hgives : d.Gives registry stepDef spec raw) (h : r.QuotesValue stepDef.name spec raw) :
    r.Quotes registry d := by
  rcases h with ⟨text, fault, rfl, hreads⟩ | ⟨fault, rfl⟩
  · exact Or.inl ⟨stepDef.name, spec.name, stepDef, spec, raw, hgives, rfl, rfl, hreads⟩
  · trivial

/-- The properties of a step are refused for one of them. -/
theorem quotes_of_readArguments {stepDef : StepDef} {m : Manifest} (hstep : stepDef ∈ d.steps)
    (hm : registry.manifest? stepDef.blockType = some m) {specs : List PropertySpec}
    (hspecs : ∀ spec ∈ specs, spec ∈ m.properties)
    (h : readArguments stepDef specs = .error r) : r.Quotes registry d := by
  induction specs with
  | nil => cases h
  | cons spec rest ih =>
    obtain ⟨hspec, hrest⟩ := List.forall_mem_cons.1 hspecs
    rw [readArguments] at h
    -- a property without a value is passed over or missing, which quotes nothing
    split at h
    · rename_i raw hraw
      rcases bind_eq_error.1 h with h | ⟨a, -, h⟩
      · have hgives : d.Gives registry stepDef spec raw := ⟨hstep, m, hm, hspec, hraw⟩
        exact hgives.quotes (quotesValue_of_interpret h)
      · rcases bind_eq_error.1 h with h | ⟨_, -, h⟩
        · exact ih hrest h
        · cases h
    · split at h
      · cases h
        trivial
      · exact ih hrest h

/-- A step is refused for its block or for one of its properties. -/
theorem quotes_of_resolveStep {stepDef : StepDef} (hstep : stepDef ∈ d.steps)
    (h : resolveStep registry stepDef = .error r) : r.Quotes registry d := by
  unfold resolveStep at h
  split at h
  · cases h
    trivial
  · rename_i m hm
    split at h
    · cases h
      trivial
    · rcases bind_eq_error.1 h with h | ⟨_, -, h⟩
      · exact quotes_of_readArguments hstep hm (fun _ => id) h
      · cases h

/-- An output is refused for its selector. -/
theorem quotes_of_resolveOutput {o : OutputDef} (ho : o ∈ d.outputs)
    (h : resolveOutput o = .error r) : r.Quotes registry d := by
  rcases bind_eq_error.1 h with h | ⟨s, -, h⟩
  · obtain ⟨m, hread, rfl⟩ := orMalformed_eq_error.1 h
    exact Or.inr ⟨o, ho, (raw_of_readSelector hread).symm⟩
  · split at h
    · cases h
    · cases h
      exact Or.inr ⟨o, ho, rfl⟩

/-! ### Looking references up -/

/-- A selector that points at nothing is quoted by its text. -/
theorem reference_of_producedKinds {inputs : List Workflow.Input} {steps : List Workflow.Step}
    {s : Selector} (h : Workflow.producedKinds inputs steps s = .error r) :
    ∃ fault, r = .reference s.text fault := by
  simp only [Workflow.producedKinds] at h
  split at h
  · split at h
    · cases h
    · cases h
      exact ⟨_, rfl⟩
  · split at h
    · cases h
      exact ⟨_, rfl⟩
    · split at h
      · cases h
      · cases h
        exact ⟨_, rfl⟩
  · split at h
    · cases h
    · cases h
      exact ⟨_, rfl⟩
  · split at h
    · cases h
    · cases h
      exact ⟨_, rfl⟩

/-- The selectors of a resolved step are quoted by their texts, which are those that were read. -/
theorem quotes_of_checkStep {inputs : List Workflow.Input} {steps : List Workflow.Step}
    {stepDef : StepDef} (hstep : stepDef ∈ d.steps) {step : Workflow.Step}
    (hresolved : resolveStep registry stepDef = .ok step)
    (h : Workflow.checkStep inputs steps step = .error r) : r.Quotes registry d := by
  obtain ⟨⟨property, a⟩, ha, h⟩ := exists_error_of_forM h
  obtain ⟨s, hs, h⟩ := exists_error_of_forM h
  obtain ⟨hname, -, hm, arguments, hread, heq⟩ := resolveStep_eq_ok hresolved
  rw [heq] at ha
  obtain ⟨spec, hspec, hproperty, raw, hraw, hinterpret⟩ :=
    (mem_readArguments_iff hread).1 (Table.mem_of_mem_ofList ha)
  have hmentions := (mem_selectors_of_interpret hinterpret).1 hs
  have hwrites : d.WritesAt registry step.name property s.text :=
    ⟨stepDef, spec, raw, ⟨hstep, step.manifest, hm, hspec, hraw⟩, hname.symm, hproperty,
      hmentions.reads⟩
  have hreference : ∀ fault, (Rejection.reference s.text fault).Quotes registry d :=
    fun _ => Or.inl ⟨step.name, property, hwrites⟩
  rcases bind_eq_error.1 h with h | ⟨produced, -, h⟩
  · obtain ⟨fault, rfl⟩ := reference_of_producedKinds h
    exact hreference fault
  · split at h
    · split at h
      · cases h
        exact hreference _
      · cases h
    · dsimp only at h
      split at h
      · cases h
      · cases h
        exact hwrites

/-- Faults of the graph quote nothing. -/
theorem quotes_of_orGraphFault {α : Type} {x : Except GraphFault α}
    (h : orGraphFault x = .error r) : r.Quotes registry d := by
  cases x with
  | ok a => cases h
  | error fault =>
    cases h
    cases fault <;> trivial

/-- Repeated names quote nothing. -/
theorem quotes_of_checkUnique {kind : String} {names : List String}
    (h : checkUnique kind names = .error r) : r.Quotes registry d := by
  unfold checkUnique at h
  split at h
  · cases h
    trivial
  · cases h

/-- Whatever is found in resolution quotes what is written. -/
theorem quotes_of_resolve (h : d.resolve registry = .error r) : r.Quotes registry d := by
  cases hsupported : d.isSupported with
  | false =>
    simp only [Definition.resolve, hsupported] at h
    cases h
    trivial
  | true =>
    simp only [Definition.resolve, hsupported, Bool.not_true, Bool.false_eq_true, if_false] at h
    -- stage by stage: the first one that fails has the fault
    rcases bind_eq_error.1 h with h | ⟨⟨⟩, -, h⟩
    · exact quotes_of_checkUnique h
    rcases bind_eq_error.1 h with h | ⟨⟨⟩, -, h⟩
    · exact quotes_of_checkUnique h
    rcases bind_eq_error.1 h with h | ⟨⟨⟩, -, h⟩
    · exact quotes_of_checkUnique h
    rcases bind_eq_error.1 h with h | ⟨steps, hsteps, h⟩
    · obtain ⟨stepDef, hstep, h⟩ := exists_error_of_mapM h
      exact quotes_of_resolveStep hstep h
    rcases bind_eq_error.1 h with h | ⟨outputs, houtputs, h⟩
    · obtain ⟨o, ho, h⟩ := exists_error_of_mapM h
      exact quotes_of_resolveOutput ho h
    rcases bind_eq_error.1 h with h | ⟨⟨⟩, -, h⟩
    · obtain ⟨step, hstep, h⟩ := exists_error_of_forM h
      obtain ⟨stepDef, hmem, hresolved⟩ := exists_of_mem_mapM hsteps hstep
      exact quotes_of_checkStep hmem hresolved h
    rcases bind_eq_error.1 h with h | ⟨⟨⟩, -, h⟩
    · obtain ⟨output, houtput, h⟩ := exists_error_of_forM h
      obtain ⟨o, ho, hresolved⟩ := exists_of_mem_mapM houtputs houtput
      obtain ⟨-, hparse, -⟩ := resolveOutput_eq_ok_iff.1 hresolved
      rcases bind_eq_error.1 h with h | ⟨_, -, h⟩
      · obtain ⟨fault, rfl⟩ := reference_of_producedKinds h
        exact Or.inr ⟨o, ho, (Selector.text_of_parse hparse).symm⟩
      · cases h
    rcases bind_eq_error.1 h with h | ⟨graph, -, h⟩
    · exact quotes_of_orGraphFault h
    rcases bind_eq_error.1 h with h | ⟨⟨⟩, -, h⟩
    · exact quotes_of_orGraphFault h
    · cases h

/-! ### Compilation -/

/-- After resolution no reference is refused, so what compilation finds quotes what is written. -/
theorem quotes_of_compile {initParameters : Table String Json}
    (h : d.compile registry initParameters = .error r) : r.Quotes registry d := by
  rcases bind_eq_error.1 h with h | ⟨w, hw, h⟩
  · exact quotes_of_resolve h
  · have hresolves := Definition.resolves_of_resolve hw
    obtain ⟨order, hordered⟩ := hresolves.exists_ordered
    rcases (hresolves.complete hordered).isLate_of_plan hordered h with
      ⟨step, parameter, rfl⟩ | ⟨step, fault, rfl⟩
    · trivial
    · trivial

/-- Whenever a definition is refused for a reference, the reference is quoted as it is written, in
    the definition or in the default of a property. When it has the wrong kind it is quoted from
    the property that is named with it. -/
theorem reference_quoted (registry : Registry) (initParameters : Table String Json)
    (d : Definition) :
    (∀ text fault, d.compile registry initParameters = .error (.reference text fault) →
      d.Writes registry text) ∧
    ∀ text property step accepted produced,
      d.compile registry initParameters =
        .error (.incompatibleKinds text property step accepted produced) →
      d.WritesAt registry step property text :=
  ⟨fun _ _ h => quotes_of_compile h, fun _ _ _ _ _ h => quotes_of_compile h⟩

end Definition

namespace Sample

/-- A block that asks for lists under names. Its label comes from a step unless one is given. -/
def countingBlocks : Registry :=
  [("Count", Catalog.scripted
      { blockType := "Count"
        properties := [{ name := "lists", kind := .dataMap [.listOfValues] true },
          { name := "label", kind := .data [] true, required := false,
            default := some (.string "$steps.label.*") }]
        outputs := [⟨"count", []⟩] } .inputs)]

/-- A step that counts some lists. -/
def counting (lists : Table String Json) : Definition where
  version := "1.0"
  inputs := [.image "picture"]
  steps := [⟨"Count", "count", [("lists", .object lists)]⟩]
  outputs := [⟨"out", "$steps.count.count"⟩]

end Sample

/-- An image is given where a list is asked for, and there is no step from which the label comes. -/
theorem reference_quoted_counting :
    let picture := Sample.counting [("all", .string "$inputs.picture")]
    let unlabelled := Sample.counting []
    (picture.compile Sample.countingBlocks [] =
        .error (.incompatibleKinds "$inputs.picture" "lists" "count" [.listOfValues] [.image]) ∧
      picture.WritesAt Sample.countingBlocks "count" "lists" "$inputs.picture") ∧
    unlabelled.compile Sample.countingBlocks [] =
        .error (.reference "$steps.label.*" (.undeclaredStep "label")) ∧
      unlabelled.Writes Sample.countingBlocks "$steps.label.*" := by
  intro picture unlabelled
  have hpicture : picture.compile Sample.countingBlocks [] =
      .error (.incompatibleKinds "$inputs.picture" "lists" "count" [.listOfValues] [.image]) :=
    eq_error_of_decide (by decide +kernel)
  have hunlabelled : unlabelled.compile Sample.countingBlocks [] =
      .error (.reference "$steps.label.*" (.undeclaredStep "label")) :=
    eq_error_of_decide (by decide +kernel)
  exact ⟨⟨hpicture, (reference_quoted _ _ _).2 _ _ _ _ _ hpicture⟩, hunlabelled,
    (reference_quoted _ _ _).1 _ _ hunlabelled⟩

end BatchFlow
