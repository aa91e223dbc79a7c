import BatchFlow.Proofs.Definition.WellFormed
import BatchFlow.Proofs.Outcome
import BatchFlow.Proofs.Table

namespace BatchFlow

/-!
# What values are read as

A step is resolved by reading the values of its properties, each by the kind of the property. This
succeeds exactly for the values that fit, and the selectors of the arguments are those that are
written in the values.

* `exists_interpret_iff`, `mem_selectors_of_interpret` — one value;
* `exists_readArguments_iff`, `mem_readArguments_iff` — all properties of a block;
* `exists_resolveStep_iff`, `mem_arguments_iff` — a step;
* `resolveOutput_eq_ok_iff` — an output.
-/

/-! ### Selectors -/

/-- The text of a selector starts like one. -/
theorem looksLikeSelector_of_parse {raw : String} {s : Selector}
    (h : Selector.parse raw = .ok s) : looksLikeSelector raw = true := by
  rw [← Selector.text_of_parse h]
  cases s <;> simp [looksLikeSelector, Selector.text]

/-- A text that spells a selector is read as without the fault. -/
theorem orMalformed_eq_ok {α : Type} {x : Except MalformedSelector α} {a : α} :
    orMalformed x = .ok a ↔ x = .ok a := by
  cases x <;> simp [orMalformed]

/-! ### Terms -/

/-- A value is read as a literal, or as the selector that it denotes. -/
theorem termRead_eq_ok_iff {value : Json} {t : Term} : Term.read value = .ok t ↔
    (value.IsLiteral ∧ t = .literal value) ∨ ∃ s, value.Denotes s ∧ t = .selector s := by
  cases value with
  | string raw =>
    simp only [Term.read, Json.IsLiteral, Json.Denotes, Json.string.injEq, exists_eq_left']
    by_cases hlooks : looksLikeSelector raw = true
    · simp [hlooks, map_eq_ok, readSelector_eq_ok_iff, eq_comm]
    · have hparse : ∀ s, Selector.parse raw ≠ .ok s := fun s h =>
        hlooks (looksLikeSelector_of_parse h)
      simp [hlooks, hparse, eq_comm]
  | _ => simp [Term.read, Json.IsLiteral, Json.Denotes, eq_comm]

/-- The selector in a term is the one that the value denotes. -/
theorem mem_selectors_of_termRead {value : Json} {t : Term} (h : Term.read value = .ok t)
    {s : Selector} : s ∈ t.selectors ↔ value.Denotes s := by
  rcases termRead_eq_ok_iff.1 h with ⟨hliteral, rfl⟩ | ⟨s', ⟨raw, rfl, hparse⟩, rfl⟩
  · refine iff_of_false List.not_mem_nil ?_
    rintro ⟨raw, rfl, hparse⟩
    simp [Json.IsLiteral, looksLikeSelector_of_parse hparse] at hliteral
  · simp [Term.selectors, Json.Denotes, hparse, eq_comm]

/-- A value can be read as a term of data exactly when it is one. -/
theorem exists_termRead_iff {value : Json} :
    (∃ t, Term.read value = .ok t ∧ ∀ s ∈ t.selectors, s.isData = true) ↔ value.IsTerm := by
  constructor
  · rintro ⟨t, hread, hdata⟩
    rcases termRead_eq_ok_iff.1 hread with ⟨hliteral, -⟩ | ⟨s, hdenotes, rfl⟩
    · exact Or.inl hliteral
    · exact Or.inr ⟨s, hdenotes, hdata s List.mem_cons_self⟩
  · rintro (hliteral | ⟨s, hdenotes, hdata⟩)
    · exact ⟨_, termRead_eq_ok_iff.2 (Or.inl ⟨hliteral, rfl⟩), List.forall_mem_nil _⟩
    · exact ⟨_, termRead_eq_ok_iff.2 (Or.inr ⟨s, hdenotes, rfl⟩), by simpa [Term.selectors]⟩

/-- Named terms are read one after another. -/
theorem readTerms_eq_mapM (members : List (String × Json)) :
    readTerms members = members.mapM fun m => do return (m.1, ← Term.read m.2) := by
  induction members with
  | nil => rfl
  | cons member rest ih =>
    rw [readTerms, ih, List.mapM_cons]
    cases Term.read member.2 <;> rfl

/-- A named term keeps its name. -/
theorem readTerm_eq_ok_iff {member : String × Json} {entry : String × Term} :
    (do return (member.1, ← Term.read member.2) : Except MalformedSelector _) = .ok entry ↔
      entry.1 = member.1 ∧ Term.read member.2 = .ok entry.2 := by
  rw [bind_eq_ok]
  constructor
  · rintro ⟨t, ht, he⟩
    cases pure_eq_ok.1 he
    exact ⟨rfl, ht⟩
  · rintro ⟨hname, ht⟩
    exact ⟨entry.2, ht, by rw [← hname]; rfl⟩

/-- The selectors in named terms are those that the values denote. -/
theorem mem_selectors_of_readTerms {members : List (String × Json)} {entries : Table String Term}
    (h : readTerms members = .ok entries) {s : Selector} :
    s ∈ (Argument.map entries).selectors ↔ ∃ m ∈ members, m.2.Denotes s := by
  rw [readTerms_eq_mapM] at h
  rw [Argument.selectors, List.mem_flatMap]
  constructor
  · rintro ⟨entry, hentry, hs⟩
    obtain ⟨member, hmember, hread⟩ := exists_of_mem_mapM h hentry
    obtain ⟨-, ht⟩ := readTerm_eq_ok_iff.1 hread
    exact ⟨member, hmember, (mem_selectors_of_termRead ht).1 hs⟩
  · rintro ⟨member, hmember, hs⟩
    obtain ⟨entry, hentry, hread⟩ := exists_mem_of_mapM h hmember
    obtain ⟨-, ht⟩ := readTerm_eq_ok_iff.1 hread
    exact ⟨entry, hentry, (mem_selectors_of_termRead ht).2 hs⟩

/-- Values can be read as named terms of data exactly when each of them is one. -/
theorem exists_readTerms_iff {members : List (String × Json)} :
    (∃ entries, readTerms members = .ok entries ∧
      ∀ s ∈ (Argument.map entries).selectors, s.isData = true) ↔ ∀ m ∈ members, m.2.IsTerm := by
  constructor
  · rintro ⟨entries, hread, hdata⟩ member hmember
    have hall := hread
    rw [readTerms_eq_mapM] at hall
    obtain ⟨entry, -, hentry⟩ := exists_mem_of_mapM hall hmember
    obtain ⟨-, ht⟩ := readTerm_eq_ok_iff.1 hentry
    refine exists_termRead_iff.1 ⟨entry.2, ht, fun s hs => hdata s ?_⟩
    exact (mem_selectors_of_readTerms hread).2
      ⟨member, hmember, (mem_selectors_of_termRead ht).1 hs⟩
  · intro hterms
    have hall : ∀ m ∈ members, ∃ entry : String × Term,
        (do return (m.1, ← Term.read m.2) : Except MalformedSelector _) = .ok entry := by
      intro member hmember
      obtain ⟨t, ht, -⟩ := exists_termRead_iff.2 (hterms member hmember)
      exact ⟨(member.1, t), readTerm_eq_ok_iff.2 ⟨rfl, ht⟩⟩
    obtain ⟨entries, hread⟩ := exists_mapM_iff.2 hall
    rw [← readTerms_eq_mapM] at hread
    refine ⟨entries, hread, fun s hs => ?_⟩
    obtain ⟨member, hmember, hdenotes⟩ := (mem_selectors_of_readTerms hread).1 hs
    obtain ⟨t, ht, hdata⟩ := exists_termRead_iff.2 (hterms member hmember)
    exact hdata s ((mem_selectors_of_termRead ht).2 hdenotes)

/-! ### Values -/

section Interpret

variable {step : String} {spec : PropertySpec} {raw : Json} {a : Argument}

/-- A target is read from a reference to a step. -/
theorem interpretTarget_eq_ok_iff {property target : String} :
    interpretTarget step property raw = .ok target ↔ raw.Denotes (.step target) := by
  unfold interpretTarget
  split
  · rename_i text
    rw [bind_eq_ok]
    simp only [orMalformed_eq_ok, readSelector_eq_ok_iff]
    constructor
    · rintro ⟨s, hs, he⟩
      split at he
      · cases pure_eq_ok.1 he
        exact ⟨text, rfl, hs⟩
      · cases he
    · rintro ⟨_, he, hs⟩
      cases he
      exact ⟨_, hs, rfl⟩
  · rename_i hraw
    refine iff_of_false (fun h => by cases h) ?_
    rintro ⟨text, rfl, -⟩
    exact hraw text rfl

/-- Whether nothing but data is selected. -/
theorem find?_isData_eq_none_iff {selectors : List Selector} :
    selectors.find? (!·.isData) = none ↔ ∀ s ∈ selectors, s.isData = true := by
  simp [List.find?_eq_none]

/-- Data is a term whose selector, if it is one, points at data. -/
theorem interpret_data_eq_ok_iff {kinds : List Kind} {batch : Bool}
    (hkind : spec.kind = .data kinds batch) : interpret step spec raw = .ok a ↔
      ∃ t, Term.read raw = .ok t ∧ (∀ s ∈ t.selectors, s.isData = true) ∧ a = .term t := by
  simp only [interpret, hkind, bind_eq_ok, orMalformed_eq_ok]
  refine exists_congr fun t => and_congr_right fun _ => ?_
  rw [← find?_isData_eq_none_iff]
  cases t.selectors.find? (!·.isData) with
  | none => exact pure_eq_ok.trans (eq_comm.trans (and_iff_right rfl).symm)
  | some s => simp

/-- A map of data is an object of such terms. -/
theorem interpret_dataMap_eq_ok_iff {kinds : List Kind} {batch : Bool}
    (hkind : spec.kind = .dataMap kinds batch) : interpret step spec raw = .ok a ↔
      ∃ members entries, raw = .object members ∧ readTerms members = .ok entries ∧
        (∀ s ∈ (Argument.map entries).selectors, s.isData = true) ∧ a = .map entries := by
  simp only [interpret, hkind]
  split
  · rename_i members
    simp only [bind_eq_ok, orMalformed_eq_ok, Json.object.injEq, exists_and_left, exists_eq_left']
    refine exists_congr fun entries => and_congr_right fun _ => ?_
    rw [← find?_isData_eq_none_iff]
    cases (Argument.map entries).selectors.find? (!·.isData) with
    | none => exact pure_eq_ok.trans (eq_comm.trans (and_iff_right rfl).symm)
    | some s => simp
  · rename_i hraw
    refine iff_of_false (fun h => by cases h) ?_
    rintro ⟨members, entries, rfl, -⟩
    exact hraw members rfl

/-- The values that are read as targets: the items of a list, or the value itself. -/
def targetValues : Json → List Json
  | .array items => items
  | raw => [raw]

/-- Targets are read one by one. -/
theorem interpret_stepTargets (hkind : spec.kind = .stepTargets) : interpret step spec raw =
    (do return .targets (← (targetValues raw).mapM (interpretTarget step spec.name))) := by
  unfold interpret
  rw [hkind]
  cases raw <;> rfl

/-- Targets are read when each of them is a reference to a step. -/
theorem interpret_stepTargets_eq_ok_iff (hkind : spec.kind = .stepTargets) :
    interpret step spec raw = .ok a ↔ ∃ targets,
      (targetValues raw).mapM (interpretTarget step spec.name) = .ok targets ∧
        a = .targets targets := by
  simp only [interpret_stepTargets hkind, bind_eq_ok, pure_eq_ok]
  exact exists_congr fun targets => and_congr_right fun _ => eq_comm

/-- Configuration is a literal without anything that looks like a selector. -/
theorem interpret_config_eq_ok_iff (hkind : spec.kind = .config) :
    interpret step spec raw = .ok a ↔ raw.IsLiteral ∧ a = .term (.literal raw) := by
  have hpure : (pure (.term (.literal raw)) : Except Rejection Argument) = .ok a ↔
      a = .term (.literal raw) := pure_eq_ok.trans eq_comm
  unfold interpret
  rw [hkind]
  cases raw with
  | string text =>
    cases hlooks : looksLikeSelector text with
    | true => simp [hlooks, Json.IsLiteral]
    | false => simpa [hlooks, Json.IsLiteral] using hpure
  | _ => simpa [Json.IsLiteral] using hpure

/-- Targets fit when each of them is a reference. -/
theorem forall_targetValues_iff :
    (∀ value ∈ targetValues raw, value.IsReference) ↔ PropertyKind.stepTargets.Fits raw := by
  cases raw with
  | array items =>
    have hself : ¬ (Json.array items).IsReference := by
      rintro ⟨name, text, he, -⟩
      cases he
    simp [targetValues, PropertyKind.Fits, hself]
  | _ => simp [targetValues, PropertyKind.Fits]

/-- The selectors in targets are those that are mentioned. -/
theorem exists_mem_targetValues_iff {s : Selector} :
    (∃ value ∈ targetValues raw, value.Denotes s) ↔ PropertyKind.stepTargets.Mentions raw s := by
  cases raw with
  | array items =>
    have hself : ¬ (Json.array items).Denotes s := by
      rintro ⟨text, he, -⟩
      cases he
    simp [targetValues, PropertyKind.Mentions, hself]
  | _ => simp [targetValues, PropertyKind.Mentions]

/-- A value can be read for a property exactly when it fits. -/
theorem exists_interpret_iff : (∃ a, interpret step spec raw = .ok a) ↔ spec.kind.Fits raw := by
  -- one case per kind of property; what the reader makes of the text plays no part, only whether
  -- it accepts it
  cases hkind : spec.kind with
  | data kinds batch =>
    simp only [interpret_data_eq_ok_iff hkind, PropertyKind.Fits, ← exists_termRead_iff]
    constructor
    · rintro ⟨_, t, ht, hdata, -⟩
      exact ⟨t, ht, hdata⟩
    · rintro ⟨t, ht, hdata⟩
      exact ⟨_, t, ht, hdata, rfl⟩
  | dataMap kinds batch =>
    simp only [interpret_dataMap_eq_ok_iff hkind, PropertyKind.Fits, ← exists_readTerms_iff]
    constructor
    · rintro ⟨_, members, entries, hraw, hread, hdata, -⟩
      exact ⟨members, hraw, entries, hread, hdata⟩
    · rintro ⟨members, hraw, entries, hread, hdata⟩
      exact ⟨_, members, entries, hraw, hread, hdata, rfl⟩
  | stepTargets =>
    have hreference : ∀ value, (∃ target, interpretTarget step spec.name value = .ok target) ↔
        value.IsReference := fun value => by
      simp only [interpretTarget_eq_ok_iff, Json.IsReference]
    simp only [interpret_stepTargets_eq_ok_iff hkind, ← forall_targetValues_iff, ← hreference,
      ← exists_mapM_iff]
    constructor
    · rintro ⟨_, targets, hread, -⟩
      exact ⟨targets, hread⟩
    · rintro ⟨targets, hread⟩
      exact ⟨_, targets, hread, rfl⟩
  | config =>
    simp only [interpret_config_eq_ok_iff hkind, PropertyKind.Fits]
    constructor
    · rintro ⟨_, hliteral, -⟩
      exact hliteral
    · intro hliteral
      exact ⟨_, hliteral, rfl⟩

/-- A text denotes one selector. -/
theorem Json.Denotes.unique {value : Json} {s s' : Selector} (h : value.Denotes s)
    (h' : value.Denotes s') : s = s' := by
  obtain ⟨text, rfl, hparse⟩ := h
  obtain ⟨_, he, hparse'⟩ := h'
  cases he
  simpa using hparse.symm.trans hparse'

/-- The selectors of an argument are those written in the value from which it was read. -/
theorem mem_selectors_of_interpret (h : interpret step spec raw = .ok a) {s : Selector} :
    s ∈ a.selectors ↔ spec.kind.Mentions raw s := by
  cases hkind : spec.kind with
  | data kinds batch =>
    obtain ⟨t, ht, -, rfl⟩ := (interpret_data_eq_ok_iff hkind).1 h
    exact mem_selectors_of_termRead ht
  | dataMap kinds batch =>
    obtain ⟨members, entries, rfl, hread, -, rfl⟩ := (interpret_dataMap_eq_ok_iff hkind).1 h
    rw [mem_selectors_of_readTerms hread]
    simp [PropertyKind.Mentions]
  | stepTargets =>
    obtain ⟨targets, hread, rfl⟩ := (interpret_stepTargets_eq_ok_iff hkind).1 h
    rw [← exists_mem_targetValues_iff, Argument.selectors, List.mem_map]
    constructor
    · rintro ⟨target, htarget, rfl⟩
      obtain ⟨value, hvalue, hread⟩ := exists_of_mem_mapM hread htarget
      exact ⟨value, hvalue, interpretTarget_eq_ok_iff.1 hread⟩
    · rintro ⟨value, hvalue, hdenotes⟩
      obtain ⟨target, htarget, hread⟩ := exists_mem_of_mapM hread hvalue
      exact ⟨target, htarget, (interpretTarget_eq_ok_iff.1 hread).unique hdenotes⟩
  | config =>
    obtain ⟨-, rfl⟩ := (interpret_config_eq_ok_iff hkind).1 h
    simp [Argument.selectors, Term.selectors, PropertyKind.Mentions]

/-- An argument has targets or data, and its selectors are of this sort. -/
theorem isTargets_of_interpret (h : interpret step spec raw = .ok a) {s : Selector}
    (hs : s ∈ a.selectors) : a.isTargets = !s.isData := by
  cases hkind : spec.kind with
  | data kinds batch =>
    obtain ⟨t, -, hdata, rfl⟩ := (interpret_data_eq_ok_iff hkind).1 h
    simp [Argument.isTargets, hdata s hs]
  | dataMap kinds batch =>
    obtain ⟨members, entries, -, -, hdata, rfl⟩ := (interpret_dataMap_eq_ok_iff hkind).1 h
    simp [Argument.isTargets, hdata s hs]
  | stepTargets =>
    obtain ⟨targets, -, rfl⟩ := (interpret_stepTargets_eq_ok_iff hkind).1 h
    obtain ⟨target, -, rfl⟩ := List.mem_map.1 hs
    rfl
  | config =>
    obtain ⟨-, rfl⟩ := (interpret_config_eq_ok_iff hkind).1 h
    cases hs

end Interpret

/-! ### Steps -/

section Steps

variable {registry : Registry} {step : StepDef} {specs : List PropertySpec}
  {arguments : List (String × Argument)}

/-- A property has no value when it is not set and has no default. -/
theorem rawValue?_eq_none_iff {properties : Table String Json} {spec : PropertySpec} :
    rawValue? properties spec = none ↔ spec.default = none ∧ spec.name ∉ properties.keys := by
  rw [rawValue?, Option.or_eq_none_iff, Table.get?_eq_none_iff, and_comm]

/-- The arguments of a step can be read exactly when it has the values that are required, and all
    its values fit. -/
theorem exists_readArguments_iff : (∃ arguments, readArguments step specs = .ok arguments) ↔
    ∀ spec ∈ specs, (∀ raw, rawValue? step.properties spec = some raw → spec.kind.Fits raw) ∧
      (spec.required = true → rawValue? step.properties spec ≠ none) := by
  induction specs with
  | nil => simp [readArguments]
  | cons spec rest ih =>
    rw [List.forall_mem_cons, ← ih, readArguments]
    cases hraw : rawValue? step.properties spec with
    | some raw =>
      have hinterpret : (∃ a, interpret step.name spec raw = .ok a) ↔ spec.kind.Fits raw :=
        exists_interpret_iff
      simp only [bind_eq_ok, pure_eq_ok, Option.some.injEq, forall_eq', ne_eq, reduceCtorEq,
        not_false_eq_true, implies_true, and_true, ← hinterpret]
      constructor
      · rintro ⟨_, a, ha, arguments, hrest, -⟩
        exact ⟨⟨a, ha⟩, arguments, hrest⟩
      · rintro ⟨⟨a, ha⟩, arguments, hrest⟩
        exact ⟨_, a, ha, arguments, hrest, rfl⟩
    | none =>
      cases hrequired : spec.required with
      | true => simp
      | false => simp

/-- The arguments of a step are read from its values. -/
theorem mem_readArguments_iff (h : readArguments step specs = .ok arguments)
    {property : String} {a : Argument} : (property, a) ∈ arguments ↔
      ∃ spec ∈ specs, spec.name = property ∧ ∃ raw, rawValue? step.properties spec = some raw ∧
        interpret step.name spec raw = .ok a := by
  induction specs generalizing arguments with
  | nil =>
    cases h
    simp
  | cons spec rest ih =>
    rw [readArguments] at h
    rw [List.exists_mem_cons_iff]
    cases hraw : rawValue? step.properties spec with
    | some raw =>
      rw [hraw] at h
      obtain ⟨a', ha', h⟩ := bind_eq_ok.1 h
      obtain ⟨arguments', hrest, h⟩ := bind_eq_ok.1 h
      cases pure_eq_ok.1 h
      rw [List.mem_cons, ih hrest]
      simp [ha', eq_comm]
    | none =>
      rw [hraw] at h
      cases hrequired : spec.required with
      | true => simp [hrequired] at h
      | false =>
        rw [hrequired] at h
        rw [ih h]
        simp

/-- The arguments of a step are in the order of the properties of its block. -/
theorem keys_readArguments (h : readArguments step specs = .ok arguments) :
    (Table.keys arguments).Sublist (specs.map (·.name)) := by
  induction specs generalizing arguments with
  | nil =>
    cases h
    exact .slnil
  | cons spec rest ih =>
    rw [readArguments] at h
    cases hraw : rawValue? step.properties spec with
    | some raw =>
      rw [hraw] at h
      obtain ⟨a', -, h⟩ := bind_eq_ok.1 h
      obtain ⟨arguments', hrest, h⟩ := bind_eq_ok.1 h
      cases pure_eq_ok.1 h
      exact (ih hrest).cons_cons spec.name
    | none =>
      rw [hraw] at h
      cases hrequired : spec.required with
      | true => simp [hrequired] at h
      | false =>
        rw [hrequired] at h
        exact (ih h).cons spec.name

/-- What a resolved step has of its definition and its block. -/
theorem resolveStep_eq_ok {resolved : Workflow.Step}
    (h : resolveStep registry step = .ok resolved) :
    resolved.name = step.name ∧ resolved.blockType = step.blockType ∧
      registry.manifest? step.blockType = some resolved.manifest ∧
      ∃ arguments, readArguments step resolved.manifest.properties = .ok arguments ∧
        resolved.arguments = Table.ofList arguments := by
  unfold resolveStep at h
  split at h
  · cases h
  · rename_i manifest hmanifest
    split at h
    · cases h
    · obtain ⟨arguments, ha, h⟩ := bind_eq_ok.1 h
      cases pure_eq_ok.1 h
      exact ⟨rfl, rfl, hmanifest, arguments, ha, rfl⟩

/-- A step can be resolved exactly when its block is registered, declares the properties that are
    set, and the arguments can be read. -/
theorem exists_resolveStep_iff : (∃ resolved, resolveStep registry step = .ok resolved) ↔
    ∃ m, registry.manifest? step.blockType = some m ∧
      (∀ name ∈ step.properties.keys, ∃ spec ∈ m.properties, spec.name = name) ∧
      ∃ arguments, readArguments step m.properties = .ok arguments := by
  unfold resolveStep
  cases hm : registry.manifest? step.blockType with
  | none => simp
  | some m =>
    have hdeclared : (step.properties.keys.find? fun name => (m.property? name).isNone) = none ↔
        ∀ name ∈ step.properties.keys, ∃ spec ∈ m.properties, spec.name = name := by
      simp [List.find?_eq_none, Manifest.property?]
    simp only [Option.some.injEq, exists_eq_left', ← hdeclared]
    cases step.properties.keys.find? fun name => (m.property? name).isNone with
    | some name => simp
    | none =>
      constructor
      · rintro ⟨_, h⟩
        obtain ⟨arguments, hread, -⟩ := bind_eq_ok.1 h
        exact ⟨rfl, arguments, hread⟩
      · rintro ⟨-, arguments, hread⟩
        exact ⟨_, bind_eq_ok.2 ⟨arguments, hread, rfl⟩⟩

/-- The properties of a registered manifest have different names. -/
theorem Registry.Distinct.nodup (h : registry.Distinct) {blockType : String} {m : Manifest}
    (hm : registry.manifest? blockType = some m) : (m.properties.map (·.name)).Nodup := by
  obtain ⟨block, hblock, rfl⟩ := Option.map_eq_some_iff.1 hm
  exact h _ (Table.mem_of_get? hblock)

/-- The arguments of a resolved step are read from its values, when no two properties of its block
    have one name. -/
theorem mem_arguments_iff (hdistinct : registry.Distinct) {resolved : Workflow.Step}
    (h : resolveStep registry step = .ok resolved) {property : String} {a : Argument} :
    (property, a) ∈ resolved.arguments ↔ ∃ spec ∈ resolved.manifest.properties,
      spec.name = property ∧ ∃ raw, rawValue? step.properties spec = some raw ∧
        interpret step.name spec raw = .ok a := by
  obtain ⟨-, -, hm, arguments, hread, harguments⟩ := resolveStep_eq_ok h
  have hkeys : (Table.keys arguments).Nodup :=
    (hdistinct.nodup hm).sublist (keys_readArguments hread)
  rw [harguments, Table.ofList_eq hkeys]
  exact mem_readArguments_iff hread

end Steps

/-! ### Outputs -/

/-- An output is read from the text of a selector of data. -/
theorem resolveOutput_eq_ok_iff {o : OutputDef} {output : Workflow.Output} :
    resolveOutput o = .ok output ↔ output.name = o.name ∧
      Selector.parse o.selector = .ok output.selector ∧ output.selector.isData = true := by
  simp only [resolveOutput, bind_eq_ok, orMalformed_eq_ok, readSelector_eq_ok_iff]
  constructor
  · rintro ⟨s, hs, h⟩
    split at h
    · cases pure_eq_ok.1 h
      exact ⟨rfl, hs, by assumption⟩
    · cases h
  · rintro ⟨hname, hs, hdata⟩
    refine ⟨_, hs, ?_⟩
    rw [if_pos hdata, ← hname]
    rfl

end BatchFlow
