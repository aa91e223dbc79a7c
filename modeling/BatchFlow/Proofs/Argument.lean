import BatchFlow.Proofs.Definition.RoundTrip
import BatchFlow.Proofs.Workflow.Interpretation

namespace BatchFlow

/-!
# Arguments are read back

The JSON form of an argument bears a tag for the sort of argument. It keeps literals as they are,
whatever they look like, and selectors as their texts, so an argument is read back when each of its
selectors is the one that its text spells. A selector that was read from a text is.

* `Term.ofJson?_toJson_iff`, `Argument.ofJson?_toJson_iff` — what is read back from its JSON form.
* `selectorTexts` — the texts among some values that are meant as selectors.
* `mapM_selectorTexts_term`, `mapM_selectorTexts_map` — reading these, one after another, comes to
  the selectors of the argument, or to the same fault.
* `Argument.ofJson?_toJson_of_read` — what this means for arguments that were read.
-/

/-! ### Reading back -/

/-- A text is read as the selector that it spells. -/
theorem Selector.parse?_eq_some_iff {raw : String} {s : Selector} :
    Selector.parse? raw = some s ↔ Selector.Spells raw s := by
  rw [← Selector.parse_eq_ok_iff]
  exact toOption_eq_some

/-- A text references a step when it spells the selector of the step as a whole. -/
theorem readStepReference?_eq_some_iff {raw step : String} :
    readStepReference? raw = some step ↔ Selector.Spells raw (.step step) := by
  rw [← Selector.parse?_eq_some_iff]
  unfold readStepReference?
  cases Selector.parse? raw with
  | none => exact iff_of_false nofun nofun
  | some s => cases s <;> simp

/-- A term is read back exactly when its selector is spelled by its text. -/
theorem Term.ofJson?_toJson_iff {t : Term} :
    Term.ofJson? t.toJson = some t ↔ ∀ s ∈ t.selectors, Selector.Spells s.text s := by
  cases t with
  | literal value => exact iff_of_true rfl (List.forall_mem_nil _)
  | selector s =>
    have hread : Term.ofJson? (Term.selector s).toJson =
        (Selector.parse? s.text).map Term.selector := by
      show (Selector.parse? s.text >>= fun s => some (Term.selector s)) = _
      cases Selector.parse? s.text <;> rfl
    simp [hread, Term.selectors, Selector.parse?_eq_some_iff]

/-- Named terms are read one after another. -/
theorem readTermEntries?_eq_mapM (members : List (String × Json)) : readTermEntries? members =
    members.mapM fun m => (Term.ofJson? m.2).map fun t => (m.1, t) := by
  induction members with
  | nil => rfl
  | cons member rest ih =>
    rw [readTermEntries?, ih, List.mapM_cons]
    cases Term.ofJson? member.2 <;> rfl

/-- An argument is read back exactly when each of its selectors is spelled by its text. -/
theorem Argument.ofJson?_toJson_iff {a : Argument} :
    Argument.ofJson? a.toJson = some a ↔ ∀ s ∈ a.selectors, Selector.Spells s.text s := by
  cases a with
  | term t =>
    -- the tag of a term is not one of the other two
    have hread : Argument.ofJson? t.toJson = (Term.ofJson? t.toJson).map .term := by
      cases t with
      | literal value => rfl
      | selector s =>
        show (Term.ofJson? (Term.selector s).toJson >>= fun t => some (Argument.term t)) = _
        cases Term.ofJson? (Term.selector s).toJson <;> rfl
    rw [Argument.toJson, hread, Argument.selectors, ← Term.ofJson?_toJson_iff]
    simp only [Option.map_eq_some_iff, Argument.term.injEq, exists_eq_right]
  | targets steps =>
    let raws := steps.map fun step => (Selector.step step).text
    have hread : Argument.ofJson? (Argument.targets steps).toJson =
        (raws.mapM readStepReference?).map .targets := by
      show ((Json.ofStrings raws).strings? >>= fun texts => texts.mapM readStepReference? >>=
        fun steps => some (Argument.targets steps)) = _
      rw [Json.strings?_ofStrings]
      show (raws.mapM readStepReference? >>= fun steps => some (Argument.targets steps)) = _
      cases raws.mapM readStepReference? <;> rfl
    rw [hread, Argument.selectors, List.forall_mem_map]
    simp only [Option.map_eq_some_iff, Argument.targets.injEq, exists_eq_right]
    rw [mapM_map_eq_some_iff]
    simp only [readStepReference?_eq_some_iff]
  | map entries =>
    let members := entries.map fun entry => (entry.1, entry.2.toJson)
    have hread : Argument.ofJson? (Argument.map entries).toJson =
        (readTermEntries? members).map .map := by
      show (readTermEntries? members >>= fun entries => some (Argument.map entries)) = _
      cases readTermEntries? members <;> rfl
    rw [hread, readTermEntries?_eq_mapM, Argument.selectors, List.forall_mem_flatMap]
    simp only [Option.map_eq_some_iff, Argument.map.injEq, exists_eq_right]
    rw [mapM_map_eq_some_iff]
    refine forall₂_congr fun entry _ => ?_
    rw [← Term.ofJson?_toJson_iff]
    simp [Prod.ext_iff]

/-! ### Selectors -/

/-- The texts among some values that are meant as selectors, in the order of the values. -/
def selectorTexts (values : List Json) : List String :=
  (values.filterMap Json.string?).filter looksLikeSelector

/-- The texts of several values are those of the values one after another. -/
theorem selectorTexts_cons (value : Json) (values : List Json) :
    selectorTexts (value :: values) = selectorTexts [value] ++ selectorTexts values := by
  rw [selectorTexts, ← List.singleton_append, List.filterMap_append, List.filter_append]
  rfl

/-- The selectors that were read from texts have these texts, and are spelled by them. -/
theorem spells_of_mapM {raws : List String} {selectors : List Selector}
    (h : raws.mapM readSelector = .ok selectors) :
    selectors.map Selector.text = raws ∧ ∀ s ∈ selectors, Selector.Spells s.text s := by
  have htext : ∀ raw s, readSelector raw = .ok s → s.text = raw := fun raw s hs =>
    Selector.text_of_parse (readSelector_eq_ok_iff.1 hs)
  constructor
  · rw [map_eq_of_mapM h htext]
    exact List.map_id raws
  · intro s hs
    obtain ⟨raw, -, hraw⟩ := exists_of_mem_mapM h hs
    rw [htext raw s hraw]
    exact Selector.parse_eq_ok_iff.1 (readSelector_eq_ok_iff.1 hraw)

/-- The selector of a term is the one that is read from the value, if it is a text that is meant as
    one. -/
theorem mapM_selectorTexts_term (value : Json) :
    (selectorTexts [value]).mapM readSelector = (Term.read value).map Term.selectors := by
  cases value with
  | string raw =>
    cases hlooks : looksLikeSelector raw with
    | true =>
      have htexts : selectorTexts [.string raw] = [raw] := by
        simp [selectorTexts, Json.string?, hlooks]
      rw [htexts, Term.read, if_pos hlooks, List.mapM_cons]
      cases readSelector raw <;> rfl
    | false =>
      have htexts : selectorTexts [.string raw] = [] := by
        simp [selectorTexts, Json.string?, hlooks]
      rw [htexts, Term.read, if_neg (by rw [hlooks]; exact Bool.false_ne_true)]
      rfl
  | _ => rfl

/-- The selectors of named terms are those that are read from the values that are meant as
    selectors, in the order of the values. -/
theorem mapM_selectorTexts_map (members : List (String × Json)) :
    (selectorTexts (members.map (·.2))).mapM readSelector =
      (readTerms members).map fun entries => (Argument.map entries).selectors := by
  induction members with
  | nil => rfl
  | cons member rest ih =>
    rw [List.map_cons, selectorTexts_cons, List.mapM_append, ih, mapM_selectorTexts_term, readTerms]
    cases Term.read member.2 with
    | error m => rfl
    | ok t => cases readTerms rest <;> rfl

/-- Named terms keep the names of the values, in their order. -/
theorem keys_of_readTerms {members : List (String × Json)} {entries : Table String Term}
    (h : readTerms members = .ok entries) : entries.keys = members.map (·.1) := by
  rw [readTerms_eq_mapM] at h
  exact map_eq_of_mapM h fun _ _ hentry => (readTerm_eq_ok_iff.1 hentry).1

/-- What was read from values is written as a value from which it is read back, with the entries of
    a map in the same order, and so are targets that were read from references. Its selectors are
    those that are read one after another from the texts that start with `$`, among the value itself
    or the values of the members; texts deeper down do not count. Reading fails when one of these
    texts is malformed, with the fault of the first one. This is about JSON values; their texts
    are another matter, since not every double is read from its text exactly. -/
theorem Argument.ofJson?_toJson_of_read :
    (∀ value,
      (selectorTexts [value]).mapM readSelector =
        (Term.read value).map (fun t => (Argument.term t).selectors) ∧
      ∀ t, Term.read value = .ok t →
        Argument.ofJson? (Argument.term t).toJson = some (.term t)) ∧
    (∀ members,
      (selectorTexts (members.map (·.2))).mapM readSelector =
        (readTerms members).map (fun entries => (Argument.map entries).selectors) ∧
      ∀ entries, readTerms members = .ok entries →
        Argument.ofJson? (Argument.map entries).toJson = some (.map entries) ∧
        entries.keys = members.map (·.1)) ∧
    ∀ raws steps, raws.mapM readSelector = .ok (steps.map .step) →
      Argument.ofJson? (Argument.targets steps).toJson = some (.targets steps) ∧
      (Argument.targets steps).selectors.map Selector.text = raws := by
  -- whatever was read spells its selectors, and that is all that reading back asks for
  refine ⟨fun value => ⟨mapM_selectorTexts_term value, fun t ht => ?_⟩,
    fun members => ⟨mapM_selectorTexts_map members, fun entries hentries => ?_⟩,
    fun raws steps hsteps => ?_⟩
  · have hselectors := mapM_selectorTexts_term value
    rw [ht] at hselectors
    exact Argument.ofJson?_toJson_iff.2 (spells_of_mapM hselectors).2
  · have hselectors := mapM_selectorTexts_map members
    rw [hentries] at hselectors
    exact ⟨Argument.ofJson?_toJson_iff.2 (spells_of_mapM hselectors).2, keys_of_readTerms hentries⟩
  · obtain ⟨htexts, hspells⟩ := spells_of_mapM hsteps
    exact ⟨Argument.ofJson?_toJson_iff.2 hspells, htexts⟩

/-- A literal that looks like the JSON form of a selector stays a literal, also beside selectors in
    a map, and a text that starts with `$` inside a list is none. -/
theorem Argument.ofJson?_toJson_lookalike :
    let lookalike : Json := .object [("type", .string "selector"), ("value", .string "$inputs.x")]
    let members : List (String × Json) :=
      [("z", .string "$steps.s.p"), ("a", lookalike), ("m", .array [.string "$steps.s"]),
        ("b", .string "$inputs.x")]
    Term.read lookalike = .ok (.literal lookalike) ∧
    Argument.ofJson? (Argument.term (.literal lookalike)).toJson =
      some (.term (.literal lookalike)) ∧
    (∃ entries, readTerms members = .ok entries ∧
      Argument.ofJson? (Argument.map entries).toJson = some (.map entries) ∧
      entries.keys = ["z", "a", "m", "b"] ∧
      (Argument.map entries).selectors = [.output "s" "p", .input "x"]) ∧
    ["$steps.t", "$steps.s"].mapM readSelector = .ok (["t", "s"].map .step) ∧
    Argument.ofJson? (Argument.targets ["t", "s"]).toJson = some (.targets ["t", "s"]) := by
  intro lookalike members
  obtain ⟨hterms, hmaps, htargets⟩ := Argument.ofJson?_toJson_of_read
  have hread : ∃ entries, readTerms members = .ok entries := ⟨_, rfl⟩
  obtain ⟨entries, hentries⟩ := hread
  obtain ⟨hselectors, hback⟩ := hmaps members
  obtain ⟨hmap, hkeys⟩ := hback entries hentries
  have hsteps : ["$steps.t", "$steps.s"].mapM readSelector = .ok (["t", "s"].map .step) :=
    toOption_eq_some.1 (by decide +kernel)
  refine ⟨rfl, (hterms lookalike).2 _ rfl, ⟨entries, hentries, hmap, hkeys, ?_⟩, hsteps,
    (htargets _ _ hsteps).1⟩
  have hread : (selectorTexts (members.map (·.2))).mapM readSelector =
      .ok [.output "s" "p", .input "x"] := toOption_eq_some.1 (by decide +kernel)
  rw [hread, hentries] at hselectors
  exact (Except.ok.inj hselectors).symm

end BatchFlow
