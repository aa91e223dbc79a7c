import BatchFlow.Argument
import BatchFlow.Proofs.Text.Split

namespace BatchFlow

/-!
# The grammar of selectors

A selector is written `$inputs.n`, `$steps.s`, `$steps.s.p` or `$steps.s.*`, with names for `n`, `s`
and `p`. This is what is read, no text denotes two selectors, and no selector has two texts.

* `IsWord`, `Selector.Spells` — what a name is, and which text spells which selector.
* `Selector.parse_eq_ok_iff` — a text is read exactly when it spells a selector, and as that one.
* `Selector.text_of_parse` — the text of what was read is the text that was read.
* `readSelector_grammar` — all of this, and the text in the fault when there is nothing to be read.
-/

/-- Whether a text is a name: letters and digits of any script, `_`, `-` and `*`, and at least one
    of them. -/
def IsWord (text : String) : Prop :=
  text ≠ "" ∧
    ∀ c ∈ text.toList, Text.isAlphanumeric c = true ∨ c = '_' ∨ c = '-' ∨ c = '*'

/-- A name is what the grammar calls a word. -/
theorem isName_iff {text : String} : isName text = true ↔ IsWord text := by
  simp [isName, isNameChar, IsWord, or_assoc]

/-- The star is a word, so it has to be kept apart from names. -/
theorem isWord_star : IsWord "*" := by
  refine ⟨by decide, ?_⟩
  simp

/-- No name has a dot in it. -/
theorem IsWord.dot_not_mem {text : String} (h : IsWord text) : '.' ∉ text.toList := fun hdot => by
  have halphanumeric : Text.isAlphanumeric '.' = false := by decide
  simpa [halphanumeric] using h.2 '.' hdot

namespace Selector

/-- Whether a text spells a selector. -/
inductive Spells : String → Selector → Prop
  | input {name} : IsWord name → name ≠ "*" → Spells ("$inputs." ++ name) (.input name)
  | step {name} : IsWord name → name ≠ "*" → Spells ("$steps." ++ name) (.step name)
  | allOutputs {owner} : IsWord owner → owner ≠ "*" →
      Spells ("$steps." ++ owner ++ ".*") (.allOutputs owner)
  | output {owner property} : IsWord owner → owner ≠ "*" → IsWord property → property ≠ "*" →
      Spells ("$steps." ++ owner ++ "." ++ property) (.output owner property)

/-- The parts of a selector between the dots. -/
def parts : Selector → List String
  | .input name => ["$inputs", name]
  | .output owner property => ["$steps", owner, property]
  | .allOutputs owner => ["$steps", owner, "*"]
  | .step name => ["$steps", name]

/-- Whether `*` stands for nothing but all outputs of a step. -/
def StarsApart : Selector → Prop
  | .input name | .step name | .allOutputs name => name ≠ "*"
  | .output owner property => owner ≠ "*" ∧ property ≠ "*"

/-- Parts are those of a selector in which `*` stands for all outputs only. -/
theorem ofParts?_eq_some_iff {parts : List String} {s : Selector} :
    ofParts? parts = some s ↔ parts = s.parts ∧ s.StarsApart := by
  constructor
  · intro h
    unfold ofParts? at h
    split at h
    · split at h
      · cases h
      · rename_i hname
        cases h
        exact ⟨rfl, hname⟩
    · split at h
      · cases h
      · rename_i hname
        cases h
        exact ⟨rfl, hname⟩
    · split at h
      · cases h
      · rename_i howner
        split at h
        · rename_i hproperty
          cases h
          exact ⟨by rw [hproperty]; rfl, howner⟩
        · rename_i hproperty
          cases h
          exact ⟨rfl, howner, hproperty⟩
    · cases h
  · rintro ⟨rfl, h⟩
    cases s with
    | input name => exact if_neg h
    | step name => exact if_neg h
    | allOutputs owner => exact (if_neg h).trans (if_pos rfl)
    | output owner property => exact (if_neg h.1).trans (if_neg h.2)

/-- The text of a selector is its parts with dots between them. -/
theorem text_eq (s : Selector) : s.text = (String.singleton '.').intercalate s.parts := by
  rw [← String.toList_inj, String.toList_intercalate]
  cases s <;> simp [text, parts, List.intercalate]

/-- A text spells the selector whose text it is, if the parts are names and `*` is none. -/
theorem spells_iff {raw : String} {s : Selector} :
    Spells raw s ↔ s.text = raw ∧ (∀ part ∈ s.parts.drop 1, IsWord part) ∧ s.StarsApart := by
  constructor
  · intro h
    cases h with
    | input hname hstar => exact ⟨rfl, by simpa [parts] using hname, hstar⟩
    | step hname hstar => exact ⟨rfl, by simpa [parts] using hname, hstar⟩
    | allOutputs howner hstar =>
      exact ⟨rfl, by simpa [parts, isWord_star] using howner, hstar⟩
    | output howner hstar hproperty hstar' =>
      exact ⟨rfl, by simpa [parts] using ⟨howner, hproperty⟩, hstar, hstar'⟩
  · rintro ⟨rfl, hparts, hstars⟩
    cases s with
    | input name => exact .input (hparts name (by simp [parts])) hstars
    | step name => exact .step (hparts name (by simp [parts])) hstars
    | allOutputs owner => exact .allOutputs (hparts owner (by simp [parts])) hstars
    | output owner property =>
      exact .output (hparts owner (by simp [parts])) hstars.1
        (hparts property (by simp [parts])) hstars.2

/-- The parts of a selector whose names are names are the pieces of its text. -/
theorem pieces_eq_parts_iff {raw : String} {s : Selector}
    (hparts : ∀ part ∈ s.parts.drop 1, IsWord part) :
    Text.pieces '.' raw = s.parts ↔ s.text = raw := by
  have hhead : ∀ part ∈ s.parts.take 1, '.' ∉ part.toList := by
    cases s <;> simp [parts]
  have hdots : ∀ part ∈ s.parts, '.' ∉ part.toList := by
    rw [← List.take_append_drop 1 s.parts]
    exact List.forall_mem_append.2 ⟨hhead, fun part hpart => (hparts part hpart).dot_not_mem⟩
  have hne : s.parts ≠ [] := by cases s <;> simp [parts]
  constructor
  · intro h
    rw [text_eq, ← h, Text.intercalate_pieces]
  · rintro rfl
    rw [text_eq, Text.pieces_intercalate hne hdots]

/-- A text is read exactly when it spells a selector, and as that one. -/
theorem parse_eq_ok_iff {raw : String} {s : Selector} : parse raw = .ok s ↔ Spells raw s := by
  have hread : parse raw = .ok s ↔
      (∀ part ∈ (Text.pieces '.' raw).drop 1, IsWord part) ∧
        ofParts? (Text.pieces '.' raw) = some s := by
    simp only [parse, ← isName_iff, ← List.all_eq_true]
    cases ((Text.pieces '.' raw).drop 1).all isName with
    | false => simp
    | true => cases ofParts? (Text.pieces '.' raw) <;> simp
  rw [hread, ofParts?_eq_some_iff, spells_iff]
  constructor
  · rintro ⟨hwords, hpieces, hstars⟩
    rw [hpieces] at hwords
    exact ⟨(pieces_eq_parts_iff hwords).1 hpieces, hwords, hstars⟩
  · rintro ⟨htext, hwords, hstars⟩
    have hpieces := (pieces_eq_parts_iff hwords).2 htext
    exact ⟨by rwa [hpieces], hpieces, hstars⟩

/-- The text of what was read is what was read. -/
theorem text_of_parse {raw : String} {s : Selector} (h : parse raw = .ok s) : s.text = raw :=
  (spells_iff.1 (parse_eq_ok_iff.1 h)).1

end Selector

/-- Reading succeeds when parsing does; only the faults differ. -/
theorem readSelector_eq_ok_iff {raw : String} {s : Selector} :
    readSelector raw = .ok s ↔ Selector.parse raw = .ok s := by
  unfold readSelector
  cases Selector.parse raw <;> simp

/-- A text is read exactly when it spells a selector, and as the one that it spells. What was read
    is written as the text from which it was read, which is read back, so no two texts denote one
    selector. A text that spells nothing is refused, and the fault has the text as it stands. -/
theorem readSelector_grammar (raw : String) :
    (∀ s, readSelector raw = .ok s ↔ Selector.Spells raw s) ∧
    (∀ s, readSelector raw = .ok s → s.text = raw ∧ readSelector s.text = .ok s) ∧
    (∀ other s, readSelector raw = .ok s → readSelector other = .ok s → other = raw) ∧
    ((∀ s, ¬ Selector.Spells raw s) → ∃ fault, readSelector raw = .error ⟨raw, fault⟩) := by
  refine ⟨fun s => readSelector_eq_ok_iff.trans Selector.parse_eq_ok_iff, fun s h => ?_, ?_, ?_⟩
  · have htext := Selector.text_of_parse (readSelector_eq_ok_iff.1 h)
    exact ⟨htext, by rw [htext, h]⟩
  · intro other s h h'
    exact (Selector.text_of_parse (readSelector_eq_ok_iff.1 h')).symm.trans
      (Selector.text_of_parse (readSelector_eq_ok_iff.1 h))
  · intro hnone
    unfold readSelector
    cases hparse : Selector.parse raw with
    | ok s => exact absurd (Selector.parse_eq_ok_iff.1 hparse) (hnone s)
    | error fault => exact ⟨fault, rfl⟩

end BatchFlow
