import BatchFlow.Text.Split
import Mathlib.Data.List.Basic

namespace BatchFlow.Text

/-!
# Pieces put together again

* `intercalate_pieces` — the pieces of a text with the separator between them are the text.
* `pieces_intercalate` — texts without the separator are the pieces of what they are put together
  to.
-/

variable {separator : Char}

/-- The pieces are those of the library's splitting of lists. -/
theorem split_eq_splitOn (text : List Char) : split separator text = text.splitOn separator := by
  induction text with
  | nil => rfl
  | cons c rest ih =>
    rw [split, ih, List.splitOn_cons_eq_if_modifyHead]
    by_cases h : c = separator
    · rw [if_pos h, if_pos (beq_iff_eq.2 h)]
    · rw [if_neg h, if_neg (by simpa using h)]
      cases hsplit : rest.splitOn separator with
      | nil => exact absurd hsplit (List.splitOnP_ne_nil _ rest)
      | cons piece pieces => rfl

/-- A text is its pieces with the separator between them. -/
theorem intercalate_pieces (s : String) :
    (String.singleton separator).intercalate (pieces separator s) = s := by
  rw [← String.toList_inj, String.toList_intercalate, pieces, List.map_map, split_eq_splitOn]
  have hid : String.toList ∘ String.ofList = id := funext fun _ => String.toList_ofList
  rw [hid, List.map_id, String.toList_singleton]
  exact List.intercalate_splitOn separator

/-- Texts without the separator are the pieces of what is joined from them. -/
theorem pieces_intercalate {parts : List String} (hne : parts ≠ [])
    (h : ∀ part ∈ parts, separator ∉ part.toList) :
    pieces separator ((String.singleton separator).intercalate parts) = parts := by
  rw [pieces, split_eq_splitOn, String.toList_intercalate, String.toList_singleton,
    List.splitOn_intercalate separator (by simpa using h) (by simpa using hne), List.map_map]
  have hid : String.ofList ∘ String.toList = id := funext fun _ => String.ofList_toList
  rw [hid, List.map_id]

end BatchFlow.Text
