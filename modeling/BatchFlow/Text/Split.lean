namespace BatchFlow.Text

/-!
# Splitting at a separator

* `split separator text` — the pieces of a text between the separators; there is always one more
  piece than there are separators.
-/

/-- The pieces between the separators. -/
def split (separator : Char) : List Char → List (List Char)
  | [] => [[]]
  | c :: rest =>
    if c = separator then [] :: split separator rest
    else match split separator rest with
      | [] => [[c]]
      | piece :: pieces => (c :: piece) :: pieces

/-- The pieces of a string. -/
def pieces (separator : Char) (s : String) : List String :=
  (split separator s.toList).map String.ofList

end BatchFlow.Text
