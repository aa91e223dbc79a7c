namespace BatchFlow

/-!
# Distinct elements

* `firstRepeat? xs` — the first element that occurred before; there is none exactly when the
  elements are distinct (`firstRepeat?_eq_none_iff`).
* `distinct xs` — each element once, at its first place.
* `dropRepeats xs` — of equal neighbours only the first. When the elements are sorted each is there
  once then (`pairwise_dropRepeats`).
-/

variable {α : Type} [DecidableEq α]

/-- The first element that is among the `seen` ones or occurred before in the list. -/
def firstRepeatAfter? (seen : List α) : List α → Option α
  | [] => none
  | x :: rest => if x ∈ seen then some x else firstRepeatAfter? (x :: seen) rest

/-- The first element that occurred before. -/
def firstRepeat? (xs : List α) : Option α := firstRepeatAfter? [] xs

/-- Each element once, at its first place. -/
def distinct : List α → List α
  | [] => []
  | x :: rest => x :: (distinct rest).filter (· ≠ x)

/-- Of equal elements that stand next to each other only the first. -/
def dropRepeats : List α → List α
  | [] => []
  | [x] => [x]
  | x :: y :: rest => if x = y then dropRepeats (y :: rest) else x :: dropRepeats (y :: rest)

/-- Nothing repeats when the items are pairwise different and none of them was seen before. -/
theorem firstRepeatAfter?_eq_none_iff (seen xs : List α) :
    firstRepeatAfter? seen xs = none ↔ xs.Nodup ∧ ∀ x ∈ xs, x ∉ seen := by
  induction xs generalizing seen with
  | nil => simp [firstRepeatAfter?]
  | cons x rest ih =>
    by_cases h : x ∈ seen
    · simp [firstRepeatAfter?, h]
    · simp only [firstRepeatAfter?, h, if_false, ih, List.nodup_cons, List.mem_cons, not_or]
      constructor
      · rintro ⟨nodup, apart⟩
        refine ⟨⟨fun hx => (apart x hx).1 rfl, nodup⟩, ?_⟩
        rintro y (rfl | hy)
        · exact h
        · exact (apart y hy).2
      · rintro ⟨⟨hx, nodup⟩, apart⟩
        exact ⟨nodup, fun y hy => ⟨fun e => hx (e ▸ hy), apart y (Or.inr hy)⟩⟩

/-- Nothing occurs twice exactly when no repeat is found. -/
theorem firstRepeat?_eq_none_iff (xs : List α) : firstRepeat? xs = none ↔ xs.Nodup := by
  simp [firstRepeat?, firstRepeatAfter?_eq_none_iff]

/-- Leaving repeats out loses no item. -/
@[simp] theorem mem_distinct {x : α} {xs : List α} : x ∈ distinct xs ↔ x ∈ xs := by
  induction xs with
  | nil => simp [distinct]
  | cons y rest ih =>
    by_cases h : x = y <;> simp [distinct, ih, h]

/-- No item is left twice. -/
theorem nodup_distinct (xs : List α) : (distinct xs).Nodup := by
  induction xs with
  | nil => simp [distinct]
  | cons y rest ih => simp [distinct, List.nodup_cons, List.Nodup.sublist List.filter_sublist ih]

/-- Dropping neighbours that are equal loses no item. -/
@[simp] theorem mem_dropRepeats {z : α} {xs : List α} : z ∈ dropRepeats xs ↔ z ∈ xs := by
  fun_induction dropRepeats xs with
  | case1 => rfl
  | case2 x => rfl
  | case3 x rest ih => simp [ih]
  | case4 x y rest _ ih => simp [ih]

/-- Without its repeats a sorted list is strictly sorted. -/
theorem pairwise_dropRepeats {lt : α → α → Prop} {xs : List α}
    (h : xs.Pairwise fun a b => a = b ∨ lt a b) (htrans : ∀ {a b c}, lt a b → lt b c → lt a c) :
    (dropRepeats xs).Pairwise lt := by
  fun_induction dropRepeats xs with
  | case1 => exact .nil
  | case2 x => exact List.pairwise_singleton _ x
  | case3 x rest ih => exact ih (List.pairwise_cons.1 h).2
  | case4 x y rest hne ih =>
    obtain ⟨hfirst, hrest⟩ := List.pairwise_cons.1 h
    have hxy : lt x y := (hfirst y List.mem_cons_self).resolve_left hne
    refine List.pairwise_cons.2 ⟨fun z hz => ?_, ih hrest⟩
    -- what comes later is the neighbour or comes after it
    rcases List.mem_cons.1 (mem_dropRepeats.1 hz) with rfl | hz
    · exact hxy
    · rcases (List.pairwise_cons.1 hrest).1 z hz with rfl | hyz
      · exact hxy
      · exact htrans hxy hyz

/-! ### Places -/

/-- The place of an element is the first at which it stands. -/
theorem idxOf?_of_mem {x : α} {xs : List α} (h : x ∈ xs) : xs.idxOf? x = some (xs.idxOf x) := by
  induction xs with
  | nil => cases h
  | cons y rest ih =>
    rw [List.idxOf?_cons, List.idxOf_cons]
    by_cases hy : y = x
    · simp [hy]
    · have hrest := (List.mem_cons.1 h).resolve_left (Ne.symm hy)
      simp [beq_eq_false_iff_ne.2 hy, ih hrest]

/-- Distinct elements stand in the order of their places. -/
theorem pairwise_idxOf {xs : List α} (h : xs.Nodup) :
    xs.Pairwise fun a b => xs.idxOf a < xs.idxOf b := by
  refine List.pairwise_iff_getElem.2 fun i j hi hj hij => ?_
  rw [h.idxOf_getElem, h.idxOf_getElem]
  exact hij

end BatchFlow
