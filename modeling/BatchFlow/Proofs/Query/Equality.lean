import BatchFlow.Proofs.Json.Equality
import BatchFlow.Query.Compare

namespace BatchFlow.Query

/-!
# The comparators of equality

Values are alike when they are the same but for the kind of the numbers at the top and inside lists.
Members of objects keep the kind of their numbers, so in a chain of values that are alike either all
are numbers, or all are lists of values that are alike, or all are the same.

* `alike_number_iff`, `alike_array_iff`, `alike_eq_same` — what is alike to a value.
* `alike_of_same` — what is the same is alike.
* `alike_equivalence` — `alike` is an equivalence relation.
* `equal_equivalence` — what this says of the comparators `==`, `!=`, `in` and `contains`.
-/

/-- Lists are equal item by item. -/
theorem alikeItems_iff {a b : List Json} :
    alikeItems a b = true ↔ List.Forall₂ (fun x y => alike x y = true) a b := by
  induction a generalizing b with
  | nil => cases b <;> simp [alikeItems]
  | cons x a ih => cases b <;> simp [alikeItems, ih]

/-! ### What is alike to a value -/

/-- A number equals the numbers with its value. -/
theorem alike_number_iff {n : Number} {j : Json} : alike (.number n) j = true ↔
    ∃ n', j = .number n' ∧ (n.toFloat == n'.toFloat) = true := by
  cases j <;> simp [alike, Json.same]

/-- Arrays are equal position by position, so they have one length. -/
theorem alike_array_iff {a : List Json} {j : Json} : alike (.array a) j = true ↔
    ∃ b, j = .array b ∧ ∀ i : ℕ, Option.Rel (fun x y => alike x y = true) a[i]? b[i]? := by
  cases j <;> simp [alike, Json.same, alikeItems_iff, forall₂_iff_rel]

/-- Values other than numbers and lists are compared as they stand. -/
theorem alike_eq_same {a : Json} (hnumber : a.number? = none) (harray : a.array? = none)
    (b : Json) : alike a b = a.same b := by
  cases a with
  | number n => cases hnumber
  | array items => cases harray
  | _ => cases b <;> rfl

/-- What is the same is alike. -/
theorem alike_of_same {a b : Json} (h : a.same b = true) : alike a b = true := by
  induction a using Json.nested generalizing b with
  | number n =>
    obtain ⟨n', rfl, hn⟩ := Json.same_number_iff.1 h
    exact alike_number_iff.2 ⟨n', rfl, Number.toFloat_beq_of_same hn⟩
  | array items ih =>
    obtain ⟨items', rfl, hrel⟩ := Json.same_array_iff.1 h
    exact alike_array_iff.2 ⟨items', rfl, fun i =>
      rel_mono (fun x hx y => ih x (List.mem_of_getElem? hx)) (hrel i)⟩
  | null | bool | string | object => rwa [alike_eq_same rfl rfl]

/-! ### The equivalence -/

/-- Equality does not depend on the side. -/
theorem alike_symm {a b : Json} (h : alike a b = true) : alike b a = true := by
  induction a using Json.nested generalizing b with
  | number n =>
    obtain ⟨n', rfl, hn⟩ := alike_number_iff.1 h
    exact alike_number_iff.2 ⟨n, rfl, Number.toFloat_equivalence.symm hn⟩
  | array items ih =>
    obtain ⟨items', rfl, hrel⟩ := alike_array_iff.1 h
    exact alike_array_iff.2 ⟨items, rfl, fun i =>
      rel_symm (fun x hx y => ih x (List.mem_of_getElem? hx)) (hrel i)⟩
  | null | bool | string | object =>
    rw [alike_eq_same rfl rfl] at h
    exact alike_of_same (Json.same_symm h)

/-- What equals one value equals what that one equals. -/
theorem alike_trans {a b c : Json} (h : alike a b = true) (h' : alike b c = true) :
    alike a c = true := by
  induction a using Json.nested generalizing b c with
  | number n =>
    obtain ⟨n', rfl, hn⟩ := alike_number_iff.1 h
    obtain ⟨n'', rfl, hn'⟩ := alike_number_iff.1 h'
    exact alike_number_iff.2 ⟨n'', rfl, Number.toFloat_equivalence.trans hn hn'⟩
  | array items ih =>
    obtain ⟨items', rfl, hrel⟩ := alike_array_iff.1 h
    obtain ⟨items'', rfl, hrel'⟩ := alike_array_iff.1 h'
    exact alike_array_iff.2 ⟨items'', rfl, fun i =>
      rel_trans (fun x hx y z => ih x (List.mem_of_getElem? hx)) (hrel i) (hrel' i)⟩
  -- all other values compare by sameness, and only with values of their own sort
  | null =>
    rw [alike_eq_same rfl rfl] at h
    obtain rfl := Json.same_null_iff.1 h
    exact h'
  | bool x =>
    rw [alike_eq_same rfl rfl] at h
    obtain rfl := Json.same_bool_iff.1 h
    exact h'
  | string s =>
    rw [alike_eq_same rfl rfl] at h
    obtain rfl := Json.same_string_iff.1 h
    exact h'
  | object members ih =>
    rw [alike_eq_same rfl rfl] at h
    obtain ⟨members', rfl, -⟩ := Json.same_object_iff.1 h
    rw [alike_eq_same rfl rfl] at h'
    exact alike_of_same (Json.same_trans h h')

/-- Being alike is an equivalence relation. -/
theorem alike_equivalence : Equivalence fun a b : Json => alike a b = true :=
  ⟨fun j => alike_of_same j.same_refl, alike_symm, alike_trans⟩

/-- Equality of two values does not depend on the side. -/
theorem alike_comm (a b : Json) : alike a b = alike b a :=
  Bool.eq_iff_iff.2 ⟨alike_symm, alike_symm⟩

/-! ### The comparators -/

namespace Comparator

/-- Whether a comparator holds between two values; it does not when it is not defined on them. -/
def Holds (c : Comparator) (left right : Json) : Prop := c.compare left right = .ok true

/-- The comparator for equality holds of values that are equal. -/
theorem holds_equal_iff {left right : Json} : equal.Holds left right ↔ alike left right = true := by
  simp [Holds, compare]

/-- On a list, both comparators of sequences look for a value that is alike. -/
theorem compare_array (x : Json) (items : List Json) :
    isIn.compare x (.array items) = .ok (items.any (alike x ·)) ∧
      contains.compare (.array items) x = .ok (items.any (alike x ·)) := by
  refine ⟨rfl, ?_⟩
  have hcomm : items.any (alike · x) = items.any (alike x ·) :=
    congrArg items.any (funext fun item => alike_comm item x)
  rw [← hcomm]
  rfl

/-- On anything else they are not defined. -/
theorem compare_of_not_array (x : Json) {xs : Json} (h : xs.array? = none) :
    isIn.compare x xs = .error (.typeMismatch isIn.name "sequence" xs.typeName) ∧
      contains.compare xs x = .error (.typeMismatch contains.name "sequence" xs.typeName) := by
  cases xs with
  | array items => cases h
  | _ => exact ⟨rfl, rfl⟩

end Comparator

open Comparator in
/-- Equality of values is an equivalence relation on all of them which contains being the same, and
    is no more than that on what is neither a number nor a list. `!=` is its negation, and both are
    defined everywhere. A value is in a list exactly when it equals one of the items, and then the
    list contains it; one comparator fails for want of a list exactly when the other one does. -/
theorem equal_equivalence :
    Equivalence (fun a b : Json => equal.Holds a b) ∧
    (∀ a b : Json, a.same b = true → equal.Holds a b) ∧
    (∀ a b : Json, a.number? = none → a.array? = none → equal.Holds a b → a.same b = true) ∧
    (∀ a b : Json, ∃ held, equal.compare a b = .ok held ∧ notEqual.compare a b = .ok (!held)) ∧
    ∀ x xs : Json,
      (isIn.Holds x xs ↔ contains.Holds xs x) ∧
      (isIn.Holds x xs ↔ ∃ items, xs = .array items ∧ ∃ item ∈ items, equal.Holds x item) ∧
      (isIn.compare x xs = .error (.typeMismatch "in (Sequence)" "sequence" xs.typeName) ↔
        contains.compare xs x =
          .error (.typeMismatch "contains (Sequence)" "sequence" xs.typeName)) := by
  refine ⟨?_, fun a b h => holds_equal_iff.2 (alike_of_same h), ?_, fun a b => ⟨_, rfl, rfl⟩, ?_⟩
  · simpa only [holds_equal_iff] using alike_equivalence
  · intro a b hnumber harray h
    rw [← alike_eq_same hnumber harray]
    exact holds_equal_iff.1 h
  · intro x xs
    simp only [holds_equal_iff]
    -- both comparators look through the same list, or refuse what is none
    cases harray : xs.array? with
    | some items =>
      obtain rfl := Json.array?_eq_some_iff.1 harray
      obtain ⟨hin, hcontains⟩ := compare_array x items
      rw [Holds, Holds, hin, hcontains]
      refine ⟨Iff.rfl, ?_, iff_of_false nofun nofun⟩
      simp
    | none =>
      obtain ⟨hin, hcontains⟩ := compare_of_not_array x harray
      rw [Holds, Holds, hin, hcontains]
      refine ⟨iff_of_false nofun nofun, iff_of_false nofun ?_, iff_of_true rfl rfl⟩
      rintro ⟨items, rfl, -⟩
      cases harray

/-- Objects with the same members in another order are equal, and the same from either side. -/
theorem equal_equivalence_unordered :
    let a : Json := .object [("x", .ofInt 1), ("y", .array [.null])]
    let b : Json := .object [("y", .array [.null]), ("x", .ofInt 1)]
    a ≠ b ∧ a.same b = true ∧ Comparator.equal.Holds a b ∧ b.same a = true := by
  intro a b
  have hsame : a.same b = true := by decide +kernel
  obtain ⟨hequivalence, hofSame, htoSame, -⟩ := equal_equivalence
  have hequal : Comparator.equal.Holds a b := hofSame a b hsame
  exact ⟨by decide, hsame, hequal, htoSame b a rfl rfl (hequivalence.symm hequal)⟩

end BatchFlow.Query
