import BatchFlow.Json.Equality
import BatchFlow.Proofs.Json.Number
import BatchFlow.Proofs.Table
import Mathlib.Data.List.Forall2

namespace BatchFlow

/-!
# Equality of values

Lists are the same when the same is found at each position, objects when the same is found under
each key. So what makes equality of numbers an equivalence relation makes equality of values one.

* `Json.nested` — induction over the values inside a value.
* `rel_refl`, `rel_symm`, `rel_trans`, `rel_mono` — look-ups that find related values.
* `forall₂_iff_rel` — lists related item by item, as look-ups by position.
* `Json.same_array_iff`, `Json.same_object_iff` — lists by positions and objects by keys.
* `Json.same_equivalence` — `same` is an equivalence relation.
-/

/-! ### Look-ups that find related values -/

section Lookups

variable {α : Type} {R : α → α → Prop} {found found' found'' : Option α}

/-- What is found is related to itself if it is when it is there. -/
theorem rel_refl (h : ∀ x, found = some x → R x x) : Option.Rel R found found := by
  cases found with
  | none => exact .none
  | some x => exact .some (h x rfl)

/-- Two results of look-ups may change sides. -/
theorem rel_symm (h : ∀ x, found = some x → ∀ y, R x y → R y x)
    (hrel : Option.Rel R found found') : Option.Rel R found' found := by
  cases hrel with
  | none => exact .none
  | some hxy => exact .some (h _ rfl _ hxy)

/-- Two relations between results of look-ups make one. -/
theorem rel_trans (h : ∀ x, found = some x → ∀ y z, R x y → R y z → R x z)
    (hrel : Option.Rel R found found') (hrel' : Option.Rel R found' found'') :
    Option.Rel R found found'' := by
  cases hrel with
  | none => exact hrel'
  | some hxy =>
    cases hrel' with
    | some hyz => exact .some (h _ rfl _ _ hxy hyz)

/-- A relation between results of look-ups may be weakened. -/
theorem rel_mono {S : α → α → Prop} (h : ∀ x, found = some x → ∀ y, R x y → S x y)
    (hrel : Option.Rel R found found') : Option.Rel S found found' := by
  cases hrel with
  | none => exact .none
  | some hxy => exact .some (h _ rfl _ hxy)

/-- Look-ups find related values when what the first one finds is related to what the second one
    finds, and the second one finds no more. -/
theorem rel_iff : Option.Rel R found found' ↔
    (∀ x, found = some x → ∃ y, found' = some y ∧ R x y) ∧ (found'.isSome → found.isSome) := by
  constructor
  · intro h
    cases h with
    | none => simp
    | some hxy => simpa using hxy
  · rintro ⟨hvalues, hno⟩
    cases found with
    | some x =>
      obtain ⟨y, rfl, hxy⟩ := hvalues x rfl
      exact .some hxy
    | none =>
      cases found' with
      | none => exact .none
      | some y => cases hno rfl

/-- Lists that are related item by item have related items at each position. -/
theorem forall₂_iff_rel {xs ys : List α} :
    List.Forall₂ R xs ys ↔ ∀ i : ℕ, Option.Rel R xs[i]? ys[i]? := by
  -- a position behind the end of one list only would have nothing to be related to
  induction xs generalizing ys with
  | nil =>
    rw [List.forall₂_nil_left_iff]
    constructor
    · rintro rfl i
      exact .none
    · intro h
      cases ys with
      | nil => rfl
      | cons y ys => exact nomatch h 0
  | cons x xs ih =>
    cases ys with
    | nil => exact iff_of_false nofun fun h => nomatch h 0
    | cons y ys =>
      rw [List.forall₂_cons, ih]
      constructor
      · rintro ⟨hfirst, hrest⟩ i
        cases i with
        | zero => exact .some hfirst
        | succ i => exact hrest i
      · intro h
        refine ⟨?_, fun i => h (i + 1)⟩
        cases h 0 with
        | some hfirst => exact hfirst

end Lookups

namespace Json

/-- What holds of a value as soon as it holds of its items or members holds of all values. -/
@[elab_as_elim]
theorem nested {P : Json → Prop} (null : P .null) (bool : ∀ b, P (.bool b))
    (number : ∀ n, P (.number n)) (string : ∀ s, P (.string s))
    (array : ∀ items, (∀ j ∈ items, P j) → P (.array items))
    (object : ∀ members, (∀ key j, (key, j) ∈ members → P j) → P (.object members))
    (j : Json) : P j := by
  induction hn : j.height using Nat.strongRecOn generalizing j with
  | ind n ih =>
    subst hn
    cases j with
    | null => exact null
    | bool b => exact bool b
    | number n => exact number n
    | string s => exact string s
    | array items => exact array items fun j hj => ih _ (height_lt_of_mem hj) j rfl
    | object members =>
      exact object members fun key j hj => ih _ (height_lt_of_mem_members hj) j rfl

/-! ### What is the same as a value -/

/-- Only null is the same as null. -/
theorem same_null_iff {j : Json} : same .null j = true ↔ .null = j := by
  cases j <;> simp [same]

/-- Only a truth value is the same as itself. -/
theorem same_bool_iff {b : Bool} {j : Json} : same (.bool b) j = true ↔ .bool b = j := by
  cases j <;> simp [same]

/-- A number is the same as the numbers that are the same. -/
theorem same_number_iff {n : Number} {j : Json} :
    same (.number n) j = true ↔ ∃ n', j = .number n' ∧ n.same n' = true := by
  cases j <;> simp [same]

/-- Only a text is the same as itself. -/
theorem same_string_iff {s : String} {j : Json} : same (.string s) j = true ↔ .string s = j := by
  cases j <;> simp [same]

/-- Lists are the same item by item. -/
theorem sameItems_iff {a b : List Json} :
    sameItems a b = true ↔ List.Forall₂ (fun x y => same x y = true) a b := by
  induction a generalizing b with
  | nil => cases b <;> simp [sameItems]
  | cons x a ih => cases b <;> simp [sameItems, ih]

/-- A list is the same as another one when the same is found at each position. -/
theorem same_array_iff {a : List Json} {j : Json} : same (.array a) j = true ↔
    ∃ b, j = .array b ∧ ∀ i : ℕ, Option.Rel (fun x y => same x y = true) a[i]? b[i]? := by
  cases j with
  | array b => simp [same, sameItems_iff, forall₂_iff_rel]
  | _ => simp [same]

/-- The members that count are those whose key was not seen before. Each has to be found among the
    other members, and to be the same there. -/
theorem sameMembers_iff {seen : List String} {a b : List (String × Json)} :
    sameMembers seen a b = true ↔ ∀ key ∉ seen, ∀ x, Table.get? a key = some x →
      ∃ y, Table.get? b key = some y ∧ same x y = true := by
  induction a generalizing seen with
  | nil => simp [sameMembers]
  | cons member a ih =>
    obtain ⟨key, x⟩ := member
    -- a member counts unless its key was seen before, and its key is seen from then on
    have hcons : sameMembers seen ((key, x) :: a) b = true ↔
        (key ∈ seen ∨ ∃ y, Table.get? b key = some y ∧ same x y = true) ∧
          sameMembers (key :: seen) a b = true := by
      rw [sameMembers, Bool.and_eq_true, Bool.or_eq_true, List.contains_iff_mem]
      cases Table.get? b key <;> simp
    rw [hcons, ih]
    constructor
    · rintro ⟨hfound, hrest⟩ key' hnew x' hx'
      rw [Table.get?_cons] at hx'
      split at hx'
      · rename_i he
        subst he
        cases hx'
        exact hfound.resolve_left hnew
      · rename_i hne
        exact hrest key' (mt List.mem_cons.1 (not_or.2 ⟨Ne.symm hne, hnew⟩)) x' hx'
    · intro h
      refine ⟨or_iff_not_imp_left.2 fun hnew => h key hnew x (by simp), ?_⟩
      intro key' hnew x' hx'
      obtain ⟨hne, hnew⟩ := not_or.1 (mt List.mem_cons.2 hnew)
      exact h key' hnew x' (by rw [Table.get?_cons, if_neg (Ne.symm hne), hx'])

/-- Whether an object has all the keys of another one. -/
theorem all_contains_iff {a b : List (String × Json)} :
    (b.all fun (key, _) => Table.contains a key) = true ↔
      ∀ key, (Table.get? b key).isSome → (Table.get? a key).isSome := by
  rw [List.all_eq_true]
  constructor
  · intro h key hkey
    obtain ⟨y, hy⟩ := Option.isSome_iff_exists.1 hkey
    exact h _ (Table.mem_of_get? hy)
  · rintro h ⟨key, y⟩ hmem
    exact h key (Table.contains_iff.2 (List.mem_map_of_mem hmem))

/-- An object is the same as another one when the same is found under each key. -/
theorem same_object_iff {a : List (String × Json)} {j : Json} : same (.object a) j = true ↔
    ∃ b, j = .object b ∧
      ∀ key, Option.Rel (fun x y => same x y = true) (Table.get? a key) (Table.get? b key) := by
  cases j with
  | object b =>
    simp only [same, Bool.and_eq_true, sameMembers_iff, all_contains_iff, rel_iff, forall_and]
    simp
  | _ => simp [same]

/-! ### The equivalence -/

/-- Every value is the same as itself. -/
theorem same_refl (j : Json) : same j j = true := by
  induction j using nested with
  | null => rfl
  | bool b => exact beq_self_eq_true b
  | number n => exact Number.same_equivalence.refl n
  | string s => exact beq_self_eq_true s
  | array items ih =>
    exact same_array_iff.2
      ⟨items, rfl, fun i => rel_refl fun x hx => ih x (List.mem_of_getElem? hx)⟩
  | object members ih =>
    exact same_object_iff.2
      ⟨members, rfl, fun key => rel_refl fun x hx => ih key x (Table.mem_of_get? hx)⟩

/-- Sameness does not depend on the side. -/
theorem same_symm {a b : Json} (h : same a b = true) : same b a = true := by
  induction a using nested generalizing b with
  | null =>
    obtain rfl := same_null_iff.1 h
    exact h
  | bool x =>
    obtain rfl := same_bool_iff.1 h
    exact h
  | number n =>
    obtain ⟨n', rfl, hn⟩ := same_number_iff.1 h
    exact same_number_iff.2 ⟨n, rfl, Number.same_equivalence.symm hn⟩
  | string s =>
    obtain rfl := same_string_iff.1 h
    exact h
  | array items ih =>
    obtain ⟨items', rfl, hrel⟩ := same_array_iff.1 h
    exact same_array_iff.2 ⟨items, rfl, fun i =>
      rel_symm (fun x hx y => ih x (List.mem_of_getElem? hx)) (hrel i)⟩
  | object members ih =>
    obtain ⟨members', rfl, hrel⟩ := same_object_iff.1 h
    exact same_object_iff.2 ⟨members, rfl, fun key =>
      rel_symm (fun x hx y => ih key x (Table.mem_of_get? hx)) (hrel key)⟩

/-- What is the same as one value is the same as what that one is the same as. -/
theorem same_trans {a b c : Json} (h : same a b = true) (h' : same b c = true) :
    same a c = true := by
  induction a using nested generalizing b c with
  | null =>
    obtain rfl := same_null_iff.1 h
    exact h'
  | bool x =>
    obtain rfl := same_bool_iff.1 h
    exact h'
  | number n =>
    obtain ⟨n', rfl, hn⟩ := same_number_iff.1 h
    obtain ⟨n'', rfl, hn'⟩ := same_number_iff.1 h'
    exact same_number_iff.2 ⟨n'', rfl, Number.same_equivalence.trans hn hn'⟩
  | string s =>
    obtain rfl := same_string_iff.1 h
    exact h'
  | array items ih =>
    obtain ⟨items', rfl, hrel⟩ := same_array_iff.1 h
    obtain ⟨items'', rfl, hrel'⟩ := same_array_iff.1 h'
    exact same_array_iff.2 ⟨items'', rfl, fun i =>
      rel_trans (fun x hx y z => ih x (List.mem_of_getElem? hx)) (hrel i) (hrel' i)⟩
  | object members ih =>
    obtain ⟨members', rfl, hrel⟩ := same_object_iff.1 h
    obtain ⟨members'', rfl, hrel'⟩ := same_object_iff.1 h'
    exact same_object_iff.2 ⟨members'', rfl, fun key =>
      rel_trans (fun x hx y z => ih key x (Table.mem_of_get? hx)) (hrel key) (hrel' key)⟩

/-- Being the same is an equivalence relation. -/
theorem same_equivalence : Equivalence fun a b : Json => same a b = true :=
  ⟨same_refl, same_symm, same_trans⟩

end Json

end BatchFlow
