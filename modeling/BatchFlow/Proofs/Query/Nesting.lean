import BatchFlow.Proofs.Query.Equality

namespace BatchFlow

/-!
# Equality inside values

Values that are alike stay so as items of lists, however deep. As members of objects they stay so
only if they are the same: there `1` and `1.0` are told apart, so a number that stands inside an
object cannot be replaced by one of the same value and another kind.

* `Json.Layer`, `Json.Context` — what stands around a value inside another one.
* `Json.same_fill_iff` — what is the same stays the same inside any value, and only that does.
* `Query.alike_fill_iff` — what is alike inside a value.
* `Query.Comparator.Interchangeable` — two values for which a comparator has the same outcomes.
* `Query.Comparator.interchangeable_iff` — for the comparators of equality these are the values that
  are alike.
* `Query.equal_nested` — what this says of the comparators `==`, `!=`, `in` and `contains`.
-/

/-- Lists that differ at one place are related item by item when they are so at this place. -/
theorem forall₂_replace_iff {α : Type} {R : α → α → Prop} (hrefl : ∀ x, R x x) {a b : α}
    (before after : List α) :
    List.Forall₂ R (before ++ a :: after) (before ++ b :: after) ↔ R a b := by
  induction before with
  | nil =>
    rw [List.nil_append, List.nil_append, List.forall₂_cons]
    exact and_iff_left (List.forall₂_same.2 fun x _ => hrefl x)
  | cons x before ih =>
    rw [List.cons_append, List.cons_append, List.forall₂_cons, ih]
    exact and_iff_right (hrefl x)

namespace Json

/-! ### Places in values -/

/-- What stands around a value in a list, or in an object in which its key is not there before. -/
inductive Layer where
  | item (before after : List Json)
  | member (before : List (String × Json)) (key : String) (after : List (String × Json))
      (fresh : key ∉ Table.keys before)

namespace Layer

/-- The list or object with a value at the open place. -/
def fill : Layer → Json → Json
  | item before after, j => .array (before ++ j :: after)
  | member before key after _, j => .object (before ++ (key, j) :: after)

/-- Whether the value is a member of an object. -/
def isMember : Layer → Bool
  | item .. => false
  | member .. => true

end Layer

/-- A place inside a value: what stands around it, from the outside in. -/
abbrev Context := List Layer

namespace Context

/-- The value with another one at the open place. -/
def fill (c : Context) (j : Json) : Json := c.foldr Layer.fill j

@[simp] theorem fill_nil (j : Json) : fill [] j = j := rfl

@[simp] theorem fill_cons (layer : Layer) (c : Context) (j : Json) :
    fill (layer :: c) j = layer.fill (c.fill j) := rfl

/-- Whether there is an object around the place. -/
def inObject (c : Context) : Bool := c.any Layer.isMember

@[simp] theorem inObject_nil : inObject [] = false := rfl

@[simp] theorem inObject_cons (layer : Layer) (c : Context) :
    inObject (layer :: c) = (layer.isMember || c.inObject) := rfl

end Context

/-! ### What is the same inside a value -/

/-- An object is only looked into at the open place under the key that stands there. -/
theorem get?_member {before : List (String × Json)} {key : String} (fresh : key ∉ Table.keys before)
    (after : List (String × Json)) (j : Json) (key' : String) :
    Table.get? (before ++ (key, j) :: after) key' =
      if key = key' then some j else Table.get? (before ++ after) key' := by
  rw [Table.get?_append, Table.get?_append, Table.get?_cons]
  by_cases hkey : key = key'
  · subst hkey
    rw [if_pos rfl, if_pos rfl, Table.get?_eq_none_iff.2 fresh, Option.none_or]
  · rw [if_neg hkey, if_neg hkey]

/-- Objects that differ in the value of one key are the same when the values are. -/
theorem same_member_iff {before : List (String × Json)} {key : String}
    (fresh : key ∉ Table.keys before) (after : List (String × Json)) {a b : Json} :
    same (.object (before ++ (key, a) :: after)) (.object (before ++ (key, b) :: after)) = true ↔
      same a b = true := by
  rw [same_object_iff]
  simp only [object.injEq, exists_eq_left', get?_member fresh]
  constructor
  · intro h
    have hkey := h key
    rw [if_pos rfl, if_pos rfl] at hkey
    cases hkey with
    | some hab => exact hab
  · intro hab key'
    by_cases hkey : key = key'
    · rw [if_pos hkey, if_pos hkey]
      exact .some hab
    · rw [if_neg hkey, if_neg hkey]
      exact rel_refl fun x _ => same_refl x

/-- Inside any value, what is the same stays the same, and only that does. -/
theorem same_fill_iff (c : Context) {a b : Json} :
    same (c.fill a) (c.fill b) = true ↔ same a b = true := by
  induction c with
  | nil => exact Iff.rfl
  | cons layer c ih =>
    rw [Context.fill_cons, Context.fill_cons, ← ih]
    cases layer with
    | item before after =>
      simp only [Layer.fill, same, sameItems_iff]
      exact forall₂_replace_iff same_refl before after
    | member before key after fresh => exact same_member_iff fresh after

end Json

namespace Query

open Json (Context Layer)

/-! ### What is alike inside a value -/

/-- Inside lists what is alike stays alike; inside an object only what is the same does. -/
theorem alike_fill_iff (c : Context) {a b : Json} :
    alike (c.fill a) (c.fill b) = true ↔
      alike a b = true ∧ (c.inObject = true → a.same b = true) := by
  induction c with
  | nil => simp
  | cons layer c ih =>
    rw [Context.fill_cons, Context.fill_cons, Context.inObject_cons]
    cases layer with
    | item before after =>
      simp only [Layer.fill, Layer.isMember, Bool.false_or, alike, alikeItems_iff, ← ih]
      exact forall₂_replace_iff alike_equivalence.refl before after
    | member before key after fresh =>
      -- from here on inwards values are compared as they stand
      rw [Layer.fill, Layer.fill, alike_eq_same rfl rfl, Json.same_member_iff fresh,
        Json.same_fill_iff]
      simp only [Layer.isMember, Bool.true_or, forall_const]
      exact ⟨fun h => ⟨alike_of_same h, h⟩, And.right⟩

/-- Values that are alike have the same type. -/
theorem typeName_eq_of_alike {a b : Json} (h : alike a b = true) : a.typeName = b.typeName := by
  cases a with
  | number n =>
    obtain ⟨n', rfl, -⟩ := alike_number_iff.1 h
    rfl
  | array items =>
    obtain ⟨items', rfl, -⟩ := alike_array_iff.1 h
    rfl
  | null | bool | string | object =>
    rw [alike_eq_same rfl rfl] at h
    cases b <;> first | rfl | cases h

/-- Of what is alike to a value, one part is alike to it when the other one is. -/
theorem alike_congr {a b : Json} (h : alike a b = true) (other : Json) :
    alike a other = alike b other :=
  Bool.eq_iff_iff.2 ⟨alike_trans (alike_symm h), alike_trans h⟩

/-- Lists that are alike have items that are alike to the same values. -/
theorem any_alike_congr {items items' : List Json}
    (h : List.Forall₂ (fun x y => alike x y = true) items items') (other : Json) :
    items.any (alike other ·) = items'.any (alike other ·) := by
  induction h with
  | nil => rfl
  | cons hxy _ ih =>
    rw [List.any_cons, List.any_cons, ih, alike_comm other, alike_congr hxy, alike_comm]

/-! ### Outcomes of comparators -/

namespace Comparator

/-- Whether a comparator has the same outcome for two values, on either side and with any other
    value on the other side. -/
def Interchangeable (c : Comparator) (a b : Json) : Prop :=
  ∀ other, c.compare a other = c.compare b other ∧ c.compare other a = c.compare other b

/-- The comparators that ask for equality. -/
def ofEquality : List Comparator := [equal, notEqual, isIn, contains]

/-- Both comparators of sequences have the same outcomes for lists that are alike. -/
theorem compare_sequence_congr {a b : Json} (h : alike a b = true) (other : Json) :
    isIn.compare other a = isIn.compare other b ∧
      contains.compare a other = contains.compare b other := by
  cases a with
  | array items =>
    obtain ⟨items', rfl, hitems⟩ := alike_array_iff.1 h
    obtain ⟨hin, hcontains⟩ := compare_array other items
    obtain ⟨hin', hcontains'⟩ := compare_array other items'
    rw [hin, hin', hcontains, hcontains', any_alike_congr (forall₂_iff_rel.2 hitems)]
    exact ⟨rfl, rfl⟩
  | null | bool | number | string | object =>
    have htype := typeName_eq_of_alike h
    have hb : b.array? = none := by cases b <;> first | rfl | simp [Json.typeName] at htype
    have hout := compare_of_not_array other hb
    rw [hout.1, hout.2, ← htype]
    exact compare_of_not_array other rfl

/-- Values that are alike are interchangeable for the comparators that ask for equality. -/
theorem interchangeable_of_alike {c : Comparator} (hc : c ∈ ofEquality) {a b : Json}
    (h : alike a b = true) : c.Interchangeable a b := by
  have hleft := alike_congr h
  have hright : ∀ other, alike other a = alike other b := fun other => by
    rw [alike_comm other, hleft, alike_comm]
  intro other
  simp only [ofEquality, List.mem_cons, List.not_mem_nil, or_false] at hc
  rcases hc with rfl | rfl | rfl | rfl
  · exact ⟨congrArg Except.ok (hleft other), congrArg Except.ok (hright other)⟩
  · exact ⟨congrArg (Except.ok ∘ not) (hleft other), congrArg (Except.ok ∘ not) (hright other)⟩
  · refine ⟨?_, (compare_sequence_congr h other).1⟩
    simp only [compare, hleft]
  · refine ⟨(compare_sequence_congr h other).2, ?_⟩
    simp only [compare, hright]

/-- For the comparators that ask for equality, no other values are interchangeable. -/
theorem alike_of_interchangeable {c : Comparator} (hc : c ∈ ofEquality) {a b : Json}
    (h : c.Interchangeable a b) : alike a b = true := by
  have hself : alike b b = true := alike_equivalence.refl b
  simp only [ofEquality, List.mem_cons, List.not_mem_nil, or_false] at hc
  rcases hc with rfl | rfl | rfl | rfl
  · exact (Except.ok.inj (h b).1).trans hself
  · exact (Bool.not_inj (Except.ok.inj (h b).1)).trans hself
  -- a list of one item is asked for the other value
  · have hitem := (h (.array [b])).1
    rw [(compare_array a [b]).1, (compare_array b [b]).1] at hitem
    simpa [hself] using hitem
  · have hitem := (h (.array [b])).2
    rw [(compare_array a [b]).2, (compare_array b [b]).2] at hitem
    simpa [hself] using hitem

/-- Values are interchangeable for a comparator of equality when they are equal. -/
theorem interchangeable_iff {c : Comparator} (hc : c ∈ ofEquality) {a b : Json} :
    c.Interchangeable a b ↔ alike a b = true :=
  ⟨alike_of_interchangeable hc, interchangeable_of_alike hc⟩

end Comparator

open Comparator in
/-- Equal values are equal at a place inside other values, unless there is an object around the
    place and they are not the same. Just then they can replace each other there without a change
    in the outcome of `==`, `!=`, `in` or `contains`. So an integer can be replaced by the double of
    the same value exactly where no object stands around it. -/
theorem equal_nested (c : Context) :
    (∀ a b : Json, equal.Holds (c.fill a) (c.fill b) ↔
      equal.Holds a b ∧ (c.inObject = true → a.same b = true)) ∧
    (∀ comparator ∈ ofEquality, ∀ a b : Json,
      comparator.Interchangeable (c.fill a) (c.fill b) ↔ equal.Holds (c.fill a) (c.fill b)) ∧
    ∀ comparator ∈ ofEquality, ∀ (i : ℤ) (x : FiniteFloat), (floatOfInt i == x.value) = true →
      (comparator.Interchangeable (c.fill (.number (.int i))) (c.fill (.number (.float x))) ↔
        c.inObject = false) := by
  refine ⟨fun a b => ?_, fun comparator hcomparator a b => ?_, ?_⟩
  · rw [holds_equal_iff, holds_equal_iff, alike_fill_iff]
  · rw [interchangeable_iff hcomparator, holds_equal_iff]
  · intro comparator hcomparator i x hvalue
    have halike : alike (.number (.int i)) (.number (.float x)) = true := hvalue
    have hkinds : Json.same (.number (.int i)) (.number (.float x)) = false := rfl
    rw [interchangeable_iff hcomparator, alike_fill_iff, and_iff_right halike, hkinds]
    simp

open Comparator in
/-- `1` and `1.0` are equal, as items of lists too, but objects that have them under one key are
    not, and a list that has the one object does not contain the other. -/
theorem equal_nested_members :
    let one : FiniteFloat := ⟨1.0, by decide +kernel⟩
    let whole : Json := .number (.int 1)
    let point : Json := .number (.float one)
    equal.Holds whole point ∧ equal.Holds (.array [.null, whole]) (.array [.null, point]) ∧
      ¬ equal.Holds (.object [("a", whole)]) (.object [("a", point)]) ∧
      ¬ isIn.Interchangeable (.array [.object [("a", whole)]])
        (.array [.object [("a", point)]]) := by
  intro one whole point
  have hvalue : (floatOfInt 1 == one.value) = true := by decide +kernel
  have hequal : equal.Holds whole point := holds_equal_iff.2 hvalue
  have hdifferent : whole.same point ≠ true := Bool.false_ne_true
  have hfresh : "a" ∉ Table.keys ([] : List (String × Json)) := List.not_mem_nil
  obtain ⟨hlist, -⟩ := equal_nested [.item [.null] []]
  obtain ⟨hobject, -⟩ := equal_nested [.member [] "a" [] hfresh]
  obtain ⟨-, -, hreplaced⟩ := equal_nested [.item [] [], .member [] "a" [] hfresh]
  refine ⟨hequal, (hlist whole point).2 ⟨hequal, fun h => Bool.noConfusion h⟩, fun h => ?_,
    fun h => ?_⟩
  · exact hdifferent (((hobject whole point).1 h).2 rfl)
  · exact Bool.noConfusion ((hreplaced isIn (by decide) 1 one hvalue).1 h)

end Query

end BatchFlow
