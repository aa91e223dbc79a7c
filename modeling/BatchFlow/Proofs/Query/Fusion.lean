import BatchFlow.Proofs.Outcome
import BatchFlow.Query.Evaluate

namespace BatchFlow.Query

/-!
# Filters in a row

Two filters in a row keep what one filter with both statements keeps. The faults need not be the
same: two filters ask the first statement of all elements before they ask the second one of any, and
one filter asks both of an element before it goes on. But where one way has no fault the other has
none, since both ask the first statement of all elements and the second one of those that pass.

* `Statement.Decided`, `Statement.keeps` — whether a filter has a result for an element, and which.
* `apply_filter_eq_ok` — what a filter makes of a value.
* `decided_and`, `keeps_and` — an element under two statements.
* `apply_filter_twice` — a filter changes nothing the second time.
* `filters_fuse` — two filters are one.
-/

namespace Statement

/-- Whether there is no fault when a filter asks for an element. -/
def Decided (s : Statement) (scope : Scope) (element : Json) : Prop :=
  ∃ held, s.evaluate (scope.withCurrent element) = .ok held

/-- Whether a filter keeps an element. -/
def keeps (s : Statement) (scope : Scope) (element : Json) : Bool :=
  passes (s.evaluate (scope.withCurrent element))

end Statement

/-- Faults of data are passed on, so what is found is found in the data. -/
theorem ofData_eq_ok {α : Type} {x : Except Vision.DataFault α} {a : α} :
    ofData x = .ok a ↔ x = .ok a := by
  cases x <;> simp [ofData]

/-- A filter succeeds on a list all of whose elements are decided, and keeps those that pass. -/
theorem apply_filter_eq_ok {s : Statement} {scope : Scope} {value result : Json} :
    (Operation.filter s).apply scope value = .ok result ↔
      ∃ items, value = .array items ∧ (∀ element ∈ items, s.Decided scope element) ∧
        result = .array (items.filter (s.keeps scope)) := by
  rw [Operation.apply, bind_eq_ok]
  constructor
  · rintro ⟨items, hitems, h⟩
    obtain ⟨kept, hkept, h⟩ := bind_eq_ok.1 h
    cases pure_eq_ok.1 h
    obtain ⟨hdecided, rfl⟩ := filterM_eq_ok.1 hkept
    exact ⟨items, Vision.asArray_eq_ok_iff.1 (ofData_eq_ok.1 hitems), hdecided, rfl⟩
  · rintro ⟨items, hitems, hdecided, rfl⟩
    exact ⟨items, ofData_eq_ok.2 (Vision.asArray_eq_ok_iff.2 hitems),
      bind_eq_ok.2 ⟨_, filterM_eq_ok.2 ⟨hdecided, rfl⟩, rfl⟩⟩

/-- One operation is applied as such. -/
theorem applyAll_single (o : Operation) (scope : Scope) (value : Json) :
    applyAll [o] scope value = o.apply scope value := by
  rw [applyAll]
  cases o.apply scope value <;> rfl

/-- The second operation is applied to what the first one gives. -/
theorem applyAll_pair (o o' : Operation) (scope : Scope) (value : Json) :
    applyAll [o, o'] scope value = o.apply scope value >>= o'.apply scope := by
  rw [applyAll]
  exact congrArg _ (funext fun value' => applyAll_single o' scope value')

/-! ### Two statements -/

section Both

variable {p q : Statement} {scope : Scope} {element : Json} {value result : Json}

/-- Of two statements the second one is asked when the first one holds. -/
theorem evaluate_and (p q : Statement) (scope : Scope) :
    (Statement.group .and [p, q]).evaluate scope =
      p.evaluate scope >>= fun held => if held then q.evaluate scope else .ok false := by
  rw [Statement.evaluate, allHold, allHold, allHold]
  refine congrArg _ (funext fun held => ?_)
  cases held with
  | false => rfl
  | true =>
    cases q.evaluate scope with
    | error fault => rfl
    | ok held' => cases held' <;> rfl

/-- Two statements are decided in a group when the first one is, and the second one wherever the
    first one holds. -/
theorem decided_and : (Statement.group .and [p, q]).Decided scope element ↔
    p.Decided scope element ∧ (p.keeps scope element → q.Decided scope element) := by
  unfold Statement.Decided Statement.keeps
  rw [evaluate_and]
  cases p.evaluate (scope.withCurrent element) with
  | error fault => simp [bind, Except.bind]
  | ok held => cases held <;> simp [bind, Except.bind, passes, Except.toOption]

/-- A group keeps the elements that both statements keep. -/
theorem keeps_and : (Statement.group .and [p, q]).keeps scope =
    fun element => p.keeps scope element && q.keeps scope element := by
  funext element
  unfold Statement.keeps
  rw [evaluate_and]
  cases p.evaluate (scope.withCurrent element) with
  | error fault => rfl
  | ok held => cases held <;> rfl

/-- Two filters succeed on a list when the first statement is decided for all elements and the
    second one for those that pass, and keep the elements that pass both. -/
theorem applyAll_filters_eq_ok :
    applyAll [.filter p, .filter q] scope value = .ok result ↔
      ∃ items, value = .array items ∧
        (∀ element ∈ items, p.Decided scope element ∧
          (p.keeps scope element → q.Decided scope element)) ∧
        result = .array (items.filter fun e => p.keeps scope e && q.keeps scope e) := by
  rw [applyAll_pair, bind_eq_ok]
  constructor
  · rintro ⟨between, hp, hq⟩
    obtain ⟨items, hitems, hdecided, rfl⟩ := apply_filter_eq_ok.1 hp
    obtain ⟨kept, hkept, hdecided', rfl⟩ := apply_filter_eq_ok.1 hq
    cases hkept
    -- the second filter asks for the elements that the first one keeps, and for no others
    refine ⟨items, hitems, fun element he => ⟨hdecided element he, fun hkeeps => ?_⟩, ?_⟩
    · exact hdecided' element (List.mem_filter.2 ⟨he, hkeeps⟩)
    · rw [List.filter_filter]
      simp only [Bool.and_comm]
  · rintro ⟨items, hitems, hdecided, rfl⟩
    refine ⟨_, apply_filter_eq_ok.2 ⟨items, hitems, fun e he => (hdecided e he).1, rfl⟩,
      apply_filter_eq_ok.2 ⟨_, rfl, fun e he => ?_, ?_⟩⟩
    · obtain ⟨he, hkeeps⟩ := List.mem_filter.1 he
      exact (hdecided e he).2 hkeeps
    · rw [List.filter_filter]
      simp only [Bool.and_comm]

end Both

/-- A filter changes nothing the second time. -/
theorem apply_filter_twice (p : Statement) (scope : Scope) (value : Json) :
    applyAll [.filter p, .filter p] scope value = applyAll [.filter p] scope value := by
  rw [applyAll_pair, applyAll_single]
  cases hfirst : (Operation.filter p).apply scope value with
  | error fault => rfl
  | ok kept =>
    obtain ⟨items, -, hdecided, rfl⟩ := apply_filter_eq_ok.1 hfirst
    refine apply_filter_eq_ok.2 ⟨_, rfl, fun e he => hdecided e (List.mem_of_mem_filter he), ?_⟩
    rw [List.filter_filter]
    simp only [Bool.and_self]

/-- Two filters in a row succeed exactly when one filter with both statements does, with the same
    result: the elements of the list for which both statements hold, in their order. A filter that
    is repeated changes nothing, and fails as it does alone. -/
theorem filters_fuse (p q : Statement) (scope : Scope) (value : Json) :
    (∀ result, applyAll [.filter p, .filter q] scope value = .ok result ↔
      applyAll [.filter (.group .and [p, q])] scope value = .ok result) ∧
    (∀ result, applyAll [.filter p, .filter q] scope value = .ok result →
      ∃ items kept, value = .array items ∧ result = .array kept ∧ kept.Sublist items ∧
        ∀ element ∈ items, element ∈ kept ↔
          p.evaluate (scope.withCurrent element) = .ok true ∧
            q.evaluate (scope.withCurrent element) = .ok true) ∧
    applyAll [.filter p, .filter p] scope value = applyAll [.filter p] scope value := by
  refine ⟨fun result => ?_, fun result h => ?_, apply_filter_twice p scope value⟩
  · rw [applyAll_single, applyAll_filters_eq_ok, apply_filter_eq_ok]
    simp only [decided_and, keeps_and]
  · obtain ⟨items, hitems, -, rfl⟩ := applyAll_filters_eq_ok.1 h
    refine ⟨items, _, hitems, rfl, List.filter_sublist, fun element he => ?_⟩
    rw [List.mem_filter, and_iff_right he, Bool.and_eq_true]
    exact and_congr passes_iff passes_iff

/-- The second statement is not decided for the text `x`, which the first one leaves out: the two
    filters do not fail, and so one filter with both does not. -/
theorem filters_fuse_undecided :
    let known : Statement :=
      .binary (.named "_" []) .isIn (.literal (.array [.ofInt 1, .ofInt 3]) []) false
    let high : Statement :=
      .binary (.named "_" []) .numberGreaterOrEqual (.literal (.ofInt 2) []) false
    let scope : Scope := { parameters := [] }
    let value : Json := .array [.ofInt 1, .string "x", .ofInt 3]
    ¬ high.Decided scope (.string "x") ∧
      applyAll [.filter known, .filter high] scope value = .ok (.array [.ofInt 3]) ∧
      applyAll [.filter (.group .and [known, high])] scope value = .ok (.array [.ofInt 3]) := by
  intro known high scope value
  have hfilters : applyAll [.filter known, .filter high] scope value =
      .ok (.array [.ofInt 3]) := toOption_eq_some.1 (by decide +kernel)
  exact ⟨nofun, hfilters, ((filters_fuse known high scope value).1 _).1 hfilters⟩

end BatchFlow.Query
