import BatchFlow.Proofs.Outcome
import BatchFlow.Query.Evaluate

namespace BatchFlow.Query

/-!
# What a statement takes from its scope

A statement sees the operands that it mentions and nothing else of its scope. A filter binds `_` to
the element under evaluation, so what it keeps does not hang on what `_` is outside.

* `Statement.operands` — the names of the operands for which a statement looks in its scope.
* `Scope.Agree` — two scopes in which the same is found under some names.
* `Statement.evaluate_congr`, `Operation.apply_congr` — agreement on the operands is enough.
* `Operation.apply_filter_withCurrent` — a filter does not see the element of a filter around it.
* `evaluate_of_operands` — both for statements, with `_` at every depth of filters.
-/

/-! ### Operands -/

mutual

/-- The operands for which a statement looks in its scope. -/
def Statement.operands : Statement → List String
  | .group _ statements => operandsOfAll statements
  | .binary left _ right _ => left.operands ++ right.operands
  | .unary operand _ _ => operand.operands

/-- The operands of several statements. -/
def operandsOfAll : List Statement → List String
  | [] => []
  | s :: rest => s.operands ++ operandsOfAll rest

/-- The name of an operand, unless it is a literal, and the operands of its operations. -/
def Operand.operands : Operand → List String
  | .literal _ operations => operandsOfChain operations
  | .named name operations => name :: operandsOfChain operations

/-- The operands of several operations. -/
def operandsOfChain : List Operation → List String
  | [] => []
  | o :: rest => o.operands ++ operandsOfChain rest

/-- The operands of a filter. A change has none. -/
def Operation.operands : Operation → List String
  | .change _ => []
  -- inside a filter `_` is the element, whatever the scope says
  | .filter keep => keep.operands.filter (· ≠ currentName)

end

namespace Scope

variable {scope scope' : Scope}

/-- Whether the same is found under some names in two scopes, or nothing in either of them. -/
def Agree (names : List String) (scope scope' : Scope) : Prop :=
  ∀ name ∈ names, scope.lookup name = scope'.lookup name

/-- Scopes that agree on names agree on fewer names. -/
theorem Agree.mono {names names' : List String} (h : Agree names scope scope')
    (hsub : names' ⊆ names) : Agree names' scope scope' :=
  fun name hname => h name (hsub hname)

/-- Inside a filter `_` is the element. -/
@[simp] theorem lookup_withCurrent_self (scope : Scope) (element : Json) :
    (scope.withCurrent element).lookup currentName = .ok element := by
  simp [lookup, withCurrent]

/-- Inside a filter all other names keep their values. -/
theorem lookup_withCurrent_of_ne {name : String} (hne : name ≠ currentName) (scope : Scope)
    (element : Json) : (scope.withCurrent element).lookup name = scope.lookup name := by
  simp [lookup, withCurrent, hne]

/-- Inside a filter the scopes agree on `_` and on all else on which they agree outside. -/
theorem Agree.withCurrent {names : List String}
    (h : Agree (names.filter (· ≠ currentName)) scope scope') (element : Json) :
    Agree names (scope.withCurrent element) (scope'.withCurrent element) := by
  intro name hname
  by_cases hcurrent : name = currentName
  · rw [hcurrent, lookup_withCurrent_self, lookup_withCurrent_self]
  · rw [lookup_withCurrent_of_ne hcurrent, lookup_withCurrent_of_ne hcurrent]
    exact h name (List.mem_filter.2 ⟨hname, by simpa using hcurrent⟩)

/-- Filters do not touch the parameters. -/
@[simp] theorem parameters_foldl_withCurrent (scope : Scope) (elements : List Json) :
    (elements.foldl withCurrent scope).parameters = scope.parameters := by
  induction elements generalizing scope with
  | nil => rfl
  | cons element rest ih => exact ih (scope.withCurrent element)

/-- The element under evaluation is found where a parameter of that name would be. -/
theorem lookup_put (scope : Scope) (element : Json) (name : String) :
    Scope.lookup { parameters := scope.parameters.put currentName element } name =
      (scope.withCurrent element).lookup name := by
  by_cases hcurrent : name = currentName
  · rw [hcurrent, lookup_withCurrent_self]
    simp [lookup, Table.get?_put]
  · simp [lookup, withCurrent, Table.get?_put, hcurrent, Ne.symm hcurrent]

end Scope

/-! ### Agreement is enough -/

section Agreement

variable {scope scope' : Scope}

/-- Statements that have the same results hold together in both scopes. -/
theorem allHold_congr {statements : List Statement}
    (h : ∀ s ∈ statements, s.evaluate scope = s.evaluate scope') :
    allHold statements scope = allHold statements scope' := by
  induction statements with
  | nil => rfl
  | cons s rest ih =>
    obtain ⟨hs, hrest⟩ := List.forall_mem_cons.1 h
    rw [allHold, allHold, hs, ih hrest]

/-- Statements that have the same results hold alternatively in both scopes. -/
theorem anyHolds_congr {statements : List Statement}
    (h : ∀ s ∈ statements, s.evaluate scope = s.evaluate scope') :
    anyHolds statements scope = anyHolds statements scope' := by
  induction statements with
  | nil => rfl
  | cons s rest ih =>
    obtain ⟨hs, hrest⟩ := List.forall_mem_cons.1 h
    rw [anyHolds, anyHolds, hs, ih hrest]

end Agreement

mutual

/-- Scopes that agree on the operands of a statement give it one result. -/
theorem Statement.evaluate_congr : ∀ (s : Statement) {scope scope' : Scope},
    Scope.Agree s.operands scope scope' → s.evaluate scope = s.evaluate scope'
  | .group operator statements, scope, scope', h => by
    have hall := evaluate_congr_all statements h
    cases operator with
    | and => exact allHold_congr hall
    | or => exact anyHolds_congr hall
  | .binary left comparator right negate, scope, scope', h => by
    have hleft := left.resolve_congr (h.mono (List.subset_append_left ..))
    have hright := right.resolve_congr (h.mono (List.subset_append_right ..))
    rw [Statement.evaluate, Statement.evaluate, hleft, hright]
  | .unary operand operator negate, scope, scope', h => by
    rw [Statement.evaluate, Statement.evaluate, operand.resolve_congr h]

/-- Scopes that agree on the operands of statements decide each of them alike. -/
theorem evaluate_congr_all : ∀ (statements : List Statement) {scope scope' : Scope},
    Scope.Agree (operandsOfAll statements) scope scope' →
      ∀ s ∈ statements, s.evaluate scope = s.evaluate scope'
  | [], _, _, _ => List.forall_mem_nil _
  | s :: rest, _, _, h => List.forall_mem_cons.2
    ⟨s.evaluate_congr (h.mono (List.subset_append_left ..)),
      evaluate_congr_all rest (h.mono (List.subset_append_right ..))⟩

/-- Scopes that agree on the operands of an operand give it one value. -/
theorem Operand.resolve_congr : ∀ (o : Operand) {scope scope' : Scope},
    Scope.Agree o.operands scope scope' → o.resolve scope = o.resolve scope'
  | .literal value operations, scope, scope', h => applyAll_congr operations h value
  | .named name operations, scope, scope', h => by
    rw [Operand.resolve, Operand.resolve, h name List.mem_cons_self]
    exact congrArg _ (funext fun value =>
      applyAll_congr operations (h.mono (List.subset_cons_self ..)) value)

/-- Scopes that agree on the operands of operations change a value alike. -/
theorem applyAll_congr : ∀ (operations : List Operation) {scope scope' : Scope},
    Scope.Agree (operandsOfChain operations) scope scope' →
      ∀ value, applyAll operations scope value = applyAll operations scope' value
  | [], _, _, _, _ => rfl
  | o :: rest, scope, scope', h, value => by
    rw [applyAll, applyAll, o.apply_congr (h.mono (List.subset_append_left ..))]
    exact congrArg _ (funext fun value' =>
      applyAll_congr rest (h.mono (List.subset_append_right ..)) value')

/-- Scopes that agree on the operands of an operation change a value alike. -/
theorem Operation.apply_congr : ∀ (o : Operation) {scope scope' : Scope},
    Scope.Agree o.operands scope scope' → ∀ value, o.apply scope value = o.apply scope' value
  | .change c, _, _, _, _ => rfl
  | .filter keep, scope, scope', h, value => by
    have hkeep : ∀ element : Json,
        keep.evaluate (scope.withCurrent element) = keep.evaluate (scope'.withCurrent element) :=
      fun element => keep.evaluate_congr (h.withCurrent element)
    rw [Operation.apply, Operation.apply]
    simp only [hkeep]

end

/-- A filter does not see the element of a filter around it. -/
theorem Operation.apply_filter_withCurrent (keep : Statement) (scope : Scope)
    (element value : Json) : (Operation.filter keep).apply (scope.withCurrent element) value =
      (Operation.filter keep).apply scope value := by
  refine Operation.apply_congr _ (fun name hname => ?_) value
  have hne : name ≠ currentName := by simpa using (List.mem_filter.1 hname).2
  exact Scope.lookup_withCurrent_of_ne hne scope element

/-- A statement has the same result, or the same fault, in any two scopes that agree on its
    operands. However many filters are around it, `_` is the element of the innermost one, and it
    might as well be a parameter of that name. -/
theorem evaluate_of_operands (s : Statement) :
    (∀ scope scope' : Scope,
      (∀ name ∈ s.operands, scope.lookup name = scope'.lookup name) →
        s.evaluate scope = s.evaluate scope') ∧
    ∀ (scope : Scope) (around : List Json) (element : Json),
      s.evaluate ((around.foldl Scope.withCurrent scope).withCurrent element) =
        s.evaluate { parameters := scope.parameters.put currentName element } := by
  refine ⟨fun _ _ h => s.evaluate_congr h, fun scope around element => ?_⟩
  have hinner : ∀ name, ((around.foldl Scope.withCurrent scope).withCurrent element).lookup name =
      Scope.lookup { parameters := scope.parameters.put currentName element } name := by
    intro name
    rw [← Scope.lookup_put, Scope.parameters_foldl_withCurrent]
  exact s.evaluate_congr fun name _ => hinner name

/-- Whether some element of `xs` is not below `least`: the statement takes these two names from its
    scope. What `_` is outside of the filter makes no difference, and no other parameter does. -/
theorem evaluate_of_operands_filter :
    let s : Statement := .unary (.named "xs" [.filter
      (.binary (.named "_" []) .numberGreaterOrEqual (.named "least" []) false)]) .isNotEmpty false
    let parameters : Table String Json := [("xs", .array [.ofInt 1, .ofInt 3]), ("least", .ofInt 2)]
    let scope : Scope := { parameters, current := some (.string "x") }
    let scope' : Scope := { parameters := parameters ++ [("other", .null)] }
    s.operands = ["xs", "least"] ∧ s.evaluate scope = s.evaluate scope' ∧
      (s.evaluate scope).toOption = some true := by
  intro s parameters scope scope'
  have hagree : ∀ name ∈ s.operands, scope.lookup name = scope'.lookup name :=
    List.forall_mem_cons.2 ⟨rfl, List.forall_mem_cons.2 ⟨rfl, List.forall_mem_nil _⟩⟩
  exact ⟨by decide, (evaluate_of_operands s).1 scope scope' hagree, by decide +kernel⟩

end BatchFlow.Query
