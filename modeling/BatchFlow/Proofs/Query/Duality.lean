import BatchFlow.Proofs.Outcome
import BatchFlow.Query.Evaluate

namespace BatchFlow.Query

/-!
# Duality of statements

Groups cannot be negated. A statement is negated by its dual, in which `and` and `or` are exchanged
and comparisons and checks are negated; operands stay as they are. A group and its dual stop at the
same place, so what is a fault of one is a fault of the other.

* `Statement.dual`, `Statement.dual_dual` — the dual of a statement, and its dual.
* `Statement.nested` — induction over the statements inside a group.
* `anyHolds_dualAll`, `allHold_dualAll` — groups of duals.
* `evaluate_dual` — the dual has the opposite result, or the same fault.
-/

/-- The other operator. -/
def GroupOperator.dual : GroupOperator → GroupOperator
  | .and => .or
  | .or => .and

mutual

/-- The statement that holds when a statement does not. -/
def Statement.dual : Statement → Statement
  | .group operator statements => .group operator.dual (dualAll statements)
  | .binary left comparator right negate => .binary left comparator right (!negate)
  | .unary operand operator negate => .unary operand operator (!negate)

/-- The duals of statements, one by one. -/
def dualAll : List Statement → List Statement
  | [] => []
  | s :: rest => s.dual :: dualAll rest

end

/-- The duals of a list are those of its statements. -/
theorem dualAll_eq (statements : List Statement) : dualAll statements = statements.map .dual := by
  induction statements with
  | nil => rfl
  | cons s rest ih => rw [dualAll, ih, List.map_cons]

/-- What holds of a group as soon as it holds of its statements, and of all comparisons and checks,
    holds of all statements. -/
@[elab_as_elim]
theorem Statement.nested {P : Statement → Prop}
    (group : ∀ operator statements, (∀ s ∈ statements, P s) → P (.group operator statements))
    (binary : ∀ left comparator right negate, P (.binary left comparator right negate))
    (unary : ∀ operand operator negate, P (.unary operand operator negate)) : ∀ s, P s
  | .group operator statements =>
    group operator statements fun s _ => Statement.nested group binary unary s
  | .binary left comparator right negate => binary left comparator right negate
  | .unary operand operator negate => unary operand operator negate

/-- There are two operators. -/
theorem GroupOperator.dual_dual (operator : GroupOperator) : operator.dual.dual = operator := by
  cases operator <;> rfl

/-- The dual of the dual is the statement itself. -/
theorem Statement.dual_dual (s : Statement) : s.dual.dual = s := by
  induction s using Statement.nested with
  | group operator statements ih =>
    rw [dual, dual, operator.dual_dual, dualAll_eq, dualAll_eq, List.map_map]
    exact congrArg _ ((List.map_congr_left ih).trans (List.map_id' statements))
  | binary left comparator right negate => rw [dual, dual, Bool.not_not]
  | unary operand operator negate => rw [dual, dual, Bool.not_not]

/-! ### Groups -/

section Groups

variable {statements : List Statement} {scope : Scope}

/-- Some dual holds where not all statements do. -/
theorem anyHolds_dualAll
    (h : ∀ s ∈ statements, s.dual.evaluate scope = (s.evaluate scope).map (!·)) :
    anyHolds (dualAll statements) scope = (allHold statements scope).map (!·) := by
  induction statements with
  | nil => rfl
  | cons s rest ih =>
    obtain ⟨hs, hrest⟩ := List.forall_mem_cons.1 h
    rw [dualAll, anyHolds, allHold, hs]
    cases s.evaluate scope with
    | error fault => rfl
    | ok held =>
      cases held with
      | true => exact ih hrest
      | false => rfl

/-- All duals hold where no statement does. -/
theorem allHold_dualAll
    (h : ∀ s ∈ statements, s.dual.evaluate scope = (s.evaluate scope).map (!·)) :
    allHold (dualAll statements) scope = (anyHolds statements scope).map (!·) := by
  induction statements with
  | nil => rfl
  | cons s rest ih =>
    obtain ⟨hs, hrest⟩ := List.forall_mem_cons.1 h
    rw [dualAll, allHold, anyHolds, hs]
    cases s.evaluate scope with
    | error fault => rfl
    | ok held =>
      cases held with
      | true => rfl
      | false => exact ih hrest

end Groups

/-! ### Statements -/

/-- A test that is negated once more has the opposite result, or the same fault. -/
theorem bind_bne_not (test : Except QueryFault Bool) (negate : Bool) :
    (test >>= fun held => pure (held != !negate)) =
      (test >>= fun held => pure (held != negate)).map (!·) := by
  cases test with
  | error fault => rfl
  | ok held => cases held <;> cases negate <;> rfl

/-- The dual of a statement has the opposite result where the statement has a result, and the same
    fault where it has none. -/
theorem evaluate_dual (s : Statement) (scope : Scope) :
    s.dual.evaluate scope = (s.evaluate scope).map (!·) := by
  induction s using Statement.nested with
  | group operator statements ih =>
    cases operator with
    | and => exact anyHolds_dualAll ih
    | or => exact allHold_dualAll ih
  | binary left comparator right negate =>
    rw [Statement.dual, Statement.evaluate, Statement.evaluate]
    simp only [map_bind, bind_bne_not]
  | unary operand operator negate =>
    rw [Statement.dual, Statement.evaluate, Statement.evaluate]
    simp only [map_bind, bind_bne_not]

end BatchFlow.Query
