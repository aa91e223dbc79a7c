import BatchFlow.Proofs.Selector.Grammar

namespace BatchFlow

/-!
# Names in selectors

* `Selector.names` — the names that a selector mentions.
* `Selector.isName_of_parse` — a selector that was read mentions names only.
-/

namespace Selector

/-- The names that a selector mentions. -/
def names : Selector → List String
  | .input name => [name]
  | .output owner property => [owner, property]
  | .allOutputs owner => [owner]
  | .step name => [name]

/-- The names in a selector are among its parts, behind the first. -/
theorem mem_parts_of_mem_names {s : Selector} {name : String} (h : name ∈ s.names) :
    name ∈ s.parts.drop 1 := by
  cases s with
  | input name => exact h
  | output owner property => exact h
  | allOutputs owner => exact List.mem_cons.2 (Or.inl (List.mem_singleton.1 h))
  | step name => exact h

/-- A selector that was read mentions names only. -/
theorem isName_of_parse {raw : String} {s : Selector} (h : parse raw = .ok s) {name : String}
    (hname : name ∈ s.names) : isName name := by
  obtain ⟨-, hparts, -⟩ := spells_iff.1 (parse_eq_ok_iff.1 h)
  exact isName_iff.2 (hparts name (mem_parts_of_mem_names hname))

/-- The step to which a selector points has one of the names in it. -/
theorem mem_names_of_stepName? {s : Selector} {name : String} (h : s.stepName? = some name) :
    name ∈ s.names := by
  cases s with
  | input _ => cases h
  | output owner property => cases h; exact List.mem_cons_self
  | allOutputs owner => cases h; exact List.mem_cons_self
  | step name => cases h; exact List.mem_cons_self

/-- A selector points at the node of a step when it names the step. -/
theorem node_eq_step_iff {s : Selector} {name : String} :
    s.node = .step name ↔ s.stepName? = some name := by
  cases s <;> simp [node, stepName?]

end Selector

end BatchFlow
