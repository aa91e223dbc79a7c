import BatchFlow.Proofs.Graph.Placing

namespace BatchFlow.Graph

/-!
# The topological order is one

* `place_cases` — one turn of the placing of nodes.
* `place_ok` — what the placing of nodes leaves behind when it succeeds.
* `topologicalOrder_eq_ok`, `topologicalOrder_eq_error` — the order that is found, and the node that
  is reported, are those of the placing.
* `topologicalOrder_perm` — the order lists every node once.
* `source_mem_before` — every edge goes forward: its source stands before its target.
-/

variable {g : Graph}

/-- A placing that succeeds is done when no node remains, or it places the first one that is
    ready. -/
theorem place_cases {turns : Nat} {placed remaining order : List Node}
    (h : g.place turns placed remaining = .ok order) :
    (remaining = [] ∧ order = placed) ∨ ∃ turns' node, turns = turns' + 1 ∧
      remaining.find? (g.isReady placed) = some node ∧
        g.place turns' (placed ++ [node]) (remaining.erase node) = .ok order := by
  unfold place at h
  split at h
  · rename_i node turns' hfind
    exact Or.inr ⟨turns', node, rfl, hfind, h⟩
  · split at h
    · cases h
      exact Or.inl ⟨rfl, rfl⟩
    · cases h

/-- The nodes placed by a successful placing are those that remained, and all edges into one of
    them come from nodes placed before it. -/
theorem place_ok {turns : Nat} {placed remaining order : List Node}
    (h : g.place turns placed remaining = .ok order) :
    ∃ tail, order = placed ++ tail ∧ tail.Perm remaining ∧
      ∀ before node after, tail = before ++ node :: after →
        ∀ e ∈ g.edges, e.target = node → e.source ∈ placed ++ before := by
  induction turns generalizing placed remaining with
  | zero =>
    obtain ⟨rfl, rfl⟩ | ⟨_, _, hturns, -⟩ := place_cases h
    · exact ⟨[], by simp, List.Perm.refl _, fun before _ _ he => by simp at he⟩
    · cases hturns
  | succ turns ih =>
    obtain ⟨rfl, rfl⟩ | ⟨_, node, hturns, hfind, h⟩ := place_cases h
    · exact ⟨[], by simp, List.Perm.refl _, fun before _ _ he => by simp at he⟩
    · cases hturns
      have hmem : node ∈ remaining := List.mem_of_find?_eq_some hfind
      have hready : g.isReady placed node := by simpa using List.find?_some hfind
      -- `node` was ready when it was placed, so its sources are among those placed before; for the
      -- nodes of `tail` the induction hypothesis counts `node` among them
      obtain ⟨tail, rfl, hperm, hforward⟩ := ih h
      refine ⟨node :: tail, by simp, ?_, ?_⟩
      · exact ((List.perm_cons node).2 hperm).trans (List.perm_cons_erase hmem).symm
      · intro before other after he e hmem_e ht
        cases before with
        | nil =>
          obtain ⟨rfl, -⟩ : node = other ∧ tail = after := by simpa using he
          simpa using isReady_iff.1 hready e hmem_e ht
        | cons first before =>
          obtain ⟨rfl, htail⟩ : node = first ∧ tail = before ++ other :: after := by
            simpa using he
          have := hforward before other after htail e hmem_e ht
          simpa using this

/-- An order is found when the placing of nodes succeeds. -/
theorem topologicalOrder_eq_ok {order : List Node} :
    g.topologicalOrder = .ok order ↔ g.place g.nodes.length [] g.nodes = .ok order := by
  rw [topologicalOrder_eq_place]
  cases g.place g.nodes.length [] g.nodes <;> simp [Except.mapError]

/-- When no order is found, the node at which the placing of nodes stops is reported. -/
theorem topologicalOrder_eq_error {fault : GraphFault} : g.topologicalOrder = .error fault ↔
    ∃ stuck, fault = .cycle stuck ∧ g.place g.nodes.length [] g.nodes = .error stuck := by
  rw [topologicalOrder_eq_place]
  cases g.place g.nodes.length [] g.nodes <;> simp [Except.mapError, eq_comm]

/-- The order lists every node once. -/
theorem topologicalOrder_perm {order : List Node} (h : g.topologicalOrder = .ok order) :
    order.Perm g.nodes := by
  obtain ⟨tail, rfl, hperm, -⟩ := place_ok (topologicalOrder_eq_ok.1 h)
  simpa using hperm

/-- Every edge goes forward. -/
theorem source_mem_before {order : List Node} (h : g.topologicalOrder = .ok order)
    {before : List Node} {node : Node} {after : List Node} (ho : order = before ++ node :: after)
    {e : Edge} (he : e ∈ g.edges) (ht : e.target = node) : e.source ∈ before := by
  obtain ⟨tail, rfl, -, hforward⟩ := place_ok (topologicalOrder_eq_ok.1 h)
  simpa using hforward before node after (by simpa using ho) e he ht

end BatchFlow.Graph
