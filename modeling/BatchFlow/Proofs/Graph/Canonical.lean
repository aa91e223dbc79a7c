import BatchFlow.Proofs.Graph.Cycle

namespace BatchFlow

/-!
# The topological order is canonical

A graph may have several topological orders. The one that is found is fixed by the order in which
the nodes were declared: each place goes to the first declared node that may stand there, so no
other order comes before it when orders are compared by the declared places of their nodes.

* `Sorts` — what a topological order is.
* `Sorts.acyclic` — a graph that has a topological order has no cycle.
* `place_least` — what the placing of nodes makes of the remaining nodes comes first among all that
  can be made of them.
* `topologicalOrder_canonical` — when there is an order, and which one is found.
-/

/-- What has its place before a member of a list is one of the members before that one. -/
theorem idxOf_lt_idxOf_iff {α : Type} [DecidableEq α] {before after : List α} {a b : α}
    (hnodup : (before ++ b :: after).Nodup) :
    (before ++ b :: after).idxOf a < (before ++ b :: after).idxOf b ↔ a ∈ before := by
  have hnew : b ∉ before := fun hmem =>
    (List.nodup_append.1 hnodup).2.2 b hmem b List.mem_cons_self rfl
  rw [List.idxOf_append_of_notMem hnew, List.idxOf_cons_self]
  constructor
  · intro hlt
    by_contra hmem
    rw [List.idxOf_append_of_notMem hmem] at hlt
    omega
  · intro hmem
    rw [List.idxOf_append_of_mem hmem]
    exact List.idxOf_lt_length_of_mem hmem

namespace Graph

variable {g : Graph}

/-- Whether a list is a topological order: it lists every node once, and every edge goes forward. -/
structure Sorts (g : Graph) (order : List Node) : Prop where
  perm : order.Perm g.nodes
  forward : ∀ e ∈ g.edges, order.idxOf e.source < order.idxOf e.target

/-- No node occurs twice in a topological order. -/
theorem Sorts.nodup {order : List Node} (h : g.Sorts order) : order.Nodup :=
  h.perm.nodup_iff.2 g.nodes_nodup

/-- What is found is a topological order. -/
theorem sorts_of_topologicalOrder {order : List Node} (h : g.topologicalOrder = .ok order) :
    g.Sorts order := by
  have hperm := topologicalOrder_perm h
  have hnodup : order.Nodup := hperm.nodup_iff.2 g.nodes_nodup
  refine ⟨hperm, fun e he => ?_⟩
  obtain ⟨before, after, hsplit⟩ :=
    List.append_of_mem (hperm.mem_iff.2 (g.target_mem e he))
  subst hsplit
  exact (idxOf_lt_idxOf_iff hnodup).2 (source_mem_before h rfl he rfl)

/-- In a topological order the source of an edge stands among the nodes before its target. -/
theorem Sorts.source_mem {order : List Node} (h : g.Sorts order) {before : List Node} {node : Node}
    {after : List Node} (hsplit : order = before ++ node :: after) {e : Edge} (he : e ∈ g.edges)
    (ht : e.target = node) : e.source ∈ before := by
  subst hsplit ht
  exact (idxOf_lt_idxOf_iff h.nodup).1 (h.forward e he)

/-- In a topological order everything to which a node leads stands behind it. -/
theorem Sorts.idxOf_lt {order : List Node} (h : g.Sorts order) {a b : Node}
    (hab : Relation.TransGen g.Flows a b) : order.idxOf a < order.idxOf b := by
  induction hab with
  | single hflow =>
    obtain ⟨e, he, rfl, rfl⟩ := hflow
    exact h.forward e he
  | tail _ hflow ih =>
    obtain ⟨e, he, rfl, rfl⟩ := hflow
    exact ih.trans (h.forward e he)

/-- A graph that has a topological order has no cycle. -/
theorem Sorts.acyclic {order : List Node} (h : g.Sorts order) : g.Acyclic := fun _ hcycle =>
  Nat.lt_irrefl _ (h.idxOf_lt hcycle)

/-- There is a topological order exactly when there is no cycle. -/
theorem exists_topologicalOrder_iff : (∃ order, g.topologicalOrder = .ok order) ↔ g.Acyclic := by
  constructor
  · rintro ⟨order, h⟩
    exact (sorts_of_topologicalOrder h).acyclic
  · exact Acyclic.exists_topologicalOrder

/-! ### The first of all orders -/

/-- What the placing of nodes makes of the remaining ones is all that can be made of them, or it
    comes first: where another order goes another way for the first time, it places a node that was
    ready here as well, and the one that was placed here was declared before that. -/
theorem place_least {turns : Nat} {placed remaining tail other : List Node}
    (h : g.place turns placed remaining = .ok (placed ++ tail))
    (hdeclared : remaining.Pairwise fun a b => g.position a < g.position b)
    (hperm : other.Perm remaining)
    (hforward : ∀ before node after, other = before ++ node :: after →
      ∀ e ∈ g.edges, e.target = node → e.source ∈ placed ++ before) :
    other = tail ∨ List.Lex (· < ·) (tail.map g.position) (other.map g.position) := by
  induction turns generalizing placed remaining tail other with
  | zero =>
    obtain ⟨rfl, htail⟩ | ⟨_, _, hturns, -⟩ := place_cases h
    · exact Or.inl (hperm.eq_nil.trans (List.append_right_eq_self.1 htail).symm)
    · cases hturns
  | succ turns ih =>
    obtain ⟨rfl, htail⟩ | ⟨_, node, hturns, hfind, h⟩ := place_cases h
    · exact Or.inl (hperm.eq_nil.trans (List.append_right_eq_self.1 htail).symm)
    · cases hturns
      have hmem : node ∈ remaining := List.mem_of_find?_eq_some hfind
      obtain ⟨rest, hrest, -⟩ := place_ok h
      obtain rfl : tail = node :: rest := by simpa using hrest
      cases other with
      | nil => exact absurd hmem (by simp [hperm.nil_eq.symm])
      | cons first others =>
        have hfirst : first ∈ remaining := hperm.mem_iff.1 List.mem_cons_self
        have hready : g.isReady placed first = true := isReady_iff.2 fun e he ht => by
          simpa using hforward [] first others rfl e he ht
        -- either both orders go on with the same node, or the other one starts with a later one
        by_cases hsame : first = node
        · subst hsame
          have hothers : others.Perm (remaining.erase first) :=
            (List.cons_perm_iff_perm_erase.1 hperm).2
          have hforward' : ∀ before node after, others = before ++ node :: after →
              ∀ e ∈ g.edges, e.target = node → e.source ∈ placed ++ [first] ++ before := by
            rintro before node after rfl e he ht
            simpa using hforward (first :: before) node after rfl e he ht
          have hleast := ih (hrest ▸ h) (hdeclared.sublist List.erase_sublist) hothers hforward'
          exact hleast.imp (congrArg (first :: ·)) List.Lex.cons
        · exact Or.inr (List.Lex.rel (position_lt_of_find? hdeclared hfind hfirst hready hsame))

/-- There is a topological order exactly when there is no cycle. The one that is found lists the
    declared nodes once each, every edge goes forward in it, and of all orders for which this holds
    it comes first when they are compared node by node by the declared places. -/
theorem topologicalOrder_canonical (g : Graph) :
    ((∃ order, g.topologicalOrder = .ok order) ↔ g.Acyclic) ∧
    ∀ order, g.topologicalOrder = .ok order → g.Sorts order ∧
      ∀ other, g.Sorts other → other ≠ order →
        List.Lex (· < ·) (order.map g.position) (other.map g.position) := by
  refine ⟨exists_topologicalOrder_iff, fun order h => ⟨sorts_of_topologicalOrder h, ?_⟩⟩
  intro other hother hne
  refine (place_least (topologicalOrder_eq_ok.1 h) g.pairwise_position hother.perm ?_).resolve_left
    hne
  rintro before node after hsplit e he ht
  exact hother.source_mem hsplit he ht

-- `b` was declared first, and `c` before the step that leads to it
example : (Graph.ofEdges [.step "b", .step "c", .input "x", .step "a"]
    [⟨.step "a", .step "c", .data⟩, ⟨.step "a", .step "c", .control⟩,
      ⟨.input "x", .step "a", .data⟩] >>= topologicalOrder).toOption =
    some [.step "b", .input "x", .step "a", .step "c"] := by
  decide +kernel

end Graph

end BatchFlow
