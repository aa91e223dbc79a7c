import BatchFlow.Proofs.Graph.Canonical

namespace BatchFlow.Graph

/-!
# Nodes that have no place in an order

When a graph has no topological order, the placing of nodes stops at nodes that wait for each other.
These are not only the nodes of cycles: what stands behind a cycle waits for it as well, and the
node that is reported is the first declared one of them all.

* `Blocked`, `FirstBlocked` — whether a node lies on a cycle or behind one, and whether it is the
  first declared one of those.
* `Placing` — what holds while nodes are placed: none of the placed ones is blocked.
* `Placing.blocked` — when no node is ready, all that remain are blocked.
* `topologicalOrder_eq_error_iff` — which node is reported.
* `blamed_iff` — when this is a node of a cycle.
-/

variable {g : Graph}

/-- Whether a cycle leads to a node, so that the node lies on the cycle or behind it. -/
def Blocked (g : Graph) (node : Node) : Prop :=
  ∃ c, Relation.TransGen g.Flows c c ∧ Relation.ReflTransGen g.Flows c node

/-- Whether a node is blocked, and no blocked node was declared before it. -/
def FirstBlocked (g : Graph) (node : Node) : Prop :=
  g.Blocked node ∧ ∀ other, g.Blocked other → g.position node ≤ g.position other

/-- A node on a cycle is blocked. -/
theorem blocked_of_transGen {node : Node} (h : Relation.TransGen g.Flows node node) :
    g.Blocked node := ⟨node, h, .refl⟩

/-- What stands behind a blocked node is blocked. -/
theorem Blocked.next {a b : Node} (h : g.Blocked a) (hflow : g.Flows a b) : g.Blocked b := by
  obtain ⟨c, hcycle, hlead⟩ := h
  exact ⟨c, hcycle, hlead.tail hflow⟩

/-- A blocked node stands behind a blocked node. -/
theorem Blocked.exists_flows {node : Node} (h : g.Blocked node) :
    ∃ a, g.Flows a node ∧ g.Blocked a := by
  obtain ⟨c, hcycle, hlead⟩ := h
  -- the way from the cycle to the node is not empty once it goes round the cycle first
  have hnode : Relation.TransGen g.Flows c node := hcycle.trans_left hlead
  obtain ⟨a, hca, hflow⟩ := Relation.TransGen.tail'_iff.1 hnode
  exact ⟨a, hflow, c, hcycle, hca⟩

/-- A blocked node is declared, as an edge leads to it. -/
theorem Blocked.mem {node : Node} (h : g.Blocked node) : node ∈ g.nodes := by
  obtain ⟨a, hflow, -⟩ := h.exists_flows
  exact hflow.target_mem

/-- One node only is the first declared one of the blocked nodes. -/
theorem FirstBlocked.unique {node node' : Node} (h : g.FirstBlocked node)
    (h' : g.FirstBlocked node') : node = node' := by
  have hposition : g.position node = g.position node' :=
    Nat.le_antisymm (h.2 node' h'.1) (h'.2 node h.1)
  exact (List.idxOf_inj h.1.mem).1 hposition

/-! ### The placing of nodes -/

/-- What holds while nodes are placed. -/
structure Placing (g : Graph) (placed remaining : List Node) : Prop where
  sublist : remaining.Sublist g.nodes
  all : ∀ node ∈ g.nodes, node ∈ placed ∨ node ∈ remaining
  free : ∀ node ∈ placed, ¬ g.Blocked node

/-- Before anything is placed every node remains. -/
theorem Placing.start (g : Graph) : g.Placing [] g.nodes where
  sublist := List.Sublist.refl _
  all := fun _ => Or.inr
  free := List.forall_mem_nil _

/-- A node that is ready is not blocked, because the nodes before it are not. -/
theorem Placing.step {placed remaining : List Node} {node : Node} (h : g.Placing placed remaining)
    (hfind : remaining.find? (g.isReady placed) = some node) :
    g.Placing (placed ++ [node]) (remaining.erase node) where
  sublist := List.erase_sublist.trans h.sublist
  all := by
    intro a ha
    rcases h.all a ha with hplaced | hremains
    · exact Or.inl (List.mem_append_left _ hplaced)
    · by_cases he : a = node
      · exact Or.inl (by simp [he])
      · exact Or.inr ((List.mem_erase_of_ne he).2 hremains)
  free := by
    refine List.forall_mem_append.2 ⟨h.free, List.forall_mem_singleton.2 fun hblocked => ?_⟩
    have hready : g.isReady placed node := by simpa using List.find?_some hfind
    obtain ⟨a, ⟨e, he, rfl, htarget⟩, ha⟩ := hblocked.exists_flows
    exact h.free e.source (isReady_iff.1 hready e he htarget) ha

/-- When no node is ready, all that remain are blocked: of those that are not, one has no edge from
    another, and neither has it one from a blocked node, so it would be ready. -/
theorem Placing.blocked {placed remaining : List Node} (h : g.Placing placed remaining)
    (hfind : remaining.find? (g.isReady placed) = none) : ∀ node ∈ remaining, g.Blocked node := by
  classical
  by_contra hall
  obtain ⟨left, hleft, hfree⟩ : ∃ node ∈ remaining, ¬ g.Blocked node := by
    simpa only [not_forall, exists_prop] using hall
  have hmem : ∀ a, a ∈ remaining.filter (fun a => ¬ g.Blocked a) ↔
      a ∈ remaining ∧ ¬ g.Blocked a := fun a => by simp
  have hne := List.ne_nil_of_mem ((hmem left).2 ⟨hleft, hfree⟩)
  -- of the nodes that remain without being blocked, one has no edge from another of them
  obtain ⟨node, hnode, hfirst⟩ : ∃ node ∈ remaining.filter (fun a => ¬ g.Blocked a),
      ∀ a ∈ remaining.filter (fun a => ¬ g.Blocked a), ¬ g.Flows a node :=
    exists_first_of_free hne fun a ha hcycle => ((hmem a).1 ha).2 (blocked_of_transGen hcycle)
  obtain ⟨hremains, hunblocked⟩ := (hmem node).1 hnode
  have hready : g.isReady placed node := by
    refine isReady_iff.2 fun e he htarget => ?_
    have hflow : g.Flows e.source node := ⟨e, he, rfl, htarget⟩
    -- an edge into it would come from a node that is not blocked either
    refine (h.all e.source (g.source_mem e he)).resolve_right fun hsource => ?_
    have hsourceFree : ¬ g.Blocked e.source := fun hblocked => hunblocked (hblocked.next hflow)
    exact hfirst e.source ((hmem e.source).2 ⟨hsource, hsourceFree⟩) hflow
  exact List.find?_eq_none.1 hfind node hremains hready

/-- A placing that has turns for all nodes fails at the first of some nodes that are all blocked. -/
theorem Placing.halts {turns : Nat} {placed remaining : List Node} {stuck : Node}
    (h : g.Placing placed remaining) (hturns : remaining.length ≤ turns)
    (herror : g.place turns placed remaining = .error stuck) :
    ∃ placed' rest, g.Placing placed' (stuck :: rest) ∧ g.Blocked stuck := by
  induction turns generalizing placed remaining with
  | zero =>
    obtain rfl := List.eq_nil_of_length_eq_zero (Nat.le_zero.1 hturns)
    cases herror
  | succ turns ih =>
    unfold place at herror
    split at herror
    · rename_i node turns' hfind heq
      cases heq
      refine ih (h.step hfind) ?_ herror
      -- there are enough turns, as each of them places a node
      rw [List.length_erase_of_mem (List.mem_of_find?_eq_some hfind)]
      omega
    · rename_i hnone
      have hfind : remaining.find? (g.isReady placed) = none :=
        Option.eq_none_iff_forall_ne_some.2 fun found hfound => hnone found turns hfound rfl
      split at herror
      · cases herror
      · cases herror
        exact ⟨placed, _, h, h.blocked hfind _ List.mem_cons_self⟩

/-! ### The node that is reported -/

/-- The node that is reported is the first declared one of the blocked nodes. -/
theorem firstBlocked_of_place {stuck : Node}
    (h : g.place g.nodes.length [] g.nodes = .error stuck) : g.FirstBlocked stuck := by
  obtain ⟨placed, rest, hplacing, hstuck⟩ :=
    (Placing.start g).halts (Nat.le_refl g.nodes.length) h
  refine ⟨hstuck, fun other hother => ?_⟩
  have hremains : other ∈ stuck :: rest :=
    (hplacing.all other hother.mem).resolve_left fun hplaced => hplacing.free other hplaced hother
  have hdeclared := List.pairwise_cons.1 (g.pairwise_position.sublist hplacing.sublist)
  rcases List.mem_cons.1 hremains with rfl | hrest
  · exact Nat.le_refl _
  · exact Nat.le_of_lt (hdeclared.1 other hrest)

/-- The fault names the first declared node that is blocked. -/
theorem topologicalOrder_eq_error_iff {fault : GraphFault} :
    g.topologicalOrder = .error fault ↔ ∃ node, fault = .cycle node ∧ g.FirstBlocked node := by
  have hreported : ∀ {fault}, g.topologicalOrder = .error fault →
      ∃ node, fault = .cycle node ∧ g.FirstBlocked node := by
    intro fault h
    obtain ⟨stuck, rfl, hplace⟩ := topologicalOrder_eq_error.1 h
    exact ⟨stuck, rfl, firstBlocked_of_place hplace⟩
  constructor
  · exact hreported
  · rintro ⟨node, rfl, hfirst⟩
    cases horder : g.topologicalOrder with
    | ok order =>
      obtain ⟨c, hcycle, -⟩ := hfirst.1
      exact absurd hcycle ((sorts_of_topologicalOrder horder).acyclic c)
    | error fault =>
      obtain ⟨node', rfl, hfirst'⟩ := hreported horder
      rw [hfirst.unique hfirst']

/-- The node that is reported when there is no topological order is the first declared one of those
    that lie on a cycle or behind one. So it is sure to lie on a cycle only when every node behind a
    cycle was declared after some node of a cycle. -/
theorem blamed_iff (g : Graph) :
    (∀ fault, g.topologicalOrder = .error fault ↔
      ∃ node, fault = .cycle node ∧ g.FirstBlocked node) ∧
    ((∀ node, g.topologicalOrder = .error (.cycle node) → Relation.TransGen g.Flows node node) ↔
      ∀ node, g.Blocked node →
        ∃ c, Relation.TransGen g.Flows c c ∧ g.position c ≤ g.position node) := by
  refine ⟨fun _ => topologicalOrder_eq_error_iff, ?_, ?_⟩
  · intro hcycle node hblocked
    cases horder : g.topologicalOrder with
    | ok order =>
      obtain ⟨c, hc, -⟩ := hblocked
      exact absurd hc ((sorts_of_topologicalOrder horder).acyclic c)
    | error fault =>
      obtain ⟨first, rfl, hfirst⟩ := topologicalOrder_eq_error_iff.1 horder
      exact ⟨first, hcycle first horder, hfirst.2 node hblocked⟩
  · intro hdeclared node horder
    obtain ⟨_, heq, hfirst⟩ := topologicalOrder_eq_error_iff.1 horder
    cases heq
    obtain ⟨c, hcycle, hposition⟩ := hdeclared node hfirst.1
    -- a node on a cycle that comes as early is the first blocked one itself
    have hc : g.FirstBlocked c := ⟨blocked_of_transGen hcycle, fun other hother =>
      hposition.trans (hfirst.2 other hother)⟩
    exact hfirst.unique hc ▸ hcycle

/-- A step that only waits for a cycle is reported when it was declared before the cycle. -/
theorem blamed_behind_cycle : ∃ g : Graph,
    ofEdges [.step "a", .step "b"]
      [⟨.step "b", .step "a", .data⟩, ⟨.step "b", .step "b", .data⟩] = .ok g ∧
    g.topologicalOrder = .error (.cycle (.step "a")) ∧ g.FirstBlocked (.step "a") ∧
    ¬ Relation.TransGen g.Flows (.step "a") (.step "a") := by
  obtain ⟨g, hgraph, hedges, horder⟩ : ∃ g : Graph,
      ofEdges [.step "a", .step "b"]
        [⟨.step "b", .step "a", .data⟩, ⟨.step "b", .step "b", .data⟩] = .ok g ∧
      (∀ e ∈ g.edges, e.source = .step "b") ∧
      g.topologicalOrder = .error (.cycle (.step "a")) := ⟨_, rfl, by decide, rfl⟩
  obtain ⟨node, heq, hfirst⟩ := ((blamed_iff g).1 _).1 horder
  cases heq
  refine ⟨g, hgraph, horder, hfirst, fun hcycle => ?_⟩
  -- no edge leads out of `a`
  obtain ⟨_, ⟨e, he, hsource, -⟩, -⟩ := Relation.TransGen.head'_iff.1 hcycle
  exact absurd ((hedges e he).symm.trans hsource) (by decide)

end BatchFlow.Graph
