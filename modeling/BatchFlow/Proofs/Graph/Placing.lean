import BatchFlow.Graph.Order
import BatchFlow.Proofs.Table
import Mathlib.Data.List.Nodup
import Mathlib.Data.List.Perm.Subperm

namespace BatchFlow.Graph

/-!
# Counting down places the first node that is ready

Whether a node can be placed is a matter of counters and of a bag of positions in
`Graph.topologicalOrder`. Here it is said without them: a node is ready when all edges into it come
from nodes that have been placed, and of the remaining nodes the first one that is ready is placed.

The counters are right in the midst of a turn as well, when some edges of the node just placed have
been counted down and others have not. So the invariant speaks of the edges that are left to count,
whichever they are; two edges that differ in what they stand for are two of them.

* `isReady`, `place` — the placing of nodes without counters.
* `Counts` — what the counters and the bag say about the edges that are left to count.
* `Counts.countDown`, `Counts.placeAt`, `Counts.run` — what one edge, one node and a whole run
  preserve.
* `Counts.find?_isReady` — the least position in the bag is that of the first node that is ready.
* `ready_run` — the turns suffice: when they are over no node is ready.
* `topologicalOrder_eq_place` — the order that is found, and the node that is reported.
-/

variable {g : Graph}

/-! ### Placing without counters -/

/-- Whether all edges into a node come from placed nodes. -/
def isReady (g : Graph) (placed : List Node) (node : Node) : Bool :=
  g.edges.all fun e => e.target ≠ node || placed.contains e.source

/-- Places the remaining nodes, one a turn. Each place goes to the first node that is ready; when
    there is none, the first that remains is reported. -/
def place (g : Graph) : Nat → List Node → List Node → Except Node (List Node)
  | turns, placed, remaining =>
    match remaining.find? (g.isReady placed), turns with
    | some node, turns + 1 => place g turns (placed ++ [node]) (remaining.erase node)
    | _, _ => match remaining with
      | [] => .ok placed
      | stuck :: _ => .error stuck

/-- The nodes that have not been placed, in the order of their declaration. -/
def unplaced (g : Graph) (placed : List Node) : List Node := g.nodes.filter (· ∉ placed)

/-- The edges from nodes that have not been placed. -/
def uncounted (g : Graph) (placed : List Node) : List Edge := g.edges.filter (·.source ∉ placed)

/-- A node is ready when every edge into it comes from a node that has been placed. -/
theorem isReady_iff {placed : List Node} {node : Node} :
    g.isReady placed node ↔ ∀ e ∈ g.edges, e.target = node → e.source ∈ placed := by
  simp only [isReady, List.all_eq_true, Bool.or_eq_true, decide_eq_true_eq, List.contains_iff_mem]
  constructor
  · intro h e he ht
    exact (h e he).resolve_left fun hne => hne ht
  · intro h e he
    by_cases ht : e.target = node
    · exact Or.inr (h e he ht)
    · exact Or.inl ht

/-- A node is ready when no edge into it is left to count. -/
theorem isReady_iff_uncounted {placed : List Node} {node : Node} :
    g.isReady placed node ↔ ∀ e ∈ g.uncounted placed, e.target ≠ node := by
  rw [isReady_iff]
  constructor
  · intro h e he ht
    obtain ⟨hmem, hsource⟩ := List.mem_filter.1 he
    exact of_decide_eq_true hsource (h e hmem ht)
  · intro h e he ht
    by_contra hsource
    exact h e (List.mem_filter.2 ⟨he, by simpa using hsource⟩) ht

/-- A declared node remains as long as it has not been placed. -/
theorem mem_unplaced {placed : List Node} {node : Node} :
    node ∈ g.unplaced placed ↔ node ∈ g.nodes ∧ node ∉ placed := by
  simp [unplaced]

/-- When a node is placed it remains no longer. -/
theorem erase_unplaced (placed : List Node) (node : Node) :
    (g.unplaced placed).erase node = g.unplaced (placed ++ [node]) := by
  rw [unplaced, unplaced, (g.nodes_nodup.filter _).erase_eq_filter, List.filter_filter]
  refine List.filter_congr fun other _ => ?_
  simp [and_comm, bne, beq_eq_decide]

/-- What is left to count before a node is placed: its own edges, and those that are left after. -/
theorem uncounted_perm {placed : List Node} {node : Node} (hnew : node ∉ placed) :
    (g.uncounted placed).Perm
      (g.edges.filter (·.source = node) ++ g.uncounted (placed ++ [node])) := by
  have hsplit := List.filter_append_perm (·.source = node) (g.uncounted placed)
  refine hsplit.symm.trans (List.Perm.of_eq ?_)
  simp only [uncounted, List.filter_filter]
  congr 1
  · refine List.filter_congr fun e _ => ?_
    by_cases hsource : e.source = node
    · simp [hsource, hnew]
    · simp [hsource]
  · refine List.filter_congr fun e _ => ?_
    simp [and_comm]

/-! ### Declared positions -/

/-- No two nodes were declared at one position. -/
theorem position_inj {node other : Node} (h : node ∈ g.nodes) :
    g.position node = g.position other ↔ node = other := List.idxOf_inj h

/-- What was declared at the position of a node is the node. -/
theorem getElem?_position {node : Node} (h : node ∈ g.nodes) :
    g.nodes[g.position node]? = some node := by
  rw [position, List.getElem?_eq_getElem (List.idxOf_lt_length_of_mem h)]
  exact congrArg some (List.getElem_idxOf _)

/-- The nodes stand at the places at which they were declared. -/
theorem pairwise_position (g : Graph) :
    g.nodes.Pairwise fun a b => g.position a < g.position b :=
  pairwise_idxOf g.nodes_nodup

/-- The first of some nodes for which something holds was declared before all others for which it
    holds. -/
theorem position_lt_of_find? {p : Node → Bool} {remaining : List Node}
    (hdeclared : remaining.Pairwise fun a b => g.position a < g.position b) {node other : Node}
    (hfind : remaining.find? p = some node) (hmem : other ∈ remaining) (hother : p other = true)
    (hne : other ≠ node) : g.position node < g.position other := by
  obtain ⟨-, before, after, rfl, hbefore⟩ := List.find?_eq_some_iff_append.1 hfind
  have hafter : other ∈ after := by
    rcases List.mem_append.1 hmem with hmem | hmem
    · exact absurd hother (by simpa using hbefore other hmem)
    · exact (List.mem_cons.1 hmem).resolve_left hne
  exact (List.pairwise_cons.1 (List.pairwise_append.1 hdeclared).2.1).1 other hafter

/-! ### What the counters say -/

/-- What holds of the counters and the bag when some edges are left to count: the counter of a node
    is the number of those that lead to it, and the nodes in the bag are those that have not been
    placed and to which none of them leads. -/
structure Counts (g : Graph) (left : List Edge) (p : Placement) : Prop where
  nodup : p.order.Nodup
  subset : p.order ⊆ g.nodes
  /-- No edge to a node that has been placed is left. -/
  free : ∀ e ∈ left, e.target ∉ p.order
  degree : ∀ node ∈ g.nodes, p.inDegree.get? node = some (left.countP (·.target = node))
  bag_nodup : p.ready.Nodup
  mem_ready : ∀ position, position ∈ p.ready ↔
    ∃ node ∈ g.unplaced p.order, (∀ e ∈ left, e.target ≠ node) ∧ g.position node = position

namespace Counts

variable {p : Placement} {left left' : List Edge}

/-- The order in which edges are left plays no part. -/
theorem perm (h : g.Counts left p) (hperm : left.Perm left') : g.Counts left' p where
  nodup := h.nodup
  subset := h.subset
  free := fun e he => h.free e (hperm.mem_iff.2 he)
  degree := fun node hnode => by rw [h.degree node hnode, hperm.countP_eq]
  bag_nodup := h.bag_nodup
  mem_ready := by
    intro position
    rw [h.mem_ready]
    simp only [hperm.mem_iff]

/-- At the start every edge is left to count, and the nodes without one are in the bag. -/
theorem start (g : Graph) : g.Counts (g.uncounted []) (.start g) := by
  have hall : g.uncounted [] = g.edges := List.filter_eq_self.2 fun _ _ => by simp
  -- the counters start with the number of edges that lead to each node
  have hdegree : ∀ node ∈ g.nodes,
      g.inDegrees.get? node = some (g.edges.countP (·.target = node)) := by
    intro node hnode
    have hnames : (g.nodes.map id).Nodup := by simpa using g.nodes_nodup
    have hfound : g.inDegrees.get? node = some (g.predecessors node).length :=
      Table.get?_map_name hnames hnode
    refine hfound.trans (congrArg some ?_)
    rw [predecessors, List.length_map, List.countP_eq_length_filter]
  rw [hall]
  constructor
  case nodup => exact List.nodup_nil
  case subset => exact List.nil_subset _
  case free => exact fun _ _ => List.not_mem_nil
  case degree => exact hdegree
  case bag_nodup =>
    refine List.Nodup.map_on ?_ (g.nodes_nodup.filter _)
    intro a ha b _ hab
    exact (position_inj (List.mem_filter.1 ha).1).1 hab
  case mem_ready =>
    intro position
    rw [show (Placement.start g).ready =
      (g.nodes.filter fun node => g.inDegrees.get? node = some 0).map g.position from rfl,
      List.mem_map]
    refine exists_congr fun node => ?_
    rw [List.mem_filter, mem_unplaced, and_assoc, and_assoc]
    refine and_congr_right fun hnode => ?_
    simp [hdegree node hnode, List.countP_eq_zero, Placement.start]

/-- The counter of a node to which an edge leads that is left to count is not zero. So nothing is
    counted below zero. -/
theorem degree_cons {e : Edge} (h : g.Counts (e :: left) p) (he : e.target ∈ g.nodes) :
    p.inDegree.get? e.target = some (left.countP (·.target = e.target) + 1) := by
  rw [h.degree _ he, List.countP_cons_of_pos (by simp)]

/-- With one edge less to count, the node to which it leads may be ready besides those in the
    bag. -/
theorem ready_cons_iff {e : Edge} (h : g.Counts (e :: left) p) (he : e.target ∈ g.nodes)
    {position : Nat} :
    (∃ node ∈ g.unplaced p.order, (∀ e' ∈ left, e'.target ≠ node) ∧
        g.position node = position) ↔
      position ∈ p.ready ∨
        (∀ e' ∈ left, e'.target ≠ e.target) ∧ g.position e.target = position := by
  rw [h.mem_ready]
  constructor
  · rintro ⟨node, hnode, hfree, hposition⟩
    by_cases hsame : e.target = node
    · subst hsame
      exact Or.inr ⟨hfree, hposition⟩
    · exact Or.inl ⟨node, hnode, List.forall_mem_cons.2 ⟨hsame, hfree⟩, hposition⟩
  · rintro (⟨node, hnode, hfree, hposition⟩ | ⟨hfree, hposition⟩)
    · exact ⟨node, hnode, (List.forall_mem_cons.1 hfree).2, hposition⟩
    · exact ⟨e.target, mem_unplaced.2 ⟨he, h.free e List.mem_cons_self⟩, hfree, hposition⟩

/-- Counting one edge down leaves the others. -/
theorem countDown {e : Edge} (h : g.Counts (e :: left) p) (he : e.target ∈ g.nodes) :
    g.Counts left (p.countDown g e.target) ∧ (p.countDown g e.target).order = p.order := by
  -- the node was not ready, as this edge to it was left
  have habsent : g.position e.target ∉ p.ready := by
    rw [h.mem_ready]
    rintro ⟨node, -, hfree, hposition⟩
    exact hfree e List.mem_cons_self ((position_inj he).1 hposition.symm)
  have hlast : left.countP (·.target = e.target) = 0 ↔ ∀ e' ∈ left, e'.target ≠ e.target := by
    simp [List.countP_eq_zero]
  unfold Placement.countDown
  rw [h.degree_cons he]
  refine ⟨?_, rfl⟩
  constructor
  case nodup => exact h.nodup
  case subset => exact h.subset
  case free => exact fun e' he' => h.free e' (List.mem_cons_of_mem _ he')
  case degree =>
    intro node hnode
    show (p.inDegree.put e.target _).get? node = _
    rw [Table.get?_put]
    by_cases hsame : e.target = node
    · subst hsame
      rw [if_pos rfl, Nat.add_sub_cancel]
    · rw [if_neg hsame, h.degree node hnode, List.countP_cons_of_neg (by simpa using hsame)]
  case bag_nodup =>
    show (if _ then _ else _ : List Nat).Nodup
    split
    · exact List.nodup_append.2 ⟨h.bag_nodup, List.nodup_singleton _, fun a ha b hb => by
        rw [List.mem_singleton.1 hb]
        rintro rfl
        exact habsent ha⟩
    · exact h.bag_nodup
  case mem_ready =>
    intro position
    show position ∈ (if _ then _ else _ : List Nat) ↔ _
    rw [Nat.add_sub_cancel]
    refine Iff.trans ?_ (h.ready_cons_iff he).symm
    by_cases hzero : left.countP (·.target = e.target) = 0
    · rw [if_pos hzero, List.mem_append, List.mem_singleton, eq_comm (a := position)]
      exact or_congr_right (and_iff_right (hlast.1 hzero)).symm
    · rw [if_neg hzero, or_iff_left fun hfree => hzero (hlast.2 hfree.1)]

/-- Counting some edges down leaves the others. -/
theorem foldl_countDown {edges : List Edge} (h : g.Counts (edges ++ left) p)
    (hedges : ∀ e ∈ edges, e.target ∈ g.nodes) :
    g.Counts left (edges.foldl (fun p e => p.countDown g e.target) p) ∧
      (edges.foldl (fun p e => p.countDown g e.target) p).order = p.order := by
  induction edges generalizing p with
  | nil => exact ⟨h, rfl⟩
  | cons e rest ih =>
    obtain ⟨htarget, hrest⟩ := List.forall_mem_cons.1 hedges
    obtain ⟨hcounts, horder⟩ := h.countDown htarget
    obtain ⟨hall, hall_order⟩ := ih hcounts hrest
    exact ⟨hall, hall_order.trans horder⟩

/-- A node to which no edge is left can be put into the order. It leaves the bag, and its own edges
    are still to count. -/
theorem append {node : Node} (h : g.Counts left p) (hunplaced : node ∈ g.unplaced p.order)
    (hfree : ∀ e ∈ left, e.target ≠ node) :
    g.Counts left
      { p with order := p.order ++ [node], ready := p.ready.erase (g.position node) } := by
  obtain ⟨hnode, hnew⟩ := mem_unplaced.1 hunplaced
  constructor
  case nodup =>
    refine List.nodup_append.2 ⟨h.nodup, List.nodup_singleton _, fun a ha b hb => ?_⟩
    rw [List.mem_singleton.1 hb]
    rintro rfl
    exact hnew ha
  case subset => exact List.append_subset.2 ⟨h.subset, by simpa using hnode⟩
  case free =>
    intro e he hmem
    rcases List.mem_append.1 hmem with hmem | hmem
    · exact h.free e he hmem
    · exact hfree e he (List.mem_singleton.1 hmem)
  case degree => exact h.degree
  case bag_nodup => exact h.bag_nodup.erase _
  case mem_ready =>
    intro position
    show position ∈ p.ready.erase (g.position node) ↔ ∃ other ∈ g.unplaced (p.order ++ [node]), _
    rw [h.bag_nodup.mem_erase_iff, h.mem_ready, ← erase_unplaced]
    constructor
    · rintro ⟨hne, other, hmem, hfree, rfl⟩
      have hother : other ≠ node := fun he => hne (congrArg g.position he)
      exact ⟨other, (List.mem_erase_of_ne hother).2 hmem, hfree, rfl⟩
    · rintro ⟨other, hmem, hfree, rfl⟩
      obtain ⟨hother, hmem⟩ := (g.nodes_nodup.filter _).mem_erase_iff.1 hmem
      exact ⟨fun he => hother ((position_inj (mem_unplaced.1 hmem).1).1 he),
        other, hmem, hfree, rfl⟩

/-- Placing a node that is ready adds it to the order, and its edges are counted. -/
theorem placeAt {node : Node} (h : g.Counts (g.uncounted p.order) p)
    (hready : g.position node ∈ p.ready) (hnode : node ∈ g.nodes) :
    (p.placeAt g (g.position node)).order = p.order ++ [node] ∧
      g.Counts (g.uncounted (p.order ++ [node])) (p.placeAt g (g.position node)) := by
  obtain ⟨node', hunplaced, hfree, hposition⟩ := (h.mem_ready _).1 hready
  obtain rfl : node' = node := (position_inj (mem_unplaced.1 hunplaced).1).1 hposition
  let placed : Placement :=
    { p with order := p.order ++ [node'], ready := p.ready.erase (g.position node') }
  have heq : p.placeAt g (g.position node') =
      (g.edges.filter (·.source = node')).foldl (fun p e => p.countDown g e.target) placed := by
    unfold Placement.placeAt
    rw [getElem?_position hnode]
    show (g.successors node').foldl _ placed = _
    rw [successors, List.foldl_map]
  have hplaced : g.Counts (g.uncounted p.order) placed := h.append hunplaced hfree
  have hperm := uncounted_perm (g := g) (mem_unplaced.1 hunplaced).2
  obtain ⟨hcounts, horder⟩ := (hplaced.perm hperm).foldl_countDown fun e he =>
    g.target_mem e (List.mem_filter.1 he).1
  rw [heq]
  exact ⟨horder, hcounts⟩

/-! ### One turn -/

section Turn

variable (h : g.Counts (g.uncounted p.order) p)
include h

/-- The bag holds the positions of the nodes that are ready and have not been placed. -/
theorem mem_ready_iff {position : Nat} : position ∈ p.ready ↔
    ∃ node ∈ g.unplaced p.order, g.isReady p.order node ∧ g.position node = position := by
  simp only [h.mem_ready, isReady_iff_uncounted]

/-- The least position in the bag is that of the first node that is ready. -/
theorem find?_isReady {position : Nat} (hleast : p.ready.min? = some position) :
    ∃ node ∈ g.unplaced p.order, g.position node = position ∧
      (g.unplaced p.order).find? (g.isReady p.order) = some node := by
  obtain ⟨hmem, hle⟩ := List.min?_eq_some_iff.1 hleast
  obtain ⟨node, hnode, hready, rfl⟩ := h.mem_ready_iff.1 hmem
  refine ⟨node, hnode, rfl, ?_⟩
  cases hfind : (g.unplaced p.order).find? (g.isReady p.order) with
  | none => exact absurd hready (List.find?_eq_none.1 hfind node hnode)
  | some first =>
    have hfirst : g.position first ∈ p.ready := h.mem_ready_iff.2
      ⟨first, List.mem_of_find?_eq_some hfind, List.find?_some hfind, rfl⟩
    by_cases hsame : node = first
    · rw [hsame]
    · have hbefore := position_lt_of_find? (g.pairwise_position.filter _) hfind hnode hready hsame
      exact absurd (hle _ hfirst) (Nat.not_le.2 hbefore)

/-- When the bag is empty no node is ready. -/
theorem find?_eq_none (hempty : p.ready = []) :
    (g.unplaced p.order).find? (g.isReady p.order) = none := by
  refine List.find?_eq_none.2 fun node hnode hready => ?_
  have hmem : g.position node ∈ p.ready := h.mem_ready_iff.2 ⟨node, hnode, hready, rfl⟩
  rw [hempty] at hmem
  cases hmem

/-- When all nodes have been placed the bag is empty. -/
theorem ready_eq_nil (hall : g.unplaced p.order = []) : p.ready = [] := by
  refine List.eq_nil_iff_forall_not_mem.2 fun position hmem => ?_
  obtain ⟨node, hnode, -⟩ := h.mem_ready_iff.1 hmem
  rw [hall] at hnode
  cases hnode

/-- All nodes have been placed when there are as many. -/
theorem length_eq_iff : p.order.length = g.nodes.length ↔ g.unplaced p.order = [] := by
  have hsubperm := List.subperm_of_subset h.nodup h.subset
  constructor
  · intro hlength
    have hperm := hsubperm.perm_of_length_le (Nat.le_of_eq hlength.symm)
    refine List.filter_eq_nil_iff.2 fun node hnode => ?_
    simpa using hperm.mem_iff.2 hnode
  · intro hall
    refine Nat.le_antisymm hsubperm.length_le ?_
    refine (List.subperm_of_subset g.nodes_nodup fun node hnode => ?_).length_le
    simpa using List.filter_eq_nil_iff.1 hall node hnode

/-- When the bag is empty the nodes of which an edge is left are those that have not been placed. -/
theorem stuck?_eq (hempty : p.ready = []) : p.stuck? g = (g.unplaced p.order).head? := by
  rw [unplaced, Placement.stuck?, ← List.head?_filter]
  refine congrArg List.head? (List.filter_congr fun node hnode => ?_)
  rw [h.degree node hnode, Option.any_some, Bool.eq_iff_iff, decide_eq_true_eq,
    decide_eq_true_eq, Nat.pos_iff_ne_zero, Ne, List.countP_eq_zero, ← not_iff_not,
    Decidable.not_not, Decidable.not_not]
  simp only [decide_eq_true_eq]
  constructor
  · intro hfree
    by_contra hplaced
    -- it would be in the bag
    have hmem : g.position node ∈ p.ready :=
      (h.mem_ready _).2 ⟨node, mem_unplaced.2 ⟨hnode, hplaced⟩, hfree, rfl⟩
    rw [hempty] at hmem
    cases hmem
  · rintro hplaced e he rfl
    exact h.free e he hplaced

end Turn

/-! ### Whole runs -/

/-- A run with turns for all nodes that remain goes on until no node is ready, and places the nodes
    that are placed without counters. -/
theorem run {turns : Nat} (h : g.Counts (g.uncounted p.order) p)
    (hturns : (g.unplaced p.order).length ≤ turns) :
    g.Counts (g.uncounted (p.run g turns).order) (p.run g turns) ∧ (p.run g turns).ready = [] ∧
      g.place turns p.order (g.unplaced p.order) =
        g.place 0 (p.run g turns).order (g.unplaced (p.run g turns).order) := by
  induction turns generalizing p with
  | zero =>
    have hall := List.eq_nil_of_length_eq_zero (Nat.le_zero.1 hturns)
    exact ⟨h, h.ready_eq_nil hall, rfl⟩
  | succ turns ih =>
    unfold Placement.run
    cases hleast : p.ready.min? with
    | none =>
      have hempty := List.min?_eq_none_iff.1 hleast
      refine ⟨h, hempty, ?_⟩
      unfold place
      rw [h.find?_eq_none hempty]
    | some position =>
      obtain ⟨node, hnode, rfl, hfind⟩ := h.find?_isReady hleast
      obtain ⟨horder, hcounts⟩ :=
        h.placeAt (List.min?_mem hleast) (mem_unplaced.1 hnode).1
      rw [← horder] at hcounts
      -- placing a node leaves one node less, so the turns suffice
      have hfewer : (g.unplaced (p.placeAt g (g.position node)).order).length ≤ turns := by
        rw [horder, ← erase_unplaced, List.length_erase_of_mem hnode]
        omega
      obtain ⟨hlast, hempty, hplace⟩ := ih hcounts hfewer
      refine ⟨hlast, hempty, Eq.trans ?_ hplace⟩
      rw [horder, ← erase_unplaced]
      conv_lhs => unfold place
      rw [hfind]

end Counts

/-- The turns suffice: when they are over no node is ready. -/
theorem ready_run (g : Graph) : ((Placement.start g).run g g.nodes.length).ready = [] :=
  (Counts.run (p := .start g) (Counts.start g) (List.length_filter_le _ _)).2.1

/-- Counting places the first node that is ready each time, and reports the first that remains when
    there is none. -/
theorem topologicalOrder_eq_place (g : Graph) :
    g.topologicalOrder = (g.place g.nodes.length [] g.nodes).mapError .cycle := by
  have hall : g.unplaced [] = g.nodes := List.filter_eq_self.2 fun _ _ => by simp
  obtain ⟨hcounts, hempty, hplace⟩ :=
    Counts.run (p := .start g) (Counts.start g) (List.length_filter_le _ _)
  have hplace : g.place g.nodes.length [] (g.unplaced []) = _ := hplace
  rw [hall] at hplace
  rw [hplace, topologicalOrder]
  generalize (Placement.start g).run g g.nodes.length = last at hcounts hempty
  rw [if_congr hcounts.length_eq_iff rfl rfl, hcounts.stuck?_eq hempty]
  unfold place
  rw [hcounts.find?_eq_none hempty]
  cases g.unplaced last.order <;> rfl

end BatchFlow.Graph
