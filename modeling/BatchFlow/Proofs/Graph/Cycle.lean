import BatchFlow.Graph.Cycle
import BatchFlow.Proofs.Graph.Order
import BatchFlow.Proofs.Outcome
import Mathlib.Order.WellFoundedSet

namespace BatchFlow.Graph

/-!
# Cycles of graphs

A depth-first search looks for a cycle. The nodes on its path are under way, the nodes that are done
are settled: they lead to settled nodes only, and none of them lies on a cycle.

* `Flows`, `Acyclic` — the edges as a relation, and that no node leads back to itself.
* `Settled`, `Path` — what is known of the nodes that are done, and of those under way.
* `walk_ends` — a walk settles its nodes or names a node on a cycle.
* `findCycle?_eq_none_iff`, `transGen_of_findCycle?` — the search finds a cycle if there is one, and
  names a node on it.
* `Acyclic.exists_topologicalOrder` — a graph without a cycle has a topological order.
-/

variable {g : Graph}

/-- Whether an edge leads from one node to another. -/
def Flows (g : Graph) (a b : Node) : Prop := ∃ e ∈ g.edges, e.source = a ∧ e.target = b

/-- Whether no node leads back to itself. -/
def Acyclic (g : Graph) : Prop := ∀ node, ¬ Relation.TransGen g.Flows node node

/-- An edge starts at a declared node. -/
theorem Flows.source_mem {a b : Node} (h : g.Flows a b) : a ∈ g.nodes := by
  obtain ⟨e, he, rfl, -⟩ := h
  exact g.source_mem e he

/-- An edge ends at a declared node. -/
theorem Flows.target_mem {a b : Node} (h : g.Flows a b) : b ∈ g.nodes := by
  obtain ⟨e, he, -, rfl⟩ := h
  exact g.target_mem e he

/-- The nodes to which edges lead are the successors. -/
theorem flows_iff {a b : Node} : g.Flows a b ↔ ∃ next ∈ g.successors a, next.1 = b := by
  simp only [Flows, successors, List.mem_map, List.mem_filter, decide_eq_true_eq]
  constructor
  · rintro ⟨e, he, hsource, htarget⟩
    exact ⟨_, ⟨e, ⟨he, hsource⟩, rfl⟩, htarget⟩
  · rintro ⟨_, ⟨e, ⟨he, hsource⟩, rfl⟩, htarget⟩
    exact ⟨e, he, hsource, htarget⟩

/-! ### Nodes that are done -/

/-- Nodes that lead to each other only, and of which none lies on a cycle. -/
structure Settled (g : Graph) (done : List Node) : Prop where
  next : ∀ a ∈ done, ∀ b, g.Flows a b → b ∈ done
  free : ∀ a ∈ done, ¬ Relation.TransGen g.Flows a a

theorem settled_nil : g.Settled [] := ⟨List.forall_mem_nil _, List.forall_mem_nil _⟩

/-- What a settled node leads to is settled. -/
theorem Settled.mem_of_reflTransGen {done : List Node} (h : g.Settled done) {a b : Node}
    (ha : a ∈ done) (hab : Relation.ReflTransGen g.Flows a b) : b ∈ done := by
  induction hab with
  | refl => exact ha
  | tail _ hflow ih => exact h.next _ ih _ hflow

/-- A new node that leads to settled nodes only is settled. -/
theorem Settled.cons {done : List Node} {node : Node} (h : g.Settled done) (hnew : node ∉ done)
    (hnext : ∀ b, g.Flows node b → b ∈ done) : g.Settled (node :: done) := by
  constructor
  · intro a ha b hab
    rcases List.mem_cons.1 ha with rfl | ha
    · exact List.mem_cons_of_mem _ (hnext b hab)
    · exact List.mem_cons_of_mem _ (h.next a ha b hab)
  · intro a ha hcycle
    rcases List.mem_cons.1 ha with rfl | ha
    -- a cycle through the new node would lead back to it from a settled one
    · obtain ⟨b, hab, hba⟩ := Relation.TransGen.head'_iff.1 hcycle
      exact hnew (h.mem_of_reflTransGen (hnext b hab) hba)
    · exact h.free a ha hcycle

/-! ### Nodes that are under way -/

/-- The walk under way: its newest node, and the nodes on the path to it. -/
structure Path (g : Graph) (path : List Node) (node : Node) : Prop where
  mem : ∀ a ∈ node :: path, a ∈ g.nodes
  nodup : (node :: path).Nodup
  leads : ∀ a ∈ path, Relation.TransGen g.Flows a node

/-- A walk starts with a node and no path to it. -/
theorem Path.start {node : Node} (h : node ∈ g.nodes) : g.Path [] node where
  mem := by simpa using h
  nodup := List.nodup_singleton node
  leads := List.forall_mem_nil _

/-- A walk goes on along an edge to a node that is not on it. -/
theorem Path.step {path : List Node} {node next : Node} (h : g.Path path node)
    (hflow : g.Flows node next) (hnew : next ∉ node :: path) : g.Path (node :: path) next where
  mem := List.forall_mem_cons.2 ⟨hflow.target_mem, h.mem⟩
  nodup := List.nodup_cons.2 ⟨hnew, h.nodup⟩
  leads := by
    refine List.forall_mem_cons.2 ⟨.single hflow, fun a ha => ?_⟩
    exact (h.leads a ha).tail hflow

/-- An edge back to the path closes a cycle. -/
theorem Path.transGen {path : List Node} {node next : Node} (h : g.Path path node)
    (hflow : g.Flows node next) (hnext : next ∈ node :: path) :
    Relation.TransGen g.Flows next next := by
  rcases List.mem_cons.1 hnext with rfl | hnext
  · exact .single hflow
  · exact (h.leads next hnext).tail hflow

/-- A path is shorter than the list of all nodes. -/
theorem Path.length_lt {path : List Node} {node : Node} (h : g.Path path node) :
    path.length < g.nodes.length :=
  (List.subperm_of_subset h.nodup h.mem).length_le

/-! ### The search -/

/-- What a walk from the end of a path makes of the nodes that are done. -/
structure Walked (g : Graph) (path done done' : List Node) : Prop where
  settled : g.Settled done'
  subset : done ⊆ done'
  apart : ∀ a ∈ path, a ∉ done'

/-- A walk settles its nodes, or names a node on a cycle. -/
theorem walk_ends {room : Nat} {path done : List Node} {node : Node} (hpath : g.Path path node)
    (hroom : g.nodes.length ≤ path.length + room) (hdone : g.Settled done)
    (hapart : ∀ a ∈ node :: path, a ∉ done) :
    Ends (fun done' => g.Walked path done done' ∧ node ∈ done')
      (fun culprit => Relation.TransGen g.Flows culprit culprit) (g.walk room path done node) := by
  induction room generalizing path done node with
  | zero =>
    have := hpath.length_lt
    omega
  | succ room ih =>
    -- all successors seen so far are settled, and the path is still under way
    have hwalk : Ends
        (fun done' => g.Walked (node :: path) done done' ∧
          ∀ next ∈ g.successors node, next.1 ∈ done')
        (fun culprit => Relation.TransGen g.Flows culprit culprit)
        ((g.successors node).foldlM (fun done next =>
          if next.1 ∈ node :: path then .error next.1
          else if next.1 ∈ done then .ok done
          else g.walk room (node :: path) done next.1) done) := by
      refine Ends.foldlM (I := fun (seen : List (Node × EdgeKind)) done' =>
        g.Walked (node :: path) done done' ∧ ∀ next ∈ seen, next.1 ∈ done') ?_ ?_
      · exact ⟨⟨hdone, List.Subset.refl _, hapart⟩, List.forall_mem_nil _⟩
      · rintro seen ⟨next, kind⟩ after hsplit now ⟨hnow, hseen⟩
        have hflow : g.Flows node next :=
          flows_iff.2 ⟨(next, kind), by simp [hsplit], rfl⟩
        dsimp only
        split
        · rename_i hback
          exact hpath.transGen hflow hback
        · rename_i hnew
          split
          · rename_i hold
            refine ⟨hnow, List.forall_mem_append.2 ⟨hseen, ?_⟩⟩
            exact List.forall_mem_singleton.2 hold
          · rename_i hfresh
            have hroom' : g.nodes.length ≤ (node :: path).length + room := by
              rw [List.length_cons]
              omega
            have hapart' : ∀ a ∈ next :: node :: path, a ∉ now :=
              List.forall_mem_cons.2 ⟨hfresh, hnow.apart⟩
            refine (ih (hpath.step hflow hnew) hroom' hnow.settled hapart').mono ?_ fun _ h => h
            rintro later ⟨hlater, hmem⟩
            refine ⟨⟨hlater.settled, List.Subset.trans hnow.subset hlater.subset, hlater.apart⟩, ?_⟩
            refine List.forall_mem_append.2 ⟨fun x hx => hlater.subset (hseen x hx), ?_⟩
            exact List.forall_mem_singleton.2 hmem
    unfold walk
    refine hwalk.bind fun done' _ hdone' => ?_
    obtain ⟨hwalked, hnext⟩ := hdone'
    have hsettled : g.Settled (node :: done') := by
      refine hwalked.settled.cons (hwalked.apart node List.mem_cons_self) fun b hb => ?_
      obtain ⟨next, hmem, rfl⟩ := flows_iff.1 hb
      exact hnext next hmem
    refine ⟨⟨hsettled, fun a ha => List.mem_cons_of_mem _ (hwalked.subset ha), ?_⟩,
      List.mem_cons_self⟩
    intro a ha hmem
    rcases List.mem_cons.1 hmem with rfl | hmem
    · exact (List.nodup_cons.1 hpath.nodup).1 ha
    · exact hwalked.apart a (List.mem_cons_of_mem _ ha) hmem

/-- The search settles all nodes, or names a node on a cycle. -/
theorem findCycle?_cases (g : Graph) :
    (g.findCycle? = none ∧ ∃ done, g.Settled done ∧ ∀ node ∈ g.nodes, node ∈ done) ∨
      ∃ node, g.findCycle? = some node ∧ Relation.TransGen g.Flows node node := by
  have hends : Ends (fun done => g.Settled done ∧ ∀ node ∈ g.nodes, node ∈ done)
      (fun culprit => Relation.TransGen g.Flows culprit culprit)
      (g.nodes.foldlM (fun done node =>
        if node ∈ done then .ok done else g.walk g.nodes.length [] done node) []) := by
    -- the nodes that are done are settled, and all nodes looked at so far are among them
    refine Ends.foldlM (I := fun seen done => g.Settled done ∧ ∀ node ∈ seen, node ∈ done) ?_ ?_
    · exact ⟨settled_nil, List.forall_mem_nil _⟩
    · rintro seen node after hsplit done ⟨hdone, hseen⟩
      split
      · rename_i hold
        exact ⟨hdone, List.forall_mem_append.2 ⟨hseen, List.forall_mem_singleton.2 hold⟩⟩
      · rename_i hnew
        have hmem : node ∈ g.nodes := by simp [hsplit]
        refine (walk_ends (Path.start hmem) (Nat.le_add_left _ _) hdone
          (List.forall_mem_singleton.2 hnew)).mono ?_ fun _ h => h
        rintro done' ⟨hwalked, hnode⟩
        refine ⟨hwalked.settled, List.forall_mem_append.2 ⟨fun a ha => ?_, ?_⟩⟩
        · exact hwalked.subset (hseen a ha)
        · exact List.forall_mem_singleton.2 hnode
  unfold findCycle?
  dsimp only
  split
  · rename_i done hok
    rw [hok] at hends
    exact Or.inl ⟨rfl, done, hends⟩
  · rename_i node herror
    rw [herror] at hends
    exact Or.inr ⟨node, rfl, hends⟩

/-- The node that the search names lies on a cycle. -/
theorem transGen_of_findCycle? {node : Node} (h : g.findCycle? = some node) :
    Relation.TransGen g.Flows node node := by
  rcases g.findCycle?_cases with ⟨hnone, -⟩ | ⟨node', hsome, hcycle⟩
  · simp [hnone] at h
  · obtain rfl : node' = node := by simpa [hsome] using h
    exact hcycle

/-- The search finds nothing exactly when there is no cycle. -/
theorem findCycle?_eq_none_iff : g.findCycle? = none ↔ g.Acyclic := by
  constructor
  · intro h node hcycle
    rcases g.findCycle?_cases with ⟨-, done, hsettled, hall⟩ | ⟨_, hsome, -⟩
    · obtain ⟨next, hflow, -⟩ := Relation.TransGen.head'_iff.1 hcycle
      exact hsettled.free node (hall node hflow.source_mem) hcycle
    · simp [hsome] at h
  · intro h
    rcases g.findCycle?_cases with ⟨hnone, -⟩ | ⟨node, -, hcycle⟩
    · exact hnone
    · exact absurd hcycle (h node)

/-- The search ends without a fault exactly when there is no cycle. -/
theorem checkAcyclic_eq_ok_iff : g.checkAcyclic = .ok () ↔ g.Acyclic := by
  rw [← findCycle?_eq_none_iff, checkAcyclic]
  cases g.findCycle? <;> simp

/-! ### Topological orders -/

/-- Among nodes that lie on no cycle, one has no edge from another of them. -/
theorem exists_first_of_free {nodes : List Node} (hne : nodes ≠ [])
    (hfree : ∀ a ∈ nodes, ¬ Relation.TransGen g.Flows a a) :
    ∃ node ∈ nodes, ∀ a ∈ nodes, ¬ g.Flows a node := by
  -- elsewhere there may be cycles, so to lead somewhere is an order of the free nodes only
  have : IsStrictOrder Node fun a b =>
      Relation.TransGen g.Flows a b ∧ ¬ Relation.TransGen g.Flows a a :=
    { irrefl := fun _ h => h.2 h.1, trans := fun _ _ _ h h' => ⟨h.1.trans h'.1, h.2⟩ }
  have hfounded : {a | a ∈ nodes}.WellFoundedOn fun a b =>
      Relation.TransGen g.Flows a b ∧ ¬ Relation.TransGen g.Flows a a :=
    (List.finite_toSet nodes).wellFoundedOn
  obtain ⟨a, ha⟩ := List.exists_mem_of_ne_nil _ hne
  obtain ⟨⟨node, hnode⟩, -, hfirst⟩ := hfounded.has_min Set.univ ⟨⟨a, ha⟩, trivial⟩
  exact ⟨node, hnode, fun b hb hflow => hfirst ⟨b, hb⟩ trivial ⟨.single hflow, hfree b hb⟩⟩

/-- Without a cycle one of the remaining nodes is always ready. -/
theorem Acyclic.exists_place (h : g.Acyclic) {turns : Nat} {placed remaining : List Node}
    (hturns : remaining.length ≤ turns)
    (hall : ∀ node ∈ g.nodes, node ∈ placed ∨ node ∈ remaining) :
    ∃ order, g.place turns placed remaining = .ok order := by
  induction turns generalizing placed remaining with
  | zero =>
    obtain rfl := List.eq_nil_of_length_eq_zero (Nat.le_zero.1 hturns)
    exact ⟨placed, rfl⟩
  | succ turns ih =>
    unfold place
    split
    · rename_i node turns' hfind heq
      cases heq
      have hmem := List.mem_of_find?_eq_some hfind
      refine ih ?_ fun a ha => ?_
      · rw [List.length_erase_of_mem hmem]
        omega
      · rcases hall a ha with hplaced | hremains
        · exact Or.inl (List.mem_append_left _ hplaced)
        · by_cases he : a = node
          · exact Or.inl (by simp [he])
          · exact Or.inr ((List.mem_erase_of_ne he).2 hremains)
    · rename_i hnone
      have hnil : remaining = [] := by
        by_contra hne
        obtain ⟨node, hnode, hfirst⟩ := exists_first_of_free hne fun a _ => h a
        -- the edges into this node come from placed nodes, so it would have been found
        have hready : g.isReady placed node := by
          refine isReady_iff.2 fun e he htarget => ?_
          refine (hall e.source (g.source_mem e he)).resolve_right fun hsource => ?_
          exact hfirst e.source hsource ⟨e, he, rfl, htarget⟩
        cases hfind : remaining.find? (g.isReady placed) with
        | none => exact List.find?_eq_none.1 hfind node hnode hready
        | some found => exact hnone found turns hfind rfl
      subst hnil
      exact ⟨placed, rfl⟩

/-- A graph without a cycle has a topological order. -/
theorem Acyclic.exists_topologicalOrder (h : g.Acyclic) :
    ∃ order, g.topologicalOrder = .ok order := by
  obtain ⟨order, horder⟩ := h.exists_place (Nat.le_refl g.nodes.length) fun _ => Or.inr
  exact ⟨order, topologicalOrder_eq_ok.2 horder⟩

end BatchFlow.Graph
