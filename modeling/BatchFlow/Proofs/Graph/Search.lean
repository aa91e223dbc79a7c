import BatchFlow.Proofs.Graph.Canonical

namespace BatchFlow.Graph

/-!
# The search for a cycle ends

The depth-first search of `findCycle?` has room for as many nodes as the graph has. Here it is said
without any bound, as a relation whose derivations are the finite runs of the search. Every graph
has exactly one such run, and it ends as the bounded search does: the room is never used up. So the
two ways to look for a cycle can be compared, and they agree.

* `Scans`, `Searches` — the search without a bound, below a path and of a whole graph.
* `Scans.unique` — it ends in one way only.
* `walk_visits` — on a path of the graph, a walk with enough room is a run of it.
* `searches_iff` — it ends, and it ends as `checkAcyclic` does.
* `checkAcyclic_iff_ordered` — the search succeeds exactly when there is a topological order, and
  otherwise names a node of a cycle.
-/

variable {g : Graph}

/-- The search without a bound. A node of the path is under way, and one that is done is not entered
    again. The nodes in the list are looked at in turn; a node that is entered is done once all of
    its successors have been looked at. -/
inductive Scans (g : Graph) :
    List Node → List Node → List Node → Except Node (List Node) → Prop
  | nil {path done} : Scans g path done [] (.ok done)
  /-- An edge back to the path closes a cycle. -/
  | back {path done next rest} : next ∈ path → Scans g path done (next :: rest) (.error next)
  | pass {path done next rest outcome} : next ∉ path → next ∈ done →
      Scans g path done rest outcome → Scans g path done (next :: rest) outcome
  | enter {path done next rest done' outcome} : next ∉ path → next ∉ done →
      Scans g (next :: path) done ((g.successors next).map (·.1)) (.ok done') →
      Scans g path (next :: done') rest outcome → Scans g path done (next :: rest) outcome
  /-- A cycle below a node ends the whole search. -/
  | found {path done next rest culprit} : next ∉ path → next ∉ done →
      Scans g (next :: path) done ((g.successors next).map (·.1)) (.error culprit) →
      Scans g path done (next :: rest) (.error culprit)

/-- The search of a whole graph, which enters every node that is not done yet. -/
inductive Searches (g : Graph) : Except GraphFault Unit → Prop
  | clear {done} : g.Scans [] [] g.nodes (.ok done) → Searches g (.ok ())
  | found {node} : g.Scans [] [] g.nodes (.error node) → Searches g (.error (.cycle node))

/-- The search ends in one way only. -/
theorem Scans.unique {path done nexts : List Node} {outcome outcome' : Except Node (List Node)}
    (h : g.Scans path done nexts outcome) (h' : g.Scans path done nexts outcome') :
    outcome = outcome' := by
  -- the rules exclude one another, by the path and by what is done
  induction h generalizing outcome' with
  | nil =>
    cases h'
    rfl
  | back hmem =>
    cases h' with
    | back => rfl
    | pass hpath => exact absurd hmem hpath
    | enter hpath => exact absurd hmem hpath
    | found hpath => exact absurd hmem hpath
  | pass hpath hdone _ ih =>
    cases h' with
    | back hmem => exact absurd hmem hpath
    | pass _ _ hrest => exact ih hrest
    | enter _ hnew => exact absurd hdone hnew
    | found _ hnew => exact absurd hdone hnew
  | enter hpath hnew _ _ ihbelow ihrest =>
    cases h' with
    | back hmem => exact absurd hmem hpath
    | pass _ hdone => exact absurd hdone hnew
    | enter _ _ hbelow hrest =>
      cases ihbelow hbelow
      exact ihrest hrest
    | found _ _ hbelow => cases ihbelow hbelow
  | found hpath hnew _ ihbelow =>
    cases h' with
    | back hmem => exact absurd hmem hpath
    | pass _ hdone => exact absurd hdone hnew
    | enter _ _ hbelow => cases ihbelow hbelow
    | found _ _ hbelow =>
      cases ihbelow hbelow
      rfl

/-! ### The bounded search is a run -/

/-- A run below a node, after which the node is done as well. -/
def Visits (g : Graph) (path done : List Node) (node : Node)
    (outcome : Except Node (List Node)) : Prop :=
  ∃ below, g.Scans (node :: path) done ((g.successors node).map (·.1)) below ∧
    outcome = below.map (node :: ·)

/-- Looking at nodes in turn is a run when every visit to one of them is. -/
theorem scans_foldlM {path nexts : List Node}
    {visit : List Node → Node → Except Node (List Node)}
    (hvisit : ∀ next ∈ nexts, next ∉ path → ∀ done, g.Visits path done next (visit done next))
    (done : List Node) :
    g.Scans path done nexts (nexts.foldlM (fun done next =>
      if next ∈ path then .error next
      else if next ∈ done then .ok done
      else visit done next) done) := by
  induction nexts generalizing done with
  | nil => exact .nil
  | cons next rest ih =>
    obtain ⟨hfirst, hrest⟩ := List.forall_mem_cons.1 hvisit
    rw [List.foldlM_cons]
    -- the three answers of the search for one node are the rules of the scan
    by_cases hpath : next ∈ path
    · rw [if_pos hpath]
      exact .back hpath
    · rw [if_neg hpath]
      by_cases hdone : next ∈ done
      · rw [if_pos hdone]
        exact .pass hpath hdone (ih hrest done)
      · rw [if_neg hdone]
        obtain ⟨below, hbelow, heq⟩ := hfirst hpath done
        rw [heq]
        cases below with
        | error culprit => exact .found hpath hdone hbelow
        | ok done' => exact .enter hpath hdone hbelow (ih hrest (next :: done'))

/-- On a path of the graph a walk with enough room is a visit without a bound: the path repeats no
    node, so the room is not used up. -/
theorem walk_visits {room : Nat} {path : List Node} {node : Node} (hpath : g.Path path node)
    (hroom : g.nodes.length ≤ path.length + room) (done : List Node) :
    g.Visits path done node (g.walk room path done node) := by
  induction room generalizing path node done with
  | zero =>
    have := hpath.length_lt
    omega
  | succ room ih =>
    have hvisit : ∀ next ∈ (g.successors node).map (·.1), next ∉ node :: path → ∀ done,
        g.Visits (node :: path) done next (g.walk room (node :: path) done next) := by
      intro next hnext hnew done
      obtain ⟨successor, hmem, rfl⟩ := List.mem_map.1 hnext
      refine ih (hpath.step (flows_iff.2 ⟨successor, hmem, rfl⟩) hnew) ?_ done
      rw [List.length_cons]
      omega
    refine ⟨_, scans_foldlM hvisit done, ?_⟩
    rw [List.foldlM_map, walk]
    rfl

/-- The search of a graph ends, and it ends as the bounded one does. -/
theorem searches_checkAcyclic (g : Graph) : g.Searches g.checkAcyclic := by
  have hvisit : ∀ node ∈ g.nodes, node ∉ [] → ∀ done,
      g.Visits [] done node (g.walk g.nodes.length [] done node) :=
    fun node hnode _ => walk_visits (Path.start hnode) (Nat.le_add_left _ _)
  have hscans := scans_foldlM hvisit []
  simp only [List.not_mem_nil, if_false] at hscans
  unfold checkAcyclic findCycle?
  cases hwalks : g.nodes.foldlM (fun done node =>
      if node ∈ done then .ok done else g.walk g.nodes.length [] done node) ([] : List Node) with
  | ok done => exact .clear (hwalks ▸ hscans)
  | error node => exact .found (hwalks ▸ hscans)

/-- A search has one outcome. -/
theorem Searches.unique {outcome outcome' : Except GraphFault Unit} (h : g.Searches outcome)
    (h' : g.Searches outcome') : outcome = outcome' := by
  cases h with
  | clear hscans =>
    cases h' with
    | clear => rfl
    | found hscans' => cases hscans.unique hscans'
  | found hscans =>
    cases h' with
    | clear hscans' => cases hscans.unique hscans'
    | found hscans' =>
      cases hscans.unique hscans'
      rfl

/-- The search without a bound has one outcome, that of the bounded one. -/
theorem searches_iff {outcome : Except GraphFault Unit} :
    g.Searches outcome ↔ outcome = g.checkAcyclic := by
  constructor
  · intro h
    exact h.unique g.searches_checkAcyclic
  · rintro rfl
    exact g.searches_checkAcyclic

/-! ### Two ways to look for a cycle -/

/-- The depth-first search of a graph ends, with one outcome, and this is the outcome of
    `checkAcyclic`. It succeeds exactly when the nodes can be put in topological order. When it
    fails, the node that it names leads back to itself. -/
theorem checkAcyclic_iff_ordered (g : Graph) :
    (∀ outcome, g.Searches outcome ↔ outcome = g.checkAcyclic) ∧
    (g.checkAcyclic = .ok () ↔ ∃ order, g.topologicalOrder = .ok order) ∧
    ∀ fault, g.checkAcyclic = .error fault →
      ∃ node, fault = .cycle node ∧ Relation.TransGen g.Flows node node := by
  refine ⟨fun _ => searches_iff, checkAcyclic_eq_ok_iff.trans exists_topologicalOrder_iff.symm, ?_⟩
  intro fault hfault
  rw [checkAcyclic] at hfault
  split at hfault
  · cases hfault
  · rename_i node hfound
    cases hfault
    exact ⟨node, rfl, transGen_of_findCycle? hfound⟩

end BatchFlow.Graph
