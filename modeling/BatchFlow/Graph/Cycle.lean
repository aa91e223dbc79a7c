import BatchFlow.Graph.Basic

namespace BatchFlow.Graph

/-!
# Cycles

* `Graph.findCycle?` — a node on a directed cycle, if there is a cycle. Walks go depth first along
  the edges in their order; the first edge back into the walk under way names the node.
-/

/-- Walks on from a node. `path` holds the nodes of the walk under way, `done` those whose walks
    have ended without a cycle; the walk ends with the nodes that are done, or at a node on the
    path. A path repeats no node, so it is never longer than `room`. -/
def walk (g : Graph) : Nat → List Node → List Node → Node → Except Node (List Node)
  | 0, _, done, _ => .ok done
  | room + 1, path, done, node => do
    let done ← (g.successors node).foldlM (fun done (next, _) =>
      -- an edge back into the walk under way closes a cycle
      if next ∈ node :: path then .error next
      else if next ∈ done then .ok done
      else walk g room (node :: path) done next) done
    return node :: done

/-- A node on a directed cycle. -/
def findCycle? (g : Graph) : Option Node :=
  let walks := g.nodes.foldlM (fun done node =>
    if node ∈ done then .ok done else g.walk g.nodes.length [] done node) ([] : List Node)
  match walks with
  | .ok _ => none
  | .error node => some node

/-- Refuses a graph with a directed cycle. -/
def checkAcyclic (g : Graph) : Except GraphFault Unit :=
  match g.findCycle? with
  | none => .ok ()
  | some node => .error (.cycle node)

end BatchFlow.Graph
