import BatchFlow.Distinct
import BatchFlow.Graph.Node

namespace BatchFlow

/-!
# Graphs

* `Edge` — data flows along it, or its source decides whether its target runs.
* `Graph` — distinct nodes in the order of their declaration, and distinct edges between them.
* `Graph.ofEdges` — the graph of some nodes and edges. A repeated edge counts once; a repeated
  node or an end of an edge that is no node is refused.
-/

/-- What an edge stands for. -/
inductive EdgeKind where
  /-- Data flows from the source into the target. -/
  | data
  /-- The source decides whether the target runs. -/
  | control
deriving DecidableEq, Repr

/-- A directed edge. -/
structure Edge where
  source : Node
  target : Node
  kind : EdgeKind
deriving DecidableEq, Repr

/-- Why there is no graph, or no order of its nodes. -/
inductive GraphFault where
  | repeatedNode (node : Node)
  | danglingEdge (edge : Edge) (missing : Node)
  | cycle (node : Node)
  /-- There is a cycle, and no node to name. -/
  | unnamedCycle
deriving DecidableEq, Repr

/-- Distinct nodes with distinct edges between them. -/
structure Graph where
  nodes : List Node
  edges : List Edge
  nodes_nodup : nodes.Nodup
  edges_nodup : edges.Nodup
  source_mem : ∀ e ∈ edges, e.source ∈ nodes
  target_mem : ∀ e ∈ edges, e.target ∈ nodes

namespace Graph

/-- An end of an edge that is none of the nodes. -/
def missingEnd? (nodes : List Node) (e : Edge) : Option (Edge × Node) :=
  if e.source ∉ nodes then some (e, e.source)
  else if e.target ∉ nodes then some (e, e.target)
  else none

/-- An edge of which no end is missing has both ends among the nodes. -/
theorem missingEnd?_eq_none {nodes : List Node} {e : Edge} (h : missingEnd? nodes e = none) :
    e.source ∈ nodes ∧ e.target ∈ nodes := by
  unfold missingEnd? at h
  split at h
  · cases h
  · split at h
    · cases h
    · exact ⟨Classical.not_not.1 ‹_›, Classical.not_not.1 ‹_›⟩

/-- The graph of some nodes and edges. -/
def ofEdges (nodes : List Node) (edges : List Edge) : Except GraphFault Graph :=
  match hn : firstRepeat? nodes with
  | some node => .error (.repeatedNode node)
  | none =>
    match he : edges.findSome? (missingEnd? nodes) with
    | some (edge, missing) => .error (.danglingEdge edge missing)
    | none =>
      have ends : ∀ e ∈ distinct edges, e.source ∈ nodes ∧ e.target ∈ nodes := fun e h =>
        missingEnd?_eq_none (List.findSome?_eq_none_iff.1 he e (mem_distinct.1 h))
      .ok {
        nodes
        edges := distinct edges
        nodes_nodup := (firstRepeat?_eq_none_iff nodes).1 hn
        edges_nodup := nodup_distinct edges
        source_mem := fun e h => (ends e h).1
        target_mem := fun e h => (ends e h).2 }

/-- The nodes to which edges lead from a node, in the order of the edges. -/
def successors (g : Graph) (node : Node) : List (Node × EdgeKind) :=
  (g.edges.filter (·.source = node)).map fun e => (e.target, e.kind)

/-- The nodes from which edges lead to a node, in the order of the edges. -/
def predecessors (g : Graph) (node : Node) : List (Node × EdgeKind) :=
  (g.edges.filter (·.target = node)).map fun e => (e.source, e.kind)

/-- The nodes to which no edge leads. -/
def entryPoints (g : Graph) : List Node := g.nodes.filter fun node => (g.predecessors node).isEmpty

end Graph

end BatchFlow
