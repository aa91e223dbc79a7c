import BatchFlow.Graph.Basic
import BatchFlow.Table

namespace BatchFlow.Graph

/-!
# Topological order

Nodes are placed one after another. Of each node it is counted how many edges lead to it from nodes
that have not been placed; a node that is placed counts its edges down, and a node is ready when
none of its edges is left. Of the nodes that are ready the one that was declared first is next.

* `Placement` — what is kept while nodes are placed: those that have been placed, the counters, and
  who is ready.
* `Placement.countDown`, `Placement.placeAt`, `Placement.run` — one edge, one node, and all of them.
* `Graph.topologicalOrder` — all nodes in an order in which every edge goes forward. When some are
  left over, the first of them is reported.
-/

/-- The place at which a node was declared. -/
def position (g : Graph) (node : Node) : Nat := g.nodes.idxOf node

/-- How many edges lead to each node. -/
def inDegrees (g : Graph) : Table Node Nat :=
  g.nodes.map fun node => (node, (g.predecessors node).length)

/-- What is kept while nodes are placed. -/
structure Placement where
  /-- The nodes that have been placed. -/
  order : List Node := []
  /-- To each node, the number of edges that have not been counted down. -/
  inDegree : Table Node Nat
  /-- The declared positions of the nodes that are ready, as a bag: the least is taken first, and
      how they are listed plays no part. -/
  ready : List Nat

namespace Placement

/-- Before a node is placed, those are ready to which no edge leads. -/
def start (g : Graph) : Placement where
  inDegree := g.inDegrees
  ready := (g.nodes.filter fun node => g.inDegrees.get? node = some 0).map g.position

/-- Counts an edge to a node down. The node is ready when it was the last one. -/
def countDown (g : Graph) (p : Placement) (node : Node) : Placement :=
  match p.inDegree.get? node with
  | some degree =>
    { p with
      inDegree := p.inDegree.put node (degree - 1)
      ready := if degree - 1 = 0 then p.ready ++ [g.position node] else p.ready }
  | none => p

/-- Places the node with a position that is ready, and counts its edges down. -/
def placeAt (g : Graph) (p : Placement) (position : Nat) : Placement :=
  match g.nodes[position]? with
  | some node =>
    (g.successors node).foldl (fun p (next, _) => p.countDown g next)
      { p with order := p.order ++ [node], ready := p.ready.erase position }
  -- what is ready is a node
  | none => p

/-- Places nodes, one a turn, until none is ready. -/
def run (g : Graph) : Nat → Placement → Placement
  | 0, p => p
  | turns + 1, p =>
    match p.ready.min? with
    | some position => run g turns (p.placeAt g position)
    | none => p

/-- The first declared node of which an edge has not been counted down. -/
def stuck? (g : Graph) (p : Placement) : Option Node :=
  g.nodes.find? fun node => (p.inDegree.get? node).any (0 < ·)

end Placement

/-- The nodes in an order in which every edge goes forward. No node is placed twice, so there are
    turns enough. -/
def topologicalOrder (g : Graph) : Except GraphFault (List Node) :=
  let last := (Placement.start g).run g g.nodes.length
  if last.order.length = g.nodes.length then .ok last.order
  else match last.stuck? g with
    | some node => .error (.cycle node)
    | none => .error .unnamedCycle

end BatchFlow.Graph
