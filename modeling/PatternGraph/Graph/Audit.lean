/-
  PatternGraph.Graph.Audit

  The check that the parts of a graph agree: names are used once, edges end at
  live nodes, adjacency lists say what the edges say, and the counters count.
  The first disagreement is reported.
-/
import PatternGraph.Graph.Basic

namespace PatternGraph

namespace Graph

/-- The first node whose name was seen before. -/
def nodeViolation? : (seen : List String) → List Node → Option Violation
  | _, [] => none
  | seen, n :: rest =>
    if seen.contains n.name then some (.nodeNameTwice n.name)
    else nodeViolation? (n.name :: seen) rest

/-- The end of an edge that is not a live node, its source first. -/
def endViolation? (g : Graph) (id : EdgeId) (e : Edge) : Option Violation :=
  if (g.node? e.src).isNone then some (.missingEnd e.name id e.src)
  else if (g.node? e.dest).isNone then some (.missingEnd e.name id e.dest)
  else none

/-- The first edge whose name was seen before or that ends at no live node. -/
def edgeViolation? (g : Graph) : (seen : List String) → List (EdgeId × Edge) → Option Violation
  | _, [] => none
  | seen, (id, e) :: rest =>
    if seen.contains e.name then some (.edgeNameTwice e.name)
    else
      match g.endViolation? id e with
      | some v => some v
      | none => g.edgeViolation? (e.name :: seen) rest

/-- The lists of a node hold only edges that leave or enter it, and as many as there are. -/
def adjacencyAgrees (g : Graph) (edges : List Edge) (id : NodeId) (n : Node) : Bool :=
  n.outgoing.all (fun e => (g.edge? e).any (·.src == id))
    && n.incoming.all (fun e => (g.edge? e).any (·.dest == id))
    && n.outDegree == edges.countP (·.src == id)
    && n.inDegree == edges.countP (·.dest == id)

/-- The first node whose lists do not agree with the edges. -/
def adjacencyViolation? (g : Graph) : Option Violation :=
  let edges := g.edges.values
  g.liveNodes.findSome? fun (id, n) =>
    if g.adjacencyAgrees edges id n then none else some (.adjacency n.name)

/-- A counter that does not count. -/
def counterViolation? (g : Graph) : Option Violation :=
  if g.nodes.values.length = g.nodes.live ∧ g.edges.values.length = g.edges.live then none
  else some .counters

/-- The first disagreement. -/
def violation? (g : Graph) : Option Violation :=
  (nodeViolation? [] g.nodes.values).or <|
    (g.edgeViolation? [] g.liveEdges).or <|
      g.adjacencyViolation?.or g.counterViolation?

/-- The parts of the graph agree. -/
def audit (g : Graph) : Except GraphError Unit :=
  match g.violation? with
  | some v => .error (.invariant v)
  | none => .ok ()

end Graph

end PatternGraph
