/-
  PatternGraph.Graph.Acceptance

  Whether a walk may be added to a graph.  All is asked before the graph
  changes: the relationships one after the other, then the budgets.
-/
import PatternGraph.Edit.Basic
import PatternGraph.Path.Walk

namespace PatternGraph

/-- The hop range of a relationship does not start above its end. -/
def PathEdge.checkRange (e : PathEdge) : Except GraphError Unit :=
  match e.hops.inverted? with
  | some (start, stop) => .error (.invalidHopRange e.name start stop)
  | none => .ok ()

namespace Graph

/-- The name is free for an edge, in the graph and among those seen on the walk. -/
def freshEdgeName (g : Graph) (seen : List String) (name : String) : Except GraphError Unit :=
  if seen.contains name then .error (.duplicateEdge name) else g.freeEdgeName name

/-- Each relationship is new, has a sound range and few enough types. -/
def acceptEdges (g : Graph) : (seen : List String) → List PathEdge → Except GraphError Unit
  | _, [] => .ok ()
  | seen, e :: rest => do
    g.freshEdgeName seen e.name
    e.checkRange
    g.roomForTypes e.types.length
    g.acceptEdges (e.name :: seen) rest

/-- The names of a walk's nodes that the graph does not bind, each once, in order. -/
def newNodeNames (g : Graph) (w : Walk) : List String :=
  ((w.nodes.map PathNode.name).filter (!g.hasNode ·)).eraseDups

/-- The walk may be added. -/
def accept (g : Graph) (w : Walk) : Except GraphError Unit := do
  g.acceptEdges [] w.edges
  g.roomForNodes (g.newNodeNames w).length
  g.roomForEdges w.steps.length

end Graph

end PatternGraph
