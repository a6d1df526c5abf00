/-
  PatternGraph.Edit.Reverse

  Turning an edge round.  The edge keeps its slot, name and types; at its two
  ends it goes to the end of the lists.
-/
import PatternGraph.Edit.Basic

namespace PatternGraph

/-- Turns round the edge `e` that stands behind a handle. -/
def Graph.turnEdge (g : Graph) (id : EdgeId) (e : Edge) : Graph :=
  let g := g.unlink id e.src e.dest
  { g with edges := g.edges.modify id.index Edge.reversed }.link id e.dest e.src

/-- Exchanges the ends of an edge. -/
def Edit.reverseEdge (id : EdgeId) : Edit Unit := do
  let e ← check (·.liveEdge id)
  modify (·.turnEdge id e)

end PatternGraph
