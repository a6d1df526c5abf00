/-
  PatternGraph.Graph.Projection

  A graph as a square boolean matrix.  Rows and columns are the nodes in order;
  every edge sets the entry of its source and destination, so parallel edges
  share one, and an edge without direction is not mirrored.
-/
import PatternGraph.Graph.Copy
import PatternGraph.Matrix.Backend

namespace PatternGraph.Graph

/-- The names of the nodes, numbered in order. -/
def ordinals (g : Graph) : List (String × Nat) := (g.nodes.values.map Node.name).zipIdx

/-- The answer of a backend, a refusal turned into an error of the graph. -/
def ofBackend {α ε : Type} (describe : ε → String) : Except ε α → Except GraphError α
  | .ok a => .ok a
  | .error e => .error (.matrix (describe e))

/-- Sets the entries of edges one after the other. -/
def setEntries {M ε : Type} (backend : MatrixBackend M ε) : M → List Edge → Except GraphError M
  | m, [] => .ok m
  | m, e :: rest => do
    let m ← ofBackend backend.describe (backend.setEntry m e.src.index e.dest.index)
    setEntries backend m rest

/-- The matrix of the graph.  In a copy the slot of a node is its number. -/
def toMatrix {M ε : Type} (backend : MatrixBackend M ε) (g : Graph) : Except GraphError M := do
  let copy := g.compact
  let m ← ofBackend backend.describe (backend.zero copy.nodeCount copy.nodeCount)
  setEntries backend m copy.edges.values

end PatternGraph.Graph
