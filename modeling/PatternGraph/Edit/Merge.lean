/-
  PatternGraph.Edit.Merge

  Copying into a graph what it lacks of another one.  A name that is bound
  stays as it is, however the other graph describes it.  Copied edges are
  connected to the nodes that bear the names of their ends.
-/
import PatternGraph.Edit.Insert

namespace PatternGraph

/-- What a merge has copied. -/
structure MergeTally where
  nodes : Nat
  edges : Nat
deriving DecidableEq

/-- Nothing was copied. -/
def MergeTally.isNoop (s : MergeTally) : Bool := s.nodes == 0 && s.edges == 0

namespace Graph

/-- The nodes of another graph whose names no node bears here. -/
def missingNodes (g other : Graph) : List Node :=
  other.nodes.values.filter (!g.hasNode ·.name)

/-- The edges of another graph whose names no edge bears here. -/
def missingEdges (g other : Graph) : List Edge :=
  other.edges.values.filter (!g.hasEdge ·.name)

end Graph

namespace Edit

/-- Copies an edge of another graph. -/
def copyEdge (other : Graph) (e : Edge) : Edit Unit := do
  let ends ← check fun _ =>
    match other.endNames? e with
    | some ends => .ok ends
    | none => .error (.invariant (.danglingCopy e.name))
  let src ← check (·.nodeNamed ends.1)
  let dest ← check (·.nodeNamed ends.2)
  discard <| newEdge (e.between src dest)

/-- Copies what the graph lacks of another one, if all of it is within budget. -/
def merge (other : Graph) : Edit MergeTally := do
  let nodes ← ask (·.missingNodes other)
  let edges ← ask (·.missingEdges other)
  check (·.roomForNodes nodes.length)
  check (·.roomForEdges edges.length)
  edges.forM fun e => check (·.roomForTypes e.types.length)
  nodes.forM fun n => discard <| newNode n.isolated
  edges.forM (copyEdge other)
  return ⟨nodes.length, edges.length⟩

end Edit

end PatternGraph
