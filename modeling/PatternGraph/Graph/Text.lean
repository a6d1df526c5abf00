/-
  PatternGraph.Graph.Text

  The text of a graph: the nodes on one line, then each edge on a line of its
  own.
-/
import PatternGraph.Graph.Basic

namespace PatternGraph.Graph

/-- The name of a node; a question mark where the handle is stale. -/
def endText (g : Graph) (id : NodeId) : String := (g.nameOf? id).getD "?"

/-- An edge between the names of its ends. -/
def edgeText (g : Graph) (e : Edge) : String := e.textBetween (g.endText e.src) (g.endText e.dest)

/-- The edge of a handle as text, also where the handle is stale. -/
def handleText (g : Graph) (id : EdgeId) : String :=
  match g.edge? id with
  | some e => g.edgeText e
  | none => "<stale " ++ toString id ++ ">"

/-- The line of the nodes. -/
def nodeLine (g : Graph) : String := ", ".intercalate (g.nodes.values.map Node.text)

/-- The graph as text. -/
def text (g : Graph) : String := "\n".intercalate (g.nodeLine :: g.edges.values.map g.edgeText)

end PatternGraph.Graph
