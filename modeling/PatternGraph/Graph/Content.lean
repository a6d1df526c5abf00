/-
  PatternGraph.Graph.Content

  What a graph says apart from its handles: of every node the name and label,
  of every edge the name, types, hops and the names of its ends.  Two graphs
  whose slots differ can say the same, as a graph and its copy do.
-/
import PatternGraph.Graph.Basic

namespace PatternGraph

/-- What a node says apart from its edges. -/
structure NodeContent where
  name : String
  label : Option String
  labelRef : SchemaRef LabelId
deriving DecidableEq

/-- What an edge says, its ends given by name; an end that is no live node has no name. -/
structure EdgeContent where
  name : String
  types : List String
  typeRefs : List (SchemaRef TypeId)
  bidirectional : Bool
  hops : Hops
  src : Option String
  dest : Option String
deriving DecidableEq

/-- What the node says apart from its edges. -/
def Node.content (n : Node) : NodeContent where
  name := n.name
  label := n.label
  labelRef := n.labelRef

namespace Graph

/-- What an edge of the graph says. -/
def edgeContent (g : Graph) (e : Edge) : EdgeContent where
  name := e.name
  types := e.types
  typeRefs := e.typeRefs
  bidirectional := e.bidirectional
  hops := e.hops
  src := g.nameOf? e.src
  dest := g.nameOf? e.dest

/-- What the nodes say, in order. -/
def nodeContents (g : Graph) : List NodeContent := g.nodes.values.map Node.content

/-- What the edges say, in order. -/
def edgeContents (g : Graph) : List EdgeContent := g.edges.values.map g.edgeContent

end Graph

/-! ## Edges do not matter to what a node says -/

@[simp] theorem Node.content_addOutgoing (n : Node) (id : EdgeId) :
    (n.addOutgoing id).content = n.content :=
  rfl

@[simp] theorem Node.content_addIncoming (n : Node) (id : EdgeId) :
    (n.addIncoming id).content = n.content :=
  rfl

@[simp] theorem Node.content_without (n : Node) (id : EdgeId) :
    (n.without id).content = n.content :=
  rfl

@[simp] theorem Node.content_isolated (n : Node) : n.isolated.content = n.content := rfl

end PatternGraph
