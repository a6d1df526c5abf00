/-
  PatternGraph.Graph.Basic

  The graph of a pattern: slots of nodes, slots of edges, and budgets.  Edges
  and adjacency lists hold handles, never the entities themselves, so taking an
  entity out leaves handles behind that read as nothing.  A name names at most
  one node and at most one edge; across graphs it is the name that identifies.
-/
import PatternGraph.Error
import PatternGraph.Graph.Edge
import PatternGraph.Graph.Node
import PatternGraph.Limits
import PatternGraph.Slots

namespace PatternGraph

/-- The graph of a pattern. -/
structure Graph where
  nodes : Slots Node
  edges : Slots Edge
  limits : Limits
deriving DecidableEq

namespace Graph

/-- The graph without nodes under the given budgets. -/
def empty (limits : Limits) : Graph := ⟨.empty, .empty, limits⟩

/-! ## Counting -/

/-- Number of nodes. -/
def nodeCount (g : Graph) : Nat := g.nodes.live

/-- Number of edges. -/
def edgeCount (g : Graph) : Nat := g.edges.live

/-- Number of nodes and edges. -/
def entityCount (g : Graph) : Nat := g.nodeCount + g.edgeCount

/-- There are no nodes, and so no edges. -/
def isEmpty (g : Graph) : Bool := g.nodeCount == 0

/-! ## Looking up by handle -/

/-- The node of a handle, unless the handle is stale. -/
def node? (g : Graph) (id : NodeId) : Option Node := g.nodes.get? id.index

/-- The edge of a handle, unless the handle is stale. -/
def edge? (g : Graph) (id : EdgeId) : Option Edge := g.edges.get? id.index

/-- The nodes with their handles, in the order of insertion. -/
def liveNodes (g : Graph) : List (NodeId × Node) := g.nodes.entries.map fun (i, n) => (⟨i⟩, n)

/-- The edges with their handles, in the order of insertion. -/
def liveEdges (g : Graph) : List (EdgeId × Edge) := g.edges.entries.map fun (i, e) => (⟨i⟩, e)

/-- The name of the node of a handle. -/
def nameOf? (g : Graph) (id : NodeId) : Option String := (g.node? id).map Node.name

/-- The names of an edge's source and destination. -/
def endNames? (g : Graph) (e : Edge) : Option (String × String) :=
  match g.nameOf? e.src, g.nameOf? e.dest with
  | some src, some dest => some (src, dest)
  | _, _ => none

/-! ## Looking up by name -/

/-- The handle of the node that bears a name. -/
def nodeNamed? (g : Graph) (name : String) : Option NodeId :=
  (g.nodes.findIdx? (·.name == name)).map NodeId.mk

/-- The handle of the edge that bears a name. -/
def edgeNamed? (g : Graph) (name : String) : Option EdgeId :=
  (g.edges.findIdx? (·.name == name)).map EdgeId.mk

/-- A node bears the name. -/
def hasNode (g : Graph) (name : String) : Bool := (g.nodeNamed? name).isSome

/-- An edge bears the name. -/
def hasEdge (g : Graph) (name : String) : Bool := (g.edgeNamed? name).isSome

/-- A node or an edge bears the name. -/
def binds (g : Graph) (name : String) : Bool := g.hasNode name || g.hasEdge name

/-- What bears the name; a node goes before an edge. -/
def binding (g : Graph) (name : String) : Binding :=
  if g.hasNode name then .node
  else if g.hasEdge name then .edge
  else .unknown

/-- The handle of the node that has to bear a name. -/
def nodeNamed (g : Graph) (name : String) : Except GraphError NodeId :=
  match g.nodeNamed? name with
  | some id => .ok id
  | none => .error (.unknownName name .node)

/-- The handle of the edge that has to bear a name. -/
def edgeNamed (g : Graph) (name : String) : Except GraphError EdgeId :=
  match g.edgeNamed? name with
  | some id => .ok id
  | none => .error (.unknownName name .edge)

/-! ## Neighbours -/

/-- The nodes at the other end of a node's edges, whatever their direction: where its
outgoing edges lead, then where its incoming edges come from.  A node that several edges
lead to is listed as often. -/
def neighbors (g : Graph) (id : NodeId) : List NodeId :=
  match g.node? id with
  | none => []
  | some n =>
    n.outgoing.toList.filterMap (fun e => (g.edge? e).map Edge.dest)
      ++ n.incoming.toList.filterMap (fun e => (g.edge? e).map Edge.src)

/-! ## Growing and shrinking

These change slots and adjacency together and check nothing. -/

/-- Puts a node into the next slot. -/
def insertNode (g : Graph) (n : Node) : Graph := { g with nodes := g.nodes.push n }

/-- Changes the node of a handle. -/
def modifyNode (g : Graph) (id : NodeId) (f : Node → Node) : Graph :=
  { g with nodes := g.nodes.modify id.index f }

/-- Lists an edge at its two ends. -/
def link (g : Graph) (id : EdgeId) (src dest : NodeId) : Graph :=
  (g.modifyNode src (·.addOutgoing id)).modifyNode dest (·.addIncoming id)

/-- Takes an edge off the lists of two nodes. -/
def unlink (g : Graph) (id : EdgeId) (src dest : NodeId) : Graph :=
  (g.modifyNode src (·.without id)).modifyNode dest (·.without id)

/-- Puts an edge into the next slot and connects it. -/
def insertEdge (g : Graph) (e : Edge) : Graph :=
  let id : EdgeId := ⟨g.edges.size⟩
  { g with edges := g.edges.push e }.link id e.src e.dest

/-- Takes out the edge of a handle; a stale handle changes nothing. -/
def dropEdge (g : Graph) (id : EdgeId) : Graph :=
  match g.edge? id with
  | none => g
  | some e => { g with edges := g.edges.vacate id.index }.unlink id e.src e.dest

/-- Takes out the node of a handle after all its edges.  The node is given back as it stands
then; a stale handle gives nothing. -/
def extractNode? (g : Graph) (id : NodeId) : Option (Node × Graph) :=
  match g.node? id with
  | none => none
  | some n =>
    let g := n.incident.foldl dropEdge g
    (g.node? id).map fun left => (left, { g with nodes := g.nodes.vacate id.index })

end Graph

end PatternGraph
