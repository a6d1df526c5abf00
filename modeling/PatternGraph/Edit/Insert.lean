/-
  PatternGraph.Edit.Insert

  Adding single nodes, labels and edges.
-/
import PatternGraph.Edit.Basic
import PatternGraph.Schema.Catalog

namespace PatternGraph.Edit

/-- Puts a node into the next slot, if there is one, and gives its handle. -/
def newNode (n : Node) : Edit NodeId := do
  let slot ← check (nextSlot ·.nodes.size .nodeSlots)
  modify (·.insertNode n)
  return ⟨slot.toNat⟩

/-- Puts an edge into the next slot, if there is one, connects it, and gives its handle. -/
def newEdge (e : Edge) : Edit EdgeId := do
  let slot ← check (nextSlot ·.edges.size .edgeSlots)
  modify (·.insertEdge e)
  return ⟨slot.toNat⟩

/-- Adds a node without a label. -/
def addNode (name : String) : Edit NodeId := do
  check (·.freeNodeName name)
  check (·.roomForNodes 1)
  newNode (.bare name)

/-- Gives a node a label, looked up in the catalog.  A node keeps the first label that it
gets; the answer says whether this one was it. -/
def setLabel (c : Catalog) (id : NodeId) (label : String) : Edit Bool := do
  let n ← check (·.liveNode id)
  if n.isLabelled then return false
  modify (·.modifyNode id (·.withLabel label (c.labelRef label)))
  return true

/-- Adds an edge between two nodes of the graph. -/
def addEdge (e : Edge) : Edit EdgeId := do
  check (·.freeEdgeName e.name)
  discard <| check (·.liveNode e.src)
  discard <| check (·.liveNode e.dest)
  check (·.roomForEdges 1)
  check (·.roomForTypes e.types.length)
  newEdge e

end PatternGraph.Edit
