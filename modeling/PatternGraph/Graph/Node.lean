/-
  PatternGraph.Graph.Node

  Nodes of a graph.  A node lists the handles of the edges that enter it and of
  those that leave it, in the order in which they were connected; a loop stands
  in both lists.
-/
import PatternGraph.Graph.Handle
import PatternGraph.Schema.Ident
import PatternGraph.Schema.Ref

namespace PatternGraph

/-- A node of a graph. -/
structure Node where
  name : String
  label : Option String := none
  labelRef : SchemaRef LabelId := .absent
  incoming : Array EdgeId := #[]
  outgoing : Array EdgeId := #[]
deriving DecidableEq

namespace Node

/-- A node without a label and without edges. -/
def bare (name : String) : Node := { name }

/-- The node bears a label. -/
def isLabelled (n : Node) : Bool := n.label.isSome

/-- How many edges enter the node. -/
def inDegree (n : Node) : Nat := n.incoming.size

/-- How many edges leave the node. -/
def outDegree (n : Node) : Nat := n.outgoing.size

/-- How many ends of edges lie at the node; a loop has two. -/
def degree (n : Node) : Nat := n.inDegree + n.outDegree

/-- The handles of the edges that leave or enter the node. -/
def incident (n : Node) : List EdgeId := n.outgoing.toList ++ n.incoming.toList

/-- The node with a label and what the catalog says of it. -/
def withLabel (n : Node) (label : String) (ref : SchemaRef LabelId) : Node :=
  { n with label := some label, labelRef := ref }

/-- The node with one more edge that leaves it. -/
def addOutgoing (n : Node) (id : EdgeId) : Node := { n with outgoing := n.outgoing.push id }

/-- The node with one more edge that enters it. -/
def addIncoming (n : Node) (id : EdgeId) : Node := { n with incoming := n.incoming.push id }

/-- The node without an edge. -/
def without (n : Node) (id : EdgeId) : Node :=
  { n with incoming := n.incoming.filter (· != id), outgoing := n.outgoing.filter (· != id) }

/-- The node without its edges. -/
def isolated (n : Node) : Node := { n with incoming := #[], outgoing := #[] }

/-- The node as text: name and label in parentheses. -/
def text (n : Node) : String :=
  match n.label with
  | some label => "(" ++ n.name ++ ":" ++ label ++ ")"
  | none => "(" ++ n.name ++ ")"

/-- Taking an edge off the lists twice is the same as once. -/
theorem without_without (n : Node) (id : EdgeId) : (n.without id).without id = n.without id := by
  simp [without]

end Node

end PatternGraph
