/-
  PatternGraph.Edit.Extend

  Adding a path to a graph.  Nodes are matched by name and made where there is
  none; every relationship makes a new edge.  The path is read as a walk, its
  anonymous names are freed from clashes, and the whole walk is accepted
  before the graph is touched.
-/
import PatternGraph.Edit.Insert
import PatternGraph.Graph.Acceptance
import PatternGraph.Graph.Renaming

namespace PatternGraph

/-- The edge that a relationship makes between a left and a right node. -/
def PathEdge.edgeBetween (c : Catalog) (e : PathEdge) (left right : NodeId) : Edge :=
  let (src, dest) := e.direction.orient left right
  let plain : Edge := { name := e.name, src, dest }
  ((plain.withFlag (e.direction == .both)).withHops e.hops).withTypes
    (e.types.map fun name => (name, c.typeRef name))

namespace Edit

/-- The node of that name, made if there is none; a written label goes to a node that has
none yet. -/
def joinNode (c : Catalog) (n : PathNode) : Edit NodeId := do
  let found ← ask (·.nodeNamed? n.name)
  let id ← match found with
    | some id => pure id
    | none => newNode (.bare n.name)
  match n.label with
  | some label => discard <| setLabel c id label
  | none => pure ()
  return id

/-- Adds one step of a walk from the node on its left; the node on its right is the result. -/
def addStep (c : Catalog) (left : NodeId) (s : Step) : Edit NodeId := do
  let right ← joinNode c s.target
  discard <| newEdge (s.edge.edgeBetween c left right)
  return right

/-- Adds the steps of a walk from a node on. -/
def addSteps (c : Catalog) : NodeId → List Step → Edit Unit
  | _, [] => pure ()
  | left, s :: rest => do
    let right ← addStep c left s
    addSteps c right rest

/-- Adds a walk that is accepted. -/
def addWalk (c : Catalog) (w : Walk) : Edit Unit := do
  let start ← joinNode c w.start
  addSteps c start w.steps

/-- Adds a path. -/
def addPath (c : Catalog) (p : Path) : Edit Unit := do
  let w ← check fun g =>
    match p.walk? with
    | .ok w => .ok (g.renamed w)
    | .error defect => .error (.malformedPath defect)
  check (·.accept w)
  addWalk c w

/-- Adds paths one after the other. -/
def addPaths (c : Catalog) : List Path → Edit Unit
  | [] => pure ()
  | p :: rest => do
    addPath c p
    addPaths c rest

end Edit

/-- The graph of a whole statement, path by path. -/
def Graph.ofPaths (c : Catalog) (limits : Limits) (paths : List Path) : Except GraphError Graph :=
  match Edit.addPaths c paths (.empty limits) with
  | .ok _ g => .ok g
  | .error e _ => .error e

end PatternGraph
