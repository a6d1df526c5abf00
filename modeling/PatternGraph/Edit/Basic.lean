/-
  PatternGraph.Edit.Basic

  Edits are actions on a graph that give a result or fail with a cause.  An edit
  that fails leaves a graph behind as well, so that what a failure does to the
  graph can be stated.  The checks that edits begin with only read the graph.
-/
import PatternGraph.Graph.Basic

namespace PatternGraph

/-- An action on a graph. -/
abbrev Edit := EStateM GraphError Graph

namespace Edit

variable {α : Type}

/-- Asks the graph and leaves it as it is, also when the answer is a failure. -/
def check (question : Graph → Except GraphError α) : Edit α := fun g =>
  match question g with
  | .ok a => .ok a g
  | .error e => .error e g

/-- Reads something off the graph and leaves it as it is. -/
def ask (question : Graph → α) : Edit α := fun g => .ok (question g) g

/-- The result of an edit, apart from the graph. -/
def outcome (edit : Edit α) (g : Graph) : Except GraphError α :=
  match edit g with
  | .ok a _ => .ok a
  | .error e _ => .error e

/-- The graph that an edit leaves behind, whether it succeeds or fails. -/
def after (edit : Edit α) (g : Graph) : Graph :=
  match edit g with
  | .ok _ g' => g'
  | .error _ g' => g'

/-! ## Running edits -/

/-- The second edit runs on what the first leaves behind, unless the first fails. -/
theorem bind_apply {β : Type} (edit : Edit α) (next : α → Edit β) (g : Graph) :
    (edit >>= next) g =
      match edit g with
      | .ok a g' => next a g'
      | .error e g' => .error e g' := by
  show EStateM.bind edit next g = _
  unfold EStateM.bind
  cases edit g <;> rfl

theorem pure_apply (a : α) (g : Graph) : (pure a : Edit α) g = .ok a g :=
  rfl

end Edit

namespace Graph

/-! ## Questions that edits ask -/

/-- The name is free for a node. -/
def freeNodeName (g : Graph) (name : String) : Except GraphError Unit :=
  if g.hasNode name then .error (.duplicateNode name) else .ok ()

/-- The name is free for an edge. -/
def freeEdgeName (g : Graph) (name : String) : Except GraphError Unit :=
  if g.hasEdge name then .error (.duplicateEdge name) else .ok ()

/-- The node of a handle that must not be stale. -/
def liveNode (g : Graph) (id : NodeId) : Except GraphError Node :=
  match g.node? id with
  | some n => .ok n
  | none => .error (.unknownNode id)

/-- The edge of a handle that must not be stale. -/
def liveEdge (g : Graph) (id : EdgeId) : Except GraphError Edge :=
  match g.edge? id with
  | some e => .ok e
  | none => .error (.unknownEdge id)

/-- So many more nodes are within budget. -/
def roomForNodes (g : Graph) (extra : Nat) : Except GraphError Unit :=
  let count := g.nodeCount + extra
  if g.limits.maxNodes < count then .error (.tooLarge .nodes count g.limits.maxNodes) else .ok ()

/-- So many more edges are within budget. -/
def roomForEdges (g : Graph) (extra : Nat) : Except GraphError Unit :=
  let count := g.edgeCount + extra
  if g.limits.maxEdges < count then .error (.tooLarge .edges count g.limits.maxEdges) else .ok ()

/-- So many types on one edge are within budget. -/
def roomForTypes (g : Graph) (count : Nat) : Except GraphError Unit :=
  let max := g.limits.maxTypesPerEdge
  if max < count then .error (.tooLarge .typesOnEdge count max) else .ok ()

end Graph

/-- The word that numbers the next of so many slots.  A slot is never given out again, so the words
below the limit run out. -/
def nextSlot (size : Nat) (slots : Budget) : Except GraphError UInt32 :=
  if size < slotLimit then .ok (.ofNat size) else .error (.tooLarge slots (size + 1) slotLimit)

end PatternGraph
