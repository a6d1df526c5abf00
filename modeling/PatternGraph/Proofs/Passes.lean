/-
  PatternGraph.Proofs.Passes

  A walk in three passes.  A path is added step by step: a node is found or
  made, it gets a label if it has none, and the edge of the step follows.  The
  graph that comes out is the one that gets all new nodes first, then all
  labels, each name that of its first labelled occurrence, and all edges last.

  The induction is on the steps.  An edge may wait until the nodes of the later
  steps are there, since these take other slots, and until their labels are
  given, since it finds its ends by their names.
-/
import PatternGraph.Proofs.Tidy

namespace PatternGraph

/-! ## Labels that are given all at once -/

/-- The label of the first node in the list that has the name and a label. -/
def firstLabel? (ns : List PathNode) (name : String) : Option String :=
  ns.findSome? fun n => if n.name = name then n.label else none

/-- The node with the first label that the list has for its name, if it has no label yet. -/
def Node.settle (c : Catalog) (ns : List PathNode) (n : Node) : Node :=
  if n.isLabelled then n else
    match firstLabel? ns n.name with
    | none => n
    | some label => n.withLabel label (c.labelRef label)

variable {c : Catalog} {ns : List PathNode} {n : Node}

theorem Node.settle_of_none (h : firstLabel? ns n.name = none) : n.settle c ns = n := by
  rw [settle, h]
  split <;> rfl

theorem Node.name_settle (c : Catalog) (ns : List PathNode) (n : Node) :
    (n.settle c ns).name = n.name := by
  unfold settle
  split
  · rfl
  · split <;> rfl

/-- A change that leaves name and label alone goes before the labels or after them. -/
theorem Node.settle_comm {f : Node → Node} (hname : (f n).name = n.name)
    (hlabelled : (f n).isLabelled = n.isLabelled)
    (hwith : ∀ label ref, (f n).withLabel label ref = f (n.withLabel label ref)) :
    (f n).settle c ns = f (n.settle c ns) := by
  rw [settle, settle, hname, hlabelled]
  split
  · rfl
  · split
    · rfl
    · exact hwith _ _

theorem Node.settle_addOutgoing (c : Catalog) (ns : List PathNode) (n : Node) (id : EdgeId) :
    (n.addOutgoing id).settle c ns = (n.settle c ns).addOutgoing id :=
  settle_comm (f := (·.addOutgoing id)) rfl rfl fun _ _ => rfl

theorem Node.settle_addIncoming (c : Catalog) (ns : List PathNode) (n : Node) (id : EdgeId) :
    (n.addIncoming id).settle c ns = (n.settle c ns).addIncoming id :=
  settle_comm (f := (·.addIncoming id)) rfl rfl fun _ _ => rfl

/-- Giving every node the first label that a list has for its name, if it has none. -/
def Recast.settle (c : Catalog) (ns : List PathNode) : Recast where
  node := Node.settle c ns
  edge e := e
  node_addOutgoing := Node.settle_addOutgoing c ns
  node_addIncoming := Node.settle_addIncoming c ns
  edge_src _ := rfl
  edge_dest _ := rfl

/-- The labels of a list of one are what is offered to the node of its name. -/
theorem Node.settle_singleton {m : PathNode} {label : String} (hlabel : m.label = some label)
    (n : Node) : n.settle c [m] = (Recast.offer c m.name label).node n := by
  cases hn : n.label <;> by_cases hname : m.name = n.name <;>
    simp [settle, firstLabel?, Recast.offer, isLabelled, hlabel, hn, hname, eq_comm]

namespace Graph

variable {g h : Graph} {left : NodeId} {name : String}

/-- The graph with all nodes of a walk: those that it lacks are made, and the labels are given. -/
def withWalkNodes (g : Graph) (c : Catalog) (ns : List PathNode) : Graph :=
  (g.withNodes ((g.newNames (ns.map PathNode.name)).map NodeContent.bare)).recast (.settle c ns)

theorem recast_eq_self {r : Recast} (hnode : ∀ n, r.node n = n) (hedge : ∀ e, r.edge e = e) :
    g.recast r = g := by
  have hnode' : r.node = id := funext hnode
  have hedge' : r.edge = id := funext hedge
  rw [recast, hnode', hedge', Slots.map_id, Slots.map_id]

/-! ## The nodes -/

/-- Finding or making a node adds it if its name is new. -/
theorem findOrMake_eq (g : Graph) (name : String) :
    (g.findOrMake name).2 = g.withNodes ((g.newNames [name]).map NodeContent.bare) := by
  unfold findOrMake
  cases hname : g.nodeNamed? name with
  | none =>
      have hnew : g.newNames [name] = [name] := by
        simp [newNames, hasNode, hname, List.eraseDups_cons]
      rw [hnew]
      rfl
  | some id =>
      have hnew : g.newNames [name] = [] := by simp [newNames, hasNode, hname]
      rw [hnew]
      rfl

/-- Joining one node is joining a list of one. -/
theorem WellFormed.joinNode_eq (wf : g.WellFormed) (c : Catalog) (n : PathNode) :
    (g.joinNode c n).2 = g.withWalkNodes c [n] := by
  have wfMade := wf.findOrMake n.name
  rw [withWalkNodes, List.map_cons, List.map_nil, ← findOrMake_eq, Graph.joinNode]
  cases hlabel : n.label with
  | none =>
      refine (recast_eq_self (fun m => Node.settle_of_none ?_) fun _ => rfl).symm
      simp [firstLabel?, hlabel]
  | some label =>
      have hsame : (Recast.offer c n.name label).node = (Recast.settle c [n]).node :=
        funext fun m => (Node.settle_singleton hlabel m).symm
      rw [wfMade.offerLabel_eq_recast (g.nameOf?_findOrMake n.name), recast, hsame]
      rfl

end Graph

end PatternGraph
