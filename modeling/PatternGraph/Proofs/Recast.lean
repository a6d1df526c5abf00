/-
  PatternGraph.Proofs.Recast

  Changing what every entity of a graph says, each where it stands.  Looking
  names up once more in a catalog is such a change, and so is replacing names.
  A recast leaves handles and adjacency alone, so growing a graph and recasting
  it may be exchanged: what is added later is recast by itself.
-/
import PatternGraph.Proofs.Extension

namespace PatternGraph

namespace Slots

variable {α : Type}

theorem map_push (s : Slots α) (a : α) (f : α → α) : (s.push a).map f = (s.map f).push (f a) := by
  simp [map, push]

theorem map_map (s : Slots α) (f k : α → α) : (s.map f).map k = s.map (k ∘ f) := by
  simp [map]

/-- A change of one value goes before a change of all or after it. -/
theorem map_modify {f change change' : α → α} (h : ∀ a, f (change a) = change' (f a))
    (s : Slots α) (i : Nat) : (s.modify i change).map f = (s.map f).modify i change' := by
  refine ext_get? (by simp) ?_ rfl
  intro j
  rw [get?_map, get?_modify, get?_modify, get?_map]
  split
  · rw [Option.map_map, Option.map_map]
    exact congrArg (Option.map · _) (funext h)
  · rfl

/-- A value is found in the slot where it was before the change. -/
theorem findIdx?_map {f : α → α} {p q : α → Bool} (h : ∀ a, q (f a) = p a) (s : Slots α) :
    (s.map f).findIdx? q = s.findIdx? p := by
  rw [findIdx?, map, Array.findIdx?_map, findIdx?]
  congr 1
  funext cell
  cases cell with
  | none => rfl
  | some a => exact h a

end Slots

/-- A change of nodes and edges that leaves handles alone. -/
structure Recast where
  node : Node → Node
  edge : Edge → Edge
  node_addOutgoing : ∀ n id, node (n.addOutgoing id) = (node n).addOutgoing id
  node_addIncoming : ∀ n id, node (n.addIncoming id) = (node n).addIncoming id
  edge_src : ∀ e, (edge e).src = e.src
  edge_dest : ∀ e, (edge e).dest = e.dest

namespace Graph

/-- The graph with every node and every edge changed where it stands. -/
def recast (g : Graph) (r : Recast) : Graph :=
  { g with nodes := g.nodes.map r.node, edges := g.edges.map r.edge }

variable {g : Graph} {r : Recast} {a b : String}

/-- Two recasts in a row are one. -/
theorem recast_recast {s t : Recast} (hnode : ∀ n, s.node (r.node n) = t.node n)
    (hedge : ∀ e, s.edge (r.edge e) = t.edge e) : (g.recast r).recast s = g.recast t := by
  have hnodes : s.node ∘ r.node = t.node := funext hnode
  have hedges : s.edge ∘ r.edge = t.edge := funext hedge
  simp only [recast, Slots.map_map, hnodes, hedges]

/-! ## Growing -/

@[simp] theorem size_nodes_recast (g : Graph) (r : Recast) :
    (g.recast r).nodes.size = g.nodes.size :=
  Slots.size_map _ _

@[simp] theorem size_edges_recast (g : Graph) (r : Recast) :
    (g.recast r).edges.size = g.edges.size :=
  Slots.size_map _ _

theorem recast_insertNode (g : Graph) (r : Recast) (n : Node) :
    (g.insertNode n).recast r = (g.recast r).insertNode (r.node n) := by
  simp only [recast, insertNode, Slots.map_push]

theorem recast_modifyNode {f k : Node → Node} (h : ∀ n, r.node (f n) = k (r.node n))
    (g : Graph) (id : NodeId) :
    (g.modifyNode id f).recast r = (g.recast r).modifyNode id k := by
  simp only [recast, modifyNode, Slots.map_modify h]

theorem recast_link (g : Graph) (r : Recast) (id : EdgeId) (src dest : NodeId) :
    (g.link id src dest).recast r = (g.recast r).link id src dest := by
  rw [link, recast_modifyNode (k := (·.addIncoming id)) fun n => r.node_addIncoming n id,
    recast_modifyNode (k := (·.addOutgoing id)) fun n => r.node_addOutgoing n id]
  rfl

theorem recast_insertEdge (g : Graph) (r : Recast) (e : Edge) :
    (g.insertEdge e).recast r = (g.recast r).insertEdge (r.edge e) := by
  simp only [insertEdge, recast_link, r.edge_src, r.edge_dest, size_edges_recast]
  simp only [recast, Slots.map_push]

/-- A label may be offered before the recast, or after it under a catalog that gives the label
    the reference that the recast makes of it. -/
theorem recast_offerLabel {c c' : Catalog}
    (hlabelled : ∀ n, (r.node n).isLabelled = n.isLabelled)
    (hlabel : ∀ n label, r.node (n.withLabel label (c.labelRef label))
      = (r.node n).withLabel label (c'.labelRef label))
    (g : Graph) (id : NodeId) (label : Option String) :
    (g.offerLabel c id label).recast r = (g.recast r).offerLabel c' id label := by
  cases label with
  | none => rfl
  | some label =>
      refine recast_modifyNode (fun n => ?_) g id
      rw [hlabelled]
      split
      · rfl
      · exact hlabel n label

/-! ## Looking up -/

/-- A name is found where the name was that the recast turns into it and no other. -/
theorem nodeNamed?_recast (h : ∀ n, ((r.node n).name == b) = (n.name == a)) :
    (g.recast r).nodeNamed? b = g.nodeNamed? a := by
  rw [nodeNamed?, nodeNamed?]
  exact congrArg (Option.map NodeId.mk) (Slots.findIdx?_map h g.nodes)

theorem hasEdge_recast (h : ∀ e, ((r.edge e).name == b) = (e.name == a)) :
    (g.recast r).hasEdge b = g.hasEdge a := by
  rw [hasEdge, hasEdge, edgeNamed?, edgeNamed?, Option.isSome_map, Option.isSome_map]
  exact congrArg Option.isSome (Slots.findIdx?_map h g.edges)

theorem hasNode_recast (h : ∀ n, ((r.node n).name == b) = (n.name == a)) :
    (g.recast r).hasNode b = g.hasNode a := by
  rw [hasNode, hasNode, nodeNamed?_recast h]

end Graph

end PatternGraph
