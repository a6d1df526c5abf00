/-
  PatternGraph.Proofs.Reversal

  Turning an edge round keeps a graph well formed.  The lists of all nodes are
  first those of the graph without the edge, and then the edge is listed again
  at its ends with the sides exchanged.
-/
import PatternGraph.Edit.Reverse
import PatternGraph.Proofs.Removal

namespace PatternGraph.Graph

variable {g : Graph} {id : EdgeId} {e : Edge}

theorem edge?_turnEdge (h : g.edge? id = some e) (i : EdgeId) :
    (g.turnEdge id e).edge? i = if i = id then some e.reversed else g.edge? i := by
  have hget : (g.turnEdge id e).edge? i = _ := Slots.get?_modify g.edges id.index i.index _
  rw [hget]
  by_cases hi : i = id
  · subst hi
    have hcell : g.edges.get? i.index = some e := h
    simp [hcell]
  · have hne : i.index ≠ id.index := fun heq => hi (EdgeId.ext heq)
    rw [if_neg hne, if_neg hi]
    rfl

/-- An edge that is turned round keeps its slot. -/
theorem sizes_turnEdge (g : Graph) (id : EdgeId) (e : Edge) :
    (g.turnEdge id e).nodes.size = g.nodes.size ∧ (g.turnEdge id e).edges.size = g.edges.size := by
  simp [Graph.turnEdge, link, unlink, modifyNode]

theorem counts_turnEdge (g : Graph) (id : EdgeId) (e : Edge) :
    (g.turnEdge id e).nodeCount = g.nodeCount ∧ (g.turnEdge id e).edgeCount = g.edgeCount := by
  simp [Graph.turnEdge, link, unlink, modifyNode, nodeCount, edgeCount, Slots.modify]

theorem limits_turnEdge (g : Graph) (id : EdgeId) (e : Edge) :
    (g.turnEdge id e).limits = g.limits := by
  simp [Graph.turnEdge]

theorem WellFormed.node?_turnEdge (wf : g.WellFormed) (h : g.edge? id = some e) (x : NodeId) :
    (g.turnEdge id e).node? x = (g.node? x).map fun n =>
      { n.keeping (· != id) with
        outgoing := if x = e.dest then (n.outgoing.filter (· != id)).push id
          else n.outgoing.filter (· != id)
        incoming := if x = e.src then (n.incoming.filter (· != id)).push id
          else n.incoming.filter (· != id) } := by
  have hunlink : (g.unlink id e.src e.dest).node? x = (g.node? x).map (·.keeping (· != id)) := by
    rw [← wf.node?_dropEdge id x, Graph.dropEdge, h]
    rfl
  refine (node?_link _ id e.dest e.src x).trans ?_
  refine (congrArg _ hunlink).trans ?_
  rw [Option.map_map]
  rfl

theorem hasEnd_turnEdge (h : g.edge? id = some e) {side : Edge → NodeId} {x : NodeId}
    {i : EdgeId} : (g.turnEdge id e).HasEnd side x i ↔
      x = side e.reversed ∧ i = id ∨ i ≠ id ∧ g.HasEnd side x i := by
  rw [HasEnd, edge?_turnEdge h]
  by_cases hi : i = id <;> simp [hi, HasEnd, eq_comm]

/-- An edge may be turned round. -/
theorem WellFormed.turnEdge (wf : g.WellFormed) (h : g.edge? id = some e) :
    (g.turnEdge id e).WellFormed := by
  -- the edge behind any handle is the old one up to the order of its ends
  have edge_of : ∀ {i d}, (g.turnEdge id e).edge? i = some d →
      ∃ c, g.edge? i = some c ∧ c.name = d.name ∧
        (g.node? d.src).isSome ∧ (g.node? d.dest).isSome := by
    intro i d hd
    rw [edge?_turnEdge h] at hd
    split at hd
    next hi =>
      cases hd
      exact ⟨e, hi ▸ h, rfl, wf.dest_isSome h, wf.src_isSome h⟩
    next => exact ⟨d, hd, rfl, wf.src_isSome hd, wf.dest_isSome hd⟩
  apply WellFormed.of_lists
  case hnode =>
    intro i j m n hm hn hname
    rw [wf.node?_turnEdge h, Option.map_eq_some_iff] at hm hn
    obtain ⟨m', hm', rfl⟩ := hm
    obtain ⟨n', hn', rfl⟩ := hn
    exact wf.node_name_inj hm' hn' hname
  case hedge =>
    intro i j c d hc hd hname
    obtain ⟨c', hc', hcn, -⟩ := edge_of hc
    obtain ⟨d', hd', hdn, -⟩ := edge_of hd
    exact wf.edge_name_inj hc' hd' (by rw [hcn, hdn, hname])
  case hends =>
    intro i d hd
    rw [wf.node?_turnEdge h, wf.node?_turnEdge h, Option.isSome_map, Option.isSome_map]
    obtain ⟨-, -, -, hsrc, hdest⟩ := edge_of hd
    exact ⟨hsrc, hdest⟩
  case hlists =>
    intro x n hn
    rw [wf.node?_turnEdge h, Option.map_eq_some_iff] at hn
    obtain ⟨m, hm, rfl⟩ := hn
    -- the edge was taken off both lists before it is appended
    have hgone : ∀ set : EdgeId → Prop, ¬ ((id != id) = true ∧ set id) := by
      simp
    refine ⟨(((wf.lists_outgoing hm).filter (· != id)).pushIf (hgone _)).congr fun i => ?_,
      (((wf.lists_incoming hm).filter (· != id)).pushIf (hgone _)).congr fun i => ?_⟩ <;>
      rw [hasEnd_turnEdge h, bne_iff_ne] <;> rfl
  case hnodes =>
    exact (((wf.nodes_counted.modify _ _).modify _ _).modify _ _).modify _ _
  case hedges => exact wf.edges_counted.modify _ _

end PatternGraph.Graph
