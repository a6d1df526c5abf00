/-
  PatternGraph.Graph.WellFormed

  When the parts of a graph agree.  Names identify, edges end at live nodes, a
  node lists exactly the edges that leave it and those that enter it, each
  once, and the counters count.

  The statement speaks of handles and of what stands behind them.  It says
  nothing of the order of the lists and nothing of vacated slots, so it is the
  same for a graph and for its copies.
-/
import PatternGraph.Graph.Lemmas

namespace PatternGraph

/-- The parts of the graph agree. -/
structure Graph.WellFormed (g : Graph) : Prop where
  /-- No two live nodes bear one name. -/
  node_name_inj : ∀ {i j : NodeId} {m n : Node},
    g.node? i = some m → g.node? j = some n → m.name = n.name → i = j
  /-- No two live edges bear one name. -/
  edge_name_inj : ∀ {i j : EdgeId} {d e : Edge},
    g.edge? i = some d → g.edge? j = some e → d.name = e.name → i = j
  /-- Edges start at live nodes. -/
  src_live : ∀ {i : EdgeId} {e : Edge}, g.edge? i = some e → ∃ n, g.node? e.src = some n
  /-- Edges lead to live nodes. -/
  dest_live : ∀ {i : EdgeId} {e : Edge}, g.edge? i = some e → ∃ n, g.node? e.dest = some n
  /-- A node lists the edges that leave it and no others. -/
  mem_outgoing : ∀ {x : NodeId} {n : Node}, g.node? x = some n →
    ∀ {i : EdgeId}, i ∈ n.outgoing ↔ ∃ e, g.edge? i = some e ∧ e.src = x
  /-- A node lists the edges that enter it and no others. -/
  mem_incoming : ∀ {x : NodeId} {n : Node}, g.node? x = some n →
    ∀ {i : EdgeId}, i ∈ n.incoming ↔ ∃ e, g.edge? i = some e ∧ e.dest = x
  /-- No edge is listed twice as leaving a node. -/
  outgoing_nodup : ∀ {x : NodeId} {n : Node}, g.node? x = some n → n.outgoing.toList.Nodup
  /-- No edge is listed twice as entering a node. -/
  incoming_nodup : ∀ {x : NodeId} {n : Node}, g.node? x = some n → n.incoming.toList.Nodup
  /-- The counter of nodes is their number. -/
  node_count : g.nodes.live = g.nodes.values.length
  /-- The counter of edges is their number. -/
  edge_count : g.edges.live = g.edges.values.length

namespace Graph.WellFormed

variable {g : Graph}

/-- The graph without nodes is well formed: there is nothing to disagree. -/
theorem empty (limits : Limits) : (Graph.empty limits).WellFormed where
  node_name_inj h := by simp at h
  edge_name_inj h := by simp at h
  src_live h := by simp at h
  dest_live h := by simp at h
  mem_outgoing h := by simp at h
  mem_incoming h := by simp at h
  outgoing_nodup h := by simp at h
  incoming_nodup h := by simp at h
  node_count := rfl
  edge_count := rfl

/-- A live node is found by its name. -/
theorem nodeNamed?_name (wf : g.WellFormed) {id : NodeId} {n : Node} (h : g.node? id = some n) :
    g.nodeNamed? n.name = some id := by
  cases hfound : g.nodeNamed? n.name with
  | none => exact absurd rfl (nodeNamed?_eq_none.mp hfound id n h)
  | some other =>
    obtain ⟨m, hm, hname⟩ := node?_of_nodeNamed? hfound
    rw [wf.node_name_inj hm h hname]

/-- Both ends of a live edge have names. -/
theorem endNames?_isSome (wf : g.WellFormed) {id : EdgeId} {e : Edge} (h : g.edge? id = some e) :
    (g.endNames? e).isSome := by
  obtain ⟨a, ha⟩ := wf.src_live h
  obtain ⟨b, hb⟩ := wf.dest_live h
  simp [endNames?, nameOf?, ha, hb]

end Graph.WellFormed

end PatternGraph
