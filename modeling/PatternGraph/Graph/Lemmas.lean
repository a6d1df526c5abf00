/-
  PatternGraph.Graph.Lemmas

  What growing and shrinking a graph does to the entities behind its handles.
  A graph is seen through `node?` and `edge?`: for each operation there is one
  law for the nodes and one for the edges, and nothing else needs to look into
  the slots.

  Adjacency lists are changed at two places only: `link` appends the handle of
  an edge at its two ends, and `unlink` filters it out of all lists of two
  nodes.  A loop has one node at both ends, which is why the laws of `link`
  name the two lists of a node apart.
-/
import PatternGraph.Graph.Basic

namespace PatternGraph.Graph

/-! ## Handles and slots -/

/-- A handle beyond the slots is stale. -/
theorem lt_size_of_node? {g : Graph} {id : NodeId} {n : Node} (h : g.node? id = some n) :
    id.index < g.nodes.size :=
  Slots.lt_size_of_get? h

theorem lt_size_of_edge? {g : Graph} {id : EdgeId} {e : Edge} (h : g.edge? id = some e) :
    id.index < g.edges.size :=
  Slots.lt_size_of_get? h

theorem mem_liveNodes {g : Graph} {id : NodeId} {n : Node} :
    (id, n) ∈ g.liveNodes ↔ g.node? id = some n := by
  unfold liveNodes
  constructor
  · intro h
    obtain ⟨⟨i, m⟩, hmem, heq⟩ := List.mem_map.mp h
    cases heq
    exact Slots.mem_entries.mp hmem
  · intro h
    exact List.mem_map.mpr ⟨(id.index, n), Slots.mem_entries.mpr h, rfl⟩

theorem mem_liveEdges {g : Graph} {id : EdgeId} {e : Edge} :
    (id, e) ∈ g.liveEdges ↔ g.edge? id = some e := by
  unfold liveEdges
  constructor
  · intro h
    obtain ⟨⟨i, m⟩, hmem, heq⟩ := List.mem_map.mp h
    cases heq
    exact Slots.mem_entries.mp hmem
  · intro h
    exact List.mem_map.mpr ⟨(id.index, e), Slots.mem_entries.mpr h, rfl⟩

/-! ## The empty graph -/

@[simp] theorem node?_empty (limits : Limits) (id : NodeId) : (empty limits).node? id = none :=
  Slots.get?_empty id.index

@[simp] theorem edge?_empty (limits : Limits) (id : EdgeId) : (empty limits).edge? id = none :=
  Slots.get?_empty id.index

/-! ## Names -/

/-- The node that is found by a name is live and bears it. -/
theorem node?_of_nodeNamed? {g : Graph} {name : String} {id : NodeId}
    (h : g.nodeNamed? name = some id) : ∃ n, g.node? id = some n ∧ n.name = name := by
  obtain ⟨i, hi, rfl⟩ := Option.map_eq_some_iff.mp h
  obtain ⟨⟨n, hn, hname⟩, _⟩ := Slots.findIdx?_eq_some hi
  exact ⟨n, hn, by simpa using hname⟩

theorem edge?_of_edgeNamed? {g : Graph} {name : String} {id : EdgeId}
    (h : g.edgeNamed? name = some id) : ∃ e, g.edge? id = some e ∧ e.name = name := by
  obtain ⟨i, hi, rfl⟩ := Option.map_eq_some_iff.mp h
  obtain ⟨⟨e, he, hname⟩, _⟩ := Slots.findIdx?_eq_some hi
  exact ⟨e, he, by simpa using hname⟩

/-- No node is found by a name exactly when no live node bears it. -/
theorem nodeNamed?_eq_none {g : Graph} {name : String} :
    g.nodeNamed? name = none ↔ ∀ id n, g.node? id = some n → n.name ≠ name := by
  unfold nodeNamed?
  rw [Option.map_eq_none_iff, Slots.findIdx?_eq_none]
  exact ⟨fun h id n hn => by simpa using h id.index n hn,
    fun h i n hn => by simpa using h ⟨i⟩ n hn⟩

theorem edgeNamed?_eq_none {g : Graph} {name : String} :
    g.edgeNamed? name = none ↔ ∀ id e, g.edge? id = some e → e.name ≠ name := by
  unfold edgeNamed?
  rw [Option.map_eq_none_iff, Slots.findIdx?_eq_none]
  exact ⟨fun h id e he => by simpa using h id.index e he,
    fun h i e he => by simpa using h ⟨i⟩ e he⟩

/-- A name is bound to a node exactly when a live node bears it. -/
theorem hasNode_iff {g : Graph} {name : String} :
    g.hasNode name = true ↔ ∃ id n, g.node? id = some n ∧ n.name = name := by
  unfold hasNode
  constructor
  · intro h
    obtain ⟨id, hid⟩ := Option.isSome_iff_exists.mp h
    exact ⟨id, node?_of_nodeNamed? hid⟩
  · rintro ⟨id, n, hn, hname⟩
    rw [Option.isSome_iff_ne_none]
    intro hnone
    exact nodeNamed?_eq_none.mp hnone id n hn hname

theorem hasEdge_iff {g : Graph} {name : String} :
    g.hasEdge name = true ↔ ∃ id e, g.edge? id = some e ∧ e.name = name := by
  unfold hasEdge
  constructor
  · intro h
    obtain ⟨id, hid⟩ := Option.isSome_iff_exists.mp h
    exact ⟨id, edge?_of_edgeNamed? hid⟩
  · rintro ⟨id, e, he, hname⟩
    rw [Option.isSome_iff_ne_none]
    intro hnone
    exact edgeNamed?_eq_none.mp hnone id e he hname

/-! ## A new node -/

theorem node?_insertNode (g : Graph) (n : Node) (id : NodeId) :
    (g.insertNode n).node? id = if id.index = g.nodes.size then some n else g.node? id :=
  Slots.get?_push g.nodes n id.index

@[simp] theorem edge?_insertNode (g : Graph) (n : Node) (id : EdgeId) :
    (g.insertNode n).edge? id = g.edge? id :=
  rfl

/-! ## A changed node -/

theorem node?_modifyNode (g : Graph) (id other : NodeId) (f : Node → Node) :
    (g.modifyNode id f).node? other =
      if other = id then (g.node? other).map f else g.node? other := by
  have hlaw := Slots.get?_modify g.nodes id.index other.index f
  simp only [node?, modifyNode, hlaw, NodeId.ext_iff]

@[simp] theorem edge?_modifyNode (g : Graph) (id : NodeId) (f : Node → Node) (e : EdgeId) :
    (g.modifyNode id f).edge? e = g.edge? e :=
  rfl

/-! ## Adjacency -/

theorem node?_link (g : Graph) (id : EdgeId) (src dest x : NodeId) :
    (g.link id src dest).node? x = (g.node? x).map fun n =>
      { n with
        outgoing := if x = src then n.outgoing.push id else n.outgoing
        incoming := if x = dest then n.incoming.push id else n.incoming } := by
  simp only [link, node?_modifyNode]
  cases g.node? x with
  | none => simp
  | some n =>
    cases n
    -- the two ends may be one node, so either list is asked about by itself
    by_cases hs : x = src <;> by_cases hd : x = dest <;>
      grind [Node.addOutgoing, Node.addIncoming]

@[simp] theorem edge?_link (g : Graph) (id : EdgeId) (src dest : NodeId) (e : EdgeId) :
    (g.link id src dest).edge? e = g.edge? e :=
  rfl

theorem node?_unlink (g : Graph) (id : EdgeId) (src dest x : NodeId) :
    (g.unlink id src dest).node? x = (g.node? x).map fun n =>
      if x = src ∨ x = dest then n.without id else n := by
  simp only [unlink, node?_modifyNode]
  cases g.node? x with
  | none => simp
  | some n =>
    by_cases hs : x = src <;> by_cases hd : x = dest <;>
      grind [Node.without_without]

@[simp] theorem edge?_unlink (g : Graph) (id : EdgeId) (src dest : NodeId) (e : EdgeId) :
    (g.unlink id src dest).edge? e = g.edge? e :=
  rfl

/-! ## A new edge -/

theorem edge?_insertEdge (g : Graph) (e : Edge) (id : EdgeId) :
    (g.insertEdge e).edge? id = if id.index = g.edges.size then some e else g.edge? id :=
  Slots.get?_push g.edges e id.index

theorem node?_insertEdge (g : Graph) (e : Edge) (x : NodeId) :
    (g.insertEdge e).node? x = (g.node? x).map fun n =>
      { n with
        outgoing := if x = e.src then n.outgoing.push ⟨g.edges.size⟩ else n.outgoing
        incoming := if x = e.dest then n.incoming.push ⟨g.edges.size⟩ else n.incoming } :=
  node?_link _ _ _ _ _

/-! ## An edge taken out -/

theorem dropEdge_of_stale {g : Graph} {id : EdgeId} (h : g.edge? id = none) :
    g.dropEdge id = g := by
  simp [dropEdge, h]

theorem edge?_dropEdge (g : Graph) (id other : EdgeId) :
    (g.dropEdge id).edge? other = if other = id then none else g.edge? other := by
  unfold dropEdge
  split
  next hstale =>
    -- nothing stood there before
    split
    next heq => rw [heq, hstale]
    next => rfl
  next e hlive =>
    simp only [edge?_unlink, EdgeId.ext_iff]
    exact Slots.get?_vacate g.edges id.index other.index

theorem node?_dropEdge {g : Graph} {id : EdgeId} {e : Edge} (h : g.edge? id = some e) (x : NodeId) :
    (g.dropEdge id).node? x = (g.node? x).map fun n =>
      if x = e.src ∨ x = e.dest then n.without id else n := by
  rw [dropEdge, h]
  exact node?_unlink _ _ _ _ _

/-! ## Budgets stay -/

@[simp] theorem limits_insertNode (g : Graph) (n : Node) : (g.insertNode n).limits = g.limits := rfl

@[simp] theorem limits_modifyNode (g : Graph) (id : NodeId) (f : Node → Node) :
    (g.modifyNode id f).limits = g.limits :=
  rfl

@[simp] theorem limits_link (g : Graph) (id : EdgeId) (src dest : NodeId) :
    (g.link id src dest).limits = g.limits :=
  rfl

@[simp] theorem limits_unlink (g : Graph) (id : EdgeId) (src dest : NodeId) :
    (g.unlink id src dest).limits = g.limits :=
  rfl

@[simp] theorem limits_insertEdge (g : Graph) (e : Edge) : (g.insertEdge e).limits = g.limits := rfl

@[simp] theorem limits_dropEdge (g : Graph) (id : EdgeId) : (g.dropEdge id).limits = g.limits := by
  unfold dropEdge
  split <;> rfl

end PatternGraph.Graph
