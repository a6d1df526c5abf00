/-
  PatternGraph.Proofs.Content

  How operations change what a graph says.  Adjacency says nothing, a new
  entity is said at the end, and a subgraph says what its original says of the
  entities that stay.
-/
import Mathlib.Data.List.Nodup
import Mathlib.Data.List.Perm.Subperm
import PatternGraph.Graph.Content
import PatternGraph.Proofs.Growth
import PatternGraph.Proofs.Induced

namespace PatternGraph.Graph

variable {g h : Graph} {a : String}

/-! ## The names of a graph -/

/-- The names of the nodes, in order. -/
def nodeNames (g : Graph) : List String := g.nodeContents.map NodeContent.name

/-- The names of the edges, in order. -/
def edgeNames (g : Graph) : List String := g.edgeContents.map EdgeContent.name

theorem nodeNames_eq (g : Graph) : g.nodeNames = g.nodes.values.map Node.name := by
  rw [nodeNames, nodeContents, List.map_map]
  rfl

theorem edgeNames_eq (g : Graph) : g.edgeNames = g.edges.values.map Edge.name := by
  rw [edgeNames, edgeContents, List.map_map]
  rfl

theorem mem_nodeNames : a ∈ g.nodeNames ↔ ∃ x, g.nameOf? x = some a := by
  rw [nodeNames_eq, List.mem_map]
  refine ⟨?_, ?_⟩
  · rintro ⟨n, hn, rfl⟩
    obtain ⟨x, hx⟩ := mem_values_nodes.mp hn
    exact ⟨x, nameOf?_of_live hx⟩
  · rintro ⟨x, hx⟩
    obtain ⟨n, hn, rfl⟩ := nameOf?_eq_some.mp hx
    exact ⟨n, mem_values_nodes.mpr ⟨x, hn⟩, rfl⟩

/-- What a live node says is said by the graph. -/
theorem content_mem_nodeContents {x : NodeId} {n : Node} (hn : g.node? x = some n) :
    n.content ∈ g.nodeContents :=
  List.mem_map_of_mem (mem_values_nodes.mpr ⟨x, hn⟩)

theorem hasNode_iff_mem_nodeNames : g.hasNode a = true ↔ a ∈ g.nodeNames := by
  rw [hasNode_iff, mem_nodeNames]
  exact exists_congr fun x => nameOf?_eq_some.symm

theorem hasEdge_iff_mem_edgeNames : g.hasEdge a = true ↔ a ∈ g.edgeNames := by
  rw [hasEdge_iff, edgeNames_eq, List.mem_map]
  refine ⟨?_, ?_⟩
  · rintro ⟨i, e, he, rfl⟩
    exact ⟨e, mem_values_edges.mpr ⟨i, he⟩, rfl⟩
  · rintro ⟨e, he, rfl⟩
    obtain ⟨i, hi⟩ := mem_values_edges.mp he
    exact ⟨i, e, hi, rfl⟩

theorem nodup_nodeNames (wf : g.WellFormed) : (g.nodes.values.map Node.name).Nodup :=
  Slots.nodup_map_values fun _ _ _ _ ha hb hname =>
    congrArg NodeId.index (wf.node_name_inj (i := ⟨_⟩) (j := ⟨_⟩) ha hb hname)

theorem nodup_edgeNames (wf : g.WellFormed) : (g.edges.values.map Edge.name).Nodup :=
  Slots.nodup_map_values fun _ _ _ _ ha hb hname =>
    congrArg EdgeId.index (wf.edge_name_inj (i := ⟨_⟩) (j := ⟨_⟩) ha hb hname)

theorem WellFormed.nodeNames_nodup (wf : g.WellFormed) : g.nodeNames.Nodup :=
  g.nodeNames_eq ▸ nodup_nodeNames wf

theorem WellFormed.edgeNames_nodup (wf : g.WellFormed) : g.edgeNames.Nodup :=
  g.edgeNames_eq ▸ nodup_edgeNames wf

/-! ## Counting -/

theorem WellFormed.length_nodeContents (wf : g.WellFormed) :
    g.nodeContents.length = g.nodeCount := by
  rw [nodeContents, List.length_map]
  exact wf.node_count.symm

theorem WellFormed.length_edgeContents (wf : g.WellFormed) :
    g.edgeContents.length = g.edgeCount := by
  rw [edgeContents, List.length_map]
  exact wf.edge_count.symm

/-- A graph has no more nodes than one that has all of its names. -/
theorem WellFormed.nodeCount_le (wf : g.WellFormed) (wf' : h.WellFormed)
    (hnames : ∀ a, g.hasNode a = true → h.hasNode a = true) : g.nodeCount ≤ h.nodeCount := by
  have hsub : g.nodeNames ⊆ h.nodeNames := fun a ha =>
    hasNode_iff_mem_nodeNames.mp (hnames a (hasNode_iff_mem_nodeNames.mpr ha))
  have hlen := (wf.nodeNames_nodup.subperm hsub).length_le
  rwa [nodeNames, nodeNames, List.length_map, List.length_map, wf.length_nodeContents,
    wf'.length_nodeContents] at hlen

/-- A graph has no more edges than one that has all of its names. -/
theorem WellFormed.edgeCount_le (wf : g.WellFormed) (wf' : h.WellFormed)
    (hnames : ∀ a, g.hasEdge a = true → h.hasEdge a = true) : g.edgeCount ≤ h.edgeCount := by
  have hsub : g.edgeNames ⊆ h.edgeNames := fun a ha =>
    hasEdge_iff_mem_edgeNames.mp (hnames a (hasEdge_iff_mem_edgeNames.mpr ha))
  have hlen := (wf.edgeNames_nodup.subperm hsub).length_le
  rwa [edgeNames, edgeNames, List.length_map, List.length_map, wf.length_edgeContents,
    wf'.length_edgeContents] at hlen

/-! ## Growing -/

theorem nodeContents_modifyNode (id : NodeId) {f : Node → Node}
    (hf : ∀ n, (f n).content = n.content) : (g.modifyNode id f).nodeContents = g.nodeContents :=
  Slots.map_values_modify hf g.nodes id.index

theorem nodeContents_insertEdge (g : Graph) (e : Edge) :
    (g.insertEdge e).nodeContents = g.nodeContents :=
  (nodeContents_modifyNode e.dest fun n => n.content_addIncoming _).trans
    (nodeContents_modifyNode e.src fun n => n.content_addOutgoing _)

theorem nodeContents_insertEdges (g : Graph) (edges : List Edge) :
    (g.insertEdges edges).nodeContents = g.nodeContents := by
  induction edges generalizing g with
  | nil => rfl
  | cons e rest ih => rw [insertEdges_cons, ih, nodeContents_insertEdge]

/-! ## Taking a part -/

theorem map_snd_liveNodes (g : Graph) : g.liveNodes.map Prod.snd = g.nodes.values := by
  rw [liveNodes, List.map_map, ← Slots.map_snd_entries]
  rfl

theorem map_snd_liveEdges (g : Graph) : g.liveEdges.map Prod.snd = g.edges.values := by
  rw [liveEdges, List.map_map, ← Slots.map_snd_entries]
  rfl

theorem nodeContents_induced (g : Graph) (p : NodeId → Bool) :
    (g.induced p).nodeContents
      = (g.liveNodes.filter fun x => p x.1).map fun x => x.2.content := by
  have hvalues : (g.induced p).nodes.values = _ := Slots.values_sift g.nodes _
  rw [nodeContents, hvalues, liveNodes, List.map_filterMap, List.filter_map, List.map_map,
    ← List.filterMap_eq_map, ← List.filterMap_eq_filter, List.filterMap_filterMap]
  congr 1
  funext ⟨i, n⟩
  cases hp : p ⟨i⟩ <;> simp [Option.guard, hp, Node.keeping, Node.content]

/-- A part says of nodes what the whole says. -/
theorem nodeContents_induced_subset (g : Graph) (p : NodeId → Bool) :
    (g.induced p).nodeContents ⊆ g.nodeContents := by
  intro d hd
  rw [nodeContents_induced] at hd
  obtain ⟨⟨x, n⟩, hn, rfl⟩ := List.mem_map.mp hd
  exact content_mem_nodeContents (mem_liveNodes.mp (List.mem_filter.mp hn).1)

theorem values_edges_induced (g : Graph) (p : NodeId → Bool) :
    (g.induced p).edges.values = g.edges.values.filter (spans p) := by
  have hvalues : (g.induced p).edges.values = _ := Slots.values_sift g.edges _
  rw [hvalues, ← Slots.map_snd_entries, List.filter_map, ← List.filterMap_eq_map,
    ← List.filterMap_eq_filter, List.filterMap_filterMap]
  congr 1
  funext ⟨i, e⟩
  cases hp : spans p e <;> simp [Option.guard, hp]

theorem nameOf?_induced {p : NodeId → Bool} {x : NodeId} (hx : p x = true) :
    (g.induced p).nameOf? x = g.nameOf? x := by
  rw [nameOf?, nameOf?, node?_induced, if_pos hx, Option.map_map]
  rfl

theorem edgeContents_induced (g : Graph) (p : NodeId → Bool) :
    (g.induced p).edgeContents = (g.edges.values.filter (spans p)).map g.edgeContent := by
  rw [edgeContents, values_edges_induced]
  apply List.map_congr_left
  intro e he
  obtain ⟨hsrc, hdest⟩ := Bool.and_eq_true_iff.mp (List.mem_filter.mp he).2
  simp only [edgeContent, nameOf?_induced hsrc, nameOf?_induced hdest]

end PatternGraph.Graph
