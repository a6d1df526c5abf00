/-
  PatternGraph.Proofs.CopyEffect

  The exact effect of a copy.  Live nodes and live edges are numbered in their
  order, and the number of an entity is its slot in the copy; ends of edges and
  entries of lists are renumbered alike, and since edges are connected anew the
  lists come out in the order of the edges.  A merge into an empty graph makes
  the same graph by looking names up, under the budgets of its own.
-/
import PatternGraph.Proofs.Agreement
import PatternGraph.Proofs.Listing
import PatternGraph.Proofs.Reassembly

namespace PatternGraph

namespace Graph

variable {g h : Graph} {x y : NodeId} {i j : EdgeId} {n : Node} {e : Edge} {limits : Limits}

/-! ## Renumbering -/

/-- The handle of a live node when the nodes are numbered in their order. -/
def nodePlace (g : Graph) (x : NodeId) : NodeId := ⟨g.nodes.rank x.index⟩

/-- The handle of a live edge when the edges are numbered in their order. -/
def edgePlace (g : Graph) (i : EdgeId) : EdgeId := ⟨g.edges.rank i.index⟩

/-- The new list has the edges of the old one under their new handles, in increasing order. -/
structure Sorts (g : Graph) (old new : Array EdgeId) : Prop where
  perm : new.toList.Perm (old.toList.map g.edgePlace)
  increasing : new.toList.Pairwise (·.index < ·.index)

/-- A graph is another one without its vacated slots. -/
structure Renumbers (g h : Graph) : Prop where
  /-- The new handles of the nodes are the numbers from zero on, in the order of the old ones. -/
  node_places : g.liveNodes.map (fun node => g.nodePlace node.1)
    = (List.range g.nodeCount).map NodeId.mk
  edge_places : g.liveEdges.map (fun edge => g.edgePlace edge.1)
    = (List.range g.edgeCount).map EdgeId.mk
  /-- No slot of a node is vacated; name, label and reference are those of the node with that
  number. -/
  nodes : h.nodes.cells.toList.map (Option.map Node.content)
    = g.liveNodes.map fun node => some node.2.content
  /-- No slot of an edge is vacated; but for its ends the edge is the one with that number. -/
  edges : h.edges.cells.toList = g.liveEdges.map fun edge =>
    some (edge.2.between (g.nodePlace edge.2.src) (g.nodePlace edge.2.dest))
  /-- No end of an edge dangles. -/
  ends_live : ∀ i e, h.edge? i = some e → (h.node? e.src).isSome ∧ (h.node? e.dest).isSome
  /-- The lists of a node are its old ones, renumbered and sorted. -/
  lists : ∀ x n, g.node? x = some n → ∃ n', h.node? (g.nodePlace x) = some n' ∧
    n'.content = n.content ∧ g.Sorts n.outgoing n'.outgoing ∧ g.Sorts n.incoming n'.incoming
  node_count : h.nodeCount = g.nodeCount
  edge_count : h.edgeCount = g.edgeCount
  limits : h.limits = g.limits

/-! ## One graph fits the description -/

theorem Sorts.unique {old new new' : Array EdgeId} (sorts : g.Sorts old new)
    (sorts' : g.Sorts old new') : new = new' := by
  have hanti : ∀ i j : EdgeId, i ∈ new.toList → j ∈ new'.toList → i.index < j.index →
      j.index < i.index → i = j := fun i j _ _ hlt hgt => by omega
  exact Array.toList_inj.mp ((sorts.perm.trans sorts'.perm.symm).eq_of_pairwise hanti
    sorts.increasing sorts'.increasing)

namespace Renumbers

theorem size_nodes (renumbers : g.Renumbers h) : h.nodes.size = g.nodeCount := by
  have hplaces := congrArg List.length renumbers.node_places
  have hnodes := congrArg List.length renumbers.nodes
  simp only [List.length_map, List.length_range, Array.length_toList] at hplaces hnodes
  exact hnodes.trans hplaces

/-- Every number below the count is the new one of a node. -/
theorem exists_nodePlace (renumbers : g.Renumbers h) {k : Nat} (hk : k < g.nodeCount) :
    ∃ x n, g.node? x = some n ∧ g.nodePlace x = ⟨k⟩ := by
  have hmem : (⟨k⟩ : NodeId) ∈ g.liveNodes.map fun node => g.nodePlace node.1 := by
    rw [renumbers.node_places]
    exact List.mem_map_of_mem (List.mem_range.mpr hk)
  obtain ⟨⟨x, n⟩, hlive, hplace⟩ := List.mem_map.mp hmem
  exact ⟨x, n, mem_liveNodes.mp hlive, hplace⟩

theorem node?_eq {h' : Graph} (renumbers : g.Renumbers h) (renumbers' : g.Renumbers h') {k : Nat}
    (hk : k < g.nodeCount) : h.node? ⟨k⟩ = h'.node? ⟨k⟩ := by
  obtain ⟨x, n, hx, hplace⟩ := renumbers.exists_nodePlace hk
  obtain ⟨m, hm, hcontent, hout, hin⟩ := renumbers.lists x n hx
  obtain ⟨m', hm', hcontent', hout', hin'⟩ := renumbers'.lists x n hx
  have hsame : m = m' := by
    obtain ⟨hname, hlabel, href⟩ := NodeContent.mk.inj (hcontent.trans hcontent'.symm)
    show (⟨m.name, m.label, m.labelRef, m.incoming, m.outgoing⟩ : Node) = m'
    rw [hname, hlabel, href, hin.unique hin', hout.unique hout']
  rw [hplace] at hm hm'
  rw [hm, hm', hsame]

theorem unique {h' : Graph} (renumbers : g.Renumbers h) (renumbers' : g.Renumbers h') : h = h' := by
  have hsizes := renumbers.size_nodes.trans renumbers'.size_nodes.symm
  have hnodes : h.nodes = h'.nodes := by
    refine Slots.ext_get? hsizes (fun k => ?_)
      (renumbers.node_count.trans renumbers'.node_count.symm)
    rcases Nat.lt_or_ge k g.nodeCount with hk | hk
    · exact renumbers.node?_eq renumbers' hk
    · rw [← renumbers.size_nodes] at hk
      rw [Slots.get?_of_size_le hk, Slots.get?_of_size_le (hsizes ▸ hk)]
  have hcells := Array.toList_inj.mp (renumbers.edges.trans renumbers'.edges.symm)
  have hlive : h.edges.live = h'.edges.live := renumbers.edge_count.trans renumbers'.edge_count.symm
  show (⟨h.nodes, ⟨h.edges.cells, h.edges.live⟩, h.limits⟩ : Graph) = h'
  rw [hnodes, hcells, hlive, renumbers.limits, ← renumbers'.limits]

end Renumbers

/-! ## Places -/

theorem WellFormed.map_nodePlace (wf : g.WellFormed) :
    g.liveNodes.map (fun node => g.nodePlace node.1) = (List.range g.nodeCount).map NodeId.mk := by
  rw [liveNodes, nodeCount, wf.node_count, ← Slots.map_rank_entries, List.map_map, List.map_map]
  rfl

theorem WellFormed.map_edgePlace (wf : g.WellFormed) :
    g.liveEdges.map (fun edge => g.edgePlace edge.1) = (List.range g.edgeCount).map EdgeId.mk := by
  rw [liveEdges, edgeCount, wf.edge_count, ← Slots.map_rank_entries, List.map_map, List.map_map]
  rfl

theorem copyId_eq_nodePlace (hx : g.node? x = some n) : g.copyId x = g.nodePlace x := by
  have hget : g.nodes.get? x.index = some n := hx
  rw [copyId, Slots.getElem?_ranks, hget]
  rfl

theorem nodePlace_inj {m : Node} (hx : g.node? x = some m) (hy : g.node? y = some n)
    (hplace : g.nodePlace x = g.nodePlace y) : x = y :=
  NodeId.ext (Slots.rank_inj hx hy (congrArg NodeId.index hplace))

theorem edgePlace_inj {d : Edge} (hi : g.edge? i = some d) (hj : g.edge? j = some e)
    (hplace : g.edgePlace i = g.edgePlace j) : i = j :=
  EdgeId.ext (Slots.rank_inj hi hj (congrArg EdgeId.index hplace))

/-! ## The edges of a copy -/

theorem cells_edges_compact (hslots : g.HasSlots 0 0) :
    g.compact.edges.cells.toList = (g.edges.values.map g.copyEdge).map some := by
  rw [compact_eq hslots, cells_edges_insertEdges]
  rfl

/-- The edges of the copy are copies, each under the new handle of the edge that it copies. -/
theorem edge?_compact_eq_some (hslots : g.HasSlots 0 0) {d : Edge} :
    g.compact.edge? j = some d ↔
      ∃ i e, g.edge? i = some e ∧ g.edgePlace i = j ∧ g.copyEdge e = d := by
  have hget : g.compact.edge? j = (g.edges.values[j.index]?).map g.copyEdge := by
    rw [edge?, Slots.get?, ← Array.getElem?_toList, cells_edges_compact hslots,
      List.getElem?_map, List.getElem?_map]
    cases g.edges.values[j.index]? <;> rfl
  rw [hget, Option.map_eq_some_iff]
  constructor
  · rintro ⟨e, he, rfl⟩
    obtain ⟨i, hi, hrank⟩ := Slots.getElem?_values_eq_some.mp he
    exact ⟨⟨i⟩, e, hi, EdgeId.ext hrank, rfl⟩
  · rintro ⟨i, e, hi, rfl, rfl⟩
    exact ⟨e, Slots.getElem?_values_eq_some.mpr ⟨i.index, hi, rfl⟩, rfl⟩

/-- An edge of the copy has a node on one side when the edge that it copies has it there. -/
theorem hasEnd_compact (hslots : g.HasSlots 0 0) {side : Edge → NodeId}
    (hside : ∀ e, side (g.copyEdge e) = g.copyId (side e))
    (hlive : ∀ i e, g.edge? i = some e → ∃ m, g.node? (side e) = some m)
    (hx : g.node? x = some n) :
    g.compact.HasEnd side (g.nodePlace x) j ↔ ∃ i, g.HasEnd side x i ∧ g.edgePlace i = j := by
  constructor
  · rintro ⟨d, hd, hend⟩
    obtain ⟨i, e, he, hplace, rfl⟩ := (edge?_compact_eq_some hslots).mp hd
    obtain ⟨m, hm⟩ := hlive i e he
    rw [hside, copyId_eq_nodePlace hm] at hend
    exact ⟨i, ⟨e, he, nodePlace_inj hm hx hend⟩, hplace⟩
  · rintro ⟨i, ⟨e, he, rfl⟩, hplace⟩
    refine ⟨g.copyEdge e, (edge?_compact_eq_some hslots).mpr ⟨i, e, he, hplace, rfl⟩, ?_⟩
    rw [hside, copyId_eq_nodePlace hx]

/-! ## The lists of a copy -/

/-- A node says in the copy what it said, and its lists there are in the order of the edges. -/
theorem exists_node_compact (hslots : g.HasSlots 0 0) (hx : g.node? x = some n) :
    ∃ n', g.compact.node? (g.nodePlace x) = some n' ∧ n'.content = n.content ∧
      n'.outgoing.toList.Pairwise (·.index < ·.index) ∧
      n'.incoming.toList.Pairwise (·.index < ·.index) := by
  have hbare : g.bareCopy.node? (g.nodePlace x) = some n.isolated := by
    rw [← copyId_eq_nodePlace hx, node?_bareCopy_copyId hx]
  have hcopy := node?_insertEdges g.bareCopy (g.edges.values.map g.copyEdge) (g.nodePlace x)
  rw [← compact_eq hslots, hbare] at hcopy
  -- the node had no edges in the bare copy, so its lists are those of the new edges
  have hsorted : ∀ side, (g.bareCopy.handlesAt (g.edges.values.map g.copyEdge) side
      (g.nodePlace x)).Pairwise (·.index < ·.index) := fun _ => pairwise_handlesFrom _ _ _
  refine ⟨_, hcopy, rfl, ?_, ?_⟩
  · simpa [Node.gain, Node.isolated] using hsorted Edge.src
  · simpa [Node.gain, Node.isolated] using hsorted Edge.dest

/-- A list in order sorts another one when it has the same edges under their new handles. -/
theorem sorts_of_lists {old new : Array EdgeId} {set : EdgeId → Prop} (hold : Lists old set)
    (hlive : ∀ i, set i → ∃ e, g.edge? i = some e)
    (hnew : Lists new fun j => ∃ i, set i ∧ g.edgePlace i = j)
    (hsorted : new.toList.Pairwise (·.index < ·.index)) : g.Sorts old new := by
  have hinj : ∀ i ∈ old.toList, ∀ j ∈ old.toList, g.edgePlace i = g.edgePlace j → i = j := by
    intro i hi j hj hplace
    obtain ⟨d, hd⟩ := hlive i ((hold.2 i).mp (Array.mem_toList_iff.mp hi))
    obtain ⟨e, he⟩ := hlive j ((hold.2 j).mp (Array.mem_toList_iff.mp hj))
    exact edgePlace_inj hd he hplace
  refine ⟨?_, hsorted⟩
  rw [List.perm_ext_iff_of_nodup hnew.1 (hold.1.map_on hinj)]
  intro j
  rw [Array.mem_toList_iff, hnew.2 j, List.mem_map]
  simp only [Array.mem_toList_iff, hold.2]

/-- The lists of a node in the copy are its own lists, renumbered and sorted. -/
theorem Sound.lists_compact (sound : g.Sound) (hx : g.node? x = some n) :
    ∃ n', g.compact.node? (g.nodePlace x) = some n' ∧ n'.content = n.content ∧
      g.Sorts n.outgoing n'.outgoing ∧ g.Sorts n.incoming n'.incoming := by
  obtain ⟨n', hn', hcontent, hleaving, hentering⟩ := exists_node_compact sound.slots hx
  have hlive : ∀ side i, g.HasEnd side x i → ∃ e, g.edge? i = some e :=
    fun _ _ ⟨e, he, _⟩ => ⟨e, he⟩
  have hout := (sound.compact.lists_outgoing hn').congr fun _ =>
    hasEnd_compact sound.slots (fun _ => rfl) (fun _ _ => sound.src_live) hx
  have hin := (sound.compact.lists_incoming hn').congr fun _ =>
    hasEnd_compact sound.slots (fun _ => rfl) (fun _ _ => sound.dest_live) hx
  exact ⟨n', hn', hcontent, sorts_of_lists (sound.lists_outgoing hx) (hlive _) hout hleaving,
    sorts_of_lists (sound.lists_incoming hx) (hlive _) hin hentering⟩

/-! ## The whole copy -/

theorem map_content_cells_compact (hslots : g.HasSlots 0 0) :
    g.compact.nodes.cells.toList.map (Option.map Node.content)
      = g.liveNodes.map fun node => some node.2.content := by
  have hvalues : (g.liveNodes.map fun node => some node.2.content)
      = g.nodes.values.map fun n => some n.content := by
    rw [← map_snd_liveNodes, List.map_map]
    rfl
  have hbare : g.bareCopy.nodes.cells.toList = (g.nodes.values.map Node.isolated).map some := rfl
  rw [compact_eq hslots, cells_nodes_insertEdges,
    Slots.map_mapIdx_of_fixed (p := Node.content) fun _ n => n.content_gain _ _, hbare, hvalues,
    List.map_map, List.map_map]
  rfl

theorem Sound.cells_edges_compact_eq (sound : g.Sound) :
    g.compact.edges.cells.toList = g.liveEdges.map fun edge =>
      some (edge.2.between (g.nodePlace edge.2.src) (g.nodePlace edge.2.dest)) := by
  rw [cells_edges_compact sound.slots, ← map_snd_liveEdges, List.map_map, List.map_map]
  apply List.map_congr_left
  intro edge hedge
  have he := mem_liveEdges.mp hedge
  obtain ⟨m, hm⟩ := sound.src_live he
  obtain ⟨n, hn⟩ := sound.dest_live he
  simp only [Function.comp_apply, copyEdge, copyId_eq_nodePlace hm, copyId_eq_nodePlace hn]

theorem Sound.renumbers_compact (sound : g.Sound) : g.Renumbers g.compact where
  node_places := sound.map_nodePlace
  edge_places := sound.map_edgePlace
  nodes := map_content_cells_compact sound.slots
  edges := sound.cells_edges_compact_eq
  ends_live _ _ he := ⟨sound.compact.src_isSome he, sound.compact.dest_isSome he⟩
  lists _ _ hx := sound.lists_compact hx
  node_count := (Agrees.compact sound).nodeCount_eq
  edge_count := (Agrees.compact sound).edgeCount_eq
  limits := limits_compact sound.slots

/-! ## Into an empty graph -/

/-- The graph under other budgets. -/
def under (g : Graph) (limits : Limits) : Graph := { g with limits }

theorem insertNodes_under (g : Graph) (ns : List Node) :
    (g.under limits).insertNodes ns = (g.insertNodes ns).under limits := by
  induction ns generalizing g with
  | nil => rfl
  | cons n rest ih => exact ih (g.insertNode n)

theorem insertEdges_under (g : Graph) (edges : List Edge) :
    (g.under limits).insertEdges edges = (g.insertEdges edges).under limits := by
  induction edges generalizing g with
  | nil => rfl
  | cons e rest ih => exact ih (g.insertEdge e)

/-- What is grafted does not depend on the budgets. -/
theorem graft_under (g : Graph) (nodes : List NodeContent) (edges : List EdgeContent) :
    (g.under limits).graft nodes edges = (g.graft nodes edges).under limits := by
  have hnodes : (g.under limits).withNodes nodes = (g.withNodes nodes).under limits :=
    insertNodes_under g _
  rw [graft, graft, hnodes, insertEdges_under]
  rfl

/-- Nothing is in the empty graph, so all is missing there. -/
theorem lackingNodes_empty (limits : Limits) (nodes : List NodeContent) :
    (empty limits).lackingNodes nodes = nodes :=
  lackingNodes_eq_self fun _ _ => nofun

theorem lackingEdges_empty (limits : Limits) (edges : List EdgeContent) :
    (empty limits).lackingEdges edges = edges :=
  lackingEdges_eq_self fun _ _ => nofun

/-- Taking a whole graph into an empty one makes its copy, under the budgets of the empty one. -/
theorem Sound.absorb_empty (sound : g.Sound) (limits : Limits) :
    (Graph.empty limits).absorb g = g.compact.under limits := by
  have hempty : Graph.empty limits = (Graph.empty g.limits).under limits := rfl
  rw [absorb_eq_graft, lackingNodes_empty, lackingEdges_empty, hempty, graft_under,
    ← sound.compact_eq_graft]

/-- There is room for a whole graph in an empty one when the graph is within the budgets there. -/
theorem Sound.hasRoom_empty_iff (sound : g.Sound) (limits : Limits) :
    (Graph.empty limits).HasRoom g.nodeContents g.edgeContents ↔
      g.nodeCount ≤ limits.maxNodes ∧ g.edgeCount ≤ limits.maxEdges ∧
        ∀ i e, g.edge? i = some e → e.types.length ≤ limits.maxTypesPerEdge := by
  have hnodes : (Graph.empty limits).nodeCount + g.nodeContents.length = g.nodeCount := by
    rw [sound.length_nodeContents]
    exact Nat.zero_add _
  have hedges : (Graph.empty limits).edgeCount + g.edgeContents.length = g.edgeCount := by
    rw [sound.length_edgeContents]
    exact Nat.zero_add _
  constructor
  · rintro ⟨hnodeRoom, hedgeRoom, htypes, -⟩
    refine ⟨hnodes ▸ hnodeRoom, hedges ▸ hedgeRoom, fun i e he => ?_⟩
    exact htypes _ (List.mem_map_of_mem (mem_values_edges.mpr ⟨i, he⟩))
  · rintro ⟨hnodeRoom, hedgeRoom, htypes⟩
    refine ⟨hnodes ▸ hnodeRoom, hedges ▸ hedgeRoom, fun d hd => ?_, sound.slots.contents limits⟩
    obtain ⟨e, he, rfl⟩ := List.mem_map.mp hd
    obtain ⟨i, hi⟩ := mem_values_edges.mp he
    exact htypes i e hi

end Graph

namespace Reachable

variable {g : Graph}

/-- The copy of a graph that can come up is the graph without its vacated slots; no other graph is,
    and nothing is left to be done by a second copy. -/
theorem compact_exact (reach : Reachable g) :
    g.Renumbers g.compact ∧ (∀ h, g.Renumbers h → h = g.compact) ∧
      g.compact.compact = g.compact := by
  have sound := reach.sound
  have renumbers := sound.renumbers_compact
  exact ⟨renumbers, fun _ renumbers' => renumbers'.unique renumbers,
    (Graph.Agrees.compact sound).compact_eq sound.compact.slots sound.slots⟩

/-- An edge that was turned round stands last in the lists of its ends, and first in those of the
    copy; the node and the edge in front of others were taken out. -/
theorem compact_exact_of_removal :
    let edge (r : String) (src dest : Nat) : Command :=
      .addEdge ⟨r, ⟨src⟩, ⟨dest⟩, [r], [.unresolved r], true, ⟨1, some 3⟩⟩
    let g := Command.runAll [.addNode "x", .addNode "a", .addNode "b", edge "r" 1 2, edge "q" 0 1,
      edge "s" 2 1, edge "l" 2 2, .reverseEdge ⟨0⟩, .removeNode ⟨0⟩] (.empty .standard)
    g.node? ⟨2⟩ = some ⟨"b", none, .absent, #[⟨3⟩], #[⟨2⟩, ⟨3⟩, ⟨0⟩]⟩ ∧
      g.compact.node? ⟨1⟩ = some ⟨"b", none, .absent, #[⟨2⟩], #[⟨0⟩, ⟨1⟩, ⟨2⟩]⟩ ∧
      g.compact.edge? ⟨1⟩ = some ⟨"s", ⟨1⟩, ⟨0⟩, ["s"], [.unresolved "s"], true, ⟨1, some 3⟩⟩ ∧
      g.Renumbers g.compact ∧ g.compact.compact = g.compact := by
  intro edge g
  have reach : Reachable g := (Reachable.empty _).runAll (by simp [edge, Command.operand?])
    (by simp [edge, Command.edge?, Edge.made_iff])
  obtain ⟨renumbers, -, hagain⟩ := reach.compact_exact
  exact ⟨by decide +kernel, by decide +kernel, by decide +kernel, renumbers, hagain⟩

/-- Merging a graph that can come up into an empty one succeeds when the graph is within the budgets
    there; it makes a copy under these budgets and counts all nodes and edges. -/
theorem merge_empty (reach : Reachable g) (limits : Limits) (t : MergeTally) (h : Graph) :
    Edit.merge g (.empty limits) = .ok t h ↔
      (g.nodeCount ≤ limits.maxNodes ∧ g.edgeCount ≤ limits.maxEdges ∧
        ∀ i e, g.edge? i = some e → e.types.length ≤ limits.maxTypesPerEdge) ∧
      t = ⟨g.nodeCount, g.edgeCount⟩ ∧ h = g.compact.under limits := by
  have sound := reach.sound
  have hempty := (Graph.Sound.empty limits).slots
  rw [sound.merge_eq_ok hempty, Graph.lackingNodes_empty, Graph.lackingEdges_empty,
    sound.hasRoom_empty_iff, sound.length_nodeContents, sound.length_edgeContents,
    sound.absorb_empty]

/-- Nodes and edges share names, a vacated slot stands in front of them, and an edge was turned
    round.  The graph has room in budgets that it fills, and none where one edge less is allowed. -/
theorem merge_empty_when_full :
    let edge (r : String) (src dest : Nat) : Command :=
      .addEdge ⟨r, ⟨src⟩, ⟨dest⟩, [r], [.unresolved r], false, .single⟩
    let g := Command.runAll [.addNode "x", .addNode "a", .addNode "b", edge "b" 1 2, edge "a" 2 1,
      edge "x" 2 2, .reverseEdge ⟨0⟩, .removeNode ⟨0⟩] (.empty .standard)
    Edit.merge g (.empty ⟨2, 3, 1⟩) = .ok ⟨2, 3⟩ (g.compact.under ⟨2, 3, 1⟩) ∧
      ∀ t h, Edit.merge g (.empty ⟨2, 2, 1⟩) ≠ .ok t h := by
  intro edge g
  have reach : Reachable g := (Reachable.empty _).runAll (by simp [edge, Command.operand?])
    (by simp [edge, Command.edge?, Edge.made_iff])
  have hcounts : g.nodeCount = 2 ∧ g.edgeCount = 3 := by decide +kernel
  have htypes : ∀ e ∈ g.edges.values, e.types.length ≤ 1 := by decide +kernel
  refine ⟨(reach.merge_empty _ _ _).mpr ⟨⟨?_, ?_, ?_⟩, ?_, rfl⟩, fun t h hrun => ?_⟩
  · exact Nat.le_of_eq hcounts.1
  · exact Nat.le_of_eq hcounts.2
  · exact fun i e he => htypes e (Graph.mem_values_edges.mpr ⟨i, he⟩)
  · rw [hcounts.1, hcounts.2]
  · have hfit : g.edgeCount ≤ 2 := ((reach.merge_empty _ _ _).mp hrun).1.2.1
    omega

end Reachable

end PatternGraph
