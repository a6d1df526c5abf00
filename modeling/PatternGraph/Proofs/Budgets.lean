/-
  PatternGraph.Proofs.Budgets

  Budgets hold in every graph that can come up.  What takes away or only
  changes cannot exceed a budget that was kept.  What adds is asked for room
  first: a single node or edge, a merge for what is missing, a path for the
  names that no node bears and for its steps.  The counts after a path or a
  merge are shown to be the counts that were asked for.
-/
import PatternGraph.Proofs.Decomposition

namespace PatternGraph

namespace Graph

variable {g h other : Graph} {c : Catalog} {w : Walk}

/-- The graph holds no more than its budgets allow. -/
structure WithinBudget (g : Graph) : Prop where
  nodes : g.nodeCount ≤ g.limits.maxNodes
  edges : g.edgeCount ≤ g.limits.maxEdges
  types : ∀ i e, g.edge? i = some e → e.types.length ≤ g.limits.maxTypesPerEdge

theorem WithinBudget.of_values (hlimits : h.limits = g.limits)
    (hnodes : h.nodeCount ≤ g.limits.maxNodes) (hedges : h.edgeCount ≤ g.limits.maxEdges)
    (htypes : ∀ e ∈ h.edges.values, e.types.length ≤ g.limits.maxTypesPerEdge) :
    h.WithinBudget where
  nodes := hlimits ▸ hnodes
  edges := hlimits ▸ hedges
  types i e he := hlimits ▸ htypes e (mem_values_edges.mpr ⟨i, he⟩)

theorem WithinBudget.length_types (within : g.WithinBudget) {e : Edge} (he : e ∈ g.edges.values) :
    e.types.length ≤ g.limits.maxTypesPerEdge := by
  obtain ⟨i, hi⟩ := mem_values_edges.mp he
  exact within.types i e hi

/-- A graph with no more nodes and edges, and no edge with more types than one that was there,
    stays within the budgets. -/
theorem WithinBudget.mono (within : g.WithinBudget) (hlimits : h.limits = g.limits)
    (hnodes : h.nodeCount ≤ g.nodeCount) (hedges : h.edgeCount ≤ g.edgeCount)
    (htypes : ∀ e ∈ h.edges.values, ∃ d ∈ g.edges.values, e.types.length = d.types.length) :
    h.WithinBudget := by
  refine .of_values hlimits (Nat.le_trans hnodes within.nodes) (Nat.le_trans hedges within.edges) ?_
  intro e he
  obtain ⟨d, hd, hlen⟩ := htypes e he
  rw [hlen]
  exact within.length_types hd

theorem WithinBudget.empty (limits : Limits) : (Graph.empty limits).WithinBudget where
  nodes := Nat.zero_le _
  edges := Nat.zero_le _
  types i e he := by simp at he

/-! ## Changing and taking away -/

theorem WithinBudget.offerLabel (within : g.WithinBudget) (c : Catalog) (id : NodeId)
    (label : Option String) : (g.offerLabel c id label).WithinBudget := by
  cases label with
  | none => exact within
  | some label => exact ⟨within.nodes, within.edges, within.types⟩

theorem WithinBudget.refresh (within : g.WithinBudget) (c : Catalog) :
    (g.refresh c).WithinBudget := by
  refine within.mono rfl (Nat.le_refl _) (Nat.le_refl _) ?_
  intro e he
  have hvalues : (g.refresh c).edges.values = g.edges.values.map (·.refresh c) :=
    Slots.values_map _ _
  rw [hvalues] at he
  obtain ⟨d, hd, rfl⟩ := List.mem_map.mp he
  exact ⟨d, hd, by simp [Edge.refresh]⟩

theorem WithinBudget.turnEdge (within : g.WithinBudget) {id : EdgeId} {e : Edge}
    (live : g.edge? id = some e) : (g.turnEdge id e).WithinBudget := by
  refine ⟨within.nodes, within.edges, ?_⟩
  intro i d hd
  rw [edge?_turnEdge live] at hd
  split at hd
  · cases hd
    exact within.types id e live
  · exact within.types i d hd

theorem WithinBudget.dropEdge (within : g.WithinBudget) (id : EdgeId) :
    (g.dropEdge id).WithinBudget := by
  have hcounts : (g.dropEdge id).nodeCount = g.nodeCount ∧
      (g.dropEdge id).edgeCount ≤ g.edgeCount := by
    unfold Graph.dropEdge
    split
    · exact ⟨rfl, Nat.le_refl _⟩
    · exact ⟨rfl, Slots.live_vacate_le _ _⟩
  refine within.mono (limits_dropEdge g id) (Nat.le_of_eq hcounts.1) hcounts.2 ?_
  intro e he
  obtain ⟨i, hi⟩ := mem_values_edges.mp he
  rw [edge?_dropEdge] at hi
  split at hi
  · cases hi
  · exact ⟨e, mem_values_edges.mpr ⟨i, hi⟩, rfl⟩

theorem WithinBudget.induced (within : g.WithinBudget) (wf : g.WellFormed) (p : NodeId → Bool) :
    (g.induced p).WithinBudget := by
  refine within.mono rfl (wf.nodes_counted.live_sift_le _) (wf.edges_counted.live_sift_le _) ?_
  intro e he
  rw [values_edges_induced] at he
  exact ⟨e, (List.mem_filter.mp he).1, rfl⟩

/-! ## Copying -/

theorem nodeCount_insertEdges (g : Graph) (edges : List Edge) :
    (g.insertEdges edges).nodeCount = g.nodeCount := by
  induction edges generalizing g with
  | nil => rfl
  | cons e rest ih => exact ih (g.insertEdge e)

theorem edgeCount_insertEdges (g : Graph) (edges : List Edge) :
    (g.insertEdges edges).edgeCount = g.edgeCount + edges.length := by
  induction edges generalizing g with
  | nil => rfl
  | cons e rest ih =>
      have hone : (g.insertEdge e).edgeCount = g.edgeCount + 1 := rfl
      rw [insertEdges_cons, ih, hone, List.length_cons]
      omega

theorem WithinBudget.compact (within : g.WithinBudget) (sound : g.Sound) :
    g.compact.WithinBudget := by
  have hedges := values_edges_compact sound.slots
  apply within.mono (limits_compact sound.slots)
  case hnodes =>
    have hcount : (g.nodes.values.map Node.isolated).length = g.nodes.live := by
      rw [List.length_map, sound.node_count]
    rw [compact_eq sound.slots, nodeCount_insertEdges]
    exact Nat.le_of_eq hcount
  case hedges =>
    have hcount : 0 + g.edges.values.length = g.edges.live := by
      rw [Nat.zero_add, sound.edge_count]
    rw [compact_eq sound.slots, edgeCount_insertEdges, List.length_map]
    exact Nat.le_of_eq hcount
  case htypes =>
    intro e he
    rw [hedges] at he
    obtain ⟨d, hd, rfl⟩ := List.mem_map.mp he
    exact ⟨d, hd, rfl⟩

/-! ## Adding -/

theorem WithinBudget.insertNode (within : g.WithinBudget) (n : Node)
    (room : g.nodeCount + 1 ≤ g.limits.maxNodes) : (g.insertNode n).WithinBudget :=
  ⟨room, within.edges, within.types⟩

theorem WithinBudget.insertEdges (within : g.WithinBudget) {edges : List Edge}
    (room : g.edgeCount + edges.length ≤ g.limits.maxEdges)
    (types : ∀ e ∈ edges, e.types.length ≤ g.limits.maxTypesPerEdge) :
    (g.insertEdges edges).WithinBudget := by
  refine .of_values (limits_insertEdges g edges) ?_ ?_ ?_
  · rw [nodeCount_insertEdges]
    exact within.nodes
  · rw [edgeCount_insertEdges]
    exact room
  · intro e he
    rw [values_edges_insertEdges, List.mem_append] at he
    exact he.elim within.length_types (types e)

theorem nodeCount_insertNodes (g : Graph) (nodes : List Node) :
    (g.insertNodes nodes).nodeCount = g.nodeCount + nodes.length := by
  induction nodes generalizing g with
  | nil => rfl
  | cons n rest ih =>
      have hone : (g.insertNode n).nodeCount = g.nodeCount + 1 := rfl
      rw [insertNodes_cons, ih, hone, List.length_cons]
      omega

/-- A merge stays within the budgets wherever it stops. -/
theorem WithinBudget.midMerge (within : g.WithinBudget)
    (nodes : g.nodeCount + (g.missingNodes other).length ≤ g.limits.maxNodes)
    (edges : g.edgeCount + (g.missingEdges other).length ≤ g.limits.maxEdges)
    (types : ∀ e ∈ g.missingEdges other, e.types.length ≤ g.limits.maxTypesPerEdge)
    (mid : g.MidMerge other h) : h.WithinBudget := by
  -- there are no more edges while the nodes are copied
  have hnodes : ∀ copied : List Node, copied.length ≤ (g.missingNodes other).length →
      (g.insertNodes (copied.map Node.isolated)).WithinBudget := by
    intro copied hle
    have hedges := edges_insertNodes g (copied.map Node.isolated)
    refine .of_values (limits_insertNodes _ _) ?_ ?_ ?_
    · rw [nodeCount_insertNodes, List.length_map]
      omega
    · rw [edgeCount, hedges]
      exact within.edges
    · rw [hedges]
      exact fun e => within.length_types
  cases mid with
  | @nodes copied left cut =>
      refine hnodes copied ?_
      rw [cut, List.length_append]
      exact Nat.le_add_right _ _
  | @edges copied left cut =>
      have hlimits : (g.withMissingNodes other).limits = g.limits := limits_insertNodes _ _
      have hcount : (g.withMissingNodes other).edgeCount = g.edgeCount := by
        rw [edgeCount, withMissingNodes, edges_insertNodes]
        rfl
      have hlength := congrArg List.length cut
      rw [List.length_append] at hlength
      apply (hnodes _ (Nat.le_refl _)).insertEdges
      case room =>
        show (g.withMissingNodes other).edgeCount + _ ≤ (g.withMissingNodes other).limits.maxEdges
        rw [hlimits, hcount, List.length_map]
        omega
      case types =>
        intro d hd
        obtain ⟨e, he, rfl⟩ := List.mem_map.mp hd
        show _ ≤ (g.withMissingNodes other).limits.maxTypesPerEdge
        rw [hlimits]
        exact types e (cut ▸ List.mem_append_left left he)

/-- A walk has as many links as steps. -/
theorem length_links (w : Walk) : w.links.length = w.steps.length := by
  rw [← List.length_map (f := fun link : String × PathEdge × String => link.2.1), map_links,
    Walk.edges, List.length_map]

/-- The count of edges grows by the steps of a walk. -/
theorem WellFormed.edgeCount_extend (wf : g.WellFormed)
    (hfree : ∀ e ∈ w.edges, g.hasEdge e.name = false) (hnodup : (w.edges.map PathEdge.name).Nodup) :
    (g.extend c w).edgeCount = g.edgeCount + w.steps.length := by
  have hcontents := congrArg List.length (wf.edgeContents_extend (c := c) hfree hnodup)
  rw [edgeContents, edgeContents, List.length_append, List.length_map, List.length_map,
    List.length_map, length_links] at hcontents
  have hafter : (g.extend c w).edgeCount = _ := (wf.extend hfree hnodup).edge_count
  have hbefore : g.edgeCount = _ := wf.edge_count
  omega

/-- An edge of an extended graph was there, or it lists the types of a relationship. -/
theorem WellFormed.length_types_extend (wf : g.WellFormed)
    (hfree : ∀ e ∈ w.edges, g.hasEdge e.name = false) (hnodup : (w.edges.map PathEdge.name).Nodup)
    {e : Edge} (he : e ∈ (g.extend c w).edges.values) :
    (∃ d ∈ g.edges.values, e.types.length = d.types.length) ∨
      ∃ r ∈ w.edges, e.types.length = r.types.length := by
  have hmem : (g.extend c w).edgeContent e ∈ (g.extend c w).edgeContents := List.mem_map_of_mem he
  rw [wf.edgeContents_extend hfree hnodup, List.mem_append] at hmem
  rcases hmem with hold | hnew
  · obtain ⟨d, hd, heq⟩ := List.mem_map.mp hold
    have htypes : d.types = e.types := congrArg EdgeContent.types heq
    exact .inl ⟨d, hd, by rw [htypes]⟩
  · obtain ⟨link, hlink, heq⟩ := List.mem_map.mp hnew
    have htypes := congrArg (fun d => d.types.length) heq
    refine .inr ⟨link.2.1, map_links w ▸ List.mem_map_of_mem hlink, ?_⟩
    simpa [linkContent, edgeContent] using htypes.symm

theorem WithinBudget.extend (within : g.WithinBudget) (wf : g.WellFormed)
    (accepted : g.accept w = .ok ()) : (g.extend c w).WithinBudget := by
  obtain ⟨hadmits, hnodup, hnodes, hedges⟩ := accept_eq_ok.mp accepted
  have hfree : ∀ e ∈ w.edges, g.hasEdge e.name = false := fun e he => (hadmits e he).1
  refine .of_values (limits_extend c g w) ?_ ?_ ?_
  · rw [wf.nodeCount_extend hfree hnodup]
    exact hnodes
  · rw [wf.edgeCount_extend hfree hnodup]
    exact hedges
  · intro e he
    rcases wf.length_types_extend hfree hnodup he with ⟨d, hd, hlen⟩ | ⟨r, hr, hlen⟩
    · rw [hlen]
      exact within.length_types hd
    · rw [hlen]
      exact (hadmits r hr).2.2

/-- The first steps of a walk that is accepted would be accepted by themselves. -/
theorem accept_take {taken left : List Step} (accepted : g.accept w = .ok ())
    (cut : w.steps = taken ++ left) : g.accept ⟨w.start, taken⟩ = .ok () := by
  obtain ⟨hadmits, hnodup, hnodes, hedges⟩ := accept_eq_ok.mp accepted
  have hsub : (⟨w.start, taken⟩ : Walk).edges.Sublist w.edges := by
    rw [Walk.edges, Walk.edges, cut]
    exact (List.sublist_append_left taken left).map Step.edge
  -- the later steps add to the nodes that there are
  have hfewer := le_size_nodes_addSteps .empty (g.extend .empty ⟨w.start, taken⟩)
    (g.stop .empty ⟨w.start, taken⟩) left
  rw [← extend_eq_addSteps cut, size_nodes_extend, size_nodes_extend] at hfewer
  rw [cut, List.length_append] at hedges
  exact accept_eq_ok.mpr ⟨fun e he => hadmits e (hsub.subset he), hnodup.sublist (hsub.map _),
    by omega, by dsimp only; omega⟩

/-- A graph is within the budgets if it is with one more edge. -/
theorem WithinBudget.of_insertEdge {e : Edge} (within : (g.insertEdge e).WithinBudget) :
    g.WithinBudget where
  nodes := within.nodes
  edges := Nat.le_of_succ_le within.edges
  types i d hd := within.types i d (by
    have hlt := lt_size_of_edge? hd
    rw [edge?_insertEdge, if_neg (Nat.ne_of_lt hlt), hd])

/-- A walk that is accepted stays within the budgets wherever it stops. -/
theorem WithinBudget.onTheWay (within : g.WithinBudget) (wf : g.WellFormed)
    (accepted : g.accept w = .ok ()) (way : g.OnTheWay c w h) : h.WithinBudget := by
  obtain ⟨taken, left, cut, hsteps⟩ := way.exists_steps
  have hextend := within.extend (c := c) wf (accept_take accepted cut)
  rcases hsteps with rfl | ⟨e, he⟩
  · exact hextend
  · exact .of_insertEdge (he ▸ hextend)

end Graph

/-! ## All graphs that can come up -/

/-- Every effect stays within the budgets. -/
theorem Command.Effect.withinBudget {k : Command} {g g' : Graph} (effect : k.Effect g g')
    (wf : g.WellFormed) (within : g.WithinBudget) : g'.WithinBudget := by
  cases effect with
  | addNode _ room => exact within.insertNode _ room
  | setLabel _ => exact within.offerLabel _ _ _
  | @addEdge _ e _ _ _ _ _ room types =>
      show (g.insertEdges [e]).WithinBudget
      exact within.insertEdges room (by simpa using types)
  | addPath _ accepted way => exact within.onTheWay wf accepted way
  | merge nodes edges types mid => exact within.midMerge nodes edges types mid
  | removeNode _ => exact within.induced wf _
  | removeEdge _ => exact within.dropEdge _
  | reverseEdge live => exact within.turnEdge live
  | retain => exact within.induced wf _
  | resolve => exact within.refresh _

namespace Reachable

theorem withinBudget {g : Graph} (reach : Reachable g) : g.WithinBudget :=
  reach.invariant .empty
    (fun sound within _ _ heffect => heffect.withinBudget sound.toWellFormed within)
    (fun sound within => within.compact sound)
    (fun p sound within => within.induced sound.toWellFormed p)

/-- Every graph that can come up is within the budgets that it was made under, and so are its
    copies and parts, which are under the same budgets; no command changes them. -/
theorem within_budget {g : Graph} (reach : Reachable g) :
    g.WithinBudget ∧
      (∀ c limits paths, Graph.ofPaths c limits paths = .ok g → g.limits = limits) ∧
      g.compact.limits = g.limits ∧
      (∀ part rest, g.split? = some (part, rest) →
        part.limits = g.limits ∧ rest.limits = g.limits) ∧
      (∀ part ∈ g.components, part.limits = g.limits) ∧
      ∀ k : Command, (∀ other, k.operand? = some other → Reachable other) →
        (k.run g).limits = g.limits := by
  have hcopy := Graph.limits_compact reach.sound.slots
  have wfCopy := reach.sound.compact.toWellFormed
  refine ⟨reach.withinBudget, ?_, hcopy, ?_, reach.sound.partition_components.limits, ?_⟩
  · intro c limits paths made
    exact Edit.addPaths_induction (P := fun g => g.limits = limits)
      (fun hg hrun => (Edit.addPath_effect hrun).limits_eq.trans hg) rfl
      (Graph.addPaths_of_ofPaths made)
  · intro part rest hsplit
    obtain ⟨-, rfl, rfl⟩ := Graph.split?_eq_some hsplit
    exact ⟨(wfCopy.limits_retain _).trans hcopy, (wfCopy.limits_retain _).trans hcopy⟩
  · intro k hoperand
    exact Command.run_of_effect (P := fun h => h.limits = g.limits) reach.wellFormed
      (fun other ho => (hoperand other ho).wellFormed) rfl fun _ heffect => heffect.limits_eq

/-- A full graph refuses a node, an edge, a path and a merge; only what was taken out is made up
    for. -/
theorem within_budget_when_full :
    let path (r : String) (types : List String) : Path :=
      ⟨[.node ⟨"a", none⟩, .edge ⟨r, .both, types, none⟩, .node ⟨"b", none⟩]⟩
    let other := (Command.addNode "z").run (.empty .standard)
    let g := Command.runAll
      [.addPath .empty (path "r" ["S", "T"]), .addPath .empty (path "r" ["T"]), .addNode "c",
        .addEdge ⟨"s", ⟨0⟩, ⟨1⟩, [], [], false, .single⟩, .addPath .empty (path "t" []),
        .merge other, .removeNode ⟨0⟩, .merge other, .addNode "c"] (.empty ⟨2, 1, 1⟩)
    g.nodeCount = 2 ∧ g.nodeNames = ["b", "z"] ∧ g.WithinBudget ∧ g.compact.limits = ⟨2, 1, 1⟩ := by
  intro path other g
  have hother : Reachable other := .run _ (.empty .standard) nofun nofun
  have reach : Reachable g := (Reachable.empty _).runAll (by simp [Command.operand?, hother])
    (by simp [Command.edge?, Edge.made_iff])
  refine ⟨by decide +kernel, by decide +kernel, reach.within_budget.1, ?_⟩
  rw [reach.within_budget.2.2.1]
  decide +kernel

end Reachable

end PatternGraph
