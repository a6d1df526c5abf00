/-
  PatternGraph.Proofs.Walks

  What a graph says after a walk was added to it.  Its nodes are the old ones
  and one for each name of the walk that was not bound, in the order in which
  the names are first written.  Its edges are the old ones and one for each
  step, between the nodes named on its two sides.

  The induction is on the steps.  It carries the name of the node on the left,
  and that the relationships still to come are new to the graph and different.
-/
import PatternGraph.Proofs.Content
import PatternGraph.Proofs.Extension
import PatternGraph.Proofs.Questions

namespace PatternGraph

/-! ## A walk as links between names -/

/-- Each relationship of the steps with the names on its left and on its right. -/
def linksFrom : (left : String) → List Step → List (String × PathEdge × String)
  | _, [] => []
  | left, s :: rest => (left, s.edge, s.target.name) :: linksFrom s.target.name rest

/-- Each relationship of a walk with the names on its left and on its right. -/
def Walk.links (w : Walk) : List (String × PathEdge × String) := linksFrom w.start.name w.steps

/-- What the edge of a link says. -/
def linkContent (c : Catalog) (link : String × PathEdge × String) : EdgeContent where
  name := link.2.1.name
  types := link.2.1.types
  typeRefs := link.2.1.types.map c.typeRef
  bidirectional := link.2.1.direction == .both
  hops := link.2.1.hops
  src := some (link.2.1.direction.orient link.1 link.2.2).1
  dest := some (link.2.1.direction.orient link.1 link.2.2).2

namespace Graph

variable {g h : Graph} {c : Catalog}

/-! ## Names that are not bound yet -/

/-- The names of a list that no node bears, each once, in order. -/
def newNames (g : Graph) (names : List String) : List String :=
  (names.filter (!g.hasNode ·)).eraseDups

theorem newNodeNames_eq (g : Graph) (w : Walk) :
    g.newNodeNames w = g.newNames (w.nodes.map PathNode.name) :=
  rfl

/-- The first name is new or not, and the others are new where the first is bound as well. -/
theorem newNames_cons {name : String} (rest : List String)
    (hh : ∀ other, h.hasNode other = (name == other || g.hasNode other)) :
    g.newNames (name :: rest)
      = (if g.hasNode name then [] else [name]) ++ h.newNames rest := by
  unfold newNames
  by_cases hname : g.hasNode name
  -- the first name was bound, so the same names are bound with it
  · have hsame : ∀ other, h.hasNode other = g.hasNode other := by
      intro other
      rw [hh]
      by_cases heq : name = other
      · rw [← heq, hname, Bool.or_true]
      · rw [beq_eq_false_iff_ne.mpr heq, Bool.false_or]
    simp [hname, hsame]
  -- the first name is new, and its repetitions are bound once it is there
  · have hfilter : (rest.filter (!g.hasNode ·)).filter (fun other => !other == name)
        = rest.filter (!h.hasNode ·) := by
      rw [List.filter_filter]
      apply List.filter_congr
      intro other _
      rw [hh, Bool.not_or, BEq.comm (a := other)]
    rw [List.filter_cons_of_pos (by simpa using hname), List.eraseDups_cons, hfilter,
      if_neg hname]
    rfl

/-! ## One node -/

theorem edges_findOrMake (g : Graph) (name : String) : (g.findOrMake name).2.edges = g.edges := by
  unfold findOrMake
  split <;> rfl

theorem nameSlots_findOrMake (g : Graph) (name : String) :
    (g.findOrMake name).2.nameSlots
      = g.nameSlots ++ (if g.hasNode name then [] else [name]).map some := by
  unfold findOrMake hasNode
  cases hname : g.nodeNamed? name with
  | none => exact nameSlots_insertNode g _
  | some id => simp

theorem WellFormed.findOrMake (wf : g.WellFormed) (name : String) :
    (g.findOrMake name).2.WellFormed := by
  unfold Graph.findOrMake
  cases hname : g.nodeNamed? name with
  | none => exact wf.insertNode (by rw [hasNode]; simp [Node.bare, hname]) rfl rfl
  | some id => exact wf

theorem edges_offerLabel (c : Catalog) (g : Graph) (id : NodeId) (label : Option String) :
    (g.offerLabel c id label).edges = g.edges := by
  cases label <;> rfl

theorem nameSlots_offerLabel (c : Catalog) (g : Graph) (id : NodeId) (label : Option String) :
    (g.offerLabel c id label).nameSlots = g.nameSlots := by
  cases label with
  | none => rfl
  | some label =>
      apply nameSlots_modifyNode
      intro n
      split <;> rfl

theorem WellFormed.offerLabel (wf : g.WellFormed) (c : Catalog) (id : NodeId)
    (label : Option String) : (g.offerLabel c id label).WellFormed := by
  cases label with
  | none => exact wf
  | some label =>
      apply wf.modifyNode
      intro n
      split <;> rfl

theorem edges_joinNode (c : Catalog) (g : Graph) (n : PathNode) :
    (g.joinNode c n).2.edges = g.edges :=
  (edges_offerLabel c _ _ _).trans (edges_findOrMake g n.name)

theorem nameSlots_joinNode (c : Catalog) (g : Graph) (n : PathNode) :
    (g.joinNode c n).2.nameSlots
      = g.nameSlots ++ (if g.hasNode n.name then [] else [n.name]).map some :=
  (nameSlots_offerLabel c _ _ _).trans (nameSlots_findOrMake g n.name)

/-- A path node stands for a live node of its name. -/
theorem nameOf?_joinNode (c : Catalog) (g : Graph) (n : PathNode) :
    (g.joinNode c n).2.nameOf? (g.joinNode c n).1 = some n.name :=
  (nameOf?_congr (nameSlots_offerLabel c _ _ _) _).trans (g.nameOf?_findOrMake n.name)

theorem WellFormed.joinNode (wf : g.WellFormed) (c : Catalog) (n : PathNode) :
    (g.joinNode c n).2.WellFormed :=
  (wf.findOrMake n.name).offerLabel c _ _

theorem hasNode_joinNode (c : Catalog) (g : Graph) (n : PathNode) (name : String) :
    (g.joinNode c n).2.hasNode name = (n.name == name || g.hasNode name) := by
  have hmem : (g.joinNode c n).2.hasNode name = true ↔ some name ∈ g.nameSlots ∨
      some name ∈ (if g.hasNode n.name then [] else [n.name]).map some := by
    rw [hasNode_iff_mem, nameSlots_joinNode, List.mem_append]
  rw [Bool.eq_iff_iff, hmem, ← hasNode_iff_mem, Bool.or_eq_true, beq_iff_eq]
  by_cases hn : g.hasNode n.name
  · rw [if_pos hn]
    grind
  · rw [if_neg hn]
    grind

/-! ## The steps -/

theorem edgeContents_insertEdge (g : Graph) (e : Edge) :
    (g.insertEdge e).edgeContents = g.edgeContents ++ [g.edgeContent e] := by
  have hvalues : (g.insertEdge e).edges.values = g.edges.values ++ [e] := Slots.values_push _ _
  have hsame : (g.insertEdge e).edgeContent = g.edgeContent := by
    funext d
    simp only [edgeContent, nameOf?_insertEdge]
  rw [edgeContents, hvalues, hsame, List.map_append]
  rfl

/-- New nodes do not change what the edges say. -/
theorem WellFormed.edgeContents_of_append (wf : g.WellFormed) {names : List (Option String)}
    (hedges : h.edges = g.edges) (hslots : h.nameSlots = g.nameSlots ++ names) :
    h.edgeContents = g.edgeContents := by
  rw [edgeContents, hedges, edgeContents]
  apply List.map_congr_left
  intro e he
  have keeps : ∀ {x : NodeId}, (∃ n, g.node? x = some n) → h.nameOf? x = g.nameOf? x := by
    rintro x ⟨n, hn⟩
    have hname := nameOf?_of_live hn
    rw [nameOf?_of_append hslots hname, hname]
  obtain ⟨hsrc, hdest⟩ := wf.live_of_mem he
  simp only [edgeContent, keeps hsrc, keeps hdest]

/-- The edge of a step says what its link says. -/
theorem edgeContent_edgeBetween {left right : NodeId} {a b : String}
    (hleft : g.nameOf? left = some a) (hright : g.nameOf? right = some b) (e : PathEdge) :
    g.edgeContent (e.edgeBetween c left right) = linkContent c (a, e, b) := by
  simp only [edgeContent, PathEdge.edgeBetween_eq, linkContent]
  cases e.direction <;> simp [Direction.orient, hleft, hright]

/-- What holds of a graph and a node before steps are added to it. -/
structure ReadyFor (g : Graph) (left : NodeId) (name : String) (steps : List Step) : Prop where
  wellFormed : g.WellFormed
  left_name : g.nameOf? left = some name
  free : ∀ s ∈ steps, g.hasEdge s.edge.name = false
  nodup : (steps.map fun s => s.edge.name).Nodup

/-- When the node on the right is there, the edge of a step is new and both of its ends are
    live. -/
theorem ReadyFor.edge_fits {left right : NodeId} {name : String} {s : Step} {rest : List Step}
    {names : List (Option String)} (ready : ReadyFor g left name (s :: rest))
    (hedges : h.edges = g.edges) (hslots : h.nameSlots = g.nameSlots ++ names)
    (hright : h.nameOf? right = some s.target.name) :
    h.hasEdge s.edge.name = false ∧
      (h.node? (s.edge.edgeBetween c left right).src).isSome ∧
      (h.node? (s.edge.edgeBetween c left right).dest).isSome := by
  -- the node on the left is where it was before the one on the right was joined
  have hleft : h.nameOf? left = some name := nameOf?_of_append hslots ready.left_name
  have hends : ∀ d : Direction, (h.node? (d.orient left right).1).isSome ∧
      (h.node? (d.orient left right).2).isSome := by
    intro d
    cases d <;>
      simp [Direction.orient, isSome_node?_of_nameOf? hleft, isSome_node?_of_nameOf? hright]
  rw [PathEdge.edgeBetween_eq]
  refine ⟨?_, hends s.edge.direction⟩
  rw [hasEdge_congr hedges]
  exact ready.free s List.mem_cons_self

/-- One step leaves a graph that is ready for the others, with one edge more. -/
theorem ReadyFor.insertEdge {left right : NodeId} {name : String} {s : Step} {rest : List Step}
    {names : List (Option String)} (ready : ReadyFor g left name (s :: rest))
    (wf : h.WellFormed) (hedges : h.edges = g.edges) (hslots : h.nameSlots = g.nameSlots ++ names)
    (hright : h.nameOf? right = some s.target.name) :
    ReadyFor (h.insertEdge (s.edge.edgeBetween c left right)) right s.target.name rest ∧
      (h.insertEdge (s.edge.edgeBetween c left right)).edgeContents
        = g.edgeContents ++ [linkContent c (name, s.edge, s.target.name)] := by
  have hleft : h.nameOf? left = some name := nameOf?_of_append hslots ready.left_name
  obtain ⟨hfree, hsrc, hdest⟩ := ready.edge_fits (c := c) hedges hslots hright
  obtain ⟨-, hrest⟩ := List.forall_mem_cons.mp ready.free
  obtain ⟨hdiff, hnodup⟩ := List.nodup_cons.mp ready.nodup
  rw [← PathEdge.name_edgeBetween c s.edge left right] at hfree
  refine ⟨⟨wf.insertEdge hfree hsrc hdest, ?_, ?_, hnodup⟩, ?_⟩
  · rw [nameOf?_insertEdge, hright]
  · intro t ht
    -- the new edge takes no name that a later step needs
    have hne : s.edge.name ≠ t.edge.name := fun heq =>
      hdiff (List.mem_map.mpr ⟨t, ht, heq.symm⟩)
    rw [hasEdge_insertEdge, hasEdge_congr hedges, hrest t ht, Bool.or_false,
      PathEdge.name_edgeBetween]
    exact beq_eq_false_iff_ne.mpr hne
  · rw [edgeContents_insertEdge, ready.wellFormed.edgeContents_of_append hedges hslots,
      edgeContent_edgeBetween hleft hright]

/-- Steps keep a graph well formed, and each adds an edge that says what its link says. -/
theorem ReadyFor.addSteps {left : NodeId} {name : String} {steps : List Step}
    (ready : ReadyFor g left name steps) :
    (g.addSteps c left steps).WellFormed ∧
      (g.addSteps c left steps).edgeContents
        = g.edgeContents ++ (linksFrom name steps).map (linkContent c) := by
  induction steps generalizing g left name with
  | nil => exact ⟨ready.wellFormed, (List.append_nil _).symm⟩
  | cons s rest ih =>
      -- one step leaves a graph that is ready for the others, with one edge more
      obtain ⟨hready, hcontents⟩ := ready.insertEdge (c := c)
        (ready.wellFormed.joinNode c s.target) (edges_joinNode c g s.target)
        (nameSlots_joinNode c g s.target) (nameOf?_joinNode c g s.target)
      obtain ⟨wf, hrest⟩ := ih hready
      refine ⟨wf, hrest.trans ?_⟩
      rw [hcontents, List.append_assoc]
      rfl

theorem nameSlots_addSteps (c : Catalog) (g : Graph) (left : NodeId) (steps : List Step) :
    (g.addSteps c left steps).nameSlots
      = g.nameSlots ++ (g.newNames (steps.map fun s => s.target.name)).map some := by
  induction steps generalizing g left with
  | nil => simp [Graph.addSteps, newNames]
  | cons s rest ih =>
      have hslots : (g.addStep c left s).2.nameSlots = (g.joinNode c s.target).2.nameSlots :=
        nameSlots_insertEdge _ _
      have hnames := newNames_cons (rest.map fun s => s.target.name)
        (hasNode_joinNode c g s.target)
      have hsame : (g.addStep c left s).2.newNames (rest.map fun s => s.target.name)
          = (g.joinNode c s.target).2.newNames (rest.map fun s => s.target.name) := by
        rw [newNames, newNames, funext (hasNode_congr hslots)]
      rw [Graph.addSteps, ih, hslots, hsame, nameSlots_joinNode, List.map_cons, hnames,
        List.map_append, List.append_assoc]

/-! ## The walk -/

/-- A walk whose relationships are new and different may be added. -/
theorem WellFormed.readyFor_start (wf : g.WellFormed) {w : Walk}
    (hfree : ∀ e ∈ w.edges, g.hasEdge e.name = false) (hnodup : (w.edges.map PathEdge.name).Nodup) :
    ReadyFor (g.joinNode c w.start).2 (g.joinNode c w.start).1 w.start.name w.steps where
  wellFormed := wf.joinNode c w.start
  left_name := nameOf?_joinNode c g w.start
  free := by
    intro s hs
    rw [hasEdge_congr (edges_joinNode c g w.start)]
    exact hfree s.edge (List.mem_map_of_mem hs)
  nodup := by
    rw [Walk.edges, List.map_map] at hnodup
    exact hnodup

theorem WellFormed.extend (wf : g.WellFormed) {w : Walk}
    (hfree : ∀ e ∈ w.edges, g.hasEdge e.name = false) (hnodup : (w.edges.map PathEdge.name).Nodup) :
    (g.extend c w).WellFormed :=
  (wf.readyFor_start hfree hnodup).addSteps.1

/-- A walk adds an edge for each of its links, in order. -/
theorem WellFormed.edgeContents_extend (wf : g.WellFormed) {w : Walk}
    (hfree : ∀ e ∈ w.edges, g.hasEdge e.name = false) (hnodup : (w.edges.map PathEdge.name).Nodup) :
    (g.extend c w).edgeContents = g.edgeContents ++ w.links.map (linkContent c) := by
  have hsteps := ((wf.readyFor_start (c := c) hfree hnodup).addSteps (c := c)).2
  rw [wf.edgeContents_of_append (edges_joinNode c g w.start) (nameSlots_joinNode c g w.start)]
    at hsteps
  exact hsteps

/-- A walk adds a node for each of its names that was not bound, in order. -/
theorem nameSlots_extend (c : Catalog) (g : Graph) (w : Walk) :
    (g.extend c w).nameSlots = g.nameSlots ++ (g.newNodeNames w).map some := by
  have hnames := newNames_cons (w.steps.map fun s => s.target.name)
    (hasNode_joinNode c g w.start)
  rw [Graph.extend, nameSlots_addSteps, nameSlots_joinNode, newNodeNames_eq, Walk.nodes,
    List.map_cons, List.map_map]
  refine Eq.trans ?_ (congrArg (fun names => g.nameSlots ++ names.map some) hnames.symm)
  rw [List.map_append, List.append_assoc]

theorem size_nodes_extend (c : Catalog) (g : Graph) (w : Walk) :
    (g.extend c w).nodes.size = g.nodes.size + (g.newNodeNames w).length := by
  rw [← length_nameSlots, nameSlots_extend, List.length_append, List.length_map, length_nameSlots]

/-- A walk takes a slot for each of its new names and for each step. -/
theorem hasSlots_extend {w : Walk} : (g.extend c w).HasSlots 0 0 ↔
    g.HasSlots (g.newNodeNames w).length w.steps.length :=
  hasSlots_iff (size_nodes_extend c g w) (size_edges_extend c g w)

/-- The relationships of the links are those of the walk, in order. -/
theorem map_links (w : Walk) : w.links.map (fun link => link.2.1) = w.edges := by
  have hsteps : ∀ (left : String) (steps : List Step),
      (linksFrom left steps).map (fun link => link.2.1) = steps.map Step.edge := by
    intro left steps
    induction steps generalizing left with
    | nil => rfl
    | cons s rest ih => rw [linksFrom, List.map_cons, ih, List.map_cons]
  exact hsteps w.start.name w.steps

/-- The names of nodes are the old ones and those that the walk writes. -/
theorem hasNode_extend {w : Walk} {a : String} :
    (g.extend c w).hasNode a = true ↔ g.hasNode a = true ∨ a ∈ w.nodes.map PathNode.name := by
  have hnew : a ∈ g.newNodeNames w ↔ a ∈ w.nodes.map PathNode.name ∧ g.hasNode a = false := by
    rw [newNodeNames, List.mem_eraseDups, List.mem_filter, Bool.not_eq_true']
  have hsome : some a ∈ (g.newNodeNames w).map some ↔ a ∈ g.newNodeNames w := by
    simp
  rw [hasNode_iff_mem, nameSlots_extend, List.mem_append, ← hasNode_iff_mem, hsome, hnew]
  cases g.hasNode a <;> simp

/-- The names of edges are the old ones and those that the walk writes. -/
theorem WellFormed.hasEdge_extend (wf : g.WellFormed) {w : Walk} {a : String}
    (hfree : ∀ e ∈ w.edges, g.hasEdge e.name = false) (hnodup : (w.edges.map PathEdge.name).Nodup) :
    (g.extend c w).hasEdge a = true ↔ g.hasEdge a = true ∨ a ∈ w.edges.map PathEdge.name := by
  have hlinks : (w.links.map (linkContent c)).map EdgeContent.name
      = w.edges.map PathEdge.name := by
    rw [← map_links, List.map_map, List.map_map]
    rfl
  rw [hasEdge_iff_mem_edgeNames, edgeNames, wf.edgeContents_extend hfree hnodup, List.map_append,
    List.mem_append, hlinks, hasEdge_iff_mem_edgeNames, edgeNames]

/-- An edge stays as it is when steps are added. -/
theorem edge?_addSteps_of_live {left : NodeId} {steps : List Step} {i : EdgeId} {e : Edge}
    (h : g.edge? i = some e) : (g.addSteps c left steps).edge? i = some e := by
  induction steps generalizing g left with
  | nil => exact h
  | cons s rest ih =>
      have hjoin : (g.joinNode c s.target).2.edge? i = some e := by
        rw [edge?, edges_joinNode]
        exact h
      have hlt := lt_size_of_edge? hjoin
      refine ih ?_
      rw [Graph.addStep, edge?_insertEdge, if_neg (by omega), hjoin]

theorem edge?_extend_of_live {w : Walk} {i : EdgeId} {e : Edge} (h : g.edge? i = some e) :
    (g.extend c w).edge? i = some e := by
  refine edge?_addSteps_of_live ?_
  rw [edge?, edges_joinNode]
  exact h

theorem limits_joinNode (c : Catalog) (g : Graph) (n : PathNode) :
    (g.joinNode c n).2.limits = g.limits := by
  have hoffer : ∀ (h : Graph) id label, (h.offerLabel c id label).limits = h.limits := by
    intro h id label
    cases label <;> rfl
  refine (hoffer _ _ _).trans ?_
  unfold findOrMake
  split <;> rfl

theorem limits_addSteps (c : Catalog) (g : Graph) (left : NodeId) (steps : List Step) :
    (g.addSteps c left steps).limits = g.limits := by
  induction steps generalizing g left with
  | nil => rfl
  | cons s rest ih =>
      rw [Graph.addSteps, ih]
      exact (limits_insertEdge _ _).trans (limits_joinNode c g s.target)

theorem limits_extend (c : Catalog) (g : Graph) (w : Walk) : (g.extend c w).limits = g.limits :=
  (limits_addSteps c _ _ _).trans (limits_joinNode c g w.start)

/-- The count of nodes grows by the names that were not bound. -/
theorem WellFormed.nodeCount_extend (wf : g.WellFormed) {w : Walk}
    (hfree : ∀ e ∈ w.edges, g.hasEdge e.name = false) (hnodup : (w.edges.map PathEdge.name).Nodup) :
    (g.extend c w).nodeCount = g.nodeCount + (g.newNodeNames w).length := by
  rw [(wf.extend hfree hnodup).nodeCount_eq, wf.nodeCount_eq, nameSlots_extend,
    List.filterMap_append, List.length_append, List.filterMap_map]
  simp

/-! ## On the way -/

namespace OnTheWay

variable {w : Walk}

/-- The first steps of a walk whose relationships are new and different have new and different
    ones. -/
theorem fresh_take {taken left : List Step} (cut : w.steps = taken ++ left)
    (hfree : ∀ e ∈ w.edges, g.hasEdge e.name = false) (hnodup : (w.edges.map PathEdge.name).Nodup) :
    (∀ e ∈ (⟨w.start, taken⟩ : Walk).edges, g.hasEdge e.name = false) ∧
      ((⟨w.start, taken⟩ : Walk).edges.map PathEdge.name).Nodup := by
  have hsub : (⟨w.start, taken⟩ : Walk).edges.Sublist w.edges := by
    rw [Walk.edges, Walk.edges, cut]
    exact (List.sublist_append_left taken left).map Step.edge
  exact ⟨fun e he => hfree e (hsub.subset he), hnodup.sublist (hsub.map PathEdge.name)⟩

theorem wellFormed (way : g.OnTheWay c w h) (wf : g.WellFormed)
    (hfree : ∀ e ∈ w.edges, g.hasEdge e.name = false) (hnodup : (w.edges.map PathEdge.name).Nodup) :
    h.WellFormed := by
  cases way with
  | steps cut =>
      obtain ⟨hfree, hnodup⟩ := fresh_take cut hfree hnodup
      exact wf.extend hfree hnodup
  | joined cut =>
      obtain ⟨hfree, hnodup⟩ := fresh_take cut hfree hnodup
      exact (wf.extend hfree hnodup).joinNode c _

theorem limits_eq (way : g.OnTheWay c w h) : h.limits = g.limits := by
  cases way with
  | steps _ => exact limits_extend c g _
  | joined _ => exact (limits_joinNode c _ _).trans (limits_extend c g _)

end OnTheWay

end Graph

namespace Edit

open PatternGraph.Graph

/-- A path is added when it writes a walk that is accepted under its new names and gets its
    slots. -/
theorem addPath_eq_ok {c : Catalog} {p : Path} {g g' : Graph} (hslots : g.HasSlots 0 0) :
    addPath c p g = .ok () g' ↔
      ∃ w, p.walk? = .ok w ∧ g.accept (g.renamed w) = .ok () ∧
        g.HasSlots (g.newNodeNames (g.renamed w)).length (g.renamed w).steps.length ∧
        g' = g.extend c (g.renamed w) := by
  constructor
  · intro hrun
    obtain ⟨w, hw, hacc, rfl⟩ := addPath_eq_extend hrun
    exact ⟨w, hw, hacc, hasSlots_extend.mp ((keeps_slots_addPath c p).of_ok hslots hrun), rfl⟩
  · rintro ⟨w, hw, hacc, hroom, rfl⟩
    exact (addPath_of_accept hw hacc).trans (addWalk_ok (hasSlots_extend.mpr hroom))

end Edit

end PatternGraph
