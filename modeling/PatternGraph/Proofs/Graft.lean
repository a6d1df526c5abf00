/-
  PatternGraph.Proofs.Graft

  Adding to a graph what another one says.  Nodes go into the next slots and
  edges between the nodes that bear the names of their ends, so that nothing
  of the other graph's handles and lists goes over.  A merge grafts what is
  missing, and a copy is everything grafted onto the empty graph: copies and
  merges depend on what a graph says and on nothing else of it.

  A new node lists no edges and has the last slot, so it may be added before
  edges between other nodes or after them.  Two grafts in a row are for this
  reason one graft of both.
-/
import PatternGraph.Proofs.Merging
import PatternGraph.Proofs.Walks

namespace PatternGraph

namespace Slots

variable {α : Type}

/-- A change of an old value goes before a new one or after it. -/
theorem push_modify {s : Slots α} {i : Nat} (hi : i < s.size) (f : α → α) (a : α) :
    (s.modify i f).push a = (s.push a).modify i f := by
  refine ext_get? (by simp) ?_ rfl
  intro j
  simp only [get?_push, get?_modify, size_modify]
  by_cases hj : j = s.size
  · rw [if_pos hj, if_pos hj, if_neg (by omega)]
  · rw [if_neg hj, if_neg hj]

end Slots

/-- The node that says this, without edges. -/
def NodeContent.node (d : NodeContent) : Node where
  name := d.name
  label := d.label
  labelRef := d.labelRef

namespace Graph

/-- The node that bears the name; a free slot if none does. -/
def place (g : Graph) (name : Option String) : NodeId :=
  (name.bind g.nodeNamed?).getD ⟨g.nodes.size⟩

/-- The edge that says this, between the nodes that bear the names of its ends. -/
def edgeSaying (g : Graph) (d : EdgeContent) : Edge where
  name := d.name
  src := g.place d.src
  dest := g.place d.dest
  types := d.types
  typeRefs := d.typeRefs
  bidirectional := d.bidirectional
  hops := d.hops

/-- The graph with more nodes, given by what they say. -/
def withNodes (g : Graph) (nodes : List NodeContent) : Graph :=
  g.insertNodes (nodes.map NodeContent.node)

/-- The graph with more nodes and then more edges, given by what they say. -/
def graft (g : Graph) (nodes : List NodeContent) (edges : List EdgeContent) : Graph :=
  (g.withNodes nodes).insertEdges (edges.map (g.withNodes nodes).edgeSaying)

/-- Both ends of an edge have names, and nodes of the graph bear them. -/
def Bound (g : Graph) (d : EdgeContent) : Prop :=
  ∃ a b, d.src = some a ∧ d.dest = some b ∧ g.hasNode a = true ∧ g.hasNode b = true

variable {g h other : Graph} {nodes more : List NodeContent} {edges later : List EdgeContent}

/-! ## A new node before an edge or after it -/

theorem insertNode_modifyNode {x : NodeId} (hx : x.index < g.nodes.size) (f : Node → Node)
    (n : Node) : (g.modifyNode x f).insertNode n = (g.insertNode n).modifyNode x f := by
  simp only [insertNode, modifyNode, Slots.push_modify hx]

theorem insertNode_insertEdge {e : Edge} (hsrc : (g.node? e.src).isSome)
    (hdest : (g.node? e.dest).isSome) (n : Node) :
    (g.insertEdge e).insertNode n = (g.insertNode n).insertEdge e := by
  have lt_of_live : ∀ {x : NodeId}, (g.node? x).isSome → x.index < g.nodes.size := by
    intro x hx
    obtain ⟨m, hm⟩ := Option.isSome_iff_exists.mp hx
    exact lt_size_of_node? hm
  -- the edge is put into its slot, and then both of its ends are changed
  simp only [insertEdge, link]
  rw [insertNode_modifyNode, insertNode_modifyNode]
  · rfl
  · exact lt_of_live hsrc
  · rw [modifyNode, Slots.size_modify]
    exact lt_of_live hdest

theorem insertNodes_insertEdge {e : Edge} (hsrc : (g.node? e.src).isSome)
    (hdest : (g.node? e.dest).isSome) (ns : List Node) :
    (g.insertEdge e).insertNodes ns = (g.insertNodes ns).insertEdge e := by
  induction ns generalizing g with
  | nil => rfl
  | cons n rest ih =>
      rw [insertNodes_cons, insertNodes_cons, insertNode_insertEdge hsrc hdest]
      exact ih (isSome_node?_insertNode hsrc) (isSome_node?_insertNode hdest)

theorem insertNodes_insertEdges {es : List Edge}
    (hends : ∀ e ∈ es, (g.node? e.src).isSome ∧ (g.node? e.dest).isSome) (ns : List Node) :
    (g.insertEdges es).insertNodes ns = (g.insertNodes ns).insertEdges es := by
  induction es generalizing g with
  | nil => rfl
  | cons e rest ih =>
      obtain ⟨⟨hsrc, hdest⟩, hrest⟩ := List.forall_mem_cons.mp hends
      rw [insertEdges_cons, insertEdges_cons, ih, insertNodes_insertEdge hsrc hdest]
      simpa only [isSome_node?_insertEdge] using hrest

/-! ## Where names are found -/

theorem place_congr (hslots : g.nameSlots = h.nameSlots) : g.place = h.place := by
  have hsize : g.nodes.size = h.nodes.size := by
    rw [← length_nameSlots, hslots, length_nameSlots]
  funext name
  rw [place, place, hsize, funext (nodeNamed?_congr hslots)]

theorem edgeSaying_congr (hslots : g.nameSlots = h.nameSlots) : g.edgeSaying = h.edgeSaying := by
  funext d
  rw [edgeSaying, edgeSaying, place_congr hslots]

/-- A name that is bound is found where it was when others are added. -/
theorem place_of_append {names : List (Option String)} (hslots : h.nameSlots = g.nameSlots ++ names)
    {a : String} (ha : g.hasNode a = true) : h.place (some a) = g.place (some a) := by
  obtain ⟨x, hx⟩ := Option.isSome_iff_exists.mp ha
  obtain ⟨i, hi, rfl⟩ := Option.map_eq_some_iff.mp ((g.nodeNamed?_eq a).symm.trans hx)
  have hlater : h.nodeNamed? a = some ⟨i⟩ := by
    rw [nodeNamed?_eq, hslots, List.findIdx?_append, hi]
    rfl
  rw [place, place, Option.bind_some, Option.bind_some, hx, hlater]
  rfl

theorem Bound.edgeSaying_of_append {names : List (Option String)}
    (hslots : h.nameSlots = g.nameSlots ++ names) {d : EdgeContent} (bound : g.Bound d) :
    h.edgeSaying d = g.edgeSaying d := by
  obtain ⟨a, b, hsrc, hdest, ha, hb⟩ := bound
  rw [edgeSaying, edgeSaying, hsrc, hdest, place_of_append hslots ha, place_of_append hslots hb]

/-- The node that is found bears the name. -/
theorem nameOf?_place {a : String} (ha : g.hasNode a = true) :
    g.nameOf? (g.place (some a)) = some a := by
  obtain ⟨x, hx⟩ := Option.isSome_iff_exists.mp ha
  rw [place, Option.bind_some, hx]
  exact nameOf?_of_nodeNamed? hx

theorem Bound.isSome_ends {d : EdgeContent} (bound : g.Bound d) :
    (g.node? (g.edgeSaying d).src).isSome ∧ (g.node? (g.edgeSaying d).dest).isSome := by
  obtain ⟨a, b, hsrc, hdest, ha, hb⟩ := bound
  rw [edgeSaying, hsrc, hdest]
  exact ⟨isSome_node?_of_nameOf? (nameOf?_place ha), isSome_node?_of_nameOf? (nameOf?_place hb)⟩

/-- The edge that is made says what it was made to say. -/
theorem Bound.edgeContent_edgeSaying {d : EdgeContent} (bound : g.Bound d) :
    g.edgeContent (g.edgeSaying d) = d := by
  obtain ⟨a, b, hsrc, hdest, ha, hb⟩ := bound
  rw [edgeContent, edgeSaying, hsrc, hdest, nameOf?_place ha, nameOf?_place hb, ← hsrc, ← hdest]

/-- In a well-formed graph a name is found at the node that bears it. -/
theorem WellFormed.place_nameOf? (wf : g.WellFormed) {x : NodeId} (hx : (g.node? x).isSome) :
    g.place (g.nameOf? x) = x := by
  obtain ⟨n, hn⟩ := Option.isSome_iff_exists.mp hx
  rw [nameOf?_of_live hn, place, Option.bind_some, wf.nodeNamed?_name hn]
  rfl

/-- An edge between live nodes is found again from what it says. -/
theorem WellFormed.edgeSaying_edgeContent (wf : g.WellFormed) {e : Edge}
    (hsrc : (g.node? e.src).isSome) (hdest : (g.node? e.dest).isSome) :
    g.edgeSaying (g.edgeContent e) = e := by
  rw [edgeSaying, edgeContent, wf.place_nameOf? hsrc, wf.place_nameOf? hdest]

/-- The edges of a well-formed graph find their ends wherever all of its names are bound. -/
theorem WellFormed.bound_of_names (wf' : other.WellFormed)
    (hnames : ∀ a ∈ other.nodeNames, g.hasNode a = true) : ∀ d ∈ other.edgeContents, g.Bound d := by
  intro d hd
  obtain ⟨e, he, rfl⟩ := List.mem_map.mp hd
  obtain ⟨⟨m, hm⟩, n, hn⟩ := wf'.live_of_mem he
  have hsrc := nameOf?_of_live hm
  have hdest := nameOf?_of_live hn
  exact ⟨m.name, n.name, hsrc, hdest, hnames _ (mem_nodeNames.mpr ⟨_, hsrc⟩),
    hnames _ (mem_nodeNames.mpr ⟨_, hdest⟩)⟩

/-- In particular they find them in the graph itself. -/
theorem WellFormed.bound (wf : g.WellFormed) : ∀ d ∈ g.edgeContents, g.Bound d :=
  wf.bound_of_names fun _ => hasNode_iff_mem_nodeNames.mpr

/-! ## More nodes -/

theorem nameSlots_withNodes (g : Graph) (nodes : List NodeContent) :
    (g.withNodes nodes).nameSlots = g.nameSlots ++ nodes.map fun d => some d.name := by
  rw [withNodes, nameSlots_insertNodes, List.map_map]
  rfl

theorem hasNode_withNodes (g : Graph) (nodes : List NodeContent) (a : String) :
    (g.withNodes nodes).hasNode a = true ↔ g.hasNode a = true ∨ ∃ d ∈ nodes, d.name = a := by
  rw [hasNode_iff_mem, nameSlots_withNodes, List.mem_append, ← hasNode_iff_mem]
  simp

theorem withNodes_append (g : Graph) (nodes more : List NodeContent) :
    g.withNodes (nodes ++ more) = (g.withNodes nodes).withNodes more := by
  rw [withNodes, withNodes, withNodes, List.map_append, insertNodes, insertNodes, insertNodes,
    List.foldl_append]

theorem insertEdges_append (g : Graph) (es fs : List Edge) :
    g.insertEdges (es ++ fs) = (g.insertEdges es).insertEdges fs :=
  List.foldl_append

theorem nameSlots_insertEdges (g : Graph) (es : List Edge) :
    (g.insertEdges es).nameSlots = g.nameSlots := by
  induction es generalizing g with
  | nil => rfl
  | cons e rest ih => rw [insertEdges_cons, ih, nameSlots_insertEdge]

/-- Grafting twice is grafting both at once, when the edges of the first graft find their ends
    before the nodes of the second are there. -/
theorem graft_graft (bound : ∀ d ∈ edges, (g.withNodes nodes).Bound d) :
    (g.graft nodes edges).graft more later = g.graft (nodes ++ more) (edges ++ later) := by
  have hslots : ((g.withNodes nodes).withNodes more).nameSlots
      = (g.withNodes nodes).nameSlots ++ more.map fun d => some d.name := nameSlots_withNodes _ _
  have hends : ∀ e ∈ edges.map (g.withNodes nodes).edgeSaying,
      ((g.withNodes nodes).node? e.src).isSome ∧ ((g.withNodes nodes).node? e.dest).isSome := by
    intro e he
    obtain ⟨d, hd, rfl⟩ := List.mem_map.mp he
    exact (bound d hd).isSome_ends
  -- the nodes of the second graft may come before the edges of the first
  have hnodes : (g.graft nodes edges).withNodes more
      = ((g.withNodes nodes).withNodes more).insertEdges
          (edges.map (g.withNodes nodes).edgeSaying) :=
    insertNodes_insertEdges hends _
  have hfirst : edges.map (g.withNodes nodes).edgeSaying
      = edges.map ((g.withNodes nodes).withNodes more).edgeSaying :=
    List.map_congr_left fun d hd => ((bound d hd).edgeSaying_of_append hslots).symm
  have hlater : ((g.graft nodes edges).withNodes more).edgeSaying
      = ((g.withNodes nodes).withNodes more).edgeSaying := by
    rw [hnodes, edgeSaying_congr (nameSlots_insertEdges _ _)]
  rw [graft, hlater, hnodes, hfirst, ← insertEdges_append, ← List.map_append, graft,
    withNodes_append]

/-! ## What a graft says -/

theorem limits_graft (g : Graph) (nodes : List NodeContent) (edges : List EdgeContent) :
    (g.graft nodes edges).limits = g.limits :=
  (limits_insertEdges _ _).trans (limits_insertNodes _ _)

theorem nodeContents_insertNodes (g : Graph) (ns : List Node) :
    (g.insertNodes ns).nodeContents = g.nodeContents ++ ns.map Node.content := by
  induction ns generalizing g with
  | nil => exact (List.append_nil _).symm
  | cons n rest ih =>
      have hone : (g.insertNode n).nodeContents = g.nodeContents ++ [n.content] := by
        have hvalues : (g.insertNode n).nodes.values = g.nodes.values ++ [n] :=
          Slots.values_push _ _
        rw [nodeContents, hvalues, List.map_append]
        rfl
      rw [insertNodes_cons, ih, hone, List.append_assoc]
      rfl

theorem nodeContents_graft (g : Graph) (nodes : List NodeContent) (edges : List EdgeContent) :
    (g.graft nodes edges).nodeContents = g.nodeContents ++ nodes := by
  have hcontent : (nodes.map NodeContent.node).map Node.content = nodes := by
    rw [List.map_map]
    exact List.map_id' nodes
  rw [graft, nodeContents_insertEdges, withNodes, nodeContents_insertNodes, hcontent]

theorem edgeContents_insertEdges (g : Graph) (es : List Edge) :
    (g.insertEdges es).edgeContents = g.edgeContents ++ es.map g.edgeContent := by
  have hsame : (g.insertEdges es).edgeContent = g.edgeContent := by
    funext d
    simp only [edgeContent, nameOf?_insertEdges]
  rw [edgeContents, values_edges_insertEdges, hsame, List.map_append]
  rfl

theorem WellFormed.edgeContents_graft (wf : g.WellFormed)
    (bound : ∀ d ∈ edges, (g.withNodes nodes).Bound d) :
    (g.graft nodes edges).edgeContents = g.edgeContents ++ edges := by
  have hold : (g.withNodes nodes).edgeContents = g.edgeContents :=
    wf.edgeContents_of_append (edges_insertNodes g _) (nameSlots_withNodes g nodes)
  have hnew : (edges.map (g.withNodes nodes).edgeSaying).map (g.withNodes nodes).edgeContent
      = edges := by
    rw [List.map_map]
    exact (List.map_congr_left fun d hd => (bound d hd).edgeContent_edgeSaying).trans
      (List.map_id' edges)
  rw [graft, edgeContents_insertEdges, hold, hnew]

/-! ## What is bound depends on what is said -/

theorem hasNode_of_nodeContents (hcontents : g.nodeContents = h.nodeContents) :
    g.hasNode = h.hasNode := by
  funext a
  rw [Bool.eq_iff_iff, hasNode_iff_mem_nodeNames, hasNode_iff_mem_nodeNames, nodeNames, nodeNames,
    hcontents]

theorem hasEdge_of_edgeContents (hcontents : g.edgeContents = h.edgeContents) :
    g.hasEdge = h.hasEdge := by
  funext a
  rw [Bool.eq_iff_iff, hasEdge_iff_mem_edgeNames, hasEdge_iff_mem_edgeNames, edgeNames, edgeNames,
    hcontents]

/-! ## A copy is a graft -/

theorem nodes_insertNodes (g : Graph) (ns : List Node) :
    (g.insertNodes ns).nodes
      = ⟨g.nodes.cells ++ (ns.map some).toArray, g.nodes.live + ns.length⟩ := by
  induction ns generalizing g with
  | nil => simp [insertNodes]
  | cons n rest ih =>
      rw [insertNodes_cons, ih]
      simp [insertNode, Slots.push, Nat.add_comm, Nat.add_left_comm]

theorem bareCopy_eq (g : Graph) : g.bareCopy = (empty g.limits).withNodes g.nodeContents := by
  have hnodes : ((empty g.limits).withNodes g.nodeContents).nodes
      = Slots.ofList (g.nodes.values.map Node.isolated) := by
    rw [withNodes, nodes_insertNodes, nodeContents, List.map_map]
    simp [empty, Slots.empty, Slots.ofList, Function.comp_def, NodeContent.node, Node.content,
      Node.isolated]
  have hedges : ((empty g.limits).withNodes g.nodeContents).edges = Slots.empty :=
    edges_insertNodes _ _
  have hlimits : ((empty g.limits).withNodes g.nodeContents).limits = g.limits :=
    limits_insertNodes _ _
  cases hcopy : (empty g.limits).withNodes g.nodeContents with
  | mk nodes edges limits =>
      rw [hcopy] at hnodes hedges hlimits
      rw [bareCopy, ← hnodes, ← hedges, ← hlimits]

/-- A copy says what the original says, and is made of nothing else. -/
theorem Sound.compact_eq_graft (sound : g.Sound) :
    g.compact = (Graph.empty g.limits).graft g.nodeContents g.edgeContents := by
  -- the node of a name stands in the copy where the node of that name was copied to
  have hplace : ∀ {x : NodeId}, (∃ n, g.node? x = some n) →
      g.bareCopy.place (g.nameOf? x) = g.copyId x := by
    rintro x ⟨n, hn⟩
    have hlive := node?_bareCopy_copyId hn
    have hname : g.bareCopy.nameOf? (g.copyId x) = g.nameOf? x := by
      rw [nameOf?_of_live hlive, nameOf?_of_live hn]
      rfl
    rw [← hname]
    exact sound.bareCopy.place_nameOf? (by rw [hlive]; rfl)
  have hedges : g.edges.values.map g.copyEdge = g.edgeContents.map g.bareCopy.edgeSaying := by
    rw [edgeContents, List.map_map]
    apply List.map_congr_left
    intro e he
    obtain ⟨hsrc, hdest⟩ := sound.live_of_mem he
    rw [Function.comp_apply, edgeSaying, edgeContent, hplace hsrc, hplace hdest]
    rfl
  rw [compact_eq sound.slots, hedges, bareCopy_eq]
  rfl

/-! ## A merge is a graft -/

/-- What the graph lacks of what another one says of its nodes. -/
def lackingNodes (g : Graph) (nodes : List NodeContent) : List NodeContent :=
  nodes.filter (!g.hasNode ·.name)

/-- What the graph lacks of what another one says of its edges. -/
def lackingEdges (g : Graph) (edges : List EdgeContent) : List EdgeContent :=
  edges.filter (!g.hasEdge ·.name)

theorem map_content_missingNodes (g other : Graph) :
    (g.missingNodes other).map Node.content = g.lackingNodes other.nodeContents := by
  rw [lackingNodes, nodeContents, List.filter_map]
  rfl

theorem map_edgeContent_missingEdges (g other : Graph) :
    (g.missingEdges other).map other.edgeContent = g.lackingEdges other.edgeContents := by
  rw [lackingEdges, edgeContents, List.filter_map]
  rfl

/-- A merge copies what the other graph says and this one lacks. -/
theorem absorb_eq_graft (g other : Graph) :
    g.absorb other
      = g.graft (g.lackingNodes other.nodeContents) (g.lackingEdges other.edgeContents) := by
  have hnodes : g.withNodes (g.lackingNodes other.nodeContents) = g.withMissingNodes other := by
    rw [← map_content_missingNodes, withNodes, List.map_map]
    rfl
  rw [graft, hnodes, ← map_edgeContent_missingEdges, List.map_map]
  rfl

theorem WellFormed.bound_lackingEdges (wf' : other.WellFormed) :
    ∀ d ∈ g.lackingEdges other.edgeContents,
      (g.withNodes (g.lackingNodes other.nodeContents)).Bound d := by
  intro d hd
  refine wf'.bound_of_names (fun a ha => ?_) d (List.mem_filter.mp hd).1
  -- a name of the other graph was bound here, or its node is among those that are added
  obtain ⟨n, hn, rfl⟩ := List.mem_map.mp ha
  rw [hasNode_withNodes]
  cases hg : g.hasNode n.name with
  | true => exact .inl rfl
  | false => exact .inr ⟨n, List.mem_filter.mpr ⟨hn, by simp [hg]⟩, rfl⟩

theorem nodeContents_absorb (g other : Graph) :
    (g.absorb other).nodeContents = g.nodeContents ++ g.lackingNodes other.nodeContents := by
  rw [absorb_eq_graft, nodeContents_graft]

theorem WellFormed.edgeContents_absorb (wf : g.WellFormed) (wf' : other.WellFormed) :
    (g.absorb other).edgeContents = g.edgeContents ++ g.lackingEdges other.edgeContents := by
  rw [absorb_eq_graft, wf.edgeContents_graft wf'.bound_lackingEdges]

theorem limits_absorb (g other : Graph) : (g.absorb other).limits = g.limits := by
  rw [absorb_eq_graft, limits_graft]

end Graph

end PatternGraph
