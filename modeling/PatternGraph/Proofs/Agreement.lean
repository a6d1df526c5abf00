/-
  PatternGraph.Proofs.Agreement

  Graphs that say the same under the same budgets.  Their handles, vacated
  slots and lists may differ, as those of a graph and its copy do.  What is
  read of them without handles is the same, and a change that is told by names
  leaves graphs that agree again.
-/
import PatternGraph.Graph.Projection
import PatternGraph.Graph.Text
import PatternGraph.Proofs.Audit
import PatternGraph.Proofs.Components
import PatternGraph.Proofs.Saying

namespace PatternGraph

namespace Graph

/-- Two well-formed graphs say the same and have the same budgets. -/
structure Agrees (g h : Graph) : Prop where
  left : g.WellFormed
  right : h.WellFormed
  nodes : g.nodeContents = h.nodeContents
  edges : g.edgeContents = h.edgeContents
  limits : g.limits = h.limits

variable {g h other : Graph} {c : Catalog} {x y : NodeId} {i j : EdgeId} {a : String}

/-- A graph and its copy agree. -/
theorem Agrees.compact (sound : g.Sound) : g.compact.Agrees g :=
  ⟨sound.compact.toWellFormed, sound.toWellFormed, nodeContents_compact sound.slots,
    sound.edgeContents_compact, limits_compact sound.slots⟩

/-! ## What is read without handles -/

/-- The text of a graph tells no more than what the graph says. -/
theorem text_of_contents (hnodes : g.nodeContents = h.nodeContents)
    (hedges : g.edgeContents = h.edgeContents) : g.text = h.text := by
  have hn : ∀ k : Graph, k.nodes.values.map Node.text = k.nodeContents.map fun d =>
      Node.text d.node := by
    intro k
    rw [nodeContents, List.map_map]
    rfl
  have he : ∀ k : Graph, k.edges.values.map k.edgeText = k.edgeContents.map fun d =>
      Edge.textBetween ⟨d.name, ⟨0⟩, ⟨0⟩, d.types, [], d.bidirectional, d.hops⟩ (d.src.getD "?")
        (d.dest.getD "?") := by
    intro k
    rw [edgeContents, List.map_map]
    rfl
  rw [text, text, nodeLine, nodeLine, hn, hn, he, he, hnodes, hedges]

section Reading

variable (agrees : g.Agrees h)
include agrees

namespace Agrees

theorem hasNode_eq : g.hasNode = h.hasNode := hasNode_of_nodeContents agrees.nodes

theorem hasEdge_eq : g.hasEdge = h.hasEdge := hasEdge_of_edgeContents agrees.edges

theorem nodeCount_eq : g.nodeCount = h.nodeCount := by
  rw [← agrees.left.length_nodeContents, agrees.nodes, agrees.right.length_nodeContents]

theorem edgeCount_eq : g.edgeCount = h.edgeCount := by
  rw [← agrees.left.length_edgeContents, agrees.edges, agrees.right.length_edgeContents]

theorem names_eq : g.names = h.names := by
  rw [names, names, ← nodeNames_eq, ← nodeNames_eq, ← edgeNames_eq, ← edgeNames_eq, nodeNames,
    nodeNames, edgeNames, edgeNames, agrees.nodes, agrees.edges]

theorem renamed_eq (w : Walk) : g.renamed w = h.renamed w := by
  have hclash : g.clashes = h.clashes := by
    funext name
    rw [clashes, clashes, binds, binds, agrees.hasNode_eq, agrees.hasEdge_eq]
  rw [renamed, renamed, renamingFor, renamingFor, agrees.names_eq, hclash]

theorem roomForNodes_eq (extra : Nat) : g.roomForNodes extra = h.roomForNodes extra := by
  rw [roomForNodes, roomForNodes, agrees.nodeCount_eq, agrees.limits]

theorem roomForEdges_eq (extra : Nat) : g.roomForEdges extra = h.roomForEdges extra := by
  rw [roomForEdges, roomForEdges, agrees.edgeCount_eq, agrees.limits]

theorem roomForTypes_eq : g.roomForTypes = h.roomForTypes := by
  funext count
  rw [roomForTypes, roomForTypes, agrees.limits]

theorem freeNodeName_eq (name : String) : g.freeNodeName name = h.freeNodeName name := by
  rw [freeNodeName, freeNodeName, agrees.hasNode_eq]

theorem freeEdgeName_eq (name : String) : g.freeEdgeName name = h.freeEdgeName name := by
  rw [freeEdgeName, freeEdgeName, agrees.hasEdge_eq]

theorem acceptEdges_eq (seen : List String) (edges : List PathEdge) :
    g.acceptEdges seen edges = h.acceptEdges seen edges := by
  induction edges generalizing seen with
  | nil => rfl
  | cons e rest ih =>
      have hfresh : g.freshEdgeName seen e.name = h.freshEdgeName seen e.name := by
        rw [freshEdgeName, freshEdgeName, agrees.freeEdgeName_eq]
      rw [acceptEdges, acceptEdges, hfresh, agrees.roomForTypes_eq, ih]

theorem newNodeNames_eq (w : Walk) : g.newNodeNames w = h.newNodeNames w := by
  rw [newNodeNames, newNodeNames, agrees.hasNode_eq]

theorem accept_eq (w : Walk) : g.accept w = h.accept w := by
  rw [accept, accept, agrees.acceptEdges_eq, agrees.newNodeNames_eq, agrees.roomForNodes_eq,
    agrees.roomForEdges_eq]

theorem missingNodes_eq (other : Graph) : g.missingNodes other = h.missingNodes other := by
  rw [missingNodes, missingNodes, agrees.hasNode_eq]

theorem missingEdges_eq (other : Graph) : g.missingEdges other = h.missingEdges other := by
  rw [missingEdges, missingEdges, agrees.hasEdge_eq]

theorem roomForMissing_eq (other : Graph) : g.roomForMissing other = h.roomForMissing other := by
  rw [roomForMissing, roomForMissing, agrees.missingNodes_eq, agrees.missingEdges_eq,
    agrees.roomForNodes_eq, agrees.roomForEdges_eq, agrees.roomForTypes_eq]

theorem text_eq : g.text = h.text := text_of_contents agrees.nodes agrees.edges

theorem ordinals_eq : g.ordinals = h.ordinals := by
  rw [ordinals, ordinals, ← nodeNames_eq, ← nodeNames_eq, nodeNames, nodeNames, agrees.nodes]

theorem audit_eq : g.audit = h.audit := by
  rw [agrees.left.audit_eq_ok, agrees.right.audit_eq_ok]

/-! ## What is read of a copy -/

section Copy

variable (hslots : g.HasSlots 0 0) (hslots' : h.HasSlots 0 0)
include hslots hslots'

/-- Graphs that agree have one copy. -/
theorem compact_eq : g.compact = h.compact := by
  rw [(Sound.mk agrees.left hslots).compact_eq_graft,
    (Sound.mk agrees.right hslots').compact_eq_graft, agrees.limits, agrees.nodes, agrees.edges]

theorem toMatrix_eq {M ε : Type} (backend : MatrixBackend M ε) :
    g.toMatrix backend = h.toMatrix backend := by
  rw [toMatrix, toMatrix, agrees.compact_eq hslots hslots']

theorem split?_eq : g.split? = h.split? := by
  rw [split?, split?, agrees.compact_eq hslots hslots']

theorem components_eq : g.components = h.components := by
  have hlength : g.nodes.values.length = h.nodes.values.length := by
    have hlengths := congrArg List.length agrees.nodes
    rwa [nodeContents, nodeContents, List.length_map, List.length_map] at hlengths
  rw [components, components, hlength]
  cases h.nodes.values.length with
  | zero => rfl
  | succ k => rw [peel, peel, agrees.split?_eq hslots hslots']

end Copy

/-! ## Entities of one name -/

/-- Nodes of one name say the same. -/
theorem content_eq {n m : Node} (hx : g.node? x = some n) (hy : h.node? y = some m)
    (hname : n.name = m.name) : n.content = m.content := by
  have hn : n.content ∈ h.nodeContents := by
    rw [← agrees.nodes]
    exact content_mem_nodeContents hx
  have hm := content_mem_nodeContents hy
  have hnodup : (h.nodeContents.map NodeContent.name).Nodup := by
    rw [← nodeNames, nodeNames_eq]
    exact nodup_nodeNames agrees.right
  exact List.inj_on_of_nodup_map hnodup hn hm hname

/-- Edges of one name say the same. -/
theorem edgeContent_eq {d e : Edge} (hi : g.edge? i = some d) (hj : h.edge? j = some e)
    (hname : d.name = e.name) : g.edgeContent d = h.edgeContent e := by
  have hd : g.edgeContent d ∈ h.edgeContents := by
    rw [← agrees.edges]
    exact List.mem_map_of_mem (mem_values_edges.mpr ⟨i, hi⟩)
  have he : h.edgeContent e ∈ h.edgeContents := List.mem_map_of_mem (mem_values_edges.mpr ⟨j, hj⟩)
  have hnodup : (h.edgeContents.map EdgeContent.name).Nodup := by
    rw [← edgeNames, edgeNames_eq]
    exact nodup_edgeNames agrees.right
  exact List.inj_on_of_nodup_map hnodup hd he hname

end Agrees

end Reading

/-- A list of edges at a node is as long as there are edges that name it. -/
theorem WellFormed.size_eq_countP (wf : g.WellFormed) {side : Edge → NodeId}
    {f : EdgeContent → Option String} (hside : ∀ e, f (g.edgeContent e) = g.nameOf? (side e))
    {l : Array EdgeId} (hl : Lists l (g.HasEnd side x)) (hx : g.nameOf? x = some a) :
    l.size = g.edgeContents.countP (f · == some a) := by
  rw [size_of_lists hl, edgeContents, List.countP_map]
  apply List.countP_congr
  intro e _
  rw [Function.comp_apply, hside, beq_iff_eq, beq_iff_eq]
  exact ⟨fun heq => heq ▸ hx, fun heq => wf.nameOf?_inj heq hx⟩

/-- Nodes of one name have equally many edges on either side. -/
theorem Agrees.degrees_eq (agrees : g.Agrees h) {n m : Node} (hx : g.node? x = some n)
    (hy : h.node? y = some m) (hname : n.name = m.name) :
    n.inDegree = m.inDegree ∧ n.outDegree = m.outDegree := by
  have hleft := nameOf?_of_live hx
  have hright := nameOf?_of_live hy
  rw [← hname] at hright
  refine ⟨?_, ?_⟩
  · rw [Node.inDegree, Node.inDegree,
      agrees.left.size_eq_countP (f := EdgeContent.dest) (fun _ => rfl)
        (agrees.left.lists_incoming hx) hleft, agrees.edges]
    exact (agrees.right.size_eq_countP (fun _ => rfl) (agrees.right.lists_incoming hy) hright).symm
  · rw [Node.outDegree, Node.outDegree,
      agrees.left.size_eq_countP (f := EdgeContent.src) (fun _ => rfl)
        (agrees.left.lists_outgoing hx) hleft, agrees.edges]
    exact (agrees.right.size_eq_countP (fun _ => rfl) (agrees.right.lists_outgoing hy) hright).symm

/-- What is found on both sides or on none. -/
theorem isSome_cases {α : Type} {o p : Option α} (h : o.isSome = p.isSome) :
    (o = none ∧ p = none) ∨ ∃ a b, o = some a ∧ p = some b := by
  cases o with
  | none => exact .inl ⟨rfl, Option.isNone_iff_eq_none.mp (by rw [← Option.not_isSome, ← h]; rfl)⟩
  | some a =>
      obtain ⟨b, hb⟩ := Option.isSome_iff_exists.mp (h.symm.trans rfl)
      exact .inr ⟨a, b, rfl, hb⟩

/-- A handle that stands for a name stands for a node. -/
theorem isSome_node?_of_same (hsame : g.nameOf? x = h.nameOf? y) (hx : (g.node? x).isSome) :
    (h.node? y).isSome := by
  rwa [isSome_node?_iff_nameOf?, ← hsame, ← isSome_node?_iff_nameOf?]

/-- The node of a name passes a test of what nodes say and of how many edges they have. -/
def passes (g : Graph) (keep : NodeContent → Nat → Nat → Bool) (name : String) : Bool :=
  (g.nodeNamed? name).any fun x =>
    (g.node? x).any fun n => keep n.content n.inDegree n.outDegree

theorem WellFormed.passes_of_nameOf? (wf : g.WellFormed) (keep : NodeContent → Nat → Nat → Bool)
    (x : NodeId) (a : String) (hx : g.nameOf? x = some a) :
    ((g.node? x).any fun n => keep n.content n.inDegree n.outDegree) = g.passes keep a := by
  rw [passes, wf.nodeNamed?_eq_some.mpr hx, Option.any_some]

theorem Agrees.passes_eq (agrees : g.Agrees h) (keep : NodeContent → Nat → Nat → Bool) :
    g.passes keep = h.passes keep := by
  funext name
  rw [passes, passes]
  rcases isSome_cases (congrFun agrees.hasNode_eq name) with ⟨hl, hr⟩ | ⟨x, y, hl, hr⟩
  · rw [hl, hr]
    rfl
  · obtain ⟨n, hn, hname⟩ := node?_of_nodeNamed? hl
    obtain ⟨m, hm, hname'⟩ := node?_of_nodeNamed? hr
    have heq := hname.trans hname'.symm
    obtain ⟨hin, hout⟩ := agrees.degrees_eq hn hm heq
    simp only [hl, hr, Option.any_some, hn, hm, agrees.content_eq hn hm heq, hin, hout]

/-- As many nodes are taken out as there are names that do not pass. -/
theorem WellFormed.length_failing (wf : g.WellFormed) (keep : NodeContent → Nat → Nat → Bool) :
    (g.liveNodes.filter fun p => !keep p.2.content p.2.inDegree p.2.outDegree).length
      = g.nodeContents.countP fun d => !g.passes keep d.name := by
  rw [nodeContents, ← map_snd_liveNodes, List.map_map, List.countP_map,
    ← List.countP_eq_length_filter]
  apply List.countP_congr
  rintro ⟨x, n⟩ hn
  have hlive := mem_liveNodes.mp hn
  have hpass := wf.passes_of_nameOf? keep x n.name (nameOf?_of_live hlive)
  rw [hlive, Option.any_some] at hpass
  simp only [Function.comp_apply, Node.content] at hpass ⊢
  rw [← hpass]

/-! ## Changes that are told by names -/

namespace Agrees

theorem insertNode (agrees : g.Agrees h) {name : String} (hfree : g.hasNode name = false) :
    (g.insertNode (.bare name)).Agrees (h.insertNode (.bare name)) where
  left := agrees.left.insertNode hfree rfl rfl
  right := agrees.right.insertNode (agrees.hasNode_eq ▸ hfree) rfl rfl
  nodes := by rw [nodeContents_insertNode, nodeContents_insertNode, agrees.nodes]
  edges := by
    rw [agrees.left.edgeContents_insertNode, agrees.right.edgeContents_insertNode, agrees.edges]
  limits := agrees.limits

/-- Edges that say the same may be added on both sides. -/
theorem insertEdge (agrees : g.Agrees h) {d e : Edge} (hfree : g.hasEdge d.name = false)
    (hsaid : g.edgeContent d = h.edgeContent e) (hsrc : (g.node? d.src).isSome)
    (hdest : (g.node? d.dest).isSome) : (g.insertEdge d).Agrees (h.insertEdge e) := by
  have hname : d.name = e.name := congrArg EdgeContent.name hsaid
  have hsrc' := isSome_node?_of_same (congrArg EdgeContent.src hsaid) hsrc
  have hdest' := isSome_node?_of_same (congrArg EdgeContent.dest hsaid) hdest
  constructor
  case left => exact agrees.left.insertEdge hfree hsrc hdest
  case right =>
    have hfree' : h.hasEdge e.name = false := by rw [← agrees.hasEdge_eq, ← hname, hfree]
    exact agrees.right.insertEdge hfree' hsrc' hdest'
  case nodes => rw [nodeContents_insertEdge, nodeContents_insertEdge, agrees.nodes]
  case edges => rw [edgeContents_insertEdge, edgeContents_insertEdge, agrees.edges, hsaid]
  case limits => exact agrees.limits

theorem offerLabel (agrees : g.Agrees h) (hx : g.nameOf? x = some a) (hy : h.nameOf? y = some a)
    (label : Option String) : (g.offerLabel c x label).Agrees (h.offerLabel c y label) where
  left := agrees.left.offerLabel c x label
  right := agrees.right.offerLabel c y label
  nodes := by
    rw [agrees.left.nodeContents_offerLabel hx, agrees.right.nodeContents_offerLabel hy,
      agrees.nodes]
  edges := by
    rw [agrees.left.edgeContents_offerLabel, agrees.right.edgeContents_offerLabel, agrees.edges]
  limits := by rw [limits_offerLabel, limits_offerLabel, agrees.limits]

theorem extend (agrees : g.Agrees h) {w : Walk} (accepted : g.accept w = .ok ()) :
    (g.extend c w).Agrees (h.extend c w) := by
  obtain ⟨hfree, hnodup⟩ := fresh_of_accept accepted
  have hfree' : ∀ e ∈ w.edges, h.hasEdge e.name = false := by
    rw [← agrees.hasEdge_eq]
    exact hfree
  constructor
  case left => exact agrees.left.extend hfree hnodup
  case right => exact agrees.right.extend hfree' hnodup
  case nodes =>
    rw [agrees.left.nodeContents_extend hfree hnodup,
      agrees.right.nodeContents_extend hfree' hnodup, agrees.nodes]
  case edges =>
    rw [agrees.left.edgeContents_extend hfree hnodup,
      agrees.right.edgeContents_extend hfree' hnodup, agrees.edges]
  case limits => rw [limits_extend, limits_extend, agrees.limits]

theorem absorb (agrees : g.Agrees h) (wf' : other.WellFormed) :
    (g.absorb other).Agrees (h.absorb other) where
  left := agrees.left.absorb wf'
  right := agrees.right.absorb wf'
  nodes := by
    rw [nodeContents_absorb, nodeContents_absorb, lackingNodes, lackingNodes, agrees.hasNode_eq,
      agrees.nodes]
  edges := by
    rw [agrees.left.edgeContents_absorb wf', agrees.right.edgeContents_absorb wf', lackingEdges,
      lackingEdges, agrees.hasEdge_eq, agrees.edges]
  limits := by rw [limits_absorb, limits_absorb, agrees.limits]

/-- Parts that are told by one test on names agree. -/
theorem induced (agrees : g.Agrees h) {p p' : NodeId → Bool} {q : String → Bool}
    (hp : ∀ x a, g.nameOf? x = some a → p x = q a)
    (hp' : ∀ y a, h.nameOf? y = some a → p' y = q a) : (g.induced p).Agrees (h.induced p') where
  left := agrees.left.induced p
  right := agrees.right.induced p'
  nodes := by
    rw [nodeContents_induced_of_names hp, nodeContents_induced_of_names hp', agrees.nodes]
  edges := by
    rw [agrees.left.edgeContents_induced_of_names hp,
      agrees.right.edgeContents_induced_of_names hp', agrees.edges]
  limits := agrees.limits

theorem dropEdge (agrees : g.Agrees h) {d e : Edge} (hi : g.edge? i = some d)
    (hj : h.edge? j = some e) (hname : d.name = e.name) :
    (g.dropEdge i).Agrees (h.dropEdge j) where
  left := agrees.left.dropEdge i
  right := agrees.right.dropEdge j
  nodes := by rw [nodeContents_dropEdge, nodeContents_dropEdge, agrees.nodes]
  edges := by
    rw [agrees.left.edgeContents_dropEdge hi, agrees.right.edgeContents_dropEdge hj, agrees.edges,
      hname]
  limits := by rw [limits_dropEdge, limits_dropEdge, agrees.limits]

theorem turnEdge (agrees : g.Agrees h) {d e : Edge} (hi : g.edge? i = some d)
    (hj : h.edge? j = some e) (hname : d.name = e.name) :
    (g.turnEdge i d).Agrees (h.turnEdge j e) where
  left := agrees.left.turnEdge hi
  right := agrees.right.turnEdge hj
  nodes := by rw [nodeContents_turnEdge, nodeContents_turnEdge, agrees.nodes]
  edges := by
    rw [agrees.left.edgeContents_turnEdge hi, agrees.right.edgeContents_turnEdge hj, agrees.edges,
      hname]
  limits := agrees.limits

theorem refresh (agrees : g.Agrees h) (c : Catalog) : (g.refresh c).Agrees (h.refresh c) where
  left := agrees.left.refresh c
  right := agrees.right.refresh c
  nodes := by rw [nodeContents_refresh, nodeContents_refresh, agrees.nodes]
  edges := by rw [edgeContents_refresh, edgeContents_refresh, agrees.edges]
  limits := agrees.limits

end Agrees

end Graph

end PatternGraph
