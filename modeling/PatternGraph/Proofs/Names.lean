/-
  PatternGraph.Proofs.Names

  The names of a graph, slot by slot.  Looking a node up by its name depends on
  nothing else, so an operation that leaves the names where they are leaves
  every such look-up as it is, and one that adds a node adds one name.
-/
import PatternGraph.Proofs.Growth

namespace PatternGraph.Graph

variable {g : Graph}

/-- For each slot the name of the node in it. -/
def nameSlots (g : Graph) : List (Option String) :=
  g.nodes.cells.toList.map (Option.map Node.name)

theorem length_nameSlots (g : Graph) : g.nameSlots.length = g.nodes.size := by
  simp [nameSlots, Slots.size]

theorem nameOf?_eq (g : Graph) (x : NodeId) : g.nameOf? x = g.nameSlots[x.index]?.join := by
  rw [nameSlots, List.getElem?_map, Array.getElem?_toList, nameOf?, node?, Slots.get?]
  cases g.nodes.cells[x.index]? with
  | none => rfl
  | some cell => cases cell <;> rfl

theorem nodeNamed?_eq (g : Graph) (name : String) :
    g.nodeNamed? name = (g.nameSlots.findIdx? (· == some name)).map NodeId.mk := by
  obtain ⟨⟨⟨cells⟩, _⟩, _, _⟩ := g
  show (Array.findIdx? _ (List.toArray cells)).map NodeId.mk = _
  rw [nameSlots, List.findIdx?_map, List.findIdx?_toArray]
  congr 2
  funext cell
  cases cell <;> simp

theorem nodeNamed?_congr {g h : Graph} (hslots : g.nameSlots = h.nameSlots) (name : String) :
    g.nodeNamed? name = h.nodeNamed? name := by
  rw [nodeNamed?_eq, nodeNamed?_eq, hslots]

theorem hasNode_congr {g h : Graph} (hslots : g.nameSlots = h.nameSlots) (name : String) :
    g.hasNode name = h.hasNode name := by
  rw [hasNode, hasNode, nodeNamed?_congr hslots]

theorem nameOf?_congr {g h : Graph} (hslots : g.nameSlots = h.nameSlots) (x : NodeId) :
    g.nameOf? x = h.nameOf? x := by
  rw [nameOf?_eq, nameOf?_eq, hslots]

theorem hasNode_iff_mem {name : String} : g.hasNode name = true ↔ some name ∈ g.nameSlots := by
  rw [hasNode, nodeNamed?_eq, Option.isSome_map, List.findIdx?_isSome, List.any_eq_true]
  simp

/-! ## Names after an operation -/

theorem nameSlots_insertNode (g : Graph) (n : Node) :
    (g.insertNode n).nameSlots = g.nameSlots ++ [some n.name] := by
  simp [nameSlots, insertNode, Slots.push]

theorem nameSlots_modifyNode (id : NodeId) {f : Node → Node} (hf : ∀ n, (f n).name = n.name) :
    (g.modifyNode id f).nameSlots = g.nameSlots := by
  apply List.ext_getElem?
  intro i
  have hsize : (g.modifyNode id f).nodes.size = g.nodes.size := Slots.size_modify _ _ _
  by_cases hi : i < g.nodes.size
  · have hname : (g.modifyNode id f).nameOf? ⟨i⟩ = g.nameOf? ⟨i⟩ := by
      rw [nameOf?, nameOf?, node?_modifyNode]
      split
      · rw [Option.map_map]
        congr 1
        funext n
        exact hf n
      · rfl
    rw [nameOf?_eq, nameOf?_eq] at hname
    have hl : i < (g.modifyNode id f).nameSlots.length := by rw [length_nameSlots, hsize]; exact hi
    have hr : i < g.nameSlots.length := by rw [length_nameSlots]; exact hi
    rw [List.getElem?_eq_getElem hl, List.getElem?_eq_getElem hr] at hname ⊢
    exact congrArg some hname
  · rw [List.getElem?_eq_none (by rw [length_nameSlots, hsize]; omega),
      List.getElem?_eq_none (by rw [length_nameSlots]; omega)]

theorem nameSlots_link (g : Graph) (id : EdgeId) (src dest : NodeId) :
    (g.link id src dest).nameSlots = g.nameSlots := by
  have hin : ∀ n : Node, (n.addIncoming id).name = n.name := fun _ => rfl
  have hout : ∀ n : Node, (n.addOutgoing id).name = n.name := fun _ => rfl
  rw [link, nameSlots_modifyNode dest hin, nameSlots_modifyNode src hout]

theorem nameSlots_insertEdge (g : Graph) (e : Edge) : (g.insertEdge e).nameSlots = g.nameSlots :=
  nameSlots_link _ _ _ _

theorem hasNode_insertNode (g : Graph) (n : Node) (name : String) :
    (g.insertNode n).hasNode name = (n.name == name || g.hasNode name) := by
  rw [Bool.eq_iff_iff, hasNode_iff_mem, nameSlots_insertNode, List.mem_append,
    List.mem_singleton, Bool.or_eq_true, hasNode_iff_mem, beq_iff_eq, Option.some_inj]
  grind

theorem hasEdge_congr {g h : Graph} (hedges : g.edges = h.edges) (name : String) :
    g.hasEdge name = h.hasEdge name := by
  rw [hasEdge, hasEdge, edgeNamed?, edgeNamed?, hedges]

/-- A node keeps its name when others are added. -/
theorem nameOf?_of_append {g h : Graph} {names : List (Option String)}
    (hslots : h.nameSlots = g.nameSlots ++ names) {x : NodeId} {a : String}
    (ha : g.nameOf? x = some a) : h.nameOf? x = some a := by
  rw [nameOf?_eq] at ha ⊢
  -- a slot that holds a name is one of the old slots
  have hlt : x.index < g.nameSlots.length := by
    rcases Nat.lt_or_ge x.index g.nameSlots.length with hlt | hge
    · exact hlt
    · simp [List.getElem?_eq_none hge] at ha
  rw [hslots, List.getElem?_append_left hlt]
  exact ha

theorem isSome_node?_iff_nameOf? {x : NodeId} : (g.node? x).isSome = (g.nameOf? x).isSome := by
  rw [nameOf?, Option.isSome_map]

theorem nameOf?_of_nodeNamed? {name : String} {x : NodeId} (h : g.nodeNamed? name = some x) :
    g.nameOf? x = some name := by
  obtain ⟨n, hn, rfl⟩ := node?_of_nodeNamed? h
  rw [nameOf?, hn]
  rfl

/-- As many nodes are counted as there are names. -/
theorem WellFormed.nodeCount_eq (wf : g.WellFormed) :
    g.nodeCount = (g.nameSlots.filterMap id).length := by
  have hnames : g.nameSlots.filterMap id = g.nodes.values.map Node.name := by
    rw [nameSlots, List.filterMap_map, Slots.values, List.map_filterMap]
    rfl
  rw [hnames, List.length_map]
  exact wf.node_count

end PatternGraph.Graph
