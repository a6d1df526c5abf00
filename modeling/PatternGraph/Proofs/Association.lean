/-
  PatternGraph.Proofs.Association

  Merging is associative.  Which of two descriptions of a name is kept is
  decided by the order of the graphs and not by the order of the merges: what
  the first graph lacks of the other two merged is what it lacks of the second,
  followed by what both lack of the third.  The budgets and the slots agree as
  well, since the counts only grow: there is room for both together exactly when
  there is room for one after the other.
-/
import PatternGraph.Proofs.Budgets
import PatternGraph.Proofs.Graft

namespace PatternGraph

namespace Graph

variable {g h a b c bc other : Graph} {nodes more : List NodeContent}
  {edges later : List EdgeContent}

/-! ## Room for what is grafted -/

/-- There is room in the budgets for more nodes and more edges, given by what they say, and there
    are slots for them. -/
structure HasRoom (g : Graph) (nodes : List NodeContent) (edges : List EdgeContent) : Prop where
  node_room : g.nodeCount + nodes.length ≤ g.limits.maxNodes
  edge_room : g.edgeCount + edges.length ≤ g.limits.maxEdges
  type_room : ∀ d ∈ edges, d.types.length ≤ g.limits.maxTypesPerEdge
  slots : g.HasSlots nodes.length edges.length

theorem nodeCount_graft (g : Graph) (nodes : List NodeContent) (edges : List EdgeContent) :
    (g.graft nodes edges).nodeCount = g.nodeCount + nodes.length := by
  rw [graft, nodeCount_insertEdges, withNodes, nodeCount_insertNodes, List.length_map]

theorem edgeCount_graft (g : Graph) (nodes : List NodeContent) (edges : List EdgeContent) :
    (g.graft nodes edges).edgeCount = g.edgeCount + edges.length := by
  have hedges : (g.withNodes nodes).edgeCount = g.edgeCount :=
    congrArg Slots.live (edges_insertNodes g _)
  rw [graft, edgeCount_insertEdges, hedges, List.length_map]

theorem nodeCount_absorb (g other : Graph) :
    (g.absorb other).nodeCount = g.nodeCount + (g.lackingNodes other.nodeContents).length := by
  rw [absorb_eq_graft, nodeCount_graft]

theorem edgeCount_absorb (g other : Graph) :
    (g.absorb other).edgeCount = g.edgeCount + (g.lackingEdges other.edgeContents).length := by
  rw [absorb_eq_graft, edgeCount_graft]

theorem size_nodes_graft (g : Graph) (nodes : List NodeContent) (edges : List EdgeContent) :
    (g.graft nodes edges).nodes.size = g.nodes.size + nodes.length := by
  rw [graft, size_nodes_insertEdges, withNodes, size_nodes_insertNodes, List.length_map]

theorem size_edges_graft (g : Graph) (nodes : List NodeContent) (edges : List EdgeContent) :
    (g.graft nodes edges).edges.size = g.edges.size + edges.length := by
  have hedges : (g.withNodes nodes).edges.size = g.edges.size :=
    congrArg Slots.size (edges_insertNodes g _)
  rw [graft, size_edges_insertEdges, hedges, List.length_map]

/-- There is room for both grafts together exactly when there is room for the one and then for
    the other. -/
theorem hasRoom_append :
    g.HasRoom (nodes ++ more) (edges ++ later) ↔
      g.HasRoom nodes edges ∧ (g.graft nodes edges).HasRoom more later := by
  refine ⟨?_, ?_⟩
  · rintro ⟨hnodes, hedges, htypes, hslots, hslots'⟩
    -- what the first graft takes counts against the second
    obtain ⟨hfirst, hlater⟩ := List.forall_mem_append.mp htypes
    rw [List.length_append] at hnodes hedges hslots hslots'
    refine ⟨⟨by omega, by omega, hfirst, ⟨by omega, by omega⟩⟩, ?_, ?_, ?_, ?_, ?_⟩
    · rw [nodeCount_graft, limits_graft]
      omega
    · rw [edgeCount_graft, limits_graft]
      omega
    · rw [limits_graft]
      exact hlater
    · rw [size_nodes_graft]
      omega
    · rw [size_edges_graft]
      omega
  · rintro ⟨⟨-, -, hfirst, -⟩, hnodes, hedges, hlater, hslots, hslots'⟩
    rw [nodeCount_graft, limits_graft] at hnodes
    rw [edgeCount_graft, limits_graft] at hedges
    rw [limits_graft] at hlater
    rw [size_nodes_graft] at hslots
    rw [size_edges_graft] at hslots'
    rw [Nat.add_assoc, ← List.length_append] at hnodes hedges hslots hslots'
    exact ⟨hnodes, hedges, List.forall_mem_append.mpr ⟨hfirst, hlater⟩, hslots, hslots'⟩

/-- There are slots in the empty graph for all that a graph says, since the graph itself has
    them. -/
theorem HasSlots.contents (hslots : g.HasSlots 0 0) (limits : Limits) :
    (Graph.empty limits).HasSlots g.nodeContents.length g.edgeContents.length where
  nodes := by
    rw [nodeContents, List.length_map]
    exact Nat.le_trans (Nat.le_of_eq (Nat.zero_add _))
      (Nat.le_trans g.nodes.length_values_le hslots.nodes)
  edges := by
    rw [edgeContents, List.length_map]
    exact Nat.le_trans (Nat.le_of_eq (Nat.zero_add _))
      (Nat.le_trans g.edges.length_values_le hslots.edges)

/-! ## When a merge succeeds -/

theorem length_missingNodes (g other : Graph) :
    (g.missingNodes other).length = (g.lackingNodes other.nodeContents).length := by
  rw [← map_content_missingNodes, List.length_map]

theorem length_missingEdges (g other : Graph) :
    (g.missingEdges other).length = (g.lackingEdges other.edgeContents).length := by
  rw [← map_edgeContent_missingEdges, List.length_map]

/-- There is room for what is missing exactly when all questions of a merge are answered and there
    are slots for it. -/
theorem hasRoom_lacking_iff :
    g.HasRoom (g.lackingNodes other.nodeContents) (g.lackingEdges other.edgeContents) ↔
      g.roomForMissing other = .ok () ∧
        g.HasSlots (g.missingNodes other).length (g.missingEdges other).length := by
  simp only [roomForMissing_eq_ok, roomForNodes_eq_ok, roomForEdges_eq_ok, roomForTypes_eq_ok,
    length_missingNodes, length_missingEdges]
  refine ⟨?_, ?_⟩
  · rintro ⟨hnodes, hedges, htypes, hslots⟩
    refine ⟨⟨hnodes, hedges, fun e he => ?_⟩, hslots⟩
    rw [← map_edgeContent_missingEdges] at htypes
    exact htypes _ (List.mem_map_of_mem he)
  · rintro ⟨⟨hnodes, hedges, htypes⟩, hslots⟩
    refine ⟨hnodes, hedges, fun d hd => ?_, hslots⟩
    rw [← map_edgeContent_missingEdges] at hd
    obtain ⟨e, he, rfl⟩ := List.mem_map.mp hd
    exact htypes e he

/-- A merge succeeds when there is room for what is missing; it grafts that and counts it. -/
theorem WellFormed.merge_eq_ok (wf' : other.WellFormed) (hslots : g.HasSlots 0 0)
    {t : MergeTally} :
    Edit.merge other g = .ok t h ↔
      g.HasRoom (g.lackingNodes other.nodeContents) (g.lackingEdges other.edgeContents) ∧
        t = ⟨(g.lackingNodes other.nodeContents).length,
          (g.lackingEdges other.edgeContents).length⟩ ∧ h = g.absorb other := by
  rw [hasRoom_lacking_iff, ← length_missingNodes, ← length_missingEdges]
  constructor
  · intro hrun
    obtain ⟨hroom, hnodes, hedges, rfl, rfl⟩ := Edit.merge_eq_absorb wf' hrun
    have hall := hslots.nodes
    have hall' := hslots.edges
    exact ⟨⟨hroom, ⟨by omega, by omega⟩⟩, rfl, rfl⟩
  · rintro ⟨⟨hroom, hslots⟩, rfl, rfl⟩
    exact Edit.merge_ok wf' hroom hslots

/-! ## One merge after the other -/

/-- The names of a list to which those of another list are added that it does not have. -/
theorem mem_names_append_filter {α : Type} {name : α → String} {l m : List α} {has : String → Bool}
    (hhas : ∀ a, has a = true ↔ a ∈ l.map name) {a : String} :
    a ∈ (l ++ m.filter fun x => !has (name x)).map name ↔ a ∈ l.map name ∨ a ∈ m.map name := by
  rw [List.map_append, List.mem_append]
  refine or_congr_right' fun hnot => ?_
  refine ⟨fun hmem => (List.filter_sublist.map name).subset hmem, fun hmem => ?_⟩
  -- a name that the first list does not have passes the filter
  obtain ⟨x, hx, rfl⟩ := List.mem_map.mp hmem
  have hfree : has (name x) = false := Bool.eq_false_iff.mpr (mt (hhas _).mp hnot)
  exact List.mem_map.mpr ⟨x, List.mem_filter.mpr ⟨hx, by rw [hfree]; rfl⟩, rfl⟩

theorem hasNode_absorb (g other : Graph) (name : String) :
    (g.absorb other).hasNode name = (g.hasNode name || other.hasNode name) := by
  rw [Bool.eq_iff_iff, Bool.or_eq_true, hasNode_iff_mem_nodeNames, hasNode_iff_mem_nodeNames,
    hasNode_iff_mem_nodeNames, nodeNames, nodeContents_absorb]
  exact mem_names_append_filter fun _ => hasNode_iff_mem_nodeNames

theorem WellFormed.hasEdge_absorb (wf : g.WellFormed) (wf' : other.WellFormed) (name : String) :
    (g.absorb other).hasEdge name = (g.hasEdge name || other.hasEdge name) := by
  rw [Bool.eq_iff_iff, Bool.or_eq_true, hasEdge_iff_mem_edgeNames, hasEdge_iff_mem_edgeNames,
    hasEdge_iff_mem_edgeNames, edgeNames, wf.edgeContents_absorb wf']
  exact mem_names_append_filter fun _ => hasEdge_iff_mem_edgeNames

/-- What two merged graphs lack is what the first lacks of what the second lacks. -/
theorem lackingNodes_absorb (a b : Graph) (nodes : List NodeContent) :
    (a.absorb b).lackingNodes nodes = a.lackingNodes (b.lackingNodes nodes) := by
  rw [lackingNodes, lackingNodes, lackingNodes, List.filter_filter]
  congr 1
  funext d
  rw [hasNode_absorb, Bool.not_or]

theorem WellFormed.lackingEdges_absorb (wfa : a.WellFormed) (wfb : b.WellFormed)
    (edges : List EdgeContent) :
    (a.absorb b).lackingEdges edges = a.lackingEdges (b.lackingEdges edges) := by
  rw [lackingEdges, lackingEdges, lackingEdges, List.filter_filter]
  congr 1
  funext d
  rw [wfa.hasEdge_absorb wfb, Bool.not_or]

/-- The graph says what two graphs say together, the first of them first. -/
structure Unites (bc b c : Graph) : Prop where
  nodes : bc.nodeContents = b.nodeContents ++ b.lackingNodes c.nodeContents
  edges : bc.edgeContents = b.edgeContents ++ b.lackingEdges c.edgeContents

/-- What a merge adds to a copy is what it would add to the original. -/
theorem Sound.unites_merge (sound : b.Sound) (wfc : c.WellFormed) {s : MergeTally}
    (hbc : Edit.merge c b.compact = .ok s bc) : bc.WellFormed ∧ bc.Unites b c := by
  have wf := sound.compact.toWellFormed
  obtain ⟨-, -, rfl⟩ := (wfc.merge_eq_ok sound.compact.slots).mp hbc
  refine ⟨wf.absorb wfc, ?_, ?_⟩
  · rw [nodeContents_absorb, nodeContents_compact sound.slots, lackingNodes, lackingNodes,
      hasNode_of_nodeContents (nodeContents_compact sound.slots)]
  · rw [wf.edgeContents_absorb wfc, sound.edgeContents_compact, lackingEdges, lackingEdges,
      hasEdge_of_edgeContents sound.edgeContents_compact]

theorem Unites.lackingNodes_eq (unites : bc.Unites b c) (a : Graph) :
    a.lackingNodes bc.nodeContents
      = a.lackingNodes b.nodeContents ++ (a.absorb b).lackingNodes c.nodeContents := by
  rw [unites.nodes, lackingNodes_absorb]
  exact List.filter_append _ _

theorem Unites.lackingEdges_eq (unites : bc.Unites b c) (wfa : a.WellFormed) (wfb : b.WellFormed) :
    a.lackingEdges bc.edgeContents
      = a.lackingEdges b.edgeContents ++ (a.absorb b).lackingEdges c.edgeContents := by
  rw [unites.edges, wfa.lackingEdges_absorb wfb]
  exact List.filter_append _ _

/-- Merging both graphs at once leaves the graph that merging them one after the other leaves. -/
theorem Unites.absorb_absorb (unites : bc.Unites b c) (wfa : a.WellFormed) (wfb : b.WellFormed) :
    (a.absorb b).absorb c = a.absorb bc := by
  rw [absorb_eq_graft a bc, unites.lackingNodes_eq, unites.lackingEdges_eq wfa wfb,
    absorb_eq_graft (a.absorb b) c, ← graft_graft wfb.bound_lackingEdges, ← absorb_eq_graft a b]

end Graph

open PatternGraph.Graph

/-- Merging into a first graph what a third one added to a copy of a second is merging the second
    and then the third: the one succeeds when the other does, they leave one graph, and they copy
    as many nodes and edges. -/
theorem Reachable.merge_assoc {a b c bc : Graph} {s : MergeTally} (ha : Reachable a)
    (hb : Reachable b) (hc : Reachable c) (hbc : Edit.merge c b.compact = .ok s bc)
    (t : MergeTally) (g : Graph) :
    Edit.merge bc a = .ok t g ↔
      ∃ t₁ t₂ ab, Edit.merge b a = .ok t₁ ab ∧ Edit.merge c ab = .ok t₂ g ∧
        t₁.nodes + t₂.nodes = t.nodes ∧ t₁.edges + t₂.edges = t.edges := by
  have wfa := ha.wellFormed
  have wfb := hb.wellFormed
  have wfc := hc.wellFormed
  obtain ⟨wfbc, unites⟩ := hb.sound.unites_merge wfc hbc
  have sound := ha.sound
  -- said of what the first graph lacks, both sides ask for the same room and graft the same
  rw [wfbc.merge_eq_ok sound.slots, unites.lackingNodes_eq, unites.lackingEdges_eq wfa wfb,
    hasRoom_append, ← absorb_eq_graft, ← unites.absorb_absorb wfa wfb, List.length_append,
    List.length_append]
  have keep : ∀ {t ab}, Edit.merge b a = .ok t ab → ab.HasSlots 0 0 :=
    (Edit.keeps_slots_merge b).of_ok sound.slots
  refine ⟨?_, ?_⟩
  · rintro ⟨⟨hfirst, hsecond⟩, rfl, rfl⟩
    have hab := (wfb.merge_eq_ok sound.slots).mpr ⟨hfirst, rfl, rfl⟩
    exact ⟨_, _, _, hab, (wfc.merge_eq_ok (keep hab)).mpr ⟨hsecond, rfl, rfl⟩, rfl, rfl⟩
  · rintro ⟨t₁, t₂, ab, hfirst, hsecond, hnodes, hedges⟩
    obtain ⟨hlater, rfl, rfl⟩ := (wfc.merge_eq_ok (keep hfirst)).mp hsecond
    obtain ⟨hroom, rfl, rfl⟩ := (wfb.merge_eq_ok sound.slots).mp hfirst
    refine ⟨⟨hroom, hlater⟩, ?_, rfl⟩
    cases t
    simp_all

/-- The second graph describes a node of the first one differently, and the third describes a node
    and an edge of the second; the first graph has a free slot and an edge that was turned
    round. -/
theorem Reachable.merge_assoc_of_clash :
    let path (a la r b lb : String) : Command := .addPath .empty
      ⟨[.node ⟨a, some la⟩, .edge ⟨r, .outgoing, [r], none⟩, .node ⟨b, some lb⟩]⟩
    let a := Command.runAll [path "x" "A" "r" "y" "A", .addNode "z",
      .addEdge ⟨"s", ⟨1⟩, ⟨1⟩, [], [], false, .single⟩, .removeNode ⟨2⟩, .reverseEdge ⟨0⟩]
      (.empty ⟨4, 4, 1⟩)
    let b := Command.runAll [path "y" "B" "q" "z" "B", path "z" "B" "r" "y" "B"] (.empty .standard)
    let c := Command.runAll [path "z" "C" "q" "u" "C", path "u" "C" "p" "x" "C"] (.empty .standard)
    let bc := (Edit.merge c).after b.compact
    let g := (Edit.merge bc).after a
    (g.nodeContents.map fun d => (d.name, d.label))
        = [("x", some "A"), ("y", some "A"), ("z", some "B"), ("u", some "C")] ∧
      g.edgeNames = ["r", "s", "q", "p"] ∧
      ∃ t₁ t₂ ab, Edit.merge b a = .ok t₁ ab ∧ Edit.merge c ab = .ok t₂ g ∧
        t₁.nodes + t₂.nodes = 2 ∧ t₁.edges + t₂.edges = 2 := by
  intro path a b c bc g
  have ha : Reachable a := (Reachable.empty _).runAll (by simp [path, Command.operand?])
    (by simp [path, Command.edge?, Edge.made_iff])
  have hb : Reachable b := (Reachable.empty _).runAll (by simp [path, Command.operand?])
    (by simp [path, Command.edge?, Edge.made_iff])
  have hc : Reachable c := (Reachable.empty _).runAll (by simp [path, Command.operand?])
    (by simp [path, Command.edge?, Edge.made_iff])
  have hbc : Edit.merge c b.compact = .ok ⟨2, 1⟩ bc := Edit.ok_after_of_outcome (by decide +kernel)
  have hg : Edit.merge bc a = .ok ⟨2, 2⟩ g := Edit.ok_after_of_outcome (by decide +kernel)
  exact ⟨by decide +kernel, by decide +kernel, (ha.merge_assoc hb hc hbc ⟨2, 2⟩ g).mp hg⟩

end PatternGraph
