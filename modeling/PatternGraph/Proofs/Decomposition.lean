/-
  PatternGraph.Proofs.Decomposition

  The connected parts of a graph that can come up, in terms of the graph
  itself: which nodes share a part, that every node and every edge is in one
  part and says there what it says in the graph, and when there is one part.
-/
import Mathlib.Data.List.Nodup
import PatternGraph.Proofs.Components

namespace PatternGraph

namespace Graph

variable {g : Graph} {parts : List Graph} {a b : String}

/-- The parts are the maximal connected subgraphs of a graph, in its order. -/
structure Decomposition (g : Graph) (parts : List Graph) : Prop where
  /-- Every part has a node. -/
  nonempty : ∀ part ∈ parts, part.isEmpty = false
  /-- The parts of every part agree. -/
  consistent : ∀ part ∈ parts, part.WellFormed ∧ part.audit = .ok ()
  /-- Every part is under the budgets of the graph. -/
  limits : ∀ part ∈ parts, part.limits = g.limits
  /-- All nodes of a part are joined in the part. -/
  connected : ∀ part ∈ parts, ∀ x y, (part.node? x).isSome → (part.node? y).isSome →
    part.Joined x y
  /-- What the parts say of nodes is what the graph says, each once. -/
  nodes : (parts.flatMap nodeContents).Perm g.nodeContents
  /-- What the parts say of edges and their ends is what the graph says, each once. -/
  edges : (parts.flatMap edgeContents).Perm g.edgeContents
  /-- No name is in two parts. -/
  disjoint : parts.Pairwise fun p q =>
    ∀ name, ¬ (p.hasNode name ∧ q.hasNode name) ∧ ¬ (p.hasEdge name ∧ q.hasEdge name)
  /-- Nodes share a part exactly when they are joined in the graph. -/
  together : ∀ x y m n, g.node? x = some m → g.node? y = some n →
    ((∃ part ∈ parts, part.hasNode m.name ∧ part.hasNode n.name) ↔ g.Joined x y)
  /-- The nodes of a part come in the order of the graph. -/
  node_order : ∀ part ∈ parts, part.nodeContents.Sublist g.nodeContents
  /-- The edges of a part come in the order of the graph. -/
  edge_order : ∀ part ∈ parts, part.edgeContents.Sublist g.edgeContents
  /-- The parts come in the order of their first nodes. -/
  part_order : (parts.filterMap fun part => part.nodeContents.head?).Sublist g.nodeContents

/-! ## Names in parts -/

theorem pairwise_of_perm {names : Graph → List String} {l : List String}
    (h : (parts.flatMap names).Perm l) (hl : l.Nodup) :
    parts.Pairwise fun p q => ∀ a ∈ names p, a ∉ names q := by
  have hnodup := (List.nodup_flatMap.mp (h.nodup_iff.mpr hl)).2
  exact hnodup.imp fun hdisj a ha hb => hdisj ha hb

namespace Partition

/-- The names of the nodes are those of the nodes of the parts. -/
theorem nodeNames_perm (partition : g.Partition parts) :
    (parts.flatMap nodeNames).Perm g.nodeNames := by
  have hmap := partition.nodes.map NodeContent.name
  rw [List.map_flatMap] at hmap
  exact hmap

theorem edgeNames_perm (partition : g.Partition parts) :
    (parts.flatMap edgeNames).Perm g.edgeNames := by
  have hmap := partition.edges.map EdgeContent.name
  rw [List.map_flatMap] at hmap
  exact hmap

theorem mem_nodeNames (partition : g.Partition parts) :
    a ∈ g.nodeNames ↔ ∃ part ∈ parts, a ∈ part.nodeNames := by
  rw [← partition.nodeNames_perm.mem_iff, List.mem_flatMap]

/-- Names in one part are linked in the graph. -/
theorem linked_of_mem (partition : g.Partition parts) {part : Graph} (hpart : part ∈ parts)
    (ha : a ∈ part.nodeNames) (hb : b ∈ part.nodeNames) : Linked g.edgeContents a b := by
  have hedges := (partition.edge_order part hpart).subset
  exact (partition.linked part hpart a ha b hb).mono fun _ he => hedges he

/-- Two names share a part exactly when they are linked. -/
theorem together_iff (partition : g.Partition parts) (ha : a ∈ g.nodeNames) :
    (∃ part ∈ parts, a ∈ part.nodeNames ∧ b ∈ part.nodeNames) ↔ Linked g.edgeContents a b := by
  refine ⟨?_, ?_⟩
  · rintro ⟨part, hpart, ha, hb⟩
    exact partition.linked_of_mem hpart ha hb
  · intro hab
    obtain ⟨part, hpart, ha⟩ := partition.mem_nodeNames.mp ha
    exact ⟨part, hpart, ha, partition.maximal part hpart a ha b hab⟩

/-- There are no two parts exactly when all names are linked. -/
theorem length_le_one_iff (wf : g.WellFormed) (partition : g.Partition parts) :
    parts.length ≤ 1 ↔ ∀ a ∈ g.nodeNames, ∀ b ∈ g.nodeNames, Linked g.edgeContents a b := by
  have hnodup := wf.nodeNames_nodup
  refine ⟨?_, ?_⟩
  · intro hlen a ha b hb
    obtain ⟨part, hpart, ha⟩ := partition.mem_nodeNames.mp ha
    obtain ⟨other, hother, hb⟩ := partition.mem_nodeNames.mp hb
    -- with at most one part both names are in the same one
    have hsame : part = other := by
      match parts, hlen with
      | [], _ => cases hpart
      | [p], _ => rw [List.mem_singleton.mp hpart, List.mem_singleton.mp hother]
    exact partition.linked_of_mem hpart ha (hsame ▸ hb)
  · intro hall
    match parts with
    | [] | [_] => simp
    | p :: q :: rest =>
        have hq : q ∈ p :: q :: rest := List.mem_cons_of_mem p List.mem_cons_self
        obtain ⟨m, hm⟩ := List.exists_mem_of_ne_nil _ (partition.nonempty p List.mem_cons_self)
        obtain ⟨n, hn⟩ := List.exists_mem_of_ne_nil _ (partition.nonempty q hq)
        have hmp : m.name ∈ p.nodeNames := List.mem_map_of_mem hm
        have hnq : n.name ∈ q.nodeNames := List.mem_map_of_mem hn
        -- a name of each part would be linked, and a part holds all that is linked to it
        have hlinked := hall m.name (partition.mem_nodeNames.mpr ⟨p, List.mem_cons_self, hmp⟩)
          n.name (partition.mem_nodeNames.mpr ⟨q, hq, hnq⟩)
        have hnp := partition.maximal p List.mem_cons_self m.name hmp n.name hlinked
        have hdisj := pairwise_of_perm partition.nodeNames_perm hnodup
        exact absurd hnq ((List.pairwise_cons.mp hdisj).1 q List.mem_cons_self n.name hnp)

/-- Said of handles, a partition is a decomposition. -/
theorem decomposition (wf : g.WellFormed) (partition : g.Partition parts) :
    g.Decomposition parts where
  nonempty part hpart := by
    rw [Bool.eq_false_iff, ne_eq, (partition.sound part hpart).isEmpty_iff]
    exact partition.nonempty part hpart
  consistent part hpart :=
    ⟨(partition.sound part hpart).toWellFormed, (partition.sound part hpart).audit_eq_ok⟩
  limits := partition.limits
  connected part hpart x y hx hy := by
    obtain ⟨a, ha⟩ := exists_nameOf? hx
    obtain ⟨b, hb⟩ := exists_nameOf? hy
    rw [(partition.sound part hpart).joined_iff_linked ha hb]
    exact partition.linked part hpart a (Graph.mem_nodeNames.mpr ⟨x, ha⟩) b
      (Graph.mem_nodeNames.mpr ⟨y, hb⟩)
  nodes := partition.nodes
  edges := partition.edges
  disjoint := by
    have hnodes := pairwise_of_perm partition.nodeNames_perm wf.nodeNames_nodup
    have hedges := pairwise_of_perm partition.edgeNames_perm wf.edgeNames_nodup
    refine (hnodes.and hedges).imp ?_
    rintro p q ⟨hn, he⟩ name
    rw [hasNode_iff_mem_nodeNames, hasNode_iff_mem_nodeNames, hasEdge_iff_mem_edgeNames,
      hasEdge_iff_mem_edgeNames]
    exact ⟨fun h => hn name h.1 h.2, fun h => he name h.1 h.2⟩
  together x y m n hm hn := by
    have hx := nameOf?_of_live hm
    have hy := nameOf?_of_live hn
    simp only [hasNode_iff_mem_nodeNames]
    rw [wf.joined_iff_linked hx hy, partition.together_iff (Graph.mem_nodeNames.mpr ⟨x, hx⟩)]
  node_order := partition.node_order
  edge_order := partition.edge_order
  part_order := partition.heads

end Partition

/-! ## One part -/

/-- Nodes are all joined exactly when their names are all linked. -/
theorem WellFormed.all_joined_iff (wf : g.WellFormed) :
    (∀ x y, (g.node? x).isSome → (g.node? y).isSome → g.Joined x y) ↔
      ∀ a ∈ g.nodeNames, ∀ b ∈ g.nodeNames, Linked g.edgeContents a b := by
  refine ⟨?_, ?_⟩
  · intro h a ha b hb
    obtain ⟨x, hx⟩ := mem_nodeNames.mp ha
    obtain ⟨y, hy⟩ := mem_nodeNames.mp hb
    have hjoined := h x y (isSome_node?_of_nameOf? hx) (isSome_node?_of_nameOf? hy)
    exact (wf.joined_iff_linked hx hy).mp hjoined
  · intro h x y hx hy
    obtain ⟨a, ha⟩ := exists_nameOf? hx
    obtain ⟨b, hb⟩ := exists_nameOf? hy
    exact (wf.joined_iff_linked ha hb).mpr
      (h a (mem_nodeNames.mpr ⟨x, ha⟩) b (mem_nodeNames.mpr ⟨y, hb⟩))

/-- A graph is connected when nothing is left after one split. -/
theorem Sound.isConnected_iff (sound : g.Sound) :
    g.isConnected = true ↔ ∀ a ∈ g.nodeNames, ∀ b ∈ g.nodeNames, Linked g.edgeContents a b := by
  unfold isConnected
  cases hsplit : g.split? with
  | none =>
      have hnil : g.nodeNames = [] := by rw [nodeNames, (split?_eq_none sound.slots).mp hsplit]; rfl
      rw [hnil]
      exact ⟨fun _ a ha => absurd ha List.not_mem_nil, fun _ => rfl⟩
  | some p =>
      obtain ⟨part, rest⟩ := p
      obtain ⟨first, others, hfirst, divides, hq⟩ := sound.divides_split hsplit
      have hpass : rest.isEmpty = true ↔ ∀ a ∈ g.nodeNames, g.reachedName a = true := by
        rw [divides.rest_sound.isEmpty_iff, divides.rest_nodes, List.filter_eq_nil_iff]
        simp [nodeNames]
      refine hpass.trans ⟨?_, ?_⟩
      · intro hall a ha b hb
        exact ((hq a).mp (hall a ha)).symm.trans ((hq b).mp (hall b hb))
      · intro hall a ha
        refine (hq a).mpr (hall first.name ?_ a ha)
        rw [nodeNames, hfirst]
        exact List.mem_cons_self

end Graph

namespace Reachable

/-- The connected parts of a graph that can come up are its maximal connected subgraphs, and it is
    connected when all its nodes are joined, that is, when it has no two parts. -/
theorem components_spec {g : Graph} (reach : Reachable g) :
    g.Decomposition g.components ∧
      (g.isConnected = true ↔
        ∀ x y, (g.node? x).isSome → (g.node? y).isSome → g.Joined x y) ∧
      (g.isConnected = true ↔ g.components.length ≤ 1) := by
  have wf := reach.wellFormed
  have hpartition := reach.sound.partition_components
  refine ⟨hpartition.decomposition wf, ?_, ?_⟩
  · rw [reach.sound.isConnected_iff, wf.all_joined_iff]
  · rw [reach.sound.isConnected_iff, hpartition.length_le_one_iff wf]

/-- Two parts, the first with a loop and an edge that was turned round, after a node between them
    was taken out. -/
theorem components_spec_of_removal :
    let edge (r : String) (src dest : Nat) : Command :=
      .addEdge ⟨r, ⟨src⟩, ⟨dest⟩, [], [], false, .single⟩
    let g := Command.runAll
      [.addNode "a", .addNode "b", .addNode "c", .addNode "d", edge "r" 0 3, edge "l" 0 0,
        edge "s" 0 1, edge "t" 1 2, .reverseEdge ⟨0⟩, .removeNode ⟨1⟩] (.empty .standard)
    g.components.map Graph.nodeCount = [2, 1] ∧ g.isConnected = false ∧
      g.Decomposition g.components := by
  intro edge g
  have reach : Reachable g := (Reachable.empty .standard).runAll (by simp [edge, Command.operand?])
    (by simp [edge, Command.edge?, Edge.made_iff])
  exact ⟨by decide +kernel, by decide +kernel, reach.components_spec.1⟩

end Reachable

end PatternGraph
