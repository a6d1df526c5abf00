/-
  PatternGraph.Proofs.Reassembly

  Merging the connected parts of a graph gives the graph back, whatever their
  order.  No two parts share a name, so nothing that a part says is there
  already when its turn comes, and what all of them say is no more than the
  budgets allow, since the graph itself is within them.
-/
import PatternGraph.Proofs.Association

namespace PatternGraph

/-- Merges graphs one after the other and tells what each merge has copied. -/
def Edit.mergeAll : List Graph → Edit (List MergeTally)
  | [] => return []
  | other :: rest => do
    let t ← merge other
    let later ← mergeAll rest
    return t :: later

namespace Graph

variable {g h part : Graph} {parts : List Graph} {nodes : List NodeContent}
  {edges : List EdgeContent}

/-! ## Graphs without common names -/

/-- No two nodes of the graphs bear one name, and no two edges. -/
structure Apart (parts : List Graph) : Prop where
  nodes : (parts.flatMap nodeNames).Nodup
  edges : (parts.flatMap edgeNames).Nodup

/-- A merge with a graph that shares no node name copies all nodes. -/
theorem lackingNodes_eq_self (hnew : ∀ d ∈ nodes, d.name ∉ g.nodeNames) :
    g.lackingNodes nodes = nodes := by
  refine List.filter_eq_self.mpr fun d hd => ?_
  rw [Bool.eq_false_iff.mpr (mt hasNode_iff_mem_nodeNames.mp (hnew d hd))]
  rfl

/-- A merge with a graph that shares no edge name copies all edges. -/
theorem lackingEdges_eq_self (hnew : ∀ d ∈ edges, d.name ∉ g.edgeNames) :
    g.lackingEdges edges = edges := by
  refine List.filter_eq_self.mpr fun d hd => ?_
  rw [Bool.eq_false_iff.mpr (mt hasEdge_iff_mem_edgeNames.mp (hnew d hd))]
  rfl

namespace Apart

theorem lackingNodes (apart : Apart (g :: part :: parts)) :
    g.lackingNodes part.nodeContents = part.nodeContents := by
  refine lackingNodes_eq_self fun d hd hmem => ?_
  have hdisjoint := (List.nodup_append.mp apart.nodes).2.2
  exact hdisjoint d.name hmem d.name (List.mem_append_left _ (List.mem_map_of_mem hd)) rfl

theorem lackingEdges (apart : Apart (g :: part :: parts)) :
    g.lackingEdges part.edgeContents = part.edgeContents := by
  refine lackingEdges_eq_self fun d hd hmem => ?_
  have hdisjoint := (List.nodup_append.mp apart.edges).2.2
  exact hdisjoint d.name hmem d.name (List.mem_append_left _ (List.mem_map_of_mem hd)) rfl

/-- A graph that has taken one part in has no name in common with the others. -/
theorem absorb (apart : Apart (g :: part :: parts)) (wf : g.WellFormed) (wf' : part.WellFormed) :
    Apart (g.absorb part :: parts) := by
  have hnodes : (g.absorb part).nodeNames = g.nodeNames ++ part.nodeNames := by
    rw [nodeNames, nodeContents_absorb, apart.lackingNodes, List.map_append]
    rfl
  have hedges : (g.absorb part).edgeNames = g.edgeNames ++ part.edgeNames := by
    rw [edgeNames, wf.edgeContents_absorb wf', apart.lackingEdges, List.map_append]
    rfl
  refine ⟨?_, ?_⟩
  · rw [List.flatMap_cons, hnodes, List.append_assoc]
    exact apart.nodes
  · rw [List.flatMap_cons, hedges, List.append_assoc]
    exact apart.edges

end Apart

/-! ## Merging all of them -/

/-- Graphs without common names are merged one after the other when there is room for all; each
    merge copies the whole of its graph. -/
theorem WellFormed.mergeAll_eq_ok (wf : g.WellFormed) (hparts : ∀ part ∈ parts, part.WellFormed)
    (apart : Apart (g :: parts))
    (room : g.HasRoom (parts.flatMap nodeContents) (parts.flatMap edgeContents)) :
    ∃ whole, Edit.mergeAll parts g
        = .ok (parts.map fun part => ⟨part.nodeContents.length, part.edgeContents.length⟩) whole ∧
      whole.WellFormed ∧ whole.limits = g.limits ∧
      whole.nodeContents = g.nodeContents ++ parts.flatMap nodeContents ∧
      whole.edgeContents = g.edgeContents ++ parts.flatMap edgeContents := by
  induction parts generalizing g with
  | nil => exact ⟨g, rfl, wf, rfl, (List.append_nil _).symm, (List.append_nil _).symm⟩
  | cons part rest ih =>
      obtain ⟨wfPart, hrest⟩ := List.forall_mem_cons.mp hparts
      -- room for all parts is room for this one and then for the others
      rw [List.flatMap_cons, List.flatMap_cons, hasRoom_append] at room
      have hgraft : g.absorb part = g.graft part.nodeContents part.edgeContents := by
        rw [absorb_eq_graft, apart.lackingNodes, apart.lackingEdges]
      have hslots : g.HasSlots 0 0 := room.1.slots.mono (Nat.zero_le _) (Nat.zero_le _)
      have hmerge : Edit.merge part g
          = .ok ⟨part.nodeContents.length, part.edgeContents.length⟩ (g.absorb part) := by
        rw [wfPart.merge_eq_ok hslots, apart.lackingNodes, apart.lackingEdges]
        exact ⟨room.1, rfl, rfl⟩
      have hroom := room.2
      rw [← hgraft] at hroom
      obtain ⟨whole, hrun, wfWhole, hlimits, hnodes, hedges⟩ :=
        ih (wf.absorb wfPart) hrest (apart.absorb wf wfPart) hroom
      refine ⟨whole, ?_, wfWhole, hlimits.trans (limits_absorb g part), ?_, ?_⟩
      · rw [Edit.mergeAll, Edit.bind_ok hmerge, Edit.bind_ok hrun]
        rfl
      · rw [hnodes, nodeContents_absorb, apart.lackingNodes, List.append_assoc, List.flatMap_cons]
      · rw [hedges, wf.edgeContents_absorb wfPart, apart.lackingEdges, List.append_assoc,
          List.flatMap_cons]

/-! ## The parts of a graph -/

/-- The parts of a graph have no names in common, with each other and with the empty graph. -/
theorem Partition.apart (partition : g.Partition parts) (wf : g.WellFormed) (limits : Limits) :
    Apart (Graph.empty limits :: parts) := by
  have hnodes : (parts.flatMap nodeNames).Perm g.nodeNames := by
    have hnames := partition.nodes.map NodeContent.name
    rwa [List.map_flatMap] at hnames
  have hedges : (parts.flatMap edgeNames).Perm g.edgeNames := by
    have hnames := partition.edges.map EdgeContent.name
    rwa [List.map_flatMap] at hnames
  refine ⟨?_, ?_⟩
  · rw [g.nodeNames_eq] at hnodes
    exact hnodes.nodup_iff.mpr (Graph.nodup_nodeNames wf)
  · rw [g.edgeNames_eq] at hedges
    exact hedges.nodup_iff.mpr (Graph.nodup_edgeNames wf)

/-- The order of the parts does not matter to what is a partition's. -/
theorem Apart.perm {others : List Graph} (apart : Apart parts) (order : others.Perm parts) :
    Apart others where
  nodes := (order.flatMap_right nodeNames).nodup_iff.mpr apart.nodes
  edges := (order.flatMap_right edgeNames).nodup_iff.mpr apart.edges

/-- What a graph within its budgets says has room in the empty graph. -/
theorem WithinBudget.hasRoom_empty (within : g.WithinBudget) (sound : g.Sound)
    (hnodes : nodes.Perm g.nodeContents) (hedges : edges.Perm g.edgeContents) :
    (Graph.empty g.limits).HasRoom nodes edges where
  node_room := by
    have hcount : 0 + nodes.length = g.nodeCount := by
      rw [Nat.zero_add, hnodes.length_eq, sound.length_nodeContents]
    exact hcount ▸ within.nodes
  edge_room := by
    have hcount : 0 + edges.length = g.edgeCount := by
      rw [Nat.zero_add, hedges.length_eq, sound.length_edgeContents]
    exact hcount ▸ within.edges
  type_room d hd := by
    obtain ⟨e, he, rfl⟩ := List.mem_map.mp (hedges.mem_iff.mp hd)
    exact within.length_types he
  slots := by
    rw [hnodes.length_eq, hedges.length_eq]
    exact sound.slots.contents g.limits

end Graph

open PatternGraph.Graph

namespace Reachable

/-- The connected parts of a graph, merged in any order into an empty graph of the same budgets,
    say together what the graph says.  Every merge succeeds and copies the whole of its part. -/
theorem merge_components {g : Graph} (reach : Reachable g) {parts : List Graph}
    (order : parts.Perm g.components) :
    ∃ whole, Edit.mergeAll parts (.empty g.limits)
        = .ok (parts.map fun part => ⟨part.nodeCount, part.edgeCount⟩) whole ∧
      whole.limits = g.limits ∧ whole.audit = .ok () ∧
      whole.nodeContents.Perm g.nodeContents ∧ whole.edgeContents.Perm g.edgeContents := by
  have wf := reach.wellFormed
  have partition := reach.sound.partition_components
  have hparts : ∀ part ∈ parts, part.WellFormed :=
    fun part hpart => (partition.sound part (order.mem_iff.mp hpart)).toWellFormed
  have hnodes := (order.flatMap_right nodeContents).trans partition.nodes
  have hedges := (order.flatMap_right edgeContents).trans partition.edges
  -- an empty graph has no name at all, so it is apart from the parts as they are from each other
  have apart : Apart (Graph.empty g.limits :: parts) :=
    (partition.apart wf g.limits).perm (order.cons _)
  have room := reach.withinBudget.hasRoom_empty reach.sound hnodes hedges
  obtain ⟨whole, hrun, wfWhole, hlimits, hwholeNodes, hwholeEdges⟩ :=
    (WellFormed.empty g.limits).mergeAll_eq_ok hparts apart room
  have htallies : (parts.map fun part => (⟨part.nodeContents.length, part.edgeContents.length⟩ :
      MergeTally)) = parts.map fun part => ⟨part.nodeCount, part.edgeCount⟩ := by
    apply List.map_congr_left
    intro part hpart
    have wfPart := hparts part hpart
    rw [wfPart.length_nodeContents, wfPart.length_edgeContents]
  refine ⟨whole, htallies ▸ hrun, hlimits, wfWhole.audit_eq_ok, ?_, ?_⟩
  · rw [hwholeNodes]
    exact hnodes
  · rw [hwholeEdges]
    exact hedges

/-- A graph of three parts with a free slot and an edge that was turned round, its parts taken in
    another order, under budgets that it fills. -/
theorem merge_components_of_reverse :
    let edge (r : String) (src dest : Nat) : Command :=
      .addEdge ⟨r, ⟨src⟩, ⟨dest⟩, [r], [.unresolved r], false, .single⟩
    let g := Command.runAll
      [.addNode "a", .addNode "x", .addNode "b", .addNode "c", .addNode "d", edge "r" 0 4,
        edge "l" 2 2, .reverseEdge ⟨0⟩, .removeNode ⟨1⟩, edge "s" 0 4] (.empty ⟨5, 3, 1⟩)
    let whole := (Edit.mergeAll g.components.reverse).after (.empty g.limits)
    g.components.map nodeNames = [["a", "d"], ["b"], ["c"]] ∧
      whole.nodeNames = ["c", "b", "a", "d"] ∧ whole.edgeNames = ["l", "r", "s"] ∧
      Edit.mergeAll g.components.reverse (.empty g.limits) = .ok [⟨1, 0⟩, ⟨1, 1⟩, ⟨2, 2⟩] whole ∧
      whole.edgeContents.Perm g.edgeContents := by
  intro edge g whole
  have reach : Reachable g := (Reachable.empty _).runAll (by simp [edge, Command.operand?])
    (by simp [edge, Command.edge?, Edge.made_iff])
  obtain ⟨other, hrun, -, -, -, hedges⟩ := reach.merge_components (List.reverse_perm g.components)
  have hafter : Edit.mergeAll g.components.reverse (.empty g.limits)
      = .ok [⟨1, 0⟩, ⟨1, 1⟩, ⟨2, 2⟩] whole := Edit.ok_after_of_outcome (by decide +kernel)
  obtain ⟨-, rfl⟩ := EStateM.Result.ok.inj (hafter.symm.trans hrun)
  exact ⟨by decide +kernel, by decide +kernel, by decide +kernel, hafter, hedges⟩

end Reachable

end PatternGraph
