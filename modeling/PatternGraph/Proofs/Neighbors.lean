/-
  PatternGraph.Proofs.Neighbors

  Neighbours, counted.  A node's two lists hold the edges that leave it and
  those that enter it, each once, so whatever is asked of its neighbours is
  counted edge by edge: once for every edge that leads to such a node and once
  for every edge that comes from one.  A loop does both.

  An edge counted at its source is counted at one node, and the same holds of
  destinations, so degrees on either side add up to the number of edges.
-/
import Mathlib.Algebra.BigOperators.Group.Finset.Basic
import Mathlib.Algebra.Order.Ring.Nat
import PatternGraph.Proofs.Reachability

namespace PatternGraph

/-- Elements that are counted key by key are all counted once. -/
theorem sum_map_countP_eq_length {α β : Type} [DecidableEq α] {keys : List α} {l : List β}
    {f : β → α} (hnodup : keys.Nodup) (hkeys : ∀ b ∈ l, f b ∈ keys) :
    (keys.map fun k => l.countP (f · == k)).sum = l.length := by
  have hcount : ∀ k, l.countP (f · == k) = Multiset.count k ↑(l.map f) := fun k => by
    rw [Multiset.coe_count, List.count, List.countP_map]
    rfl
  have hmem : ∀ a ∈ (↑(l.map f) : Multiset α), a ∈ keys.toFinset := by
    intro a ha
    obtain ⟨b, hb, rfl⟩ := List.mem_map.mp (Multiset.mem_coe.mp ha)
    exact List.mem_toFinset.mpr (hkeys b hb)
  rw [← List.sum_toFinset _ hnodup, Finset.sum_congr rfl fun k _ => hcount k,
    Multiset.sum_count_eq_card hmem, Multiset.coe_card, List.length_map]

namespace Graph

variable {g : Graph} {side : Edge → NodeId} {x y : NodeId} {n : Node} {l : Array EdgeId}

/-! ## The edges of a list -/

/-- A list of the edges with a node on one side leads to what is on the other side of them. -/
theorem perm_of_lists (other : Edge → NodeId) (hl : Lists l (g.HasEnd side x)) :
    (l.toList.filterMap fun i => (g.edge? i).map other).Perm
      ((g.edges.values.filter (side · == x)).map other) := by
  have hperm : l.toList.Perm (g.withEnd side x) := by
    rw [List.perm_ext_iff_of_nodup hl.1 (g.nodup_withEnd side x)]
    intro i
    rw [Array.mem_toList_iff, hl.2 i, mem_withEnd]
  -- none of the handles is stale, so each of them leads somewhere
  have hlive : (g.withEnd side x).filterMap (fun i => (g.edge? i).map other)
      = (g.edges.values.filter (side · == x)).map other := by
    rw [withEnd, List.filterMap_map, ← map_snd_liveEdges, List.filter_map, List.map_map,
      ← List.filterMap_eq_map]
    apply List.filterMap_congr
    rintro ⟨i, e⟩ hp
    have he := mem_liveEdges.mp (List.mem_filter.mp hp).1
    simp [he]
  exact hlive ▸ hperm.filterMap _

/-- What a test finds among the neighbours is what it finds at the other ends of the edges that
    leave the node and of those that enter it. -/
theorem WellFormed.countP_neighbors (wf : g.WellFormed) (hn : g.node? x = some n)
    (p : NodeId → Bool) :
    (g.neighbors x).countP p = g.edges.values.countP (fun e => p e.dest && e.src == x)
      + g.edges.values.countP (fun e => p e.src && e.dest == x) := by
  have hout := (perm_of_lists Edge.dest (wf.lists_outgoing hn)).countP_eq p
  have hin := (perm_of_lists Edge.src (wf.lists_incoming hn)).countP_eq p
  rw [List.countP_map, List.countP_filter] at hout hin
  simp only [neighbors, hn, List.countP_append, hout, hin]
  rfl

/-! ## Edges between two nodes -/

/-- How many edges lead from one node to another. -/
def edgesFromTo (g : Graph) (x y : NodeId) : Nat :=
  g.edges.values.countP fun e => e.src == x && e.dest == y

theorem WellFormed.count_neighbors (wf : g.WellFormed) (hn : g.node? x = some n) (y : NodeId) :
    (g.neighbors x).count y = g.edgesFromTo x y + g.edgesFromTo y x := by
  rw [List.count, wf.countP_neighbors hn, edgesFromTo, edgesFromTo]
  simp only [Bool.and_comm]

/-- A node lists as many neighbours as it has ends of edges. -/
theorem WellFormed.length_neighbors (wf : g.WellFormed) (hn : g.node? x = some n) :
    (g.neighbors x).length = n.degree := by
  have hlength := wf.countP_neighbors hn fun _ => true
  simp only [List.countP_true, Bool.true_and] at hlength
  rw [hlength, ← size_of_lists (wf.lists_outgoing hn), ← size_of_lists (wf.lists_incoming hn)]
  exact Nat.add_comm _ _

/-- No handle in a node's lists is stale. -/
theorem WellFormed.edge?_isSome_of_incident (wf : g.WellFormed) (hn : g.node? x = some n)
    {i : EdgeId} (hi : i ∈ n.incident) : (g.edge? i).isSome := by
  rw [Node.incident, List.mem_append, Array.mem_toList_iff, Array.mem_toList_iff,
    wf.mem_outgoing hn, wf.mem_incoming hn] at hi
  rcases hi with ⟨e, he, -⟩ | ⟨e, he, -⟩ <;> rw [he] <;> rfl

/-! ## Degrees -/

/-- The lengths of the lists on one side add up to the number of edges. -/
theorem WellFormed.sum_sizes (wf : g.WellFormed) {lists : Node → Array EdgeId}
    (hlists : ∀ x n, g.node? x = some n → Lists (lists n) (g.HasEnd side x))
    (hlive : ∀ e ∈ g.edges.values, ∃ n, g.node? (side e) = some n) :
    (g.nodes.values.map fun n => (lists n).size).sum = g.edgeCount := by
  have hsizes : g.nodes.values.map (fun n => (lists n).size)
      = (g.liveNodes.map Prod.fst).map fun x => g.edges.values.countP (side · == x) := by
    rw [← map_snd_liveNodes, List.map_map, List.map_map]
    apply List.map_congr_left
    rintro ⟨x, n⟩ hp
    exact size_of_lists (hlists x n (mem_liveNodes.mp hp))
  have hnodup : (g.liveNodes.map Prod.fst).Nodup := by
    rw [liveNodes, List.map_map]
    exact Slots.nodup_map_entries (fun _ _ heq => congrArg NodeId.index heq) g.nodes
  rw [hsizes, sum_map_countP_eq_length hnodup, edgeCount, wf.edge_count]
  intro e he
  obtain ⟨n, hn⟩ := hlive e he
  exact List.mem_map_of_mem (f := Prod.fst) (mem_liveNodes.mpr hn)

end Graph

namespace Reachable

variable {g : Graph}

/-- In a graph that can come up a node is listed among the neighbours of another one once for every
    edge between the two, whichever way it leads, and twice among its own for every loop.  No handle
    in a node's lists is stale, so a node has as many neighbours as its degree says, and either kind
    of degree adds up to the number of edges. -/
theorem neighbors_exact (reach : Reachable g) :
    (∀ x n, g.node? x = some n →
      (∀ i ∈ n.incident, (g.edge? i).isSome) ∧ (g.neighbors x).length = n.degree ∧
      (g.neighbors x).count x = 2 * g.edgesFromTo x x ∧
      ∀ y m, g.node? y = some m →
        (g.neighbors x).count y = g.edgesFromTo x y + g.edgesFromTo y x ∧
        (g.neighbors x).count y = (g.neighbors y).count x) ∧
    (g.nodes.values.map Node.outDegree).sum = g.edgeCount ∧
    (g.nodes.values.map Node.inDegree).sum = g.edgeCount := by
  have wf := reach.wellFormed
  refine ⟨fun x n hn => ⟨fun i hi => wf.edge?_isSome_of_incident hn hi, wf.length_neighbors hn,
    ?_, fun y m hm => ⟨wf.count_neighbors hn y, ?_⟩⟩, ?_, ?_⟩
  · rw [wf.count_neighbors hn, Nat.two_mul]
  · rw [wf.count_neighbors hn, wf.count_neighbors hm, Nat.add_comm]
  · exact wf.sum_sizes (fun _ _ hn => wf.lists_outgoing hn) fun _ he => (wf.live_of_mem he).1
  · exact wf.sum_sizes (fun _ _ hn => wf.lists_incoming hn) fun _ he => (wf.live_of_mem he).2

/-- Two edges lead to a node and one comes back; the loop is counted twice.  One of the edges was
    turned round, and the node in front of the others was taken out. -/
theorem neighbors_exact_of_loop :
    let edge (r : String) (src dest : Nat) : Command :=
      .addEdge ⟨r, ⟨src⟩, ⟨dest⟩, [], [], false, .single⟩
    let g := Command.runAll [.addNode "x", .addNode "a", .addNode "b", edge "q" 0 1, edge "r" 1 2,
      edge "s" 2 1, edge "t" 2 1, edge "l" 1 1, .reverseEdge ⟨2⟩, .removeNode ⟨0⟩]
      (.empty .standard)
    g.neighbors ⟨1⟩ = [⟨2⟩, ⟨1⟩, ⟨2⟩, ⟨2⟩, ⟨1⟩] ∧ (g.neighbors ⟨1⟩).count ⟨1⟩ = 2 ∧
      (g.neighbors ⟨2⟩).count ⟨1⟩ = 3 ∧ (g.nodes.values.map Node.outDegree).sum = 4 := by
  intro edge g
  have reach : Reachable g := (Reachable.empty _).runAll (by simp [edge, Command.operand?])
    (by simp [edge, Command.edge?, Edge.made_iff])
  obtain ⟨hnodes, hsum, -⟩ := reach.neighbors_exact
  have hneighbors : g.neighbors ⟨1⟩ = [⟨2⟩, ⟨1⟩, ⟨2⟩, ⟨2⟩, ⟨1⟩] := by decide +kernel
  have hlive : (g.node? ⟨1⟩).isSome ∧ (g.node? ⟨2⟩).isSome := by decide +kernel
  obtain ⟨n, hn⟩ := Option.isSome_iff_exists.mp hlive.1
  obtain ⟨m, hm⟩ := Option.isSome_iff_exists.mp hlive.2
  obtain ⟨-, -, hown, hothers⟩ := hnodes _ n hn
  refine ⟨hneighbors, ?_, ?_, ?_⟩
  · rw [hown]
    decide +kernel
  · rw [← (hothers _ m hm).2, hneighbors]
    decide
  · rw [hsum]
    decide +kernel

end Reachable

end PatternGraph
