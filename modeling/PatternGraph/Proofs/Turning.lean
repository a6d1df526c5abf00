/-
  PatternGraph.Proofs.Turning

  Edges that are turned round, one after the other and some of them again.
  Every turn exchanges the ends of one edge, so what counts is whether an edge
  was turned an odd number of times.  The lists of nodes are written anew, and
  all that does not ask which way edges point stays as it was: the connected
  parts are told by chains, and chains go either way.
-/
import PatternGraph.Proofs.Connection
import PatternGraph.Proofs.Continuation
import PatternGraph.Proofs.Projection
import PatternGraph.Proofs.Reversal
import PatternGraph.Proofs.Saying
import PatternGraph.Proofs.Union

namespace PatternGraph

/-! ## Turns of one edge -/

/-- The edge after so many turns. -/
def Edge.turned (e : Edge) (turns : Nat) : Edge :=
  if turns % 2 = 1 then e.reversed else e

namespace Edge

variable {e : Edge} {turns : Nat}

theorem turned_of_odd (h : turns % 2 = 1) : e.turned turns = e.reversed := if_pos h

theorem turned_of_even (h : turns % 2 = 0) : e.turned turns = e := if_neg (by omega)

/-- One turn before the others makes one turn more. -/
theorem turned_reversed (e : Edge) (turns : Nat) :
    e.reversed.turned turns = e.turned (turns + 1) := by
  rcases Nat.mod_two_eq_zero_or_one turns with heven | hodd
  · rw [turned_of_even heven, turned_of_odd (by omega)]
  · rw [turned_of_odd hodd, turned_of_even (by omega)]
    rfl

end Edge

namespace Graph

variable {g h k part rest : Graph} {ids : List EdgeId} {id : EdgeId} {e : Edge} {a b : String}

/-! ## Parts that are told by chains -/

/-- What is linked in what a split leaves is what is linked in the graph and was not split off. -/
theorem Divides.linked_rest_iff {q : String → Bool} (divides : g.Divides part rest q) :
    Linked rest.edgeContents a b ↔ a = b ∨ q a = false ∧ Linked g.edgeContents a b := by
  constructor
  · intro hlinked
    by_cases ha : a ∈ rest.nodeNames
    · refine .inr ⟨divides.of_mem_rest ha, hlinked.mono fun d hd => ?_⟩
      rw [divides.rest_edges] at hd
      exact (List.mem_filter.mp hd).1
    · exact .inl (divides.rest_sound.eq_of_linked ha hlinked)
  · rintro (rfl | ⟨ha, hlinked⟩)
    · exact .refl
    · exact divides.linked_rest ha hlinked

/-- Graphs with the same nodes, and with chains between the same names, have the same connected
    parts, as far as nodes go. -/
theorem Sound.components_congr (sound : g.Sound) (sound' : h.Sound)
    (hnodes : g.nodeContents = h.nodeContents)
    (hlinked : ∀ a b, Linked g.edgeContents a b ↔ Linked h.edgeContents a b) :
    g.components.map nodeContents = h.components.map nodeContents := by
  -- by induction on the number of nodes, which every split makes less
  induction hn : g.nodeContents.length using Nat.strongRecOn generalizing g h with
  | ind n ih =>
    match hsplit : g.split?, hsplit' : h.split? with
    | none, none =>
        rw [components, components, peel_of_split?_eq_none hsplit, peel_of_split?_eq_none hsplit']
    | none, some _ =>
        have hnil := (split?_eq_none sound.slots).mp hsplit
        rw [(split?_eq_none sound'.slots).mpr (hnodes ▸ hnil)] at hsplit'
        cases hsplit'
    | some _, none =>
        have hnil := (split?_eq_none sound'.slots).mp hsplit'
        rw [(split?_eq_none sound.slots).mpr (hnodes ▸ hnil)] at hsplit
        cases hsplit
    | some (part, rest), some (part', rest') =>
        obtain ⟨first, others, hfirst, divides, hq⟩ := sound.divides_split hsplit
        obtain ⟨first', others', hfirst', divides', hq'⟩ := sound'.divides_split hsplit'
        obtain ⟨rfl, rfl⟩ := List.cons.inj (hfirst.symm.trans (hnodes.trans hfirst'))
        have hreached : g.reachedName = h.reachedName := by
          funext a
          rw [Bool.eq_iff_iff, hq, hq', hlinked]
        have hrest : rest.components.map nodeContents = rest'.components.map nodeContents := by
          refine ih _ (hn ▸ sound.length_rest_lt hsplit) divides.rest_sound
            divides'.rest_sound ?_ (fun a b => ?_) rfl
          · rw [divides.rest_nodes, divides'.rest_nodes, hnodes, hreached]
          · rw [divides.linked_rest_iff, divides'.linked_rest_iff, hlinked, hreached]
        rw [sound.components_of_split hsplit, sound'.components_of_split hsplit', List.map_cons,
          List.map_cons, hrest, divides.part_nodes, divides'.part_nodes, hnodes, hreached]

/-- Names are touched when they are those of the ends of an edge. -/
theorem touches_edgeContents_iff : Touches g.edgeContents a b ↔ ∃ i e, g.edge? i = some e ∧
    (g.nameOf? e.src = some a ∧ g.nameOf? e.dest = some b ∨
      g.nameOf? e.src = some b ∧ g.nameOf? e.dest = some a) := by
  constructor
  · rintro ⟨d, hd, hends⟩
    obtain ⟨i, e, he, rfl⟩ := mem_edgeContents.mp hd
    exact ⟨i, e, he, hends⟩
  · rintro ⟨i, e, he, hends⟩
    exact ⟨_, mem_edgeContents.mpr ⟨i, e, he, rfl⟩, hends⟩

/-! ## Turns of many edges -/

/-- What a graph becomes when edges are turned round, each as often as it is listed. -/
structure Turned (g : Graph) (ids : List EdgeId) (h : Graph) : Prop where
  /-- The ends of an edge are exchanged if it is listed an odd number of times; else it is as it
  was. -/
  edge : ∀ i, h.edge? i = (g.edge? i).map fun e => e.turned (ids.count i)
  /-- A node is as it was, apart from its lists. -/
  node : ∀ x, (h.node? x).map Node.isolated = (g.node? x).map Node.isolated
  /-- No slot is new. -/
  sizes : h.nodes.size = g.nodes.size ∧ h.edges.size = g.edges.size
  counts : h.nodeCount = g.nodeCount ∧ h.edgeCount = g.edgeCount
  limits : h.limits = g.limits
  contents : h.nodeContents = g.nodeContents
  /-- The lists of nodes are those of the edges as they point now. -/
  wellFormed : h.WellFormed

namespace Turned

theorem nil (wf : g.WellFormed) : g.Turned [] g where
  edge i := by
    cases g.edge? i <;> rfl
  node _ := rfl
  sizes := ⟨rfl, rfl⟩
  counts := ⟨rfl, rfl⟩
  limits := rfl
  contents := rfl
  wellFormed := wf

/-- One edge is turned round, and then the others. -/
theorem cons (wf : g.WellFormed) (live : g.edge? id = some e)
    (turned : (g.turnEdge id e).Turned ids h) : g.Turned (id :: ids) h where
  edge i := by
    rw [turned.edge, edge?_turnEdge live]
    by_cases hi : i = id
    · subst hi
      rw [if_pos rfl, live, List.count_cons_self, Option.map_some, Option.map_some,
        Edge.turned_reversed]
    · rw [if_neg hi, List.count_cons_of_ne (Ne.symm hi)]
  node x := by
    rw [turned.node, wf.node?_turnEdge live, Option.map_map]
    rfl
  sizes := by
    rw [turned.sizes.1, turned.sizes.2]
    exact sizes_turnEdge g id e
  counts := by
    rw [turned.counts.1, turned.counts.2]
    exact counts_turnEdge g id e
  limits := turned.limits.trans (limits_turnEdge g id e)
  contents := turned.contents.trans (nodeContents_turnEdge g id e)
  wellFormed := turned.wellFormed

section Views

variable (turned : g.Turned ids h)
include turned

theorem nameOf?_eq (x : NodeId) : h.nameOf? x = g.nameOf? x := by
  have hname : ∀ k : Graph, k.nameOf? x = ((k.node? x).map Node.isolated).map Node.name := by
    intro k
    rw [Option.map_map]
    rfl
  rw [hname, hname, turned.node]

/-- An edge touches the same names as before, whichever way it points. -/
theorem touches_iff : Touches h.edgeContents a b ↔ Touches g.edgeContents a b := by
  rw [touches_edgeContents_iff, touches_edgeContents_iff]
  refine exists_congr fun i => ?_
  rw [turned.edge]
  cases g.edge? i with
  | none => exact ⟨nofun, nofun⟩
  | some e =>
      simp only [Option.map_some, Option.some.injEq, exists_eq_left', turned.nameOf?_eq]
      rcases Nat.mod_two_eq_zero_or_one (ids.count i) with heven | hodd
      · rw [Edge.turned_of_even heven]
      · rw [Edge.turned_of_odd hodd, Edge.reversed, Edge.between]
        constructor <;> rintro (⟨hl, hr⟩ | ⟨hl, hr⟩) <;> simp [hl, hr]

/-- Turns take no slots. -/
theorem hasSlots_eq (m n : Nat) : h.HasSlots m n ↔ g.HasSlots m n := by
  obtain ⟨hnodes, hedges⟩ := turned.sizes
  exact ⟨fun ⟨hm, hn⟩ => ⟨hnodes ▸ hm, hedges ▸ hn⟩, fun ⟨hm, hn⟩ => ⟨hnodes ▸ hm, hedges ▸ hn⟩⟩

/-- The connected parts have the nodes they had. -/
theorem components_eq (sound : g.Sound) :
    h.components.map nodeContents = g.components.map nodeContents := by
  have htouches : Touches h.edgeContents = Touches g.edgeContents :=
    funext fun _ => funext fun _ => propext turned.touches_iff
  have sound' : h.Sound := ⟨turned.wellFormed, (turned.hasSlots_eq 0 0).mpr sound.slots⟩
  exact sound'.components_congr sound turned.contents fun a b => by
    rw [Linked, htouches, Linked]

theorem ordinal?_eq (x : NodeId) : h.ordinal? x = g.ordinal? x := by
  rw [ordinal?, ordinal?, turned.nameOf?_eq, ordinals, ordinals, ← nodeNames_eq, ← nodeNames_eq,
    nodeNames, nodeNames, turned.contents]

/-- Where all edges are turned, rows and columns are exchanged. -/
theorem mem_cells_iff (wf : g.WellFormed) (odd : ∀ i, (g.edge? i).isSome → ids.count i % 2 = 1)
    (cell : Nat × Nat) : cell ∈ h.cells ↔ cell ∈ g.cells.map Prod.swap := by
  obtain ⟨i, j⟩ := cell
  have hswap : (i, j) ∈ g.cells.map Prod.swap ↔ (j, i) ∈ g.cells :=
    List.mem_map_of_injective Prod.swap_injective (a := (j, i))
  rw [hswap, wf.mem_cells, turned.wellFormed.mem_cells]
  refine exists_congr fun id => ?_
  rw [turned.edge]
  cases hid : g.edge? id with
  | none => exact ⟨nofun, nofun⟩
  | some e =>
      simp only [Option.map_some, Option.some.injEq, exists_eq_left', turned.ordinal?_eq,
        Edge.turned_of_odd (odd id (by rw [hid]; rfl)), Edge.reversed, Edge.between]
      exact and_comm

/-- Where all edges are turned, the matrix is transposed. -/
theorem toMatrix_eq (sound : g.Sound) (odd : ∀ i, (g.edge? i).isSome → ids.count i % 2 = 1) :
    h.toMatrix SparseMatrix.backend
      = (g.toMatrix SparseMatrix.backend).map SparseMatrix.transpose := by
  have sound' : h.Sound := ⟨turned.wellFormed, (turned.hasSlots_eq 0 0).mpr sound.slots⟩
  obtain ⟨m, hm, represents⟩ := sound.toMatrix_sparse
  obtain ⟨m', hm', represents'⟩ := sound'.toMatrix_sparse
  rw [turned.counts.1] at represents'
  have htransposed := represents.transpose sound.nodeCount_lt fun cell hcell =>
    (sound.cells_lt cell hcell).2
  rw [hm, hm', represents'.unique htransposed (turned.mem_cells_iff sound.toWellFormed odd)]
  rfl

end Views

end Turned

/-- Turning round live edges succeeds. -/
theorem WellFormed.forM_reverseEdge (wf : g.WellFormed) (live : ∀ id ∈ ids, (g.edge? id).isSome) :
    ∃ h, ids.forM Edit.reverseEdge g = .ok () h ∧ g.Turned ids h := by
  induction ids generalizing g with
  | nil => exact ⟨g, rfl, .nil wf⟩
  | cons id rest ih =>
      obtain ⟨hid, hrest⟩ := List.forall_mem_cons.mp live
      obtain ⟨e, he⟩ := Option.isSome_iff_exists.mp hid
      have hlive : ∀ i ∈ rest, ((g.turnEdge id e).edge? i).isSome := fun i hi => by
        rw [edge?_turnEdge he]
        split
        · rfl
        · exact hrest i hi
      obtain ⟨h, hrun, turned⟩ := ih (wf.turnEdge he) hlive
      have hfirst : Edit.reverseEdge id g = .ok () (g.turnEdge id e) :=
        Edit.check_bind_ok (liveEdge_eq_ok.mpr he)
      exact ⟨h, by rw [Edit.forM_cons, Edit.bind_ok hfirst, hrun], turned.cons wf he⟩

end Graph

/-! ## Histories of turns -/

namespace Reachable

variable {g : Graph}

/-- Turning round live edges of a graph that can come up succeeds each time, in any order and as
    often as one likes.  An edge is turned when it comes up an odd number of times, and nothing else
    changes but the lists of nodes: they have each edge once where it starts and once where it ends,
    so a loop is in both.  The connected parts have the nodes they had; and when every edge is
    turned, the matrix is transposed. -/
theorem reverseEdge_turns (reach : Reachable g) (ids : List EdgeId)
    (live : ∀ id ∈ ids, (g.edge? id).isSome) :
    ∃ h, ids.forM Edit.reverseEdge g = .ok () h ∧ g.Turned ids h ∧
      (∀ i e, h.edge? i = some e → e.src = e.dest →
        ∃ n, h.node? e.src = some n ∧ i ∈ n.outgoing ∧ i ∈ n.incoming) ∧
      h.components.map Graph.nodeContents = g.components.map Graph.nodeContents ∧
      ((∀ i, (g.edge? i).isSome → ids.count i % 2 = 1) →
        h.toMatrix SparseMatrix.backend
            = (g.toMatrix SparseMatrix.backend).map SparseMatrix.transpose ∧
          ∀ m, g.toMatrix SparseMatrix.backend = .ok m →
            ∀ i j, m.transpose.get i j = m.get j i) := by
  have sound := reach.sound
  obtain ⟨h, hrun, turned⟩ := sound.forM_reverseEdge live
  have wf' := turned.wellFormed
  refine ⟨h, hrun, turned, fun i e he hloop => ?_, turned.components_eq sound,
    fun odd => ⟨turned.toMatrix_eq sound odd, fun m hm => ?_⟩⟩
  · obtain ⟨n, hn⟩ := wf'.src_live he
    exact ⟨n, hn, (wf'.mem_outgoing hn).mpr ⟨e, he, rfl⟩,
      (wf'.mem_incoming hn).mpr ⟨e, he, hloop.symm⟩⟩
  · exact (sound.represents_of_toMatrix hm).get_transpose sound.nodeCount_lt
      fun cell hcell => (sound.cells_lt cell hcell).2

/-- Two parallel edges, one of them turned three times, a loop, and an edge to a third node, beside
    a vacated slot. -/
theorem reverseEdge_turns_of_loop :
    let edge (r : String) (src dest : Nat) : Command :=
      .addEdge ⟨r, ⟨src⟩, ⟨dest⟩, [], [], false, .single⟩
    let g := Command.runAll
      [.addNode "x", .addNode "a", .addNode "b", .addNode "c", edge "r" 1 2, edge "s" 1 2,
        edge "l" 2 2, edge "t" 2 3, edge "y" 0 1, .removeNode ⟨0⟩] (.empty .standard)
    let ids : List EdgeId := [⟨0⟩, ⟨2⟩, ⟨1⟩, ⟨0⟩, ⟨3⟩, ⟨0⟩]
    let h := (ids.forM Edit.reverseEdge).after g
    ids.forM Edit.reverseEdge g = .ok () h ∧ g.Turned ids h ∧
      h.node? ⟨2⟩ = some ⟨"b", none, .absent, #[⟨2⟩, ⟨3⟩], #[⟨2⟩, ⟨1⟩, ⟨0⟩]⟩ ∧
      g.toMatrix SparseMatrix.backend = .ok ⟨3, #[[1], [1, 2], []]⟩ ∧
      h.toMatrix SparseMatrix.backend = .ok ⟨3, #[[], [0, 1], [1]]⟩ := by
  intro edge g ids h
  have reach : Reachable g := (Reachable.empty _).runAll (by simp [edge, Command.operand?])
    (by simp [edge, Command.edge?, Edge.made_iff])
  obtain ⟨h', hrun, turned, -, -, hmatrix⟩ := reach.reverseEdge_turns ids (by decide +kernel)
  obtain rfl : h' = h := by
    show h' = (ids.forM Edit.reverseEdge).after g
    rw [Edit.after, hrun]
  have hg : g.toMatrix SparseMatrix.backend = .ok ⟨3, #[[1], [1, 2], []]⟩ := by decide +kernel
  have odd : ∀ i, (g.edge? i).isSome → ids.count i % 2 = 1 := by
    have hlive : ∀ p ∈ g.liveEdges, ids.count p.1 % 2 = 1 := by decide +kernel
    intro i hi
    obtain ⟨e, he⟩ := Option.isSome_iff_exists.mp hi
    exact hlive (i, e) (Graph.mem_liveEdges.mpr he)
  refine ⟨hrun, turned, by decide +kernel, hg, ?_⟩
  rw [(hmatrix odd).1, hg]
  decide +kernel

end Reachable

end PatternGraph
