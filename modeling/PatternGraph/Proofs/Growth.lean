/-
  PatternGraph.Proofs.Growth

  What adds to a graph keeps it well formed: a new node under a free name, a
  new edge under a free name between live nodes, and every change that leaves
  names, ends and adjacency alone, such as a label or a refreshed reference.
-/
import PatternGraph.Edit.Resolve
import PatternGraph.Proofs.Adjacency

namespace PatternGraph

/-- A node apart from its label. -/
def Node.shape (n : Node) : String × Array EdgeId × Array EdgeId := (n.name, n.incoming, n.outgoing)

/-- An edge apart from its types and hops. -/
def Edge.shape (e : Edge) : String × NodeId × NodeId := (e.name, e.src, e.dest)

namespace Graph

variable {g h : Graph}

/-! ## Names -/

theorem hasNode_eq_false {name : String} :
    g.hasNode name = false ↔ ∀ id n, g.node? id = some n → n.name ≠ name := by
  rw [hasNode, Option.isSome_eq_false_iff, Option.isNone_iff_eq_none, nodeNamed?_eq_none]

theorem hasEdge_eq_false {name : String} :
    g.hasEdge name = false ↔ ∀ id e, g.edge? id = some e → e.name ≠ name := by
  rw [hasEdge, Option.isSome_eq_false_iff, Option.isNone_iff_eq_none, edgeNamed?_eq_none]

/-! ## A new node -/

theorem node?_insertNode_self (g : Graph) (n : Node) :
    (g.insertNode n).node? ⟨g.nodes.size⟩ = some n := by
  rw [node?_insertNode, if_pos rfl]

theorem node?_insertNode_of_ne {n : Node} {x : NodeId} (hx : x ≠ ⟨g.nodes.size⟩) :
    (g.insertNode n).node? x = g.node? x := by
  rw [node?_insertNode, if_neg fun heq => hx (NodeId.ext heq)]

/-- A live node stays as it is when another one is added. -/
theorem node?_insertNode_of_live {n m : Node} {x : NodeId} (hx : g.node? x = some m) :
    (g.insertNode n).node? x = some m := by
  have hlt := lt_size_of_node? hx
  rw [node?_insertNode, if_neg (by omega), hx]

theorem isSome_node?_insertNode {n : Node} {x : NodeId} (hx : (g.node? x).isSome) :
    ((g.insertNode n).node? x).isSome := by
  obtain ⟨m, hm⟩ := Option.isSome_iff_exists.mp hx
  rw [node?_insertNode_of_live hm]
  rfl

/-- A node under a free name that lists no edge may be added. -/
theorem WellFormed.insertNode (wf : g.WellFormed) {n : Node} (hfree : g.hasNode n.name = false)
    (hin : n.incoming = #[]) (hout : n.outgoing = #[]) : (g.insertNode n).WellFormed := by
  -- no live node has the new name, so the new node is told apart from each
  have hother := hasNode_eq_false.mp hfree
  apply WellFormed.of_lists
  case hnode =>
    intro i j a b ha hb hname
    rw [node?_insertNode] at ha hb
    split at ha <;> split at hb
    · ext
      omega
    · cases ha
      exact absurd hname.symm (hother j b hb)
    · cases hb
      exact absurd hname (hother i a ha)
    · exact wf.node_name_inj ha hb hname
  case hedge =>
    intro i j d e hd he
    exact wf.edge_name_inj hd he
  case hends =>
    intro i e he
    exact ⟨isSome_node?_insertNode (wf.src_isSome he), isSome_node?_insertNode (wf.dest_isSome he)⟩
  case hlists =>
    intro x a ha
    by_cases hx : x = ⟨g.nodes.size⟩
    · -- no edge ends at a slot that was not given out before
      subst hx
      rw [node?_insertNode_self] at ha
      cases ha
      rw [hin, hout]
      refine ⟨.nil ?_, .nil ?_⟩
      · rintro i ⟨e, he, hsrc⟩
        have hlive := wf.src_isSome he
        simp [hsrc, node?_size] at hlive
      · rintro i ⟨e, he, hdest⟩
        have hlive := wf.dest_isSome he
        simp [hdest, node?_size] at hlive
    · rw [node?_insertNode_of_ne hx] at ha
      exact ⟨wf.lists_outgoing ha, wf.lists_incoming ha⟩
  case hnodes => exact wf.nodes_counted.push n
  case hedges => exact wf.edges_counted

/-! ## A new edge -/

theorem isSome_node?_insertEdge (e : Edge) (x : NodeId) :
    ((g.insertEdge e).node? x).isSome = (g.node? x).isSome := by
  rw [node?_insertEdge, Option.isSome_map]

theorem nameOf?_insertEdge (e : Edge) (x : NodeId) :
    (g.insertEdge e).nameOf? x = g.nameOf? x := by
  rw [nameOf?, nameOf?, node?_insertEdge, Option.map_map]
  rfl

/-- An edge under a free name between live nodes may be added. -/
theorem WellFormed.insertEdge (wf : g.WellFormed) {e : Edge} (hfree : g.hasEdge e.name = false)
    (hsrc : (g.node? e.src).isSome) (hdest : (g.node? e.dest).isSome) :
    (g.insertEdge e).WellFormed := by
  have hother := hasEdge_eq_false.mp hfree
  apply WellFormed.of_lists
  case hnode =>
    intro i j a b ha hb hname
    rw [node?_insertEdge, Option.map_eq_some_iff] at ha hb
    obtain ⟨a', ha', rfl⟩ := ha
    obtain ⟨b', hb', rfl⟩ := hb
    exact wf.node_name_inj ha' hb' hname
  case hedge =>
    intro i j a b ha hb hname
    rw [edge?_insertEdge] at ha hb
    split at ha <;> split at hb
    · ext
      omega
    · cases ha
      exact absurd hname.symm (hother j b hb)
    · cases hb
      exact absurd hname (hother i a ha)
    · exact wf.edge_name_inj ha hb hname
  case hends =>
    intro i a ha
    rw [isSome_node?_insertEdge, isSome_node?_insertEdge]
    rw [edge?_insertEdge] at ha
    split at ha
    · cases ha
      exact ⟨hsrc, hdest⟩
    · exact ⟨wf.src_isSome ha, wf.dest_isSome ha⟩
  case hlists =>
    intro x a ha
    rw [node?_insertEdge, Option.map_eq_some_iff] at ha
    obtain ⟨n, hn, rfl⟩ := ha
    -- the next slot holds no edge yet, so either list gets the handle at most once
    have hnew : ∀ side, ¬ g.HasEnd side x ⟨g.edges.size⟩ := by
      rintro side ⟨d, hd, _⟩
      rw [edge?_size] at hd
      cases hd
    exact ⟨((wf.lists_outgoing hn).pushIf (hnew _)).congr fun i => hasEnd_insertEdge.symm,
      ((wf.lists_incoming hn).pushIf (hnew _)).congr fun i => hasEnd_insertEdge.symm⟩
  case hnodes => exact (wf.nodes_counted.modify _ _).modify _ _
  case hedges => exact wf.edges_counted.push e

/-! ## Many new edges -/

/-- The graph with edges added one after the other. -/
def insertEdges (g : Graph) (edges : List Edge) : Graph := edges.foldl insertEdge g

theorem insertEdges_cons (g : Graph) (e : Edge) (rest : List Edge) :
    g.insertEdges (e :: rest) = (g.insertEdge e).insertEdges rest :=
  rfl

theorem hasEdge_insertEdge (g : Graph) (e : Edge) (name : String) :
    (g.insertEdge e).hasEdge name = (e.name == name || g.hasEdge name) := by
  rw [Bool.eq_iff_iff, Bool.or_eq_true, beq_iff_eq, hasEdge_iff, hasEdge_iff]
  refine ⟨?_, ?_⟩
  · rintro ⟨i, d, hd, hname⟩
    rw [edge?_insertEdge] at hd
    split at hd
    · cases hd
      exact .inl hname
    · exact .inr ⟨i, d, hd, hname⟩
  · rintro (hname | ⟨i, d, hd, hname⟩)
    · exact ⟨_, e, edge?_insertEdge_self g e, hname⟩
    · have hlt := lt_size_of_edge? hd
      exact ⟨i, d, by rw [edge?_insertEdge, if_neg (by omega), hd], hname⟩

theorem nameOf?_insertEdges (g : Graph) (edges : List Edge) (x : NodeId) :
    (g.insertEdges edges).nameOf? x = g.nameOf? x := by
  induction edges generalizing g with
  | nil => rfl
  | cons e rest ih => rw [insertEdges_cons, ih, nameOf?_insertEdge]

theorem values_edges_insertEdges (g : Graph) (edges : List Edge) :
    (g.insertEdges edges).edges.values = g.edges.values ++ edges := by
  induction edges generalizing g with
  | nil => exact (List.append_nil _).symm
  | cons e rest ih =>
      have hpush : (g.insertEdge e).edges.values = g.edges.values ++ [e] := Slots.values_push _ _
      rw [insertEdges_cons, ih, hpush, List.append_assoc]
      rfl

theorem limits_insertEdges (g : Graph) (edges : List Edge) :
    (g.insertEdges edges).limits = g.limits := by
  induction edges generalizing g with
  | nil => rfl
  | cons e rest ih => rw [insertEdges_cons, ih, limits_insertEdge]

/-- Edges under different free names between live nodes may be added. -/
theorem WellFormed.insertEdges (wf : g.WellFormed) {edges : List Edge}
    (hfree : ∀ e ∈ edges, g.hasEdge e.name = false) (hnodup : (edges.map Edge.name).Nodup)
    (hends : ∀ e ∈ edges, (g.node? e.src).isSome ∧ (g.node? e.dest).isSome) :
    (g.insertEdges edges).WellFormed := by
  induction edges generalizing g with
  | nil => exact wf
  | cons e rest ih =>
      obtain ⟨hfe, hfrest⟩ := List.forall_mem_cons.mp hfree
      obtain ⟨hee, herest⟩ := List.forall_mem_cons.mp hends
      obtain ⟨hne, hnrest⟩ := List.nodup_cons.mp hnodup
      refine ih (wf.insertEdge hfe hee.1 hee.2) ?_ hnrest ?_
      · intro d hd
        -- what follows is new to the graph with the first edge as well
        have hdiff : e.name ≠ d.name := fun heq => hne (heq ▸ List.mem_map_of_mem hd)
        rw [hasEdge_insertEdge, hfrest d hd, beq_eq_false_iff_ne.mpr hdiff]
        rfl
      · intro d hd
        rw [isSome_node?_insertEdge, isSome_node?_insertEdge]
        exact herest d hd

/-! ## Changes that leave names, ends and adjacency alone -/

/-- Graphs whose entities agree in shape, handle by handle, are well formed together. -/
theorem WellFormed.of_shape (wf : g.WellFormed)
    (hnode : ∀ x, (h.node? x).map Node.shape = (g.node? x).map Node.shape)
    (hedge : ∀ i, (h.edge? i).map Edge.shape = (g.edge? i).map Edge.shape)
    (hnodes : h.nodes.Counted) (hedges : h.edges.Counted) : h.WellFormed := by
  have node_of : ∀ {x n}, h.node? x = some n →
      ∃ m, g.node? x = some m ∧ m.shape = n.shape := by
    intro x n hn
    have hx := hnode x
    rw [hn, Option.map_some, eq_comm, Option.map_eq_some_iff] at hx
    exact hx
  have edge_of : ∀ {i e}, h.edge? i = some e → ∃ d, g.edge? i = some d ∧ d.shape = e.shape := by
    intro i e he
    have hi := hedge i
    rw [he, Option.map_some, eq_comm, Option.map_eq_some_iff] at hi
    exact hi
  have live_of : ∀ x, (h.node? x).isSome = (g.node? x).isSome := by
    intro x
    rw [← Option.isSome_map (f := Node.shape), hnode, Option.isSome_map]
  -- the ends of an edge belong to its shape, so the same edges lie at a node in both graphs
  have hasEnd_of : ∀ (side : Edge → NodeId), (∀ d e, d.shape = e.shape → side d = side e) →
      ∀ x i, g.HasEnd side x i ↔ h.HasEnd side x i := by
    intro side hside x i
    have hi := hedge i
    unfold HasEnd
    cases hg : g.edge? i <;> cases hh : h.edge? i <;> simp_all
    rw [hside _ _ hi]
  apply WellFormed.of_lists
  case hnode =>
    intro i j m n hm hn hname
    obtain ⟨m', hm', hsm⟩ := node_of hm
    obtain ⟨n', hn', hsn⟩ := node_of hn
    simp only [Node.shape, Prod.mk.injEq] at hsm hsn
    exact wf.node_name_inj hm' hn' (by rw [hsm.1, hsn.1, hname])
  case hedge =>
    intro i j d e hd he hname
    obtain ⟨d', hd', hsd⟩ := edge_of hd
    obtain ⟨e', he', hse⟩ := edge_of he
    simp only [Edge.shape, Prod.mk.injEq] at hsd hse
    exact wf.edge_name_inj hd' he' (by rw [hsd.1, hse.1, hname])
  case hends =>
    intro i e he
    obtain ⟨d, hd, hs⟩ := edge_of he
    simp only [Edge.shape, Prod.mk.injEq] at hs
    rw [live_of, live_of, ← hs.2.1, ← hs.2.2]
    exact ⟨wf.src_isSome hd, wf.dest_isSome hd⟩
  case hlists =>
    intro x n hn
    obtain ⟨m, hm, hs⟩ := node_of hn
    simp only [Node.shape, Prod.mk.injEq] at hs
    rw [← hs.2.1, ← hs.2.2]
    refine ⟨(wf.lists_outgoing hm).congr (hasEnd_of _ ?_ x),
      (wf.lists_incoming hm).congr (hasEnd_of _ ?_ x)⟩ <;>
      simp_all [Edge.shape]
  case hnodes => exact hnodes
  case hedges => exact hedges

/-- Only what a change does to the node of the handle matters. -/
theorem modifyNode_congr {id : NodeId} {f f' : Node → Node}
    (h : ∀ n, g.node? id = some n → f n = f' n) : g.modifyNode id f = g.modifyNode id f' := by
  rw [modifyNode, modifyNode, Slots.modify_congr h]

/-- A change that does nothing to the node changes nothing. -/
theorem modifyNode_of_fixed {x : NodeId} {f : Node → Node}
    (h : ∀ n, g.node? x = some n → f n = n) : g.modifyNode x f = g := by
  have hsame : g.nodes.modify x.index f = g.nodes.modify x.index id := Slots.modify_congr h
  rw [modifyNode, hsame, Slots.modify_id]

/-- A label changes neither name nor adjacency. -/
theorem WellFormed.modifyNode (wf : g.WellFormed) (id : NodeId) {f : Node → Node}
    (hf : ∀ n, (f n).shape = n.shape) : (g.modifyNode id f).WellFormed := by
  refine wf.of_shape ?_ (fun _ => rfl) (wf.nodes_counted.modify _ _) wf.edges_counted
  intro x
  rw [node?_modifyNode]
  split
  · rw [Option.map_map]
    congr 1
    funext n
    exact hf n
  · rfl

theorem node?_refresh (c : Catalog) (x : NodeId) :
    (g.refresh c).node? x = (g.node? x).map (·.refresh c) :=
  Slots.get?_map g.nodes x.index _

theorem edge?_refresh (c : Catalog) (i : EdgeId) :
    (g.refresh c).edge? i = (g.edge? i).map (·.refresh c) :=
  Slots.get?_map g.edges i.index _

/-- Asking the catalog again changes references only. -/
theorem WellFormed.refresh (wf : g.WellFormed) (c : Catalog) : (g.refresh c).WellFormed := by
  refine wf.of_shape ?_ ?_ (wf.nodes_counted.map _) (wf.edges_counted.map _)
  · intro x
    rw [node?_refresh, Option.map_map]
    rfl
  · intro i
    rw [edge?_refresh, Option.map_map]
    rfl

end Graph

end PatternGraph
