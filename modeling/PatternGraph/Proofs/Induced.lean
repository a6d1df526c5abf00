/-
  PatternGraph.Proofs.Induced

  Taking nodes out leaves an induced subgraph.  `induced` says what that is
  without any order of removals: nodes that fail a test are gone, edges with an
  end at such a node are gone, and every list is the old one without the edges
  that are gone.  Removing one node and removing many are shown to compute it.

  The proofs go through graphs from which some edges of a node are dropped
  already.  Those are well formed, so an edge that is dropped may be filtered
  out of the lists of all nodes, and not only of the two at its ends.
-/
import PatternGraph.Edit.Remove
import PatternGraph.Proofs.Adjacency

namespace PatternGraph

/-- The node with those of its edges that pass the test. -/
def Node.keeping (n : Node) (p : EdgeId → Bool) : Node :=
  { n with incoming := n.incoming.filter p, outgoing := n.outgoing.filter p }

namespace Node

theorem keeping_keeping (n : Node) (p q : EdgeId → Bool) :
    (n.keeping p).keeping q = n.keeping fun i => p i && q i := by
  simp [keeping, Array.filter_filter, Bool.and_comm]

theorem keeping_true (n : Node) : (n.keeping fun _ => true) = n := by
  have hself : ∀ l : Array EdgeId, l.filter (fun _ => true) = l := fun l =>
    Array.filter_eq_self.mpr fun _ _ => rfl
  rw [keeping, hself, hself]

/-- Only the answers on listed edges matter. -/
theorem keeping_congr {n : Node} {p q : EdgeId → Bool}
    (hin : ∀ i ∈ n.incoming, p i = q i) (hout : ∀ i ∈ n.outgoing, p i = q i) :
    n.keeping p = n.keeping q := by
  have array_congr : ∀ l : Array EdgeId, (∀ i ∈ l, p i = q i) → l.filter p = l.filter q := by
    intro l hl
    apply Array.toList_inj.mp
    rw [Array.toList_filter, Array.toList_filter]
    exact List.filter_congr fun i hi => hl i (Array.mem_toList_iff.mp hi)
  rw [keeping, keeping, array_congr _ hin, array_congr _ hout]

end Node

namespace Graph

variable {g : Graph}

/-- Graphs that count right are equal when they have equally many slots with the same in them. -/
theorem ext_view {g h : Graph} (hgn : g.nodes.Counted) (hge : g.edges.Counted)
    (hhn : h.nodes.Counted) (hhe : h.edges.Counted)
    (hnodes : g.nodes.size = h.nodes.size) (hedges : g.edges.size = h.edges.size)
    (hnode : ∀ x, g.node? x = h.node? x) (hedge : ∀ i, g.edge? i = h.edge? i)
    (hlimits : g.limits = h.limits) : g = h := by
  have hn : g.nodes = h.nodes := hgn.ext hhn hnodes fun i => hnode ⟨i⟩
  have he : g.edges = h.edges := hge.ext hhe hedges fun i => hedge ⟨i⟩
  cases g
  cases h
  simp_all

/-! ## The induced subgraph -/

/-- Both ends of the edge pass the test. -/
def spans (p : NodeId → Bool) (e : Edge) : Bool := p e.src && p e.dest

/-- Both ends pass two tests together when they pass the one and the other. -/
theorem spans_and (p q : NodeId → Bool) (e : Edge) :
    spans (fun x => p x && q x) e = (spans p e && spans q e) := by
  unfold spans
  grind

/-- The edge is live and both of its ends pass the test. -/
def keepsEdge (g : Graph) (p : NodeId → Bool) (i : EdgeId) : Bool := (g.edge? i).any (spans p)

/-- The nodes that pass the test and the edges between them, each in its slot. -/
def induced (g : Graph) (p : NodeId → Bool) : Graph where
  nodes := g.nodes.sift fun i n => if p ⟨i⟩ then some (n.keeping (g.keepsEdge p)) else none
  edges := g.edges.sift fun _ e => if spans p e then some e else none
  limits := g.limits

theorem node?_induced (p : NodeId → Bool) (x : NodeId) :
    (g.induced p).node? x =
      if p x then (g.node? x).map (·.keeping (g.keepsEdge p)) else none := by
  have hget : (g.induced p).node? x = _ := Slots.get?_sift g.nodes _ x.index
  rw [hget, node?]
  cases g.nodes.get? x.index with
  | none => simp
  | some n => rfl

theorem edge?_induced (p : NodeId → Bool) (i : EdgeId) :
    (g.induced p).edge? i = (g.edge? i).filter (spans p) := by
  have hget : (g.induced p).edge? i = _ := Slots.get?_sift g.edges _ i.index
  rw [hget, edge?]
  cases g.edges.get? i.index with
  | none => rfl
  | some e => rfl

theorem edge?_induced_eq_some {p : NodeId → Bool} {i : EdgeId} {e : Edge} :
    (g.induced p).edge? i = some e ↔ g.edge? i = some e ∧ spans p e := by
  rw [edge?_induced, Option.filter_eq_some_iff]

theorem keepsEdge_induced (p q : NodeId → Bool) (i : EdgeId) :
    (g.induced p).keepsEdge q i = g.keepsEdge (fun x => p x && q x) i := by
  rw [keepsEdge, keepsEdge, edge?_induced]
  cases g.edge? i with
  | none => rfl
  | some e =>
      rw [Option.any_some, spans_and]
      cases hp : spans p e with
      | true => rw [Option.filter_some_pos hp, Option.any_some, Bool.true_and]
      | false => simp [hp]

theorem keepsEdge_and (p q : NodeId → Bool) (i : EdgeId) :
    (g.keepsEdge p i && g.keepsEdge (fun x => p x && q x) i)
      = g.keepsEdge (fun x => p x && q x) i := by
  unfold keepsEdge
  cases g.edge? i with
  | none => rfl
  | some e =>
      rw [Option.any_some, Option.any_some, spans_and, ← Bool.and_assoc, Bool.and_self]

theorem counted_induced (p : NodeId → Bool) :
    (g.induced p).nodes.Counted ∧ (g.induced p).edges.Counted :=
  ⟨Slots.Counted.sift _ _, Slots.Counted.sift _ _⟩

/-- A subgraph of a subgraph is the subgraph of those that pass both tests. -/
theorem induced_induced (p q : NodeId → Bool) :
    (g.induced p).induced q = g.induced fun x => p x && q x := by
  apply ext_view (counted_induced _).1 (counted_induced _).2 (counted_induced _).1
    (counted_induced _).2
  case hnodes => simp [induced]
  case hedges => simp [induced]
  case hlimits => rfl
  case hnode =>
    intro x
    -- an edge that passes the second test in the part passes both in the whole
    have hkeep : ∀ n : Node, (n.keeping (g.keepsEdge p)).keeping ((g.induced p).keepsEdge q)
        = n.keeping (g.keepsEdge fun x => p x && q x) := by
      intro n
      rw [Node.keeping_keeping, funext (keepsEdge_induced p q), funext (keepsEdge_and p q)]
    simp only [node?_induced]
    cases p x <;> cases q x <;> simp [Function.comp_def, hkeep]
  case hedge =>
    intro i
    rw [edge?_induced, edge?_induced, edge?_induced, Option.filter_filter]
    congr 1
    funext e
    simp [spans]
    grind

theorem hasEnd_induced {p : NodeId → Bool} {side : Edge → NodeId} {x : NodeId} {i : EdgeId} :
    (g.induced p).HasEnd side x i ↔ g.keepsEdge p i = true ∧ g.HasEnd side x i := by
  unfold HasEnd keepsEdge
  simp only [edge?_induced_eq_some]
  cases g.edge? i with
  | none => simp
  | some e =>
      refine ⟨?_, ?_⟩
      · rintro ⟨d, ⟨hd, hspan⟩, hside⟩
        cases hd
        exact ⟨hspan, e, rfl, hside⟩
      · rintro ⟨hspan, d, hd, hside⟩
        cases hd
        exact ⟨e, ⟨rfl, hspan⟩, hside⟩

namespace WellFormed

/-- Part of a well-formed graph is well formed. -/
theorem induced (wf : g.WellFormed) (p : NodeId → Bool) : (g.induced p).WellFormed := by
  have node_of : ∀ {x n}, (g.induced p).node? x = some n →
      p x = true ∧ ∃ m, g.node? x = some m ∧ n = m.keeping (g.keepsEdge p) := by
    intro x n hn
    rw [node?_induced] at hn
    split at hn
    next hp =>
      obtain ⟨m, hm, rfl⟩ := Option.map_eq_some_iff.mp hn
      exact ⟨hp, m, hm, rfl⟩
    next => cases hn
  have live_of : ∀ {x}, p x = true → (g.node? x).isSome → ((g.induced p).node? x).isSome := by
    intro x hp hx
    rw [node?_induced, if_pos hp, Option.isSome_map]
    exact hx
  apply WellFormed.of_lists
  case hnode =>
    intro i j m n hm hn hname
    obtain ⟨-, m', hm', rfl⟩ := node_of hm
    obtain ⟨-, n', hn', rfl⟩ := node_of hn
    exact wf.node_name_inj hm' hn' hname
  case hedge =>
    intro i j d e hd he hname
    exact wf.edge_name_inj (edge?_induced_eq_some.mp hd).1 (edge?_induced_eq_some.mp he).1 hname
  case hends =>
    intro i e he
    obtain ⟨hlive, hspan⟩ := edge?_induced_eq_some.mp he
    obtain ⟨hsrc, hdest⟩ := Bool.and_eq_true_iff.mp hspan
    exact ⟨live_of hsrc (wf.src_isSome hlive), live_of hdest (wf.dest_isSome hlive)⟩
  case hlists =>
    intro x n hn
    obtain ⟨-, m, hm, rfl⟩ := node_of hn
    exact ⟨((wf.lists_outgoing hm).filter _).congr fun i => hasEnd_induced.symm,
      ((wf.lists_incoming hm).filter _).congr fun i => hasEnd_induced.symm⟩
  case hnodes => exact (counted_induced p).1
  case hedges => exact (counted_induced p).2

/-- Only the answers on live nodes matter. -/
theorem induced_congr (wf : g.WellFormed) {p q : NodeId → Bool}
    (hpq : ∀ x n, g.node? x = some n → p x = q x) : g.induced p = g.induced q := by
  have hspan : ∀ i e, g.edge? i = some e → spans p e = spans q e := by
    intro i e he
    obtain ⟨a, ha⟩ := wf.src_live he
    obtain ⟨b, hb⟩ := wf.dest_live he
    rw [spans, spans, hpq _ _ ha, hpq _ _ hb]
  have hkeep : g.keepsEdge p = g.keepsEdge q := by
    funext i
    unfold keepsEdge
    cases he : g.edge? i with
    | none => rfl
    | some e => exact hspan i e he
  apply ext_view (counted_induced _).1 (counted_induced _).2 (counted_induced _).1
    (counted_induced _).2
  case hnodes => simp [Graph.induced]
  case hedges => simp [Graph.induced]
  case hlimits => rfl
  case hnode =>
    intro x
    rw [node?_induced, node?_induced, hkeep]
    cases hx : g.node? x with
    | none => simp
    | some n => rw [hpq x n hx]
  case hedge =>
    intro i
    rw [edge?_induced, edge?_induced]
    cases he : g.edge? i with
    | none => rfl
    | some e => simp [Option.filter, hspan i e he]

/-- A listed edge is live and has the node at one of its ends. -/
theorem mem_incident (wf : g.WellFormed) {x : NodeId} {n : Node} (h : g.node? x = some n)
    {i : EdgeId} : i ∈ n.incident ↔ ∃ e, g.edge? i = some e ∧ (e.src = x ∨ e.dest = x) := by
  rw [Node.incident, List.mem_append, Array.mem_toList_iff, Array.mem_toList_iff,
    wf.mem_outgoing h, wf.mem_incoming h]
  refine ⟨?_, ?_⟩
  · rintro (⟨e, he, hsrc⟩ | ⟨e, he, hdest⟩)
    · exact ⟨e, he, .inl hsrc⟩
    · exact ⟨e, he, .inr hdest⟩
  · rintro ⟨e, he, hsrc | hdest⟩
    · exact .inl ⟨e, he, hsrc⟩
    · exact .inr ⟨e, he, hdest⟩

/-- What is true of the edges of a node is true of the edges that it lists. -/
theorem keeping_congr (wf : g.WellFormed) {x : NodeId} {n : Node} (h : g.node? x = some n)
    {p q : EdgeId → Bool}
    (hpq : ∀ i e, g.edge? i = some e → e.src = x ∨ e.dest = x → p i = q i) :
    n.keeping p = n.keeping q := by
  apply Node.keeping_congr
  · intro i hi
    obtain ⟨e, he, hdest⟩ := (wf.mem_incoming h).mp hi
    exact hpq i e he (.inr hdest)
  · intro i hi
    obtain ⟨e, he, hsrc⟩ := (wf.mem_outgoing h).mp hi
    exact hpq i e he (.inl hsrc)

/-- Nothing is taken out by a test that all pass. -/
theorem induced_of_all (wf : g.WellFormed) {p : NodeId → Bool}
    (hp : ∀ x n, g.node? x = some n → p x = true) : g.induced p = g := by
  have hspan : ∀ i e, g.edge? i = some e → spans p e = true := by
    intro i e he
    obtain ⟨a, ha⟩ := wf.src_live he
    obtain ⟨b, hb⟩ := wf.dest_live he
    rw [spans, hp _ _ ha, hp _ _ hb]
    rfl
  apply ext_view (counted_induced _).1 (counted_induced _).2 wf.nodes_counted wf.edges_counted
  case hnodes => simp [Graph.induced]
  case hedges => simp [Graph.induced]
  case hlimits => rfl
  case hnode =>
    intro x
    rw [node?_induced]
    cases hx : g.node? x with
    | none => simp
    | some n =>
        have hkeep : n.keeping (g.keepsEdge p) = n.keeping fun _ => true :=
          wf.keeping_congr hx fun i e he _ => by rw [keepsEdge, he]; exact hspan i e he
        rw [if_pos (hp x n hx), Option.map_some, hkeep, Node.keeping_true]
  case hedge =>
    intro i
    rw [edge?_induced]
    cases he : g.edge? i with
    | none => rfl
    | some e => simp [Option.filter, hspan i e he]

end WellFormed

end Graph

end PatternGraph
