/-
  PatternGraph.Proofs.Adjacency

  Well-formedness, said in a form that operations keep piece by piece.

  A node has two lists, one for each side of an edge, and the same holds of
  both: the list holds exactly the edges that have the node on that side, each
  once.  `Lists` says this of one list and one set of edges, and `HasEnd`
  names that set with the side as a parameter, so that what an operation does
  to the edges is said once for sources and destinations.
-/
import PatternGraph.Graph.WellFormed
import PatternGraph.Proofs.Slots

namespace PatternGraph

/-! ## A list of edges and the set that it stands for -/

/-- The list holds exactly the edges of the set, each once. -/
def Lists (l : Array EdgeId) (set : EdgeId → Prop) : Prop :=
  l.toList.Nodup ∧ ∀ i, i ∈ l ↔ set i

namespace Lists

variable {l : Array EdgeId} {set other : EdgeId → Prop}

theorem congr (hl : Lists l set) (hset : ∀ i, set i ↔ other i) : Lists l other :=
  ⟨hl.1, fun i => (hl.2 i).trans (hset i)⟩

theorem nil (hset : ∀ i, ¬ set i) : Lists #[] set :=
  ⟨List.nodup_nil, fun i => by simp [hset i]⟩

theorem push {i : EdgeId} (hl : Lists l set) (hi : ¬ set i) :
    Lists (l.push i) fun j => j = i ∨ set j := by
  -- an edge outside the set is not listed yet, so it may be appended
  have hnew : i ∉ l := fun hmem => hi ((hl.2 i).mp hmem)
  refine ⟨?_, fun j => by rw [Array.mem_push, hl.2 j, or_comm]⟩
  rw [Array.toList_push, List.nodup_append]
  refine ⟨hl.1, by simp, ?_⟩
  intro a ha b hb hab
  rw [List.mem_singleton.mp hb] at hab
  exact hnew (hab ▸ Array.mem_toList_iff.mp ha)

/-- A push that may be left out. -/
theorem pushIf {i : EdgeId} {c : Prop} [Decidable c] (hl : Lists l set) (hi : ¬ set i) :
    Lists (if c then l.push i else l) fun j => c ∧ j = i ∨ set j := by
  by_cases hc : c
  · rw [if_pos hc]
    exact (hl.push hi).congr fun j => by simp [hc]
  · rw [if_neg hc]
    exact hl.congr fun j => by simp [hc]

theorem filter (hl : Lists l set) (p : EdgeId → Bool) :
    Lists (l.filter p) fun j => p j = true ∧ set j := by
  refine ⟨?_, fun j => by rw [Array.mem_filter, hl.2 j, and_comm]⟩
  rw [Array.toList_filter]
  exact hl.1.filter _

/-- Two lists of one set are equally long. -/
theorem size_eq {m : Array EdgeId} (hl : Lists l set) (hm : Lists m set) : l.size = m.size := by
  -- without repetitions the same members are the same list up to order
  have hperm : l.toList.Perm m.toList := by
    rw [List.perm_ext_iff_of_nodup hl.1 hm.1]
    intro i
    rw [Array.mem_toList_iff, Array.mem_toList_iff, hl.2 i, hm.2 i]
  simpa using hperm.length_eq

end Lists

namespace Graph

variable {g : Graph}

/-! ## Live nodes and edges -/

theorem nameOf?_eq_some {x : NodeId} {a : String} :
    g.nameOf? x = some a ↔ ∃ n, g.node? x = some n ∧ n.name = a :=
  Option.map_eq_some_iff

theorem nameOf?_of_live {x : NodeId} {n : Node} (h : g.node? x = some n) :
    g.nameOf? x = some n.name :=
  nameOf?_eq_some.mpr ⟨n, h, rfl⟩

theorem isSome_node?_of_nameOf? {x : NodeId} {a : String} (h : g.nameOf? x = some a) :
    (g.node? x).isSome := by
  obtain ⟨n, hn, -⟩ := nameOf?_eq_some.mp h
  rw [hn]
  rfl

theorem exists_nameOf? {x : NodeId} (h : (g.node? x).isSome) : ∃ a, g.nameOf? x = some a := by
  obtain ⟨n, hn⟩ := Option.isSome_iff_exists.mp h
  exact ⟨n.name, nameOf?_of_live hn⟩

theorem mem_values_nodes {n : Node} : n ∈ g.nodes.values ↔ ∃ x, g.node? x = some n :=
  Slots.mem_values.trans ⟨fun ⟨i, hi⟩ => ⟨⟨i⟩, hi⟩, fun ⟨x, hx⟩ => ⟨x.index, hx⟩⟩

theorem mem_values_edges {e : Edge} : e ∈ g.edges.values ↔ ∃ i, g.edge? i = some e :=
  Slots.mem_values.trans ⟨fun ⟨i, hi⟩ => ⟨⟨i⟩, hi⟩, fun ⟨i, hi⟩ => ⟨i.index, hi⟩⟩

/-- Both ends of a listed edge are live. -/
theorem WellFormed.live_of_mem (wf : g.WellFormed) {e : Edge} (he : e ∈ g.edges.values) :
    (∃ m, g.node? e.src = some m) ∧ ∃ n, g.node? e.dest = some n := by
  obtain ⟨i, hi⟩ := mem_values_edges.mp he
  exact ⟨wf.src_live hi, wf.dest_live hi⟩

/-! ## The edges that have a node on one side -/

/-- The edge is live and has the node on that side, which is its source or its destination. -/
def HasEnd (g : Graph) (side : Edge → NodeId) (x : NodeId) (i : EdgeId) : Prop :=
  ∃ e, g.edge? i = some e ∧ side e = x

/-- No edge has the slot of the next edge. -/
theorem edge?_size (g : Graph) : g.edge? ⟨g.edges.size⟩ = none := by
  cases h : g.edge? ⟨g.edges.size⟩ with
  | none => rfl
  | some e => exact absurd (lt_size_of_edge? h) (Nat.lt_irrefl _)

theorem node?_size (g : Graph) : g.node? ⟨g.nodes.size⟩ = none := by
  cases h : g.node? ⟨g.nodes.size⟩ with
  | none => rfl
  | some n => exact absurd (lt_size_of_node? h) (Nat.lt_irrefl _)

theorem edge?_insertEdge_of_ne {e : Edge} {i : EdgeId} (h : i ≠ ⟨g.edges.size⟩) :
    (g.insertEdge e).edge? i = g.edge? i := by
  rw [edge?_insertEdge, if_neg fun heq => h (EdgeId.ext heq)]

theorem edge?_insertEdge_self (g : Graph) (e : Edge) :
    (g.insertEdge e).edge? ⟨g.edges.size⟩ = some e := by
  rw [edge?_insertEdge, if_pos rfl]

theorem hasEnd_insertEdge {e : Edge} {side : Edge → NodeId} {x : NodeId} {i : EdgeId} :
    (g.insertEdge e).HasEnd side x i ↔ x = side e ∧ i = ⟨g.edges.size⟩ ∨ g.HasEnd side x i := by
  by_cases hi : i = ⟨g.edges.size⟩
  · subst hi
    simp [HasEnd, edge?_insertEdge_self, edge?_size, eq_comm]
  · simp [HasEnd, edge?_insertEdge_of_ne hi, hi]

theorem hasEnd_dropEdge {id : EdgeId} {side : Edge → NodeId} {x : NodeId} {i : EdgeId} :
    (g.dropEdge id).HasEnd side x i ↔ i ≠ id ∧ g.HasEnd side x i := by
  rw [HasEnd, edge?_dropEdge]
  by_cases hi : i = id <;> simp [hi, HasEnd]

/-! ## Well-formedness, list by list -/

namespace WellFormed

theorem nodes_counted (wf : g.WellFormed) : g.nodes.Counted := wf.node_count

theorem edges_counted (wf : g.WellFormed) : g.edges.Counted := wf.edge_count

theorem lists_outgoing (wf : g.WellFormed) {x : NodeId} {n : Node} (h : g.node? x = some n) :
    Lists n.outgoing (g.HasEnd Edge.src x) :=
  ⟨wf.outgoing_nodup h, fun _ => wf.mem_outgoing h⟩

theorem lists_incoming (wf : g.WellFormed) {x : NodeId} {n : Node} (h : g.node? x = some n) :
    Lists n.incoming (g.HasEnd Edge.dest x) :=
  ⟨wf.incoming_nodup h, fun _ => wf.mem_incoming h⟩

theorem src_isSome (wf : g.WellFormed) {i : EdgeId} {e : Edge} (h : g.edge? i = some e) :
    (g.node? e.src).isSome :=
  Option.isSome_iff_exists.mpr (wf.src_live h)

theorem dest_isSome (wf : g.WellFormed) {i : EdgeId} {e : Edge} (h : g.edge? i = some e) :
    (g.node? e.dest).isSome :=
  Option.isSome_iff_exists.mpr (wf.dest_live h)

/-- A graph is well formed when names identify, ends are live, lists are right on both sides
    and counters count. -/
theorem of_lists
    (hnode : ∀ i j m n, g.node? i = some m → g.node? j = some n → m.name = n.name → i = j)
    (hedge : ∀ i j d e, g.edge? i = some d → g.edge? j = some e → d.name = e.name → i = j)
    (hends : ∀ i e, g.edge? i = some e → (g.node? e.src).isSome ∧ (g.node? e.dest).isSome)
    (hlists : ∀ x n, g.node? x = some n →
      Lists n.outgoing (g.HasEnd Edge.src x) ∧ Lists n.incoming (g.HasEnd Edge.dest x))
    (hnodes : g.nodes.Counted) (hedges : g.edges.Counted) : g.WellFormed where
  node_name_inj hm hn := hnode _ _ _ _ hm hn
  edge_name_inj hd he := hedge _ _ _ _ hd he
  src_live he := Option.isSome_iff_exists.mp (hends _ _ he).1
  dest_live he := Option.isSome_iff_exists.mp (hends _ _ he).2
  mem_outgoing hn := (hlists _ _ hn).1.2 _
  mem_incoming hn := (hlists _ _ hn).2.2 _
  outgoing_nodup hn := (hlists _ _ hn).1.1
  incoming_nodup hn := (hlists _ _ hn).2.1
  node_count := hnodes
  edge_count := hedges

end WellFormed

end Graph

end PatternGraph
