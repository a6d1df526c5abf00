/-
  PatternGraph.Proofs.Listing

  Many new nodes and edges, slot by slot.  What is new takes the next slots in
  order.  An edge is appended to the lists of its two ends when it comes, so a
  list grows at its end by the handles of those new edges that have the node on
  its side, and one filter tells which these are.
-/
import PatternGraph.Proofs.Graft

namespace PatternGraph

namespace Slots

variable {α : Type}

/-- Tables that count right and hold the same in their slots are equal. -/
theorem Counted.eq_of_cells {s t : Slots α} (hs : s.Counted) (ht : t.Counted)
    (hcells : s.cells.toList = t.cells.toList) : s = t := by
  have hsame : s.cells = t.cells := Array.toList_inj.mp hcells
  refine hs.ext ht ?_ fun i => ?_
  · rw [size, size, hsame]
  · rw [get?, get?, hsame]

/-- Each value was changed where it stands, in a way that its slot tells. -/
theorem cells_eq_mapIdx {s t : Slots α} {f : Nat → α → α} (hsize : t.size = s.size)
    (hget : ∀ i, t.get? i = (s.get? i).map (f i)) :
    t.cells.toList = s.cells.toList.mapIdx fun i cell => cell.map (f i) := by
  rw [toList_cells, toList_cells, hsize]
  apply List.ext_getElem
  · simp
  · intro i hi _
    simp [hget]

/-- What a change in place leaves alone is in each cell what it was. -/
theorem map_mapIdx_of_fixed {β : Type} {cells : List (Option α)} {f : Nat → α → α} {p : α → β}
    (hp : ∀ i a, p (f i a) = p a) :
    (cells.mapIdx fun i cell => cell.map (f i)).map (Option.map p) = cells.map (Option.map p) := by
  apply List.ext_getElem
  · simp
  · intro i hi _
    rw [List.getElem_map, List.getElem_mapIdx, List.getElem_map, Option.map_map]
    exact congrArg (Option.map · _) (funext (hp i))

end Slots

/-- The node with more edges that leave it and more that enter it, at the ends of its lists. -/
def Node.gain (n : Node) (leaving entering : List EdgeId) : Node where
  name := n.name
  label := n.label
  labelRef := n.labelRef
  incoming := n.incoming ++ entering.toArray
  outgoing := n.outgoing ++ leaving.toArray

theorem Node.gain_nil (n : Node) : n.gain [] [] = n := by
  simp [gain]

/-- What a node says does not depend on its edges. -/
@[simp] theorem Node.content_gain (n : Node) (leaving entering : List EdgeId) :
    (n.gain leaving entering).content = n.content :=
  rfl

theorem Node.gain_gain (n : Node) (l l' e e' : List EdgeId) :
    (n.gain l e).gain l' e' = n.gain (l ++ l') (e ++ e') := by
  simp [gain]

/-- The handles of those edges that pass a test, when the edges take the slots from `first` on. -/
def handlesFrom (first : Nat) (made : List Edge) (p : Edge → Bool) : List EdgeId :=
  ((made.zipIdx first).filter fun e => p e.1).map fun e => ⟨e.2⟩

theorem handlesFrom_cons (first : Nat) (e : Edge) (rest : List Edge) (p : Edge → Bool) :
    handlesFrom first (e :: rest) p
      = (if p e then [⟨first⟩] else []) ++ handlesFrom (first + 1) rest p := by
  rw [handlesFrom, List.zipIdx_cons, List.filter_cons]
  cases p e <;> rfl

theorem le_of_mem_handlesFrom {first : Nat} {made : List Edge} {p : Edge → Bool} {i : EdgeId}
    (h : i ∈ handlesFrom first made p) : first ≤ i.index := by
  obtain ⟨⟨e, k⟩, hmem, rfl⟩ := List.mem_map.mp h
  exact List.le_snd_of_mem_zipIdx (List.mem_filter.mp hmem).1

/-- The handles are listed in the order of the slots. -/
theorem pairwise_handlesFrom (first : Nat) (made : List Edge) (p : Edge → Bool) :
    (handlesFrom first made p).Pairwise (·.index < ·.index) := by
  induction made generalizing first with
  | nil => exact .nil
  | cons e rest ih =>
      rw [handlesFrom_cons]
      split
      · exact List.pairwise_cons.mpr ⟨fun _ => le_of_mem_handlesFrom, ih (first + 1)⟩
      · exact ih (first + 1)

namespace Graph

variable {g : Graph} {x : NodeId} {m n : Node}

/-! ## New nodes -/

theorem node?_insertNodes_of_live {ns : List Node} (hx : g.node? x = some n) :
    (g.insertNodes ns).node? x = some n := by
  induction ns generalizing g with
  | nil => exact hx
  | cons m rest ih => exact ih (node?_insertNode_of_live hx)

theorem cells_nodes_insertNodes (g : Graph) (ns : List Node) :
    (g.insertNodes ns).nodes.cells.toList = g.nodes.cells.toList ++ ns.map some := by
  rw [nodes_insertNodes]
  exact Array.toList_append

/-! ## New edges -/

/-- The handles of those edges that have the node on that side, when the edges take the next slots
    of the graph. -/
def handlesAt (g : Graph) (made : List Edge) (side : Edge → NodeId) (x : NodeId) : List EdgeId :=
  handlesFrom g.edges.size made fun e => side e == x

/-- A node lists a new edge last on each side where the edge has the node. -/
theorem node?_insertEdge_eq_gain (g : Graph) (e : Edge) (x : NodeId) :
    (g.insertEdge e).node? x
      = (g.node? x).map (·.gain (g.handlesAt [e] Edge.src x) (g.handlesAt [e] Edge.dest x)) := by
  have hone : ∀ side : Edge → NodeId,
      g.handlesAt [e] side x = if x = side e then [⟨g.edges.size⟩] else [] := by
    intro side
    rw [handlesAt, handlesFrom_cons]
    by_cases hx : x = side e
    · simp [hx, handlesFrom]
    · simp [hx, Ne.symm hx, handlesFrom]
  rw [node?_insertEdge, hone, hone]
  congr 1
  funext n
  split <;> split <;> simp [Node.gain]

/-- A node lists the new edges after the old ones, in their order. -/
theorem node?_insertEdges (g : Graph) (made : List Edge) (x : NodeId) :
    (g.insertEdges made).node? x
      = (g.node? x).map (·.gain (g.handlesAt made Edge.src x) (g.handlesAt made Edge.dest x)) := by
  induction made generalizing g with
  | nil =>
      have hnone : (fun n : Node => n.gain [] []) = id := funext Node.gain_nil
      show g.node? x = (g.node? x).map fun n => n.gain [] []
      rw [hnone, Option.map_id_apply]
  | cons e rest ih =>
      have hcons : ∀ side, g.handlesAt (e :: rest) side x
          = g.handlesAt [e] side x ++ (g.insertEdge e).handlesAt rest side x := by
        intro side
        rw [handlesAt, handlesAt, handlesAt, handlesFrom_cons, handlesFrom_cons,
          size_edges_insertEdge]
        show _ = (_ ++ []) ++ _
        rw [List.append_nil]
      rw [insertEdges_cons, ih, node?_insertEdge_eq_gain, Option.map_map, hcons, hcons]
      congr 1
      funext n
      exact n.gain_gain _ _ _ _

/-- The cells of the nodes, each with the new edges that have it at an end. -/
theorem cells_nodes_insertEdges (g : Graph) (made : List Edge) :
    (g.insertEdges made).nodes.cells.toList = g.nodes.cells.toList.mapIdx fun i cell => cell.map
      (·.gain (g.handlesAt made Edge.src ⟨i⟩) (g.handlesAt made Edge.dest ⟨i⟩)) := by
  refine Slots.cells_eq_mapIdx ?_ fun i => node?_insertEdges g made ⟨i⟩
  rw [← length_nameSlots, ← length_nameSlots, nameSlots_insertEdges]

/-- New nodes do not change which slots the edges take. -/
theorem handlesAt_insertNodes (g : Graph) (ns : List Node) :
    (g.insertNodes ns).handlesAt = g.handlesAt := by
  funext made side x
  rw [handlesAt, handlesAt, edges_insertNodes]

theorem cells_edges_insertEdges (g : Graph) (made : List Edge) :
    (g.insertEdges made).edges.cells.toList = g.edges.cells.toList ++ made.map some := by
  induction made generalizing g with
  | nil => exact (List.append_nil _).symm
  | cons e rest ih =>
      have hpush : (g.insertEdge e).edges.cells.toList = g.edges.cells.toList ++ [some e] :=
        Array.toList_push
      rw [insertEdges_cons, ih, hpush, List.append_assoc]
      rfl

theorem edge?_insertEdges_of_live {made : List Edge} {i : EdgeId} {e : Edge}
    (he : g.edge? i = some e) : (g.insertEdges made).edge? i = some e := by
  induction made generalizing g with
  | nil => exact he
  | cons d rest ih =>
      have hlt := lt_size_of_edge? he
      exact ih (by rw [edge?_insertEdge, if_neg (by omega), he])

/-! ## Names -/

/-- Where nodes are changed in place and keep their names, the names stay where they were. -/
theorem nameSlots_of_cells {cells : List (Option Node)} {f : Nat → Node → Node}
    (hcells : g.nodes.cells.toList = cells.mapIdx fun i cell => cell.map (f i))
    (hname : ∀ i n, (f i n).name = n.name) : g.nameSlots = cells.map (Option.map Node.name) := by
  rw [nameSlots, hcells, Slots.map_mapIdx_of_fixed hname]

/-- Well-formed graphs with the same in their slots under the same budgets are equal. -/
theorem WellFormed.eq_of_cells {h : Graph} (wf : g.WellFormed) (wf' : h.WellFormed)
    (hnodes : g.nodes.cells.toList = h.nodes.cells.toList)
    (hedges : g.edges.cells.toList = h.edges.cells.toList) (hlimits : g.limits = h.limits) :
    g = h := by
  have hnodes : g.nodes = h.nodes := wf.nodes_counted.eq_of_cells wf'.nodes_counted hnodes
  have hedges : g.edges = h.edges := wf.edges_counted.eq_of_cells wf'.edges_counted hedges
  show (⟨g.nodes, g.edges, g.limits⟩ : Graph) = h
  rw [hnodes, hedges, hlimits]

end Graph

end PatternGraph
