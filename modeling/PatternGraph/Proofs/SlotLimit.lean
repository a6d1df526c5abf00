/-
  PatternGraph.Proofs.SlotLimit

  Slots run out.  A new node or edge takes the next slot if its number is below
  the limit, and is refused otherwise, with the graph as it was.  A number below
  the limit is the same as the word that is issued for it, so the handle that is
  given back is that of the slot.

  `HasSlots` says how many slots are left; `Sound` adds to a well-formed graph
  that no slot lies beyond the limit.
-/
import PatternGraph.Edit.Insert
import PatternGraph.Proofs.Growth
import PatternGraph.Proofs.Run

namespace PatternGraph

/-- The cause is that there is no slot for a node or an edge. -/
def GraphError.lacksSlot : GraphError → Bool
  | .tooLarge .nodeSlots _ _ | .tooLarge .edgeSlots _ _ => true
  | _ => false

namespace Graph

/-- There are slots for so many more nodes and edges. -/
structure HasSlots (g : Graph) (nodes edges : Nat) : Prop where
  nodes : g.nodes.size + nodes ≤ slotLimit
  edges : g.edges.size + edges ≤ slotLimit

instance (g : Graph) (nodes edges : Nat) : Decidable (g.HasSlots nodes edges) :=
  decidable_of_iff (g.nodes.size + nodes ≤ slotLimit ∧ g.edges.size + edges ≤ slotLimit)
    ⟨fun ⟨hnodes, hedges⟩ => ⟨hnodes, hedges⟩, fun h => ⟨h.nodes, h.edges⟩⟩

/-- The parts of the graph agree, and all slots have numbers below the limit. -/
structure Sound (g : Graph) : Prop extends g.WellFormed where
  slots : g.HasSlots 0 0

variable {g : Graph} {m n : Nat}

theorem HasSlots.mono {m' n' : Nat} (h : g.HasSlots m n) (hm : m' ≤ m) (hn : n' ≤ n) :
    g.HasSlots m' n' :=
  ⟨Nat.le_trans (Nat.add_le_add_left hm _) h.nodes,
    Nat.le_trans (Nat.add_le_add_left hn _) h.edges⟩

/-- So many slots are left for a graph where a graph with so many slots more is within the limit. -/
theorem hasSlots_iff {h : Graph} (hnodes : h.nodes.size = g.nodes.size + m)
    (hedges : h.edges.size = g.edges.size + n) : h.HasSlots 0 0 ↔ g.HasSlots m n :=
  ⟨fun ⟨hm, hn⟩ => ⟨by omega, by omega⟩, fun ⟨hm, hn⟩ => ⟨by omega, by omega⟩⟩

/-! ## How many slots there are -/

@[simp] theorem size_nodes_insertNode (g : Graph) (n : Node) :
    (g.insertNode n).nodes.size = g.nodes.size + 1 :=
  Slots.size_push _ _

@[simp] theorem size_edges_insertNode (g : Graph) (n : Node) :
    (g.insertNode n).edges.size = g.edges.size :=
  rfl

@[simp] theorem size_nodes_modifyNode (g : Graph) (id : NodeId) (f : Node → Node) :
    (g.modifyNode id f).nodes.size = g.nodes.size :=
  Slots.size_modify _ _ _

@[simp] theorem size_edges_modifyNode (g : Graph) (id : NodeId) (f : Node → Node) :
    (g.modifyNode id f).edges.size = g.edges.size :=
  rfl

@[simp] theorem size_nodes_insertEdge (g : Graph) (e : Edge) :
    (g.insertEdge e).nodes.size = g.nodes.size :=
  (Slots.size_modify _ _ _).trans (Slots.size_modify _ _ _)

@[simp] theorem size_edges_insertEdge (g : Graph) (e : Edge) :
    (g.insertEdge e).edges.size = g.edges.size + 1 :=
  Slots.size_push _ _

theorem size_nodes_insertEdges (g : Graph) (edges : List Edge) :
    (g.insertEdges edges).nodes.size = g.nodes.size := by
  induction edges generalizing g with
  | nil => rfl
  | cons e rest ih => rw [insertEdges_cons, ih, size_nodes_insertEdge]

theorem size_edges_insertEdges (g : Graph) (edges : List Edge) :
    (g.insertEdges edges).edges.size = g.edges.size + edges.length := by
  induction edges generalizing g with
  | nil => rfl
  | cons e rest ih =>
      rw [insertEdges_cons, ih, size_edges_insertEdge, List.length_cons, Nat.add_assoc,
        Nat.add_comm 1]

end Graph

namespace Edit

open PatternGraph.Graph

variable {g : Graph}

/-- Why a node gets no slot. -/
def noNodeSlot (g : Graph) : GraphError := .tooLarge .nodeSlots (g.nodes.size + 1) slotLimit

/-- Why an edge gets no slot. -/
def noEdgeSlot (g : Graph) : GraphError := .tooLarge .edgeSlots (g.edges.size + 1) slotLimit

@[simp] theorem lacksSlot_noNodeSlot (g : Graph) : (noNodeSlot g).lacksSlot = true := rfl

@[simp] theorem lacksSlot_noEdgeSlot (g : Graph) : (noEdgeSlot g).lacksSlot = true := rfl

theorem newNode_eq (n : Node) (g : Graph) :
    newNode n g = if g.nodes.size < slotLimit then .ok ⟨g.nodes.size⟩ (g.insertNode n)
      else .error (noNodeSlot g) g := by
  unfold newNode
  split
  next h =>
    have hword : nextSlot g.nodes.size .nodeSlots = .ok (.ofNat g.nodes.size) := if_pos h
    rw [check_bind_ok hword]
    show EStateM.Result.ok (⟨(UInt32.ofNat g.nodes.size).toNat⟩ : NodeId) _ = _
    rw [toNat_ofNat_of_lt_slotLimit h]
  next h => exact check_bind_error (if_neg h)

theorem newEdge_eq (e : Edge) (g : Graph) :
    newEdge e g = if g.edges.size < slotLimit then .ok ⟨g.edges.size⟩ (g.insertEdge e)
      else .error (noEdgeSlot g) g := by
  unfold newEdge
  split
  next h =>
    have hword : nextSlot g.edges.size .edgeSlots = .ok (.ofNat g.edges.size) := if_pos h
    rw [check_bind_ok hword]
    show EStateM.Result.ok (⟨(UInt32.ofNat g.edges.size).toNat⟩ : EdgeId) _ = _
    rw [toNat_ofNat_of_lt_slotLimit h]
  next h => exact check_bind_error (if_neg h)

theorem newNode_ok (n : Node) (h : g.nodes.size < slotLimit) :
    newNode n g = .ok ⟨g.nodes.size⟩ (g.insertNode n) := by
  rw [newNode_eq, if_pos h]

theorem newNode_error (n : Node) (h : ¬ g.nodes.size < slotLimit) :
    newNode n g = .error (noNodeSlot g) g := by
  rw [newNode_eq, if_neg h]

theorem newEdge_ok (e : Edge) (h : g.edges.size < slotLimit) :
    newEdge e g = .ok ⟨g.edges.size⟩ (g.insertEdge e) := by
  rw [newEdge_eq, if_pos h]

theorem newEdge_error (e : Edge) (h : ¬ g.edges.size < slotLimit) :
    newEdge e g = .error (noEdgeSlot g) g := by
  rw [newEdge_eq, if_neg h]

theorem newNode_eq_ok {n : Node} {id : NodeId} {g' : Graph} :
    newNode n g = .ok id g' ↔
      g.nodes.size < slotLimit ∧ id = ⟨g.nodes.size⟩ ∧ g' = g.insertNode n := by
  rw [newNode_eq]
  split
  next h => simp [h, eq_comm]
  next h => simp [h]

theorem newEdge_eq_ok {e : Edge} {id : EdgeId} {g' : Graph} :
    newEdge e g = .ok id g' ↔
      g.edges.size < slotLimit ∧ id = ⟨g.edges.size⟩ ∧ g' = g.insertEdge e := by
  rw [newEdge_eq]
  split
  next h => simp [h, eq_comm]
  next h => simp [h]

/-- The same where the handle is left out. -/
theorem discard_newNode (n : Node) (g : Graph) :
    (discard (newNode n)) g = if g.nodes.size < slotLimit then .ok () (g.insertNode n)
      else .error (noNodeSlot g) g := by
  split
  next h => exact discard_ok (newNode_ok n h)
  next h => exact discard_error (newNode_error n h)

theorem discard_newEdge (e : Edge) (g : Graph) :
    (discard (newEdge e)) g = if g.edges.size < slotLimit then .ok () (g.insertEdge e)
      else .error (noEdgeSlot g) g := by
  split
  next h => exact discard_ok (newEdge_ok e h)
  next h => exact discard_error (newEdge_error e h)

theorem Yields.newNode {n : Node} {post : Graph → Prop} (h : post (g.insertNode n)) :
    (newNode n).Yields g post := by
  by_cases hslot : g.nodes.size < slotLimit
  · exact yields_of_ok (newNode_ok n hslot) h
  · exact yields_of_error (newNode_error n hslot)

theorem Yields.newEdge {e : Edge} {post : Graph → Prop} (h : post (g.insertEdge e)) :
    (newEdge e).Yields g post := by
  by_cases hslot : g.edges.size < slotLimit
  · exact yields_of_ok (newEdge_ok e hslot) h
  · exact yields_of_error (newEdge_error e hslot)

/-- A new node or edge takes a slot below the limit if it takes one. -/
theorem keeps_slots_newNode (n : Node) : (newNode n).Keeps (·.HasSlots 0 0) := by
  intro g hslots
  by_cases h : g.nodes.size < slotLimit
  · rw [after, newNode_ok n h]
    exact (hasSlots_iff (size_nodes_insertNode g n) (size_edges_insertNode g n)).mpr
      ⟨h, hslots.edges⟩
  · rw [after, newNode_error n h]
    exact hslots

theorem keeps_slots_newEdge (e : Edge) : (newEdge e).Keeps (·.HasSlots 0 0) := by
  intro g hslots
  by_cases h : g.edges.size < slotLimit
  · rw [after, newEdge_ok e h]
    exact (hasSlots_iff (size_nodes_insertEdge g e) (size_edges_insertEdge g e)).mpr
      ⟨hslots.nodes, h⟩
  · rw [after, newEdge_error e h]
    exact hslots

end Edit

end PatternGraph
