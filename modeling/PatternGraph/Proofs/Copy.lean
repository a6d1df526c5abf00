/-
  PatternGraph.Proofs.Copy

  A copy without vacated slots says the same as its original.  A node goes to
  the slot whose number counts the nodes before it, and an edge is connected to
  the new slots of its ends; in a well-formed graph both ends have one, so no
  edge of a copy dangles.

  A copy never has more slots than its original, so where those of the original
  have numbers below the limit no node and no edge of the copy is refused.
-/
import PatternGraph.Graph.Copy
import PatternGraph.Proofs.Content
import PatternGraph.Proofs.SlotLimit

namespace PatternGraph

/-! ## Numbering the values of a table -/

namespace Slots

variable {α : Type}

/-- Numbers the values among the cells from `k` on. -/
def numberFrom : (k : Nat) → List (Option α) → List (Option Nat)
  | _, [] => []
  | k, none :: rest => none :: numberFrom k rest
  | k, some _ :: rest => some k :: numberFrom (k + 1) rest

/-- For each slot the number of its value among all values, if it holds one. -/
def ranks (s : Slots α) : Array (Option Nat) := (numberFrom 0 s.cells.toList).toArray

/-- How many values stand before a slot. -/
def rank (s : Slots α) (i : Nat) : Nat := ((s.cells.toList.take i).filterMap id).length

theorem getElem?_numberFrom (k : Nat) (cells : List (Option α)) (i : Nat) :
    (numberFrom k cells)[i]? = cells[i]?.map fun cell =>
      cell.map fun _ => k + ((cells.take i).filterMap id).length := by
  induction cells generalizing k i with
  | nil => simp [numberFrom]
  | cons cell rest ih =>
      cases i with
      | zero => cases cell <;> rfl
      | succ i =>
          cases cell with
          | none =>
              rw [numberFrom, List.getElem?_cons_succ, ih]
              rfl
          | some a =>
              rw [numberFrom, List.getElem?_cons_succ, ih, List.getElem?_cons_succ,
                List.take_succ_cons, List.filterMap_cons_some (f := id) rfl, List.length_cons,
                Nat.add_right_comm]
              rfl

theorem getElem?_ranks (s : Slots α) (i : Nat) :
    s.ranks[i]?.join = (s.get? i).map fun _ => s.rank i := by
  rw [ranks, List.getElem?_toArray, getElem?_numberFrom, Array.getElem?_toList, get?, rank]
  cases s.cells[i]? with
  | none => rfl
  | some cell => cases cell <;> simp

theorem getElem?_values_rank {s : Slots α} {i : Nat} {a : α} (h : s.get? i = some a) :
    s.values[s.rank i]? = some a := by
  rw [values_eq_append_cons h, rank, List.getElem?_append_right (Nat.le_refl _), Nat.sub_self]
  rfl

theorem getElem?_filterMap_zipIdx {cells : List (Option α)} {i : Nat} {a : α} (k : Nat)
    (h : cells[i]? = some (some a)) :
    ((cells.zipIdx k).filterMap fun (cell, i) => cell.map (i, ·))[
      ((cells.take i).filterMap id).length]? = some (k + i, a) := by
  induction cells generalizing k i with
  | nil => cases h
  | cons cell rest ih =>
      cases i with
      | zero =>
          obtain rfl : cell = some a := Option.some.inj h
          rfl
      | succ i =>
          have hlater := ih (k + 1) (i := i) h
          rw [Nat.add_right_comm] at hlater
          cases cell with
          | none => exact hlater
          | some b => exact hlater

/-- A live slot has its own number among the entries. -/
theorem getElem?_entries_rank {s : Slots α} {i : Nat} {a : α} (h : s.get? i = some a) :
    s.entries[s.rank i]? = some (i, a) := by
  have hcell : s.cells.toList[i]? = some (some a) := by
    rw [Array.getElem?_toList]
    exact Option.join_eq_some_iff.mp h
  have hentry := getElem?_filterMap_zipIdx 0 hcell
  rwa [Nat.zero_add] at hentry

/-- Different live slots have different numbers. -/
theorem rank_inj {s : Slots α} {i j : Nat} {a b : α} (hi : s.get? i = some a)
    (hj : s.get? j = some b) (h : s.rank i = s.rank j) : i = j := by
  have hentry := getElem?_entries_rank hi
  rw [h, getElem?_entries_rank hj] at hentry
  exact congrArg Prod.fst (Option.some.inj hentry).symm

theorem rank_of_getElem?_entries {s : Slots α} {k i : Nat} {a : α}
    (h : s.entries[k]? = some (i, a)) : s.rank i = k := by
  have hlive := mem_entries.mp (List.mem_of_getElem? h)
  have hnodup := List.Nodup.of_map _ (nodup_map_entries (f := id) (fun _ _ => id) s)
  refine (List.getElem?_inj ?_ hnodup).mp ?_
  · exact (List.getElem?_eq_some_iff.mp (getElem?_entries_rank hlive)).1
  · rw [getElem?_entries_rank hlive, h]

/-- The live slots are numbered in their order. -/
theorem map_rank_entries (s : Slots α) :
    (s.entries.map fun p => s.rank p.1) = List.range s.values.length := by
  have hlen : s.values.length = s.entries.length := by rw [← map_snd_entries, List.length_map]
  apply List.ext_getElem
  · rw [List.length_map, List.length_range, hlen]
  · intro k hk _
    rw [List.length_map] at hk
    rw [List.getElem_map, List.getElem_range]
    exact rank_of_getElem?_entries (List.getElem?_eq_getElem hk)

/-- The values are those of the live slots, each under the number of its slot. -/
theorem getElem?_values_eq_some {s : Slots α} {k : Nat} {a : α} :
    s.values[k]? = some a ↔ ∃ i, s.get? i = some a ∧ s.rank i = k := by
  constructor
  · intro h
    rw [← map_snd_entries, List.getElem?_map, Option.map_eq_some_iff] at h
    obtain ⟨⟨i, a⟩, hentry, rfl⟩ := h
    exact ⟨i, mem_entries.mp (List.mem_of_getElem? hentry), rank_of_getElem?_entries hentry⟩
  · rintro ⟨i, hi, rfl⟩
    exact getElem?_values_rank hi

end Slots

namespace Graph

variable {g : Graph}

/-! ## The copy as edges added to bare nodes -/

/-- The nodes without edges, in slots without gaps. -/
def bareCopy (g : Graph) : Graph where
  nodes := .ofList (g.nodes.values.map Node.isolated)
  edges := .empty
  limits := g.limits

/-- The handle that a node has in the copy; a stale handle dangles there. -/
def copyId (g : Graph) (x : NodeId) : NodeId :=
  ⟨g.nodes.ranks[x.index]?.join.getD slotLimit⟩

/-- An edge between the new handles of its ends. -/
def copyEdge (g : Graph) (e : Edge) : Edge := e.between (g.copyId e.src) (g.copyId e.dest)

/-- While there are slots every node is copied, and the places are numbered in order. -/
theorem copyNodes_eq (cells : List (Option Node)) (copied : List Node) (limits : Limits)
    (hslots : copied.length + (cells.filterMap id).length ≤ slotLimit) :
    copyNodes cells ⟨.ofList copied, .empty, limits⟩
      = ((Slots.numberFrom copied.length cells).map (Option.map NodeId.mk),
        ⟨.ofList (copied ++ (cells.filterMap id).map Node.isolated), .empty, limits⟩) := by
  induction cells generalizing copied with
  | nil => simp [copyNodes, Slots.numberFrom]
  | cons cell rest ih =>
      cases cell with
      | none => simp [copyNodes, Slots.numberFrom, ih copied hslots]
      | some n =>
          -- the node takes the next slot, which is its place
          rw [List.filterMap_cons_some (f := id) rfl, List.length_cons] at hslots
          have hnext : (⟨.ofList copied, .empty, limits⟩ : Graph).insertNode n.isolated
              = ⟨.ofList (copied ++ [n.isolated]), .empty, limits⟩ := by
            rw [Slots.ofList_append_singleton]
            rfl
          have hsize : (Slots.ofList copied).size = copied.length := Slots.size_ofList copied
          have hnew := Edit.newNode_ok (g := ⟨.ofList copied, .empty, limits⟩) n.isolated
            (by rw [hsize]; omega)
          have hrest := ih (copied ++ [n.isolated]) (by
            rw [List.length_append, List.length_singleton]
            omega)
          rw [copyNodes, hnew]
          simp only [hnext, hrest, hsize, Slots.numberFrom, List.map_cons, List.length_append,
            List.length_singleton, List.filterMap_cons_some (f := id) rfl, List.append_assoc,
            List.singleton_append, Option.map_some]

/-- While there are slots every edge is copied. -/
theorem copyEdges_eq (place : NodeId → NodeId) (edges : List Edge) (copy : Graph)
    (hslots : copy.edges.size + edges.length ≤ slotLimit) :
    copyEdges place edges copy
      = copy.insertEdges (edges.map fun e => e.between (place e.src) (place e.dest)) := by
  induction edges generalizing copy with
  | nil => rfl
  | cons e rest ih =>
      rw [List.length_cons] at hslots
      have hnew := Edit.newEdge_ok (g := copy) (e.between (place e.src) (place e.dest)) (by omega)
      have hsize : (copy.insertEdge (e.between (place e.src) (place e.dest))).edges.size
          = copy.edges.size + 1 := Slots.size_push _ _
      rw [copyEdges, hnew]
      exact ih _ (by rw [hsize]; omega)

/-- A copy of a graph whose slots are below the limit is complete: no node and no edge of it is
    refused. -/
theorem compact_eq (hslots : g.HasSlots 0 0) :
    g.compact = g.bareCopy.insertEdges (g.edges.values.map g.copyEdge) := by
  have hnodes :
      ([] : List Node).length + (g.nodes.cells.toList.filterMap id).length ≤ slotLimit := by
    rw [List.length_nil, Nat.zero_add]
    exact Nat.le_trans g.nodes.length_values_le hslots.nodes
  have hedges : g.bareCopy.edges.size + g.edges.values.length ≤ slotLimit := by
    rw [show g.bareCopy.edges.size = 0 from rfl, Nat.zero_add]
    exact Nat.le_trans g.edges.length_values_le hslots.edges
  -- the table of places and `copyId` agree, also where no place is recorded
  have hplace : (fun x : NodeId => ((Slots.numberFrom 0 g.nodes.cells.toList).map
      (Option.map NodeId.mk)).toArray[x.index]?.join.getD .dangling) = g.copyId := by
    funext x
    rw [copyId, Slots.ranks, List.getElem?_toArray, List.getElem?_toArray, List.getElem?_map]
    cases (Slots.numberFrom 0 g.nodes.cells.toList)[x.index]? with
    | none => rfl
    | some place => cases place <;> rfl
  unfold compact
  rw [show Graph.empty g.limits = ⟨.ofList [], .empty, g.limits⟩ from rfl,
    copyNodes_eq _ _ _ hnodes]
  dsimp only [List.length_nil, List.nil_append]
  rw [hplace]
  exact copyEdges_eq g.copyId g.edges.values g.bareCopy hedges

theorem node?_bareCopy (g : Graph) (x : NodeId) :
    g.bareCopy.node? x = (g.nodes.values[x.index]?).map Node.isolated := by
  have hget : g.bareCopy.node? x = _ := Slots.get?_ofList _ x.index
  rw [hget, List.getElem?_map]

/-- The handle in the copy is the number of the node among all nodes. -/
theorem getElem?_values_copyId {x : NodeId} {n : Node} (h : g.node? x = some n) :
    g.nodes.values[(g.copyId x).index]? = some n := by
  have hget : g.nodes.get? x.index = some n := h
  rw [copyId, Slots.getElem?_ranks, hget]
  exact Slots.getElem?_values_rank hget

theorem node?_bareCopy_copyId {x : NodeId} {n : Node} (h : g.node? x = some n) :
    g.bareCopy.node? (g.copyId x) = some n.isolated := by
  rw [node?_bareCopy, getElem?_values_copyId h]
  rfl

namespace WellFormed

theorem bareCopy (wf : g.WellFormed) : g.bareCopy.WellFormed := by
  have noEdge : ∀ i, g.bareCopy.edge? i = none := fun i => Slots.get?_empty i.index
  apply WellFormed.of_lists
  case hnode =>
    intro i j m n hm hn hname
    rw [node?_bareCopy, Option.map_eq_some_iff] at hm hn
    obtain ⟨a, ha, rfl⟩ := hm
    obtain ⟨b, hb, rfl⟩ := hn
    have hi : (g.nodes.values.map Node.name)[i.index]? = some a.name := by
      rw [List.getElem?_map, ha]
      rfl
    have hj : (g.nodes.values.map Node.name)[j.index]? = some b.name := by
      rw [List.getElem?_map, hb]
      rfl
    -- slots of the copy are positions in the list of names, which has no repetition
    have hab : a.name = b.name := hname
    ext
    have hlt := (List.getElem?_eq_some_iff.mp hi).1
    refine (List.getElem?_inj hlt (nodup_nodeNames wf)).mp ?_
    rw [hi, hj, hab]
  case hedge =>
    intro i j d e hd
    rw [noEdge] at hd
    cases hd
  case hends =>
    intro i e he
    rw [noEdge] at he
    cases he
  case hlists =>
    intro x n hn
    rw [node?_bareCopy, Option.map_eq_some_iff] at hn
    obtain ⟨m, -, rfl⟩ := hn
    have hnone : ∀ side i, ¬ g.bareCopy.HasEnd side x i := by
      rintro side i ⟨e, he, -⟩
      rw [noEdge] at he
      cases he
    exact ⟨.nil (hnone _), .nil (hnone _)⟩
  case hnodes => exact Slots.Counted.ofList _
  case hedges => exact Slots.Counted.empty

end WellFormed

/-! ## The copy is sound -/

theorem size_nodes_compact (hslots : g.HasSlots 0 0) :
    g.compact.nodes.size = g.nodes.values.length := by
  rw [compact_eq hslots, size_nodes_insertEdges, bareCopy, Slots.size_ofList, List.length_map]

theorem size_edges_compact (hslots : g.HasSlots 0 0) :
    g.compact.edges.size = g.edges.values.length := by
  rw [compact_eq hslots, size_edges_insertEdges, List.length_map]
  exact Nat.zero_add _

/-- A copy has no more slots than its original. -/
theorem HasSlots.compact (hslots : g.HasSlots 0 0) : g.compact.HasSlots 0 0 where
  nodes := by
    rw [size_nodes_compact hslots]
    exact Nat.le_trans g.nodes.length_values_le hslots.nodes
  edges := by
    rw [size_edges_compact hslots]
    exact Nat.le_trans g.edges.length_values_le hslots.edges

/-- A copy of a sound graph is sound. -/
theorem Sound.compact (sound : g.Sound) : g.compact.Sound where
  slots := sound.slots.compact
  toWellFormed := by
    have wf := sound.toWellFormed
    rw [compact_eq sound.slots]
    apply wf.bareCopy.insertEdges
    case hfree =>
      -- the copies of the nodes come first, and no edge is there yet
      intro e _
      exact hasEdge_eq_false.mpr fun i d hd => by
        rw [show g.bareCopy.edge? i = none from Slots.get?_empty i.index] at hd
        cases hd
    case hnodup =>
      rw [List.map_map]
      exact nodup_edgeNames wf
    case hends =>
      intro d hd
      obtain ⟨e, he, rfl⟩ := List.mem_map.mp hd
      -- the ends of an edge are live, and so are the places of their copies
      obtain ⟨⟨a, ha⟩, b, hb⟩ := wf.live_of_mem he
      refine ⟨?_, ?_⟩
      · show (g.bareCopy.node? (g.copyId e.src)).isSome
        rw [node?_bareCopy_copyId ha]
        rfl
      · show (g.bareCopy.node? (g.copyId e.dest)).isSome
        rw [node?_bareCopy_copyId hb]
        rfl

/-! ## The copy says the same -/

theorem nodeContents_compact (hslots : g.HasSlots 0 0) :
    g.compact.nodeContents = g.nodeContents := by
  rw [compact_eq hslots, nodeContents_insertEdges]
  show (Slots.ofList (g.nodes.values.map Node.isolated)).values.map Node.content = _
  rw [Slots.values_ofList, List.map_map]
  rfl

theorem nameOf?_compact_copyId (hslots : g.HasSlots 0 0) {x : NodeId} {n : Node}
    (h : g.node? x = some n) : g.compact.nameOf? (g.copyId x) = g.nameOf? x := by
  rw [compact_eq hslots, nameOf?_insertEdges, nameOf?, node?_bareCopy_copyId h, nameOf?, h]
  rfl

theorem values_edges_compact (hslots : g.HasSlots 0 0) :
    g.compact.edges.values = g.edges.values.map g.copyEdge := by
  rw [compact_eq hslots, values_edges_insertEdges]
  rfl

theorem Sound.edgeContents_compact (sound : g.Sound) :
    g.compact.edgeContents = g.edgeContents := by
  rw [edgeContents, values_edges_compact sound.slots, List.map_map, edgeContents]
  apply List.map_congr_left
  intro e he
  obtain ⟨⟨a, ha⟩, b, hb⟩ := sound.live_of_mem he
  have hsrc := nameOf?_compact_copyId sound.slots ha
  have hdest := nameOf?_compact_copyId sound.slots hb
  simp only [Function.comp_apply, edgeContent, copyEdge, Edge.between, hsrc, hdest]

theorem limits_compact (hslots : g.HasSlots 0 0) : g.compact.limits = g.limits := by
  rw [compact_eq hslots, limits_insertEdges]
  rfl

end Graph

end PatternGraph
