/-
  PatternGraph.Graph.Joined

  When two nodes hang together: a chain of edges leads from one to the other,
  where every edge may be followed either way.  Being joined is an equivalence
  of handles, and its classes of live nodes are the connected parts of a graph.
-/
import PatternGraph.Graph.WellFormed

namespace PatternGraph.Graph

variable {g : Graph} {x y z : NodeId}

/-- Some live edge has one end at `x` and the other at `y`. -/
def Adjacent (g : Graph) (x y : NodeId) : Prop :=
  ∃ id e, g.edge? id = some e ∧ (e.src = x ∧ e.dest = y ∨ e.src = y ∧ e.dest = x)

/-- A chain of live edges leads from one node to another. -/
inductive Joined (g : Graph) : NodeId → NodeId → Prop where
  /-- The chain without edges. -/
  | refl (x : NodeId) : Joined g x x
  /-- One more edge at the end of a chain. -/
  | step {x y z : NodeId} (chain : Joined g x y) (last : g.Adjacent y z) : Joined g x z

/-! ## Adjacent nodes -/

theorem Adjacent.symm (h : g.Adjacent x y) : g.Adjacent y x := by
  obtain ⟨id, e, he, hends⟩ := h
  exact ⟨id, e, he, hends.symm⟩

/-- In a well-formed graph adjacent nodes are live. -/
theorem WellFormed.live_of_adjacent (wf : g.WellFormed) (h : g.Adjacent x y) :
    (∃ n, g.node? x = some n) ∧ ∃ n, g.node? y = some n := by
  obtain ⟨id, e, he, ⟨rfl, rfl⟩ | ⟨rfl, rfl⟩⟩ := h
  · exact ⟨wf.src_live he, wf.dest_live he⟩
  · exact ⟨wf.dest_live he, wf.src_live he⟩

/-- In a well-formed graph the other ends that a node lists are its adjacent nodes. -/
theorem WellFormed.mem_neighbors (wf : g.WellFormed) {n : Node} (h : g.node? x = some n) :
    y ∈ g.neighbors x ↔ g.Adjacent x y := by
  simp only [neighbors, h, List.mem_append, List.mem_filterMap, Option.map_eq_some_iff,
    Array.mem_toList_iff, wf.mem_outgoing h, wf.mem_incoming h]
  constructor
  · rintro (⟨id, ⟨e, he, hsrc⟩, e', he', rfl⟩ | ⟨id, ⟨e, he, hdest⟩, e', he', rfl⟩)
    · rw [he] at he'
      cases he'
      exact ⟨id, e, he, .inl ⟨hsrc, rfl⟩⟩
    · rw [he] at he'
      cases he'
      exact ⟨id, e, he, .inr ⟨rfl, hdest⟩⟩
  · rintro ⟨id, e, he, ⟨hsrc, hdest⟩ | ⟨hsrc, hdest⟩⟩
    · exact .inl ⟨id, ⟨e, he, hsrc⟩, e, he, hdest⟩
    · exact .inr ⟨id, ⟨e, he, hdest⟩, e, he, hsrc⟩

/-! ## Joined nodes -/

theorem Adjacent.joined (h : g.Adjacent x y) : g.Joined x y :=
  .step (.refl x) h

theorem Joined.trans (hxy : g.Joined x y) (hyz : g.Joined y z) : g.Joined x z := by
  induction hyz with
  | refl => exact hxy
  | step _ last ih => exact .step ih last

theorem Joined.symm (h : g.Joined x y) : g.Joined y x := by
  induction h with
  | refl => exact .refl _
  | step _ last ih => exact last.symm.joined.trans ih

/-- Being joined is an equivalence. -/
theorem joined_equivalence (g : Graph) : Equivalence g.Joined :=
  ⟨.refl, .symm, .trans⟩

end PatternGraph.Graph
