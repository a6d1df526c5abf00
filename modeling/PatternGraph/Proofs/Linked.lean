/-
  PatternGraph.Proofs.Linked

  Chains of edges, said by name.  Handles change when a graph is copied and
  names do not, so what is joined in a graph and what is joined in a copy or in
  a part of it are compared through the names at the ends of the edges.
-/
import Mathlib.Logic.Relation
import PatternGraph.Graph.Joined
import PatternGraph.Proofs.Content
import PatternGraph.Proofs.Names

namespace PatternGraph

/-- Some edge has one end at `a` and the other at `b`. -/
def Touches (edges : List EdgeContent) (a b : String) : Prop :=
  ∃ e ∈ edges, e.src = some a ∧ e.dest = some b ∨ e.src = some b ∧ e.dest = some a

/-- A chain of edges leads from one name to another. -/
def Linked (edges : List EdgeContent) : String → String → Prop :=
  Relation.ReflTransGen (Touches edges)

section Chains

variable {edges more : List EdgeContent} {a b : String}

theorem Touches.symm (h : Touches edges a b) : Touches edges b a := by
  obtain ⟨e, he, hends⟩ := h
  exact ⟨e, he, hends.symm⟩

theorem Touches.mono (hsub : ∀ e ∈ edges, e ∈ more) (h : Touches edges a b) : Touches more a b := by
  obtain ⟨e, he, hends⟩ := h
  exact ⟨e, hsub e he, hends⟩

theorem Linked.symm (h : Linked edges a b) : Linked edges b a := by
  induction h with
  | refl => exact .refl
  | tail _ last ih => exact ih.head last.symm

theorem Linked.mono (hsub : ∀ e ∈ edges, e ∈ more) (h : Linked edges a b) : Linked more a b :=
  Relation.ReflTransGen.mono (fun _ _ (ht : Touches edges _ _) => ht.mono hsub) _ _ h

/-- A chain from a name that passes a test stays with the edges that start at such names, when
    no edge leads from a name that passes to one that does not. -/
theorem Linked.filter {q : String → Bool} (hq : ∀ a b, Touches edges a b → q a = q b)
    (h : Linked edges a b) (ha : q a = true) :
    q b = true ∧ Linked (edges.filter fun e => e.src.any q) a b := by
  induction h with
  | refl => exact ⟨ha, .refl⟩
  | tail _ last ih =>
      have hlast := (hq _ _ last).symm.trans ih.1
      obtain ⟨e, he, hends⟩ := last
      refine ⟨hlast, ih.2.tail ⟨e, List.mem_filter.mpr ⟨he, ?_⟩, hends⟩⟩
      -- the edge starts at one of two names, and both pass
      rcases hends with ⟨hsrc, -⟩ | ⟨hsrc, -⟩
      · rw [hsrc]
        exact ih.1
      · rw [hsrc]
        exact hlast

end Chains

namespace Graph

variable {g : Graph} {x y : NodeId} {a b : String}

/-! ## Names and handles -/

theorem WellFormed.nameOf?_inj (wf : g.WellFormed) (hx : g.nameOf? x = some a)
    (hy : g.nameOf? y = some a) : x = y := by
  obtain ⟨m, hm, hma⟩ := nameOf?_eq_some.mp hx
  obtain ⟨n, hn, hna⟩ := nameOf?_eq_some.mp hy
  exact wf.node_name_inj hm hn (hma.trans hna.symm)

/-- Looking a node up by its name and reading the name of a node are inverse to each other. -/
theorem WellFormed.nodeNamed?_eq_some (wf : g.WellFormed) :
    g.nodeNamed? a = some x ↔ g.nameOf? x = some a := by
  refine ⟨?_, ?_⟩
  · exact nameOf?_of_nodeNamed?
  · intro h
    obtain ⟨n, hn, rfl⟩ := nameOf?_eq_some.mp h
    exact wf.nodeNamed?_name hn

theorem mem_edgeContents {d : EdgeContent} :
    d ∈ g.edgeContents ↔ ∃ i e, g.edge? i = some e ∧ g.edgeContent e = d := by
  rw [edgeContents, List.mem_map]
  refine ⟨?_, ?_⟩
  · rintro ⟨e, he, rfl⟩
    obtain ⟨i, hi⟩ := mem_values_edges.mp he
    exact ⟨i, e, hi, rfl⟩
  · rintro ⟨i, e, he, rfl⟩
    exact ⟨e, mem_values_edges.mpr ⟨i, he⟩, rfl⟩

/-- Edges touch two names exactly when the nodes of those names are adjacent. -/
theorem WellFormed.touches_iff (wf : g.WellFormed) (hx : g.nameOf? x = some a) :
    Touches g.edgeContents a b ↔ ∃ y, g.nameOf? y = some b ∧ g.Adjacent x y := by
  refine ⟨?_, ?_⟩
  · rintro ⟨d, hd, hends⟩
    obtain ⟨i, e, he, rfl⟩ := mem_edgeContents.mp hd
    rcases hends with ⟨hsrc, hdest⟩ | ⟨hsrc, hdest⟩
    · exact ⟨e.dest, hdest, i, e, he, .inl ⟨wf.nameOf?_inj hsrc hx, rfl⟩⟩
    · exact ⟨e.src, hsrc, i, e, he, .inr ⟨rfl, wf.nameOf?_inj hdest hx⟩⟩
  · rintro ⟨y, hy, i, e, he, hends⟩
    refine ⟨g.edgeContent e, mem_edgeContents.mpr ⟨i, e, he, rfl⟩, ?_⟩
    rcases hends with ⟨rfl, rfl⟩ | ⟨rfl, rfl⟩
    · exact .inl ⟨hx, hy⟩
    · exact .inr ⟨hy, hx⟩

/-- What is linked to the name of a node are the names of the nodes that are joined to it. -/
theorem WellFormed.linked_iff (wf : g.WellFormed) (hx : g.nameOf? x = some a) :
    Linked g.edgeContents a b ↔ ∃ y, g.nameOf? y = some b ∧ g.Joined x y := by
  refine ⟨?_, ?_⟩
  · intro h
    induction h with
    | refl => exact ⟨x, hx, .refl x⟩
    | tail _ last ih =>
        obtain ⟨y, hy, hjoined⟩ := ih
        obtain ⟨z, hz, hadj⟩ := (wf.touches_iff hy).mp last
        exact ⟨z, hz, hjoined.step hadj⟩
  · rintro ⟨y, hy, hjoined⟩
    induction hjoined generalizing b with
    | refl =>
        rw [hx] at hy
        cases hy
        exact .refl
    | @step y z _ hadj ih =>
        -- the node before the last one is live because an edge ends there
        obtain ⟨n, hn⟩ := (wf.live_of_adjacent hadj).1
        have hname := nameOf?_of_live hn
        exact (ih hname).tail ((wf.touches_iff hname).mpr ⟨z, hy, hadj⟩)

/-- Two nodes are joined exactly when their names are linked. -/
theorem WellFormed.joined_iff_linked (wf : g.WellFormed) (hx : g.nameOf? x = some a)
    (hy : g.nameOf? y = some b) : g.Joined x y ↔ Linked g.edgeContents a b := by
  rw [wf.linked_iff hx]
  refine ⟨?_, ?_⟩
  · exact fun h => ⟨y, hy, h⟩
  · rintro ⟨z, hz, h⟩
    rw [wf.nameOf?_inj hy hz]
    exact h

/-! ## Parts that are told by names -/

/-- A part has the nodes whose names pass a test. -/
theorem nodeContents_induced_of_names {p : NodeId → Bool} {q : String → Bool}
    (hpq : ∀ x a, g.nameOf? x = some a → p x = q a) :
    (g.induced p).nodeContents = g.nodeContents.filter (fun n => q n.name) := by
  rw [nodeContents_induced, nodeContents, ← map_snd_liveNodes, List.map_map, List.filter_map]
  congr 1
  apply List.filter_congr
  rintro ⟨x, n⟩ hn
  exact hpq x n.name (nameOf?_of_live (mem_liveNodes.mp hn))

/-- A part has the edges whose ends pass it. -/
theorem WellFormed.edgeContents_induced_of_names (wf : g.WellFormed) {p : NodeId → Bool}
    {q : String → Bool} (hpq : ∀ x a, g.nameOf? x = some a → p x = q a) :
    (g.induced p).edgeContents
      = g.edgeContents.filter (fun e => e.src.any q && e.dest.any q) := by
  rw [edgeContents_induced, edgeContents, List.filter_map]
  congr 1
  apply List.filter_congr
  intro e he
  obtain ⟨⟨m, hm⟩, n, hn⟩ := wf.live_of_mem he
  have hsrc := nameOf?_of_live hm
  have hdest := nameOf?_of_live hn
  rw [spans, hpq e.src m.name hsrc, hpq e.dest n.name hdest]
  simp only [Function.comp_apply, edgeContent, hsrc, hdest, Option.any_some]

/-- A part that no edge leaves has the nodes and edges that are told by their names. -/
theorem WellFormed.contents_induced (wf : g.WellFormed) {p : NodeId → Bool} {q : String → Bool}
    (hpq : ∀ x a, g.nameOf? x = some a → p x = q a)
    (hclosed : ∀ a b, Touches g.edgeContents a b → q a = q b) :
    (g.induced p).nodeContents = g.nodeContents.filter (fun n => q n.name) ∧
      (g.induced p).edgeContents = g.edgeContents.filter (fun e => e.src.any q) := by
  refine ⟨nodeContents_induced_of_names hpq, ?_⟩
  rw [wf.edgeContents_induced_of_names hpq]
  apply List.filter_congr
  intro d hd
  obtain ⟨e, he, rfl⟩ := List.mem_map.mp hd
  obtain ⟨⟨m, hm⟩, n, hn⟩ := wf.live_of_mem he
  have hsrc := nameOf?_of_live hm
  have hdest := nameOf?_of_live hn
  -- both ends of an edge pass or neither does, so its source decides
  have hsame : q m.name = q n.name :=
    hclosed _ _ ⟨g.edgeContent e, List.mem_map_of_mem he, .inl ⟨hsrc, hdest⟩⟩
  simp only [edgeContent, hsrc, hdest, Option.any_some, hsame, Bool.and_self]

end Graph

end PatternGraph
