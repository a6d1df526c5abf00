/-
  PatternGraph.Proofs.Tidy

  Graphs that are built from what they say, nodes first and then edges, as copies
  are.  Such a graph is determined by what it says and by its budgets, its slots
  and lists included.  The graphs of statements are of this kind: a node that is
  new stands in the last slot and an edge that is new is the last of its lists,
  as in a copy, and a label moves nothing.
-/
import PatternGraph.Proofs.Saying

namespace PatternGraph

namespace Graph

variable {g h other : Graph} {c : Catalog} {x : NodeId} {a : String} {e : Edge}
  {nodes : List NodeContent} {edges : List EdgeContent}

/-- The graph is what the empty graph becomes when all that the graph says is grafted onto it. -/
def Tidy (g : Graph) : Prop := (Graph.empty g.limits).graft g.nodeContents g.edgeContents = g

/-- Tidy graphs that say the same under the same budgets are one graph. -/
theorem Tidy.ext (tidy : g.Tidy) (tidy' : h.Tidy) (hnodes : g.nodeContents = h.nodeContents)
    (hedges : g.edgeContents = h.edgeContents) (hlimits : g.limits = h.limits) : g = h := by
  rw [Tidy] at tidy tidy'
  rw [← tidy, ← tidy', hnodes, hedges, hlimits]

theorem Tidy.empty (limits : Limits) : (Graph.empty limits).Tidy :=
  rfl

/-- In a copy every edge finds its ends, since the nodes are there before the edges. -/
theorem WellFormed.bound_edgeContents (wf : g.WellFormed) (limits : Limits) :
    ∀ d ∈ g.edgeContents, ((Graph.empty limits).withNodes g.nodeContents).Bound d :=
  wf.bound_of_names fun a ha => (hasNode_withNodes _ _ a).mpr (.inr (List.mem_map.mp ha))

/-- What is grafted onto a tidy graph leaves it tidy. -/
theorem Tidy.of_graft (tidy : g.Tidy) (wf : g.WellFormed) (hgraft : h = g.graft nodes edges)
    (hnodes : h.nodeContents = g.nodeContents ++ nodes)
    (hedges : h.edgeContents = g.edgeContents ++ edges) : h.Tidy := by
  have hlimits : h.limits = g.limits := by rw [hgraft, limits_graft]
  rw [Tidy] at tidy
  rw [Tidy, hnodes, hedges, hlimits, ← graft_graft (wf.bound_edgeContents g.limits), tidy, hgraft]

theorem Tidy.insertNode (tidy : g.Tidy) (wf : g.WellFormed) (name : String) :
    (g.insertNode (.bare name)).Tidy := by
  have hgraft : g.insertNode (.bare name) = g.graft [.bare name] [] := rfl
  refine tidy.of_graft wf hgraft (nodeContents_insertNode g _) ?_
  rw [wf.edgeContents_insertNode, List.append_nil]

theorem Tidy.insertEdge (tidy : g.Tidy) (wf : g.WellFormed) (hsrc : (g.node? e.src).isSome)
    (hdest : (g.node? e.dest).isSome) : (g.insertEdge e).Tidy := by
  have hgraft : g.insertEdge e = g.graft [] [g.edgeContent e] := by
    show _ = g.insertEdge (g.edgeSaying (g.edgeContent e))
    rw [wf.edgeSaying_edgeContent hsrc hdest]
  refine tidy.of_graft wf hgraft ?_ (edgeContents_insertEdge g e)
  rw [nodeContents_insertEdge, List.append_nil]

/-! ## Labels -/

theorem recast_insertNodes (g : Graph) (r : Recast) (ns : List Node) :
    (g.insertNodes ns).recast r = (g.recast r).insertNodes (ns.map r.node) := by
  induction ns generalizing g with
  | nil => rfl
  | cons n rest ih => rw [insertNodes_cons, ih, recast_insertNode, List.map_cons, insertNodes_cons]

theorem recast_insertEdges (g : Graph) (r : Recast) (es : List Edge) :
    (g.insertEdges es).recast r = (g.recast r).insertEdges (es.map r.edge) := by
  induction es generalizing g with
  | nil => rfl
  | cons e rest ih => rw [insertEdges_cons, ih, recast_insertEdge, List.map_cons, insertEdges_cons]

/-- A graft and labels for its nodes may be exchanged. -/
theorem recast_graft_offer (g : Graph) (c : Catalog) (name label : String)
    (nodes : List NodeContent) (edges : List EdgeContent) :
    (g.graft nodes edges).recast (.offer c name label)
      = (g.recast (.offer c name label)).graft (nodes.map (·.offer c name (some label))) edges := by
  have hnode : ∀ d : NodeContent, (Recast.offer c name label).node d.node
      = (d.offer c name (some label)).node := by
    intro d
    by_cases hd : d.name = name ∧ d.label = none
    · simp [Recast.offer, NodeContent.offer, NodeContent.node, Node.withLabel, hd]
    · simp [Recast.offer, NodeContent.offer, NodeContent.node, hd]
  have hnodes : (g.withNodes nodes).recast (.offer c name label)
      = (g.recast (.offer c name label)).withNodes (nodes.map (·.offer c name (some label))) := by
    rw [withNodes, recast_insertNodes, withNodes, List.map_map, List.map_map]
    congr 1
    exact List.map_congr_left fun d _ => hnode d
  -- a label leaves all names in their slots, so edges find the same ends
  have hslots : ((g.withNodes nodes).recast (.offer c name label)).nameSlots
      = (g.withNodes nodes).nameSlots := nameSlots_recast (Recast.name_offer c name label) _
  have hsaying := edgeSaying_congr hslots
  rw [graft, recast_insertEdges, hnodes, graft, ← hnodes, hsaying]
  congr 1
  exact List.map_id _

theorem Tidy.offerLabel (tidy : g.Tidy) (wf : g.WellFormed) (hx : g.nameOf? x = some a)
    (label : Option String) : (g.offerLabel c x label).Tidy := by
  cases label with
  | none => exact tidy
  | some label =>
      have hempty : (Graph.empty g.limits).recast (.offer c a label) = Graph.empty g.limits := by
        simp [recast, Graph.empty, Slots.map, Slots.empty]
      rw [Tidy] at tidy
      rw [Tidy, wf.nodeContents_offerLabel hx, wf.edgeContents_offerLabel,
        limits_offerLabel, ← hempty, ← recast_graft_offer, tidy, wf.offerLabel_eq_recast hx]

/-! ## Walks -/

theorem Tidy.joinNode (tidy : g.Tidy) (wf : g.WellFormed) (n : PathNode) :
    (g.joinNode c n).2.Tidy := by
  have hmade : (g.findOrMake n.name).2.Tidy := by
    unfold findOrMake
    cases hname : g.nodeNamed? n.name with
    | none => exact tidy.insertNode wf n.name
    | some id => exact tidy
  exact hmade.offerLabel (wf.findOrMake n.name) (g.nameOf?_findOrMake n.name) n.label

theorem ReadyFor.tidy_addSteps {left : NodeId} {name : String} {steps : List Step}
    (ready : ReadyFor g left name steps) (tidy : g.Tidy) : (g.addSteps c left steps).Tidy := by
  induction steps generalizing g left name with
  | nil => exact tidy
  | cons s rest ih =>
      have wf := ready.wellFormed.joinNode c s.target
      have hedges := edges_joinNode c g s.target
      have hslots := nameSlots_joinNode c g s.target
      have hright := nameOf?_joinNode c g s.target
      obtain ⟨-, hsrc, hdest⟩ := ready.edge_fits (c := c) hedges hslots hright
      obtain ⟨hready, -⟩ := ready.insertEdge (c := c) wf hedges hslots hright
      exact ih hready ((tidy.joinNode ready.wellFormed s.target).insertEdge wf hsrc hdest)

/-- A walk leaves a tidy graph tidy. -/
theorem Tidy.extend (tidy : g.Tidy) (wf : g.WellFormed) {w : Walk}
    (hfree : ∀ e ∈ w.edges, g.hasEdge e.name = false) (hnodup : (w.edges.map PathEdge.name).Nodup) :
    (g.extend c w).Tidy :=
  (wf.readyFor_start hfree hnodup).tidy_addSteps (tidy.joinNode wf w.start)

/-- A merge leaves a tidy graph tidy. -/
theorem Tidy.absorb (tidy : g.Tidy) (wf : g.WellFormed) (wf' : other.WellFormed) :
    (g.absorb other).Tidy :=
  tidy.of_graft wf (absorb_eq_graft g other) (nodeContents_absorb g other)
    (wf.edgeContents_absorb wf')

end Graph

end PatternGraph
