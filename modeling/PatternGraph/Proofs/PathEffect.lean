/-
  PatternGraph.Proofs.PathEffect

  The exact effect of adding a path.  Slots of the graph stay where they are;
  new names take new slots in the order in which they are first written, and so
  do the edges of the relationships.  What becomes of a node is told by its
  slot: it takes the first label that the path writes for its name if it has
  none, and lists the new edges after its old ones.
-/
import PatternGraph.Proofs.Anonymity
import PatternGraph.Proofs.Coherence
import PatternGraph.Proofs.Listing
import PatternGraph.Proofs.Passes

namespace PatternGraph

namespace Graph

variable {g g' h : Graph} {c : Catalog} {w : Walk} {made : List Edge} {x : NodeId} {m n n' : Node}

/-- What a graph becomes when a walk is added under a catalog; `made` are the new edges. -/
structure Gains (g : Graph) (c : Catalog) (w : Walk) (made : List Edge) (g' : Graph) : Prop where
  /-- The slots of nodes are the old ones, and after them one for each new name.  Each node takes
  the walk's first label for its name, if it has none, and lists the new edges last. -/
  nodes : g'.nodes.cells.toList
    = (g.nodes.cells.toList ++ (g.newNodeNames w).map fun name => some (Node.bare name)).mapIdx
        fun i cell => cell.map fun n => (n.settle c w.nodes).gain
          (g.handlesAt made Edge.src ⟨i⟩) (g.handlesAt made Edge.dest ⟨i⟩)
  /-- The slots of edges are the old ones, and after them those of the new edges. -/
  edges : g'.edges.cells.toList = g.edges.cells.toList ++ made.map some
  /-- The new edges are those of the relationships, between the nodes named on both sides. -/
  said : made.map g'.edgeContent = w.links.map (linkContent c)
  wellFormed : g'.WellFormed
  limits : g'.limits = g.limits
  /-- A node that had a label has it still. -/
  label_kept : ∀ x n n', g.node? x = some n → g'.node? x = some n' → n.label.isSome →
    n'.label = n.label ∧ n'.labelRef = n.labelRef
  /-- A node that had none has the first label of its name, and the answer of the catalog. -/
  label_taken : ∀ x n', (∀ n, g.node? x = some n → n.label = none) → g'.node? x = some n' →
    ∀ label, firstLabel? w.nodes n'.name = some label →
      n'.label = some label ∧ n'.labelRef = c.labelRef label
  /-- Where there is no such label it has none now. -/
  label_none : ∀ x n', (∀ n, g.node? x = some n → n.label = none) → g'.node? x = some n' →
    firstLabel? w.nodes n'.name = none → n'.label = none ∧ n'.labelRef = .absent
  /-- What the walk does not mention is as it was. -/
  node_kept : ∀ x n, g.node? x = some n → n.name ∉ w.nodes.map PathNode.name →
    g'.node? x = some n
  edge_kept : ∀ i e, g.edge? i = some e → g'.edge? i = some e

namespace Gains

theorem nameSlots_eq (gains : g.Gains c w made g') :
    g'.nameSlots = g.nameSlots ++ (g.newNodeNames w).map some := by
  rw [nameSlots_of_cells gains.nodes fun _ n => n.name_settle c w.nodes, List.map_append,
    List.map_map]
  rfl

/-- The new edges are told by what they say. -/
theorem made_eq (gains : g.Gains c w made g') :
    made = (w.links.map (linkContent c)).map g'.edgeSaying := by
  have hfound : ∀ e ∈ made, g'.edgeSaying (g'.edgeContent e) = e := by
    intro e he
    have hlive : e ∈ g'.edges.values := by
      rw [Slots.values, gains.edges]
      simp [he]
    obtain ⟨⟨m, hm⟩, n, hn⟩ := gains.wellFormed.live_of_mem hlive
    exact gains.wellFormed.edgeSaying_edgeContent (by rw [hm]; rfl) (by rw [hn]; rfl)
  rw [← gains.said, List.map_map]
  exact ((List.map_congr_left hfound).trans (List.map_id' made)).symm

/-- The description is exact: one graph fits it. -/
theorem unique {made' : List Edge} (gains : g.Gains c w made g') (gains' : g.Gains c w made' h) :
    g' = h := by
  have hslots : g'.nameSlots = h.nameSlots := gains.nameSlots_eq.trans gains'.nameSlots_eq.symm
  have hmade : made = made' := by
    rw [gains.made_eq, gains'.made_eq, edgeSaying_congr hslots]
  subst hmade
  exact gains.wellFormed.eq_of_cells gains'.wellFormed (gains.nodes.trans gains'.nodes.symm)
    (gains.edges.trans gains'.edges.symm) (gains.limits.trans gains'.limits.symm)

end Gains

/-! ## A walk -/

/-- The sides of a link are names of nodes of the walk. -/
theorem mem_names_of_link {link : String × PathEdge × String} (h : link ∈ w.links) :
    link.1 ∈ w.nodes.map PathNode.name ∧ link.2.2 ∈ w.nodes.map PathNode.name := by
  have hsteps : ∀ (steps : List Step) (start : PathNode), link ∈ linksFrom start.name steps →
      link.1 ∈ (start :: steps.map Step.target).map PathNode.name ∧
        link.2.2 ∈ (start :: steps.map Step.target).map PathNode.name := by
    intro steps
    induction steps with
    | nil => exact fun _ => nofun
    | cons s rest ih =>
        intro start hlink
        rcases List.mem_cons.mp hlink with rfl | hlater
        · exact ⟨List.mem_cons_self, List.mem_cons_of_mem _ List.mem_cons_self⟩
        · obtain ⟨hl, hr⟩ := ih s.target hlater
          exact ⟨List.mem_cons_of_mem _ hl, List.mem_cons_of_mem _ hr⟩
  exact hsteps w.steps w.start h

/-- Both ends of the edge of a link bear names of the walk. -/
theorem ends_of_linkContent {link : String × PathEdge × String} (h : link ∈ w.links) :
    ∃ a ∈ w.nodes.map PathNode.name, ∃ b ∈ w.nodes.map PathNode.name,
      (linkContent c link).src = some a ∧ (linkContent c link).dest = some b := by
  obtain ⟨hl, hr⟩ := mem_names_of_link h
  simp only [linkContent]
  cases link.2.1.direction with
  | incoming => exact ⟨_, hr, _, hl, rfl, rfl⟩
  | outgoing => exact ⟨_, hl, _, hr, rfl, rfl⟩
  | both => exact ⟨_, hl, _, hr, rfl, rfl⟩

section Accepted

variable (wf : g.WellFormed) (hfree : ∀ e ∈ w.edges, g.hasEdge e.name = false)
  (hnodup : (w.edges.map PathEdge.name).Nodup)

include wf hfree hnodup

end Accepted

end Graph

/-! ## The path -/

namespace Reachable

end Reachable

end PatternGraph
