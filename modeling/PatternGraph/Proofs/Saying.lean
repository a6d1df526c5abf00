/-
  PatternGraph.Proofs.Saying

  What edits make of what a graph says.  Entities are pointed at by handles, and
  what is said of them is told by names: since a name names one node and one
  edge, a change at a handle is a change of what is said under its name, and
  nothing else of the graph is needed to tell what it says afterwards.
-/
import PatternGraph.Proofs.Graft
import PatternGraph.Proofs.LateResolution
import PatternGraph.Proofs.Linked
import PatternGraph.Proofs.Reversal

namespace PatternGraph

namespace Slots

variable {α : Type} {s : Slots α} {i : Nat} {p : α → Bool}

theorem map_id (s : Slots α) : s.map id = s := by
  refine ext_get? (by simp) ?_ rfl
  intro j
  rw [get?_map, Option.map_id_apply]

/-- A value that a test tells from all others is changed where it stands. -/
theorem modify_eq_map (h : ∀ j a, s.get? j = some a → (p a = true ↔ j = i)) (f : α → α) :
    s.modify i f = s.map fun a => if p a then f a else a := by
  refine ext_get? (by simp) ?_ rfl
  intro j
  rw [get?_modify, get?_map]
  cases hj : s.get? j with
  | none => split <;> rfl
  | some a =>
      have ha := h j a hj
      by_cases hji : j = i
      · rw [if_pos hji, Option.map_some, Option.map_some, if_pos (ha.mpr hji)]
      · rw [if_neg hji, Option.map_some, if_neg (mt ha.mp hji)]

/-- A value that a test tells from all others is filtered out by it. -/
theorem values_vacate_eq_filter (h : ∀ j a, s.get? j = some a → (p a = true ↔ j = i)) :
    (s.vacate i).values = s.values.filter (!p ·) := by
  rw [values_eq_range, values_eq_range, size_vacate, List.filter_filterMap]
  congr 1
  funext j
  rw [get?_vacate]
  cases hj : s.get? j with
  | none => split <;> rfl
  | some a =>
      have ha := h j a hj
      by_cases hji : j = i
      · rw [if_pos hji, Option.filter_some_neg (by simp [ha.mpr hji])]
      · rw [if_neg hji, Option.filter_some_pos (by simpa using mt ha.mp hji)]

end Slots

/-! ## One entity -/

namespace NodeContent

/-- What a node says that has no label yet. -/
def bare (name : String) : NodeContent := ⟨name, none, .absent⟩

/-- What the node says after its label was looked up once more. -/
def refresh (c : Catalog) (d : NodeContent) : NodeContent :=
  { d with labelRef := d.labelRef.refresh c.labelId? }

/-- What the node says after a label was offered to the node of a name. -/
def offer (c : Catalog) (name : String) (label : Option String) (d : NodeContent) : NodeContent :=
  match label with
  | none => d
  | some label =>
    if d.name = name ∧ d.label = none then
      { d with label := some label, labelRef := c.labelRef label }
    else d

theorem name_offer (c : Catalog) (name : String) (label : Option String) (d : NodeContent) :
    (d.offer c name label).name = d.name := by
  cases label with
  | none => rfl
  | some label =>
      rw [offer]
      split <;> rfl

end NodeContent

namespace EdgeContent

/-- What the edge says after its types were looked up once more. -/
def refresh (c : Catalog) (d : EdgeContent) : EdgeContent :=
  { d with typeRefs := d.typeRefs.map (·.refresh c.typeId?) }

/-- What the edge says when it is turned round. -/
def reversed (d : EdgeContent) : EdgeContent := { d with src := d.dest, dest := d.src }

end EdgeContent

/-- What the nodes of a graph say when a node of a path is joined to them. -/
def joinContents (c : Catalog) (nodes : List NodeContent) (n : PathNode) : List NodeContent :=
  (if nodes.any (·.name == n.name) then nodes else nodes ++ [.bare n.name]).map
    (·.offer c n.name n.label)

/-- Giving the node of a name a label if it has none. -/
def Recast.offer (c : Catalog) (name label : String) : Recast where
  node n := if n.name = name ∧ n.label = none then n.withLabel label (c.labelRef label) else n
  edge := id
  node_addOutgoing n id := by
    show (if n.name = name ∧ n.label = none then _ else _) = _
    split <;> rfl
  node_addIncoming n id := by
    show (if n.name = name ∧ n.label = none then _ else _) = _
    split <;> rfl
  edge_src _ := rfl
  edge_dest _ := rfl

theorem Recast.content_offer (c : Catalog) (name label : String) (n : Node) :
    ((Recast.offer c name label).node n).content = n.content.offer c name (some label) := by
  by_cases h : n.name = name ∧ n.label = none
  · simp [Recast.offer, NodeContent.offer, Node.content, Node.withLabel, h]
  · simp [Recast.offer, NodeContent.offer, Node.content, h]

theorem Recast.name_offer (c : Catalog) (name label : String) (n : Node) :
    ((Recast.offer c name label).node n).name = n.name :=
  (congrArg NodeContent.name (content_offer c name label n)).trans (NodeContent.name_offer _ _ _ _)

namespace Graph

variable {g h : Graph} {c : Catalog} {x : NodeId} {id : EdgeId} {e : Edge} {a : String}

/-! ## Changes of every entity -/

section Recast

variable {r : Recast}

theorem nodeContents_recast {k : NodeContent → NodeContent}
    (hk : ∀ n, (r.node n).content = k n.content) (g : Graph) :
    (g.recast r).nodeContents = g.nodeContents.map k := by
  have hvalues : (g.recast r).nodes.values = g.nodes.values.map r.node := Slots.values_map _ _
  rw [nodeContents, hvalues, nodeContents, List.map_map, List.map_map]
  exact List.map_congr_left fun n _ => hk n

theorem nameSlots_recast (hname : ∀ n, (r.node n).name = n.name) (g : Graph) :
    (g.recast r).nameSlots = g.nameSlots := by
  have hslot : ∀ cell : Option Node, (cell.map r.node).map Node.name = cell.map Node.name := by
    intro cell
    rw [Option.map_map]
    exact congrArg (Option.map · cell) (funext hname)
  simp only [nameSlots, recast, Slots.map, Array.toList_map, List.map_map]
  exact List.map_congr_left fun cell _ => hslot cell

/-- What an edge says depends on the names of nodes, and on nothing else of them. -/
theorem edgeContent_congr (hname : ∀ x, h.nameOf? x = g.nameOf? x) :
    h.edgeContent = g.edgeContent := by
  funext d
  simp only [edgeContent, hname]

theorem edgeContents_recast {k : EdgeContent → EdgeContent}
    (hname : ∀ n, (r.node n).name = n.name)
    (hk : ∀ e, g.edgeContent (r.edge e) = k (g.edgeContent e)) :
    (g.recast r).edgeContents = g.edgeContents.map k := by
  have hvalues : (g.recast r).edges.values = g.edges.values.map r.edge := Slots.values_map _ _
  rw [edgeContents, hvalues, edgeContent_congr (nameOf?_congr (nameSlots_recast hname g)),
    edgeContents, List.map_map, List.map_map]
  exact List.map_congr_left fun e _ => hk e

end Recast

theorem nodeContents_refresh (g : Graph) (c : Catalog) :
    (g.refresh c).nodeContents = g.nodeContents.map (·.refresh c) :=
  nodeContents_recast (r := .refresh c) (fun _ => rfl) g

theorem edgeContents_refresh (g : Graph) (c : Catalog) :
    (g.refresh c).edgeContents = g.edgeContents.map (·.refresh c) :=
  edgeContents_recast (r := .refresh c) (fun _ => rfl) fun _ => rfl

/-- The names that a catalog knows now are counted in what the graph says. -/
theorem refreshCount_eq (g : Graph) (c : Catalog) :
    g.refreshCount c = g.nodeContents.countP (·.labelRef.isRefreshed c.labelId?)
      + (g.edgeContents.flatMap EdgeContent.typeRefs).countP (·.isRefreshed c.typeId?) := by
  rw [nodeContents, edgeContents, List.countP_map, List.flatMap_map]
  rfl

/-! ## The slot of a name -/

/-- A name tells the slot of its node from all others. -/
theorem WellFormed.name_eq_iff_node (wf : g.WellFormed) (hx : g.nameOf? x = some a) :
    ∀ i n, g.nodes.get? i = some n → ((n.name == a) = true ↔ i = x.index) := by
  intro i n hn
  obtain ⟨m, hm, hname⟩ := nameOf?_eq_some.mp hx
  rw [beq_iff_eq, ← hname]
  refine ⟨fun heq => ?_, fun heq => ?_⟩
  · exact congrArg NodeId.index (wf.node_name_inj (i := ⟨i⟩) hn hm heq)
  · subst heq
    rw [Option.some.inj (hn.symm.trans hm)]

/-- A name tells the slot of its edge from all others. -/
theorem WellFormed.name_eq_iff_edge (wf : g.WellFormed) (hid : g.edge? id = some e) :
    ∀ i d, g.edges.get? i = some d → ((d.name == e.name) = true ↔ i = id.index) := by
  intro i d hd
  rw [beq_iff_eq]
  refine ⟨fun heq => ?_, fun heq => ?_⟩
  · exact congrArg EdgeId.index (wf.edge_name_inj (i := ⟨i⟩) hd hid heq)
  · subst heq
    rw [Option.some.inj (hd.symm.trans hid)]

/-! ## A label for one node -/

/-- Offering a label to the node of a handle is offering it to the node of the name. -/
theorem WellFormed.offerLabel_eq_recast (wf : g.WellFormed) (hx : g.nameOf? x = some a)
    (label : String) : g.offerLabel c x (some label) = g.recast (.offer c a label) := by
  have hnodes := Slots.modify_eq_map (wf.name_eq_iff_node hx) fun n =>
    if n.isLabelled then n else n.withLabel label (c.labelRef label)
  have hsame : (fun n : Node => if (n.name == a) = true then
      (if n.isLabelled then n else n.withLabel label (c.labelRef label)) else n)
        = (Recast.offer c a label).node := by
    funext n
    cases hlabel : n.label <;> by_cases hname : n.name = a <;>
      simp [Recast.offer, Node.isLabelled, hlabel, hname]
  have hedges : g.edges.map (Recast.offer c a label).edge = g.edges := Slots.map_id g.edges
  rw [Graph.offerLabel, Graph.modifyNode, hnodes, hsame, recast, hedges]

theorem WellFormed.nodeContents_offerLabel (wf : g.WellFormed) (hx : g.nameOf? x = some a)
    (label : Option String) :
    (g.offerLabel c x label).nodeContents = g.nodeContents.map (·.offer c a label) := by
  cases label with
  | none => exact (List.map_id' g.nodeContents).symm
  | some label =>
      rw [wf.offerLabel_eq_recast hx]
      exact nodeContents_recast (Recast.content_offer c a label) g

theorem WellFormed.edgeContents_offerLabel (wf : g.WellFormed) (x : NodeId)
    (label : Option String) : (g.offerLabel c x label).edgeContents = g.edgeContents := by
  have hslots : (g.offerLabel c x label).nameSlots = g.nameSlots ++ [] := by
    rw [nameSlots_offerLabel, List.append_nil]
  exact wf.edgeContents_of_append (edges_offerLabel c g x label) hslots

theorem limits_offerLabel (c : Catalog) (g : Graph) (x : NodeId) (label : Option String) :
    (g.offerLabel c x label).limits = g.limits := by
  cases label <;> rfl

/-! ## Nodes of a path -/

theorem nodeContents_insertNode (g : Graph) (n : Node) :
    (g.insertNode n).nodeContents = g.nodeContents ++ [n.content] :=
  nodeContents_insertNodes g [n]

theorem WellFormed.edgeContents_insertNode (wf : g.WellFormed) (n : Node) :
    (g.insertNode n).edgeContents = g.edgeContents :=
  wf.edgeContents_of_append (h := g.insertNode n) rfl (nameSlots_insertNode g n)

theorem nodeContents_findOrMake (g : Graph) (name : String) :
    (g.findOrMake name).2.nodeContents
      = if g.nodeContents.any (·.name == name) then g.nodeContents
        else g.nodeContents ++ [.bare name] := by
  have hany : g.nodeContents.any (·.name == name) = g.hasNode name := by
    rw [Bool.eq_iff_iff, hasNode_iff_mem_nodeNames, nodeNames]
    simp
  rw [hany]
  unfold findOrMake hasNode
  cases g.nodeNamed? name with
  | some id => rfl
  | none => exact nodeContents_insertNode g (.bare name)

theorem WellFormed.nodeContents_joinNode (wf : g.WellFormed) (n : PathNode) :
    (g.joinNode c n).2.nodeContents = joinContents c g.nodeContents n := by
  have wfMade := wf.findOrMake n.name
  rw [Graph.joinNode, wfMade.nodeContents_offerLabel (g.nameOf?_findOrMake n.name),
    nodeContents_findOrMake]
  rfl

theorem ReadyFor.nodeContents_addSteps {left : NodeId} {name : String} {steps : List Step}
    (ready : ReadyFor g left name steps) :
    (g.addSteps c left steps).nodeContents
      = (steps.map Step.target).foldl (joinContents c) g.nodeContents := by
  induction steps generalizing g left name with
  | nil => rfl
  | cons s rest ih =>
      obtain ⟨hready, -⟩ := ready.insertEdge (c := c)
        (ready.wellFormed.joinNode c s.target) (edges_joinNode c g s.target)
        (nameSlots_joinNode c g s.target) (nameOf?_joinNode c g s.target)
      rw [Graph.addSteps, Graph.addStep, ih hready, nodeContents_insertEdge,
        ready.wellFormed.nodeContents_joinNode]
      rfl

/-- A walk joins its nodes one after the other. -/
theorem WellFormed.nodeContents_extend (wf : g.WellFormed) {w : Walk}
    (hfree : ∀ e ∈ w.edges, g.hasEdge e.name = false) (hnodup : (w.edges.map PathEdge.name).Nodup) :
    (g.extend c w).nodeContents = w.nodes.foldl (joinContents c) g.nodeContents := by
  rw [Graph.extend, (wf.readyFor_start hfree hnodup).nodeContents_addSteps,
    wf.nodeContents_joinNode]
  rfl

/-! ## An edge that is turned round or taken out -/

theorem nodeContents_link (g : Graph) (id : EdgeId) (src dest : NodeId) :
    (g.link id src dest).nodeContents = g.nodeContents :=
  (nodeContents_modifyNode dest fun n => n.content_addIncoming _).trans
    (nodeContents_modifyNode src fun n => n.content_addOutgoing _)

theorem nodeContents_unlink (g : Graph) (id : EdgeId) (src dest : NodeId) :
    (g.unlink id src dest).nodeContents = g.nodeContents :=
  (nodeContents_modifyNode dest fun n => n.content_without _).trans
    (nodeContents_modifyNode src fun n => n.content_without _)

theorem nodeContents_turnEdge (g : Graph) (id : EdgeId) (e : Edge) :
    (g.turnEdge id e).nodeContents = g.nodeContents :=
  (nodeContents_link _ id e.dest e.src).trans (nodeContents_unlink g id e.src e.dest)

theorem nodeContents_dropEdge (g : Graph) (id : EdgeId) :
    (g.dropEdge id).nodeContents = g.nodeContents := by
  unfold dropEdge
  split
  · rfl
  next e _ => exact nodeContents_unlink _ id e.src e.dest

theorem WellFormed.nameOf?_turnEdge (wf : g.WellFormed) (hid : g.edge? id = some e) (x : NodeId) :
    (g.turnEdge id e).nameOf? x = g.nameOf? x := by
  rw [nameOf?, wf.node?_turnEdge hid, Option.map_map, nameOf?]
  rfl

theorem WellFormed.nameOf?_dropEdge (wf : g.WellFormed) (id : EdgeId) (x : NodeId) :
    (g.dropEdge id).nameOf? x = g.nameOf? x := by
  rw [nameOf?, wf.node?_dropEdge, Option.map_map, nameOf?]
  rfl

theorem WellFormed.edgeContents_turnEdge (wf : g.WellFormed) (hid : g.edge? id = some e) :
    (g.turnEdge id e).edgeContents
      = g.edgeContents.map fun d => if d.name == e.name then d.reversed else d := by
  have hedges : (g.turnEdge id e).edges = g.edges.modify id.index Edge.reversed := rfl
  have hsaid : ∀ d : Edge, g.edgeContent (if d.name == e.name then d.reversed else d)
      = if d.name == e.name then (g.edgeContent d).reversed else g.edgeContent d := by
    intro d
    split <;> rfl
  rw [edgeContents, edgeContent_congr (wf.nameOf?_turnEdge hid), hedges,
    Slots.modify_eq_map (wf.name_eq_iff_edge hid), Slots.values_map, edgeContents, List.map_map,
    List.map_map]
  exact List.map_congr_left fun d _ => hsaid d

theorem WellFormed.edgeContents_dropEdge (wf : g.WellFormed) (hid : g.edge? id = some e) :
    (g.dropEdge id).edgeContents = g.edgeContents.filter (!·.name == e.name) := by
  have hedges : (g.dropEdge id).edges = g.edges.vacate id.index := by
    rw [Graph.dropEdge, hid]
    rfl
  rw [edgeContents, edgeContent_congr (wf.nameOf?_dropEdge id), hedges,
    Slots.values_vacate_eq_filter (wf.name_eq_iff_edge hid), edgeContents, List.filter_map]
  rfl

end Graph

end PatternGraph
