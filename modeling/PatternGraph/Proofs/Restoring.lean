/-
  PatternGraph.Proofs.Restoring

  An edge that was taken out may be held and put back later.  It says by their
  handles which nodes it joined, and a handle means what it meant or nothing:
  so it goes back between the same nodes, or it is refused because one of them
  is gone, because its name was given away, or because there is no room.  Its
  types fitted when it first came in, and the budgets have not changed since.
-/
import PatternGraph.Proofs.Budgets
import PatternGraph.Proofs.Continuation
import PatternGraph.Proofs.Saying

namespace PatternGraph

/-! ## Adding an edge -/

/-- An edge is added when its name is free, its ends are live, it is within the budgets and there is
    a slot for it. -/
theorem Edit.addEdge_eq_ok {e : Edge} {i : EdgeId} {g k : Graph} :
    addEdge e g = .ok i k ↔
      g.hasEdge e.name = false ∧ (g.node? e.src).isSome ∧ (g.node? e.dest).isSome ∧
        g.edgeCount < g.limits.maxEdges ∧ e.types.length ≤ g.limits.maxTypesPerEdge ∧
        g.edges.size < slotLimit ∧ i = ⟨g.edges.size⟩ ∧ k = g.insertEdge e := by
  constructor
  · intro hrun
    obtain ⟨_, hfree, hrun⟩ := check_bind_eq_ok hrun
    obtain ⟨m, hsrc, hrun⟩ := discard_check_bind_eq_ok hrun
    obtain ⟨n, hdest, hrun⟩ := discard_check_bind_eq_ok hrun
    obtain ⟨_, hroom, hrun⟩ := check_bind_eq_ok hrun
    obtain ⟨_, htypes, hrun⟩ := check_bind_eq_ok hrun
    exact ⟨Graph.freeEdgeName_eq_ok.mp hfree,
      Option.isSome_of_eq_some (Graph.liveNode_eq_ok.mp hsrc),
      Option.isSome_of_eq_some (Graph.liveNode_eq_ok.mp hdest),
      Graph.roomForEdges_eq_ok.mp hroom, Graph.roomForTypes_eq_ok.mp htypes,
      newEdge_eq_ok.mp hrun⟩
  · rintro ⟨hfree, hsrc, hdest, hroom, htypes, hadded⟩
    obtain ⟨m, hm⟩ := Option.isSome_iff_exists.mp hsrc
    obtain ⟨n, hn⟩ := Option.isSome_iff_exists.mp hdest
    rw [addEdge, check_bind_ok (Graph.freeEdgeName_eq_ok (u := ()) |>.mpr hfree),
      bind_ok (discard_ok (check_ok (Graph.liveNode_eq_ok.mpr hm))),
      bind_ok (discard_ok (check_ok (Graph.liveNode_eq_ok.mpr hn))),
      check_bind_ok (Graph.roomForEdges_eq_ok (u := ()) |>.mpr hroom),
      check_bind_ok (Graph.roomForTypes_eq_ok (u := ()) |>.mpr htypes)]
    exact newEdge_eq_ok.mpr hadded

/-! ## Nodes along a history -/

namespace Command

variable {g : Graph} {x : NodeId} {history : List Command}

/-- Some command of the history takes the node out. -/
def takesOut (x : NodeId) : List Command → Graph → Bool
  | [], _ => false
  | k :: rest, g =>
    ((g.node? x).isSome && ((k.run g).node? x).isNone) || takesOut x rest (k.run g)

/-- A node is there after a history unless it was taken out on the way. -/
theorem isSome_node?_runAll_iff (wf : g.WellFormed)
    (hother : ∀ k ∈ history, k.OperandWellFormed) (live : (g.node? x).isSome) :
    ((runAll history g).node? x).isSome ↔ takesOut x history g = false := by
  induction history generalizing g with
  | nil => exact ⟨fun _ => rfl, fun _ => live⟩
  | cons k rest ih =>
      obtain ⟨hk, hrest⟩ := List.forall_mem_cons.mp hother
      have wf' := run_wellFormed wf hk
      rw [takesOut, live, Bool.true_and, runAll_cons]
      cases hx : (k.run g).node? x with
      | some n => exact ih wf' hrest (Option.isSome_of_eq_some hx)
      -- a slot that is vacated stays so
      | none =>
          obtain ⟨n, hn⟩ := Option.isSome_iff_exists.mp live
          have hsize : x.index < (k.run g).nodes.size := Nat.lt_of_lt_of_le
            (Slots.lt_size_of_get? hn) (run_continues wf hk).nodes.size_le
          have hgone : (runAll rest (k.run g)).node? x = none :=
            (runAll_continues wf' hrest).nodes.get?_eq_none hsize hx
          rw [hgone]
          exact ⟨nofun, nofun⟩

/-- A node that is there after a history has the name that it had. -/
theorem nameOf?_runAll (wf : g.WellFormed) (hother : ∀ k ∈ history, k.OperandWellFormed)
    (live : (g.node? x).isSome) (live' : ((runAll history g).node? x).isSome) :
    (runAll history g).nameOf? x = g.nameOf? x := by
  obtain ⟨m, hm⟩ := Option.isSome_iff_exists.mp live
  obtain ⟨n, hn⟩ := Option.isSome_iff_exists.mp live'
  have hbecomes := (runAll_continues wf hother).nodes.of_get? hm hn
  rw [Graph.nameOf?_of_live hm, Graph.nameOf?_of_live hn, hbecomes.name]

end Command

/-! ## Putting an edge back at once -/

namespace Graph

variable {g k k' : Graph} {id : EdgeId} {e : Edge}

/-- What a graph becomes when an edge is taken out and put back: the edge has the next slot, its old
    one is vacated, and it is the last one that its ends list. -/
structure PutBack (g : Graph) (id : EdgeId) (e : Edge) (k : Graph) : Prop where
  edge : ∀ i, k.edge? i = if i = ⟨g.edges.size⟩ then some e else if i = id then none else g.edge? i
  node : ∀ x, k.node? x = (g.node? x).map fun n =>
    { n with
      outgoing := if x = e.src then (n.outgoing.filter (· != id)).push ⟨g.edges.size⟩
        else n.outgoing
      incoming := if x = e.dest then (n.incoming.filter (· != id)).push ⟨g.edges.size⟩
        else n.incoming }
  sizes : k.nodes.size = g.nodes.size ∧ k.edges.size = g.edges.size + 1
  counts : k.nodeCount = g.nodeCount ∧ k.edgeCount = g.edgeCount
  limits : k.limits = g.limits

/-- The description is exact: one graph fits it. -/
theorem PutBack.unique (back : g.PutBack id e k) (back' : g.PutBack id e k') : k = k' := by
  have hnodes : k.nodes = k'.nodes := Slots.ext_get? (back.sizes.1.trans back'.sizes.1.symm)
    (fun i => (back.node ⟨i⟩).trans (back'.node ⟨i⟩).symm)
    (back.counts.1.trans back'.counts.1.symm)
  have hedges : k.edges = k'.edges := Slots.ext_get? (back.sizes.2.trans back'.sizes.2.symm)
    (fun i => (back.edge ⟨i⟩).trans (back'.edge ⟨i⟩).symm)
    (back.counts.2.trans back'.counts.2.symm)
  have hlimits := back.limits.trans back'.limits.symm
  cases k
  cases k'
  simp_all

/-- An edge is not in a list of edges that end elsewhere on one side. -/
theorem filter_eq_self_of_end (live : g.edge? id = some e) {side : Edge → NodeId} {x : NodeId}
    {l : Array EdgeId} (hl : ∀ {i}, i ∈ l → ∃ d, g.edge? i = some d ∧ side d = x)
    (hne : x ≠ side e) : l.filter (· != id) = l := by
  refine Array.filter_eq_self.mpr fun i hi => bne_iff_ne.mpr ?_
  rintro rfl
  obtain ⟨d, hd, rfl⟩ := hl hi
  rw [live] at hd
  cases hd
  exact hne rfl

theorem WellFormed.edgeCount_dropEdge (wf : g.WellFormed) (live : g.edge? id = some e) :
    (g.dropEdge id).edgeCount + 1 = g.edgeCount := by
  have hcell : g.edges.get? id.index = some e := live
  have hpos := wf.edges_counted.live_pos hcell
  have hlive : (g.dropEdge id).edges.live = g.edges.live - 1 := by
    rw [Graph.dropEdge, live]
    show (g.edges.vacate id.index).live = _
    simp [Slots.vacate, hcell]
  rw [edgeCount, edgeCount, hlive]
  omega

theorem WellFormed.putBack (wf : g.WellFormed) (live : g.edge? id = some e) :
    g.PutBack id e ((g.dropEdge id).insertEdge e) where
  edge i := by
    rw [edge?_insertEdge, edge?_dropEdge, size_edges_dropEdge]
    simp only [EdgeId.ext_iff]
  node x := by
    rw [node?_insertEdge, wf.node?_dropEdge, Option.map_map, size_edges_dropEdge]
    refine Option.map_congr fun n hn => ?_
    rw [Function.comp_apply, Node.keeping]
    congr 1
    · split
      · rfl
      next hne => exact filter_eq_self_of_end live (wf.mem_incoming hn).mp hne
    · split
      · rfl
      next hne => exact filter_eq_self_of_end live (wf.mem_outgoing hn).mp hne
  sizes := by
    rw [← size_nodes_dropEdge g id, ← size_edges_dropEdge g id]
    simp [Graph.insertEdge, link, Graph.modifyNode]
  counts := by
    refine ⟨?_, wf.edgeCount_dropEdge live⟩
    show (g.dropEdge id).nodeCount = g.nodeCount
    rw [Graph.dropEdge, live]
    rfl
  limits := limits_dropEdge g id

/-- The name of an edge that was taken out is free. -/
theorem WellFormed.hasEdge_dropEdge (wf : g.WellFormed) (live : g.edge? id = some e) :
    (g.dropEdge id).hasEdge e.name = false := by
  refine hasEdge_eq_false.mpr fun i d hd hname => ?_
  rw [edge?_dropEdge] at hd
  split at hd
  · cases hd
  next hne => exact hne (wf.edge_name_inj hd live hname)

/-- The ends of an edge are there when it was taken out. -/
theorem WellFormed.isSome_ends_dropEdge (wf : g.WellFormed) (live : g.edge? id = some e) :
    ((g.dropEdge id).node? e.src).isSome ∧ ((g.dropEdge id).node? e.dest).isSome := by
  rw [wf.node?_dropEdge, wf.node?_dropEdge, Option.isSome_map, Option.isSome_map]
  exact ⟨wf.src_isSome live, wf.dest_isSome live⟩

end Graph

/-! ## The edge -/

namespace Reachable

open Command

/-- An edge that was taken out of a graph that can come up is put back, whatever has happened to the
    graph since, when no other edge bears its name, neither of its ends was taken out, and there is
    room and a slot for an edge; it joins nodes of the names it joined.  Put back at once, it is
    refused only if there is no slot left, and all is as it was but for its slot and its places in
    the lists of its ends. -/
theorem addEdge_puts_back {g : Graph} (reach : Reachable g) {id : EdgeId} {e : Edge}
    (live : g.edge? id = some e) :
    Edit.removeEdge id g = .ok e (g.dropEdge id) ∧
      (∀ history : List Command,
        (∀ k ∈ history, ∀ other, k.operand? = some other → Reachable other) →
        let h := Command.runAll history (g.dropEdge id)
        ((∃ i k, Edit.addEdge e h = .ok i k) ↔
          h.hasEdge e.name = false ∧ takesOut e.src history (g.dropEdge id) = false ∧
            takesOut e.dest history (g.dropEdge id) = false ∧ h.edgeCount < h.limits.maxEdges ∧
              h.edges.size < slotLimit) ∧
          ∀ i k, Edit.addEdge e h = .ok i k →
            k.edge? i = some e ∧ (g.endNames? e).isSome ∧ k.endNames? e = g.endNames? e) ∧
      (g.edges.size < slotLimit →
        ∃ k, Edit.addEdge e (g.dropEdge id) = .ok ⟨g.edges.size⟩ k ∧ g.PutBack id e k) := by
  have wf := reach.wellFormed
  have within := reach.withinBudget
  have wf' := wf.dropEdge id
  have hlimits := g.limits_dropEdge id
  obtain ⟨hsrc, hdest⟩ := wf.isSome_ends_dropEdge live
  have htypes := within.types id e live
  refine ⟨?_, fun history operands => ?_, ?_⟩
  · exact Edit.check_bind_ok (Graph.liveEdge_eq_ok.mpr live)
  · intro h
    have hother : ∀ k ∈ history, k.OperandWellFormed :=
      fun k hk other ho => (operands k hk other ho).wellFormed
    have hlimits' : h.limits = g.limits := (limits_runAll wf' hother).trans hlimits
    -- an end is live after the history exactly when it was not taken out
    have hsrc' := isSome_node?_runAll_iff wf' hother hsrc
    have hdest' := isSome_node?_runAll_iff wf' hother hdest
    constructor
    · simp only [Edit.addEdge_eq_ok]
      constructor
      · rintro ⟨i, k, hfree, hs, hd, hroom, -, hslot, -⟩
        exact ⟨hfree, hsrc'.mp hs, hdest'.mp hd, hroom, hslot⟩
      · rintro ⟨hfree, hs, hd, hroom, hslot⟩
        exact ⟨_, _, hfree, hsrc'.mpr hs, hdest'.mpr hd, hroom, hlimits' ▸ htypes, hslot, rfl, rfl⟩
    · intro i k hrun
      obtain ⟨-, hs, hd, -, -, -, rfl, rfl⟩ := Edit.addEdge_eq_ok.mp hrun
      refine ⟨Graph.edge?_insertEdge_self h e, wf.endNames?_isSome live, ?_⟩
      rw [Graph.endNames?, Graph.endNames?, Graph.nameOf?_insertEdge, Graph.nameOf?_insertEdge,
        nameOf?_runAll wf' hother hsrc hs, nameOf?_runAll wf' hother hdest hd,
        wf.nameOf?_dropEdge, wf.nameOf?_dropEdge]
  · intro hslot
    -- the edge that went has left room for one
    have hroom : (g.dropEdge id).edgeCount < g.limits.maxEdges := by
      have hcount := wf.edgeCount_dropEdge live
      have hfits := within.edges
      omega
    rw [← g.size_edges_dropEdge id] at hslot ⊢
    exact ⟨_, Edit.addEdge_eq_ok.mpr ⟨wf.hasEdge_dropEdge live, hsrc, hdest, hlimits ▸ hroom,
      hlimits ▸ htypes, hslot, rfl, rfl⟩, wf.putBack live⟩

/-- An edge to a node that is labelled meanwhile, whose name is given to another edge and taken
    back, goes in again; it does not after its end was replaced by a node of the same name. -/
theorem addEdge_puts_back_of_reuse :
    let e : Edge := ⟨"r", ⟨0⟩, ⟨1⟩, ["R"], [.unresolved "R"], false, .single⟩
    let g := Command.runAll [.addNode "a", .addNode "b", .addEdge e,
      .addEdge ⟨"s", ⟨0⟩, ⟨1⟩, [], [], true, .single⟩] (.empty ⟨3, 2, 1⟩)
    let kept : List Command := [.addEdge ⟨"r", ⟨1⟩, ⟨1⟩, [], [], false, .single⟩,
      .setLabel .empty ⟨1⟩ "B", .addNode "c", .removeEdge ⟨2⟩, .reverseEdge ⟨1⟩]
    let lost : List Command := [.removeNode ⟨1⟩, .addNode "b"]
    (∃ i k, Edit.addEdge e (Command.runAll kept (g.dropEdge ⟨0⟩)) = .ok i k ∧
        k.edge? i = some e ∧ k.endNames? e = some ("a", "b")) ∧
      (¬ ∃ i k, Edit.addEdge e (Command.runAll lost (g.dropEdge ⟨0⟩)) = .ok i k) ∧
      ∃ k, Edit.addEdge e (g.dropEdge ⟨0⟩) = .ok ⟨2⟩ k ∧ g.PutBack ⟨0⟩ e k := by
  intro e g kept lost
  have reach : Reachable g := (Reachable.empty _).runAll (by simp [Command.operand?])
    (by simp [e, Command.edge?, Edge.made_iff])
  have live : g.edge? ⟨0⟩ = some e := by decide +kernel
  obtain ⟨-, hlater, hback⟩ := reach.addEdge_puts_back live
  obtain ⟨hkept, hends⟩ := hlater kept (by simp [kept, Command.operand?])
  obtain ⟨hlost, -⟩ := hlater lost (by simp [lost, Command.operand?])
  obtain ⟨i, k, hrun⟩ := hkept.mpr (by decide +kernel)
  obtain ⟨hedge, -, hnames⟩ := hends i k hrun
  have hsize : g.edges.size = 2 := by decide +kernel
  rw [hsize] at hback
  refine ⟨⟨i, k, hrun, hedge, hnames.trans (by decide +kernel)⟩, fun h => ?_,
    hback (by decide +kernel)⟩
  have hdest := (hlost.mp h).2.2.1
  revert hdest
  decide +kernel

end Reachable

end PatternGraph
