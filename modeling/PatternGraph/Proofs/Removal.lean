/-
  PatternGraph.Proofs.Removal

  What removals leave behind.  Dropping edges filters them out of every list;
  taking a node out, with the edges at it, leaves the subgraph of the other
  nodes; and taking many nodes out one after the other leaves the subgraph of
  those that stay, whatever the order was.
-/
import PatternGraph.Proofs.Induced

namespace PatternGraph.Graph

variable {g : Graph}

/-! ## Dropping edges -/

/-- An edge that is dropped is gone from all lists: at nodes other than its ends it was in none,
    and a stale one was nowhere. -/
theorem WellFormed.node?_dropEdge (wf : g.WellFormed) (id : EdgeId) (x : NodeId) :
    (g.dropEdge id).node? x = (g.node? x).map (·.keeping (· != id)) := by
  cases hid : g.edge? id with
  | none =>
      rw [dropEdge_of_stale hid]
      cases hx : g.node? x with
      | none => rfl
      | some n =>
          -- a listed edge is live, so it is not the stale one
          have hkeep : n.keeping (· != id) = n.keeping fun _ => true := by
            apply wf.keeping_congr hx
            intro i e he _
            have hne : i ≠ id := by
              rintro rfl
              rw [hid] at he
              cases he
            simpa using hne
          rw [Option.map_some, hkeep, Node.keeping_true]
  | some e =>
      rw [Graph.node?_dropEdge hid]
      cases hx : g.node? x with
      | none => rfl
      | some n =>
          rw [Option.map_some, Option.map_some]
          split
          next => rfl
          next hends =>
            -- the edge has no end here, so the list did not hold it
            have hkeep : n.keeping (· != id) = n.keeping fun _ => true := by
              apply wf.keeping_congr hx
              intro i d hd hat
              have hne : i ≠ id := by
                rintro rfl
                rw [hid] at hd
                cases hd
                exact hends (hat.imp Eq.symm Eq.symm)
              simpa using hne
            rw [hkeep, Node.keeping_true]

theorem size_nodes_dropEdge (g : Graph) (id : EdgeId) :
    (g.dropEdge id).nodes.size = g.nodes.size := by
  unfold dropEdge
  split
  · rfl
  · simp [unlink, modifyNode]

theorem size_edges_dropEdge (g : Graph) (id : EdgeId) :
    (g.dropEdge id).edges.size = g.edges.size := by
  unfold dropEdge
  split
  · rfl
  · simp [unlink, modifyNode]

/-- An edge may be dropped. -/
theorem WellFormed.dropEdge (wf : g.WellFormed) (id : EdgeId) : (g.dropEdge id).WellFormed := by
  have edge_of : ∀ {i e}, (g.dropEdge id).edge? i = some e → g.edge? i = some e := by
    intro i e he
    rw [edge?_dropEdge] at he
    split at he
    · cases he
    · exact he
  apply WellFormed.of_lists
  case hnode =>
    intro i j m n hm hn hname
    rw [wf.node?_dropEdge, Option.map_eq_some_iff] at hm hn
    obtain ⟨m', hm', rfl⟩ := hm
    obtain ⟨n', hn', rfl⟩ := hn
    exact wf.node_name_inj hm' hn' hname
  case hedge =>
    intro i j d e hd he hname
    exact wf.edge_name_inj (edge_of hd) (edge_of he) hname
  case hends =>
    intro i e he
    rw [wf.node?_dropEdge, wf.node?_dropEdge, Option.isSome_map, Option.isSome_map]
    exact ⟨wf.src_isSome (edge_of he), wf.dest_isSome (edge_of he)⟩
  case hlists =>
    intro x n hn
    rw [wf.node?_dropEdge, Option.map_eq_some_iff] at hn
    obtain ⟨m, hm, rfl⟩ := hn
    refine ⟨((wf.lists_outgoing hm).filter _).congr fun i => ?_,
      ((wf.lists_incoming hm).filter _).congr fun i => ?_⟩ <;>
      rw [hasEnd_dropEdge, bne_iff_ne]
  case hnodes =>
    unfold Graph.dropEdge
    split
    · exact wf.nodes_counted
    · exact (wf.nodes_counted.modify _ _).modify _ _
  case hedges =>
    unfold Graph.dropEdge
    split
    · exact wf.edges_counted
    · exact wf.edges_counted.vacate _

/-! ## Dropping many edges -/

/-- The graph without the edges of a list. -/
def dropEdges (g : Graph) (ids : List EdgeId) : Graph := ids.foldl dropEdge g

theorem WellFormed.dropEdges (wf : g.WellFormed) (ids : List EdgeId) :
    (g.dropEdges ids).WellFormed := by
  induction ids generalizing g with
  | nil => exact wf
  | cons id rest ih => exact ih (wf.dropEdge id)

theorem edge?_dropEdges (g : Graph) (ids : List EdgeId) (i : EdgeId) :
    (g.dropEdges ids).edge? i = if i ∈ ids then none else g.edge? i := by
  induction ids generalizing g with
  | nil => simp [Graph.dropEdges]
  | cons id rest ih =>
      show ((g.dropEdge id).dropEdges rest).edge? i = _
      rw [ih, edge?_dropEdge]
      by_cases hrest : i ∈ rest <;> by_cases hid : i = id <;> simp [hrest, hid]

theorem WellFormed.node?_dropEdges (wf : g.WellFormed) (ids : List EdgeId) (x : NodeId) :
    (g.dropEdges ids).node? x = (g.node? x).map (·.keeping fun i => decide (i ∉ ids)) := by
  induction ids generalizing g with
  | nil =>
      show g.node? x = _
      cases g.node? x with
      | none => rfl
      | some n => simp [Node.keeping_true]
  | cons id rest ih =>
      show ((g.dropEdge id).dropEdges rest).node? x = _
      rw [ih (wf.dropEdge id), wf.node?_dropEdge, Option.map_map]
      congr 1
      funext n
      rw [Function.comp_apply, Node.keeping_keeping]
      congr 1
      funext i
      rw [Bool.eq_iff_iff]
      simp

theorem sizes_dropEdges (g : Graph) (ids : List EdgeId) :
    (g.dropEdges ids).nodes.size = g.nodes.size ∧ (g.dropEdges ids).edges.size = g.edges.size := by
  induction ids generalizing g with
  | nil => exact ⟨rfl, rfl⟩
  | cons id rest ih =>
      obtain ⟨hn, he⟩ := ih (g.dropEdge id)
      exact ⟨hn.trans (size_nodes_dropEdge g id), he.trans (size_edges_dropEdge g id)⟩

theorem limits_dropEdges (g : Graph) (ids : List EdgeId) : (g.dropEdges ids).limits = g.limits := by
  induction ids generalizing g with
  | nil => rfl
  | cons id rest ih => exact (ih (g.dropEdge id)).trans (limits_dropEdge g id)

/-! ## Taking a node out -/

/-- The graph without what stands in the slot of a node. -/
def vacateNode (g : Graph) (x : NodeId) : Graph := { g with nodes := g.nodes.vacate x.index }

theorem node?_vacateNode (g : Graph) (x y : NodeId) :
    (g.vacateNode x).node? y = if y = x then none else g.node? y := by
  have hget : (g.vacateNode x).node? y = _ := Slots.get?_vacate g.nodes x.index y.index
  rw [hget]
  simp only [NodeId.ext_iff, node?]

theorem extractNode?_of_live {x : NodeId} {n : Node} (h : g.node? x = some n) :
    g.extractNode? x = ((g.dropEdges n.incident).node? x).map fun left =>
      (left, (g.dropEdges n.incident).vacateNode x) := by
  rw [extractNode?, h]
  rfl

/-- A live edge is listed at a node unless both of its ends are other nodes. -/
theorem WellFormed.not_mem_incident_eq (wf : g.WellFormed) {x : NodeId} {n : Node}
    (h : g.node? x = some n) {i : EdgeId} {e : Edge} (he : g.edge? i = some e) :
    decide (i ∉ n.incident) = spans (· != x) e := by
  have hmem : i ∈ n.incident ↔ e.src = x ∨ e.dest = x := by
    rw [wf.mem_incident h, he]
    simp
  rw [Bool.eq_iff_iff, decide_eq_true_iff, hmem]
  simp [spans]

/-- When all its edges are dropped a node is left without any. -/
theorem WellFormed.node?_dropEdges_incident (wf : g.WellFormed) {x : NodeId} {n : Node}
    (h : g.node? x = some n) : (g.dropEdges n.incident).node? x = some n.isolated := by
  -- every edge at the node is among those that were dropped
  have hempty : n.keeping (fun i => decide (i ∉ n.incident)) = n.keeping fun _ => false := by
    apply wf.keeping_congr h
    intro i e he hat
    simpa using (wf.mem_incident h).mpr ⟨e, he, hat⟩
  rw [wf.node?_dropEdges, h, Option.map_some, hempty]
  simp [Node.keeping, Node.isolated]

theorem WellFormed.vacateNode_dropEdges (wf : g.WellFormed) {x : NodeId} {n : Node}
    (h : g.node? x = some n) : (g.dropEdges n.incident).vacateNode x = g.induced (· != x) := by
  have wf' := wf.dropEdges n.incident
  apply ext_view (g := (g.dropEdges n.incident).vacateNode x)
    (wf'.nodes_counted.vacate _) wf'.edges_counted (counted_induced _).1 (counted_induced _).2
  case hnodes => simp [vacateNode, Graph.induced, sizes_dropEdges]
  case hedges => simp [vacateNode, Graph.induced, sizes_dropEdges]
  case hlimits => exact limits_dropEdges g _
  case hnode =>
    intro y
    rw [node?_vacateNode, node?_induced, wf.node?_dropEdges]
    by_cases hy : y = x
    · simp [hy]
    · rw [if_neg hy, if_pos (by simpa using hy)]
      cases hm : g.node? y with
      | none => rfl
      | some m =>
          rw [Option.map_some, Option.map_some]
          congr 1
          apply wf.keeping_congr hm
          intro i e he _
          rw [wf.not_mem_incident_eq h he, keepsEdge, he]
          rfl
  case hedge =>
    intro i
    rw [edge?_induced]
    refine (edge?_dropEdges g n.incident i).trans ?_
    cases he : g.edge? i with
    | none => simp
    | some e =>
        rw [Option.filter, ← wf.not_mem_incident_eq h he]
        by_cases hi : i ∈ n.incident <;> simp [hi]

/-- Taking a node out gives it back without its edges and leaves the subgraph of all others. -/
theorem WellFormed.extractNode?_eq (wf : g.WellFormed) {x : NodeId} {n : Node}
    (h : g.node? x = some n) :
    g.extractNode? x = some (n.isolated, g.induced (· != x)) := by
  rw [extractNode?_of_live h, wf.node?_dropEdges_incident h, Option.map_some,
    wf.vacateNode_dropEdges h]

/-! ## Taking many nodes out -/

/-- One node more is taken out and counted, if it is there. -/
def extractStep (s : Nat × Graph) (id : NodeId) : Nat × Graph :=
  match s.2.extractNode? id with
  | some (_, g) => (s.1 + 1, g)
  | none => s

theorem extractNodes_eq_foldl (g : Graph) (ids : List NodeId) :
    g.extractNodes ids = ids.foldl extractStep (0, g) := by
  unfold extractNodes
  rfl

/-- The other nodes are still there when one is taken out. -/
theorem isSome_node?_induced_ne {x y : NodeId} (hy : (g.node? y).isSome) (hne : y ≠ x) :
    ((g.induced (· != x)).node? y).isSome := by
  rw [node?_induced, if_pos (by simpa using hne), Option.isSome_map]
  exact hy

/-- Taking out one node and then others leaves what taking all of them out leaves. -/
theorem induced_ne_induced (x : NodeId) (rest : List NodeId) :
    (g.induced (· != x)).induced (fun y => decide (y ∉ rest))
      = g.induced fun y => decide (y ∉ x :: rest) := by
  rw [induced_induced]
  congr 1
  funext y
  rw [Bool.eq_iff_iff]
  simp

theorem WellFormed.induced_not_mem_nil (wf : g.WellFormed) :
    (g.induced fun x => decide (x ∉ ([] : List NodeId))) = g :=
  wf.induced_of_all fun x n _ => by simp

theorem WellFormed.foldl_extractStep (wf : g.WellFormed) {ids : List NodeId} (hnodup : ids.Nodup)
    (hlive : ∀ x ∈ ids, (g.node? x).isSome) (taken : Nat) :
    ids.foldl extractStep (taken, g)
      = (taken + ids.length, g.induced fun x => decide (x ∉ ids)) := by
  induction ids generalizing g taken with
  | nil =>
      rw [wf.induced_not_mem_nil]
      rfl
  | cons x rest ih =>
      obtain ⟨hx, hrest⟩ := List.nodup_cons.mp hnodup
      obtain ⟨n, hn⟩ := Option.isSome_iff_exists.mp (hlive x List.mem_cons_self)
      have hstep : extractStep (taken, g) x = (taken + 1, g.induced (· != x)) := by
        simp only [extractStep, wf.extractNode?_eq hn]
      have hlive' : ∀ y ∈ rest, ((g.induced (· != x)).node? y).isSome := fun y hy =>
        isSome_node?_induced_ne (hlive y (List.mem_cons_of_mem x hy)) fun heq => hx (heq ▸ hy)
      rw [List.foldl_cons, hstep, ih (wf.induced _) hrest hlive', induced_ne_induced,
        List.length_cons, Nat.add_right_comm, Nat.add_assoc]

/-- Taking live nodes out, each once, leaves the subgraph of those not listed. -/
theorem WellFormed.extractNodes_eq (wf : g.WellFormed) {ids : List NodeId} (hnodup : ids.Nodup)
    (hlive : ∀ x ∈ ids, (g.node? x).isSome) :
    g.extractNodes ids = (ids.length, g.induced fun x => decide (x ∉ ids)) := by
  rw [extractNodes_eq_foldl, wf.foldl_extractStep hnodup hlive, Nat.zero_add]

theorem nodup_liveNodes (g : Graph) : (g.liveNodes.map Prod.fst).Nodup := by
  rw [liveNodes, List.map_map]
  exact Slots.nodup_map_entries (fun _ _ heq => congrArg NodeId.index heq) g.nodes

/-- The handles to which the answer is no. -/
def rejected (answers : List (NodeId × Bool)) : List NodeId :=
  (answers.filter fun answer => !answer.2).map Prod.fst

/-- The nodes that fail are those that are rejected when all have been asked. -/
theorem failing_eq {m : Type → Type} [Monad m] [LawfulMonad m] (keep : NodeId → Node → m Bool)
    (nodes : List (NodeId × Node)) :
    failing keep nodes
      = rejected <$> nodes.mapM fun node => (node.1, ·) <$> keep node.1 node.2 := by
  induction nodes with
  | nil => simp [failing, rejected]
  | cons node rest ih =>
      obtain ⟨x, n⟩ := node
      simp only [failing, ih, List.mapM_cons, map_eq_pure_bind, bind_assoc, pure_bind]
      refine bind_congr fun passes => bind_congr fun answers => ?_
      cases passes <;> rfl

theorem retain_eq_extractNodes (g : Graph) (keep : NodeId → Node → Bool) :
    g.retain keep
      = g.extractNodes ((g.liveNodes.filter fun p => !keep p.1 p.2).map Prod.fst) := by
  have hids : Id.run (failing (fun id n => pure (keep id n)) g.liveNodes)
      = (g.liveNodes.filter fun p => !keep p.1 p.2).map Prod.fst := by
    simp only [failing_eq, map_pure, List.mapM_pure, rejected, List.filter_map, List.map_map]
    rfl
  exact congrArg g.extractNodes hids

/-- Only the answers on live nodes matter. -/
theorem retain_congr {keep keep' : NodeId → Node → Bool}
    (h : ∀ x n, g.node? x = some n → keep x n = keep' x n) : g.retain keep = g.retain keep' := by
  have hfilter : (g.liveNodes.filter fun p => !keep p.1 p.2)
      = g.liveNodes.filter fun p => !keep' p.1 p.2 :=
    List.filter_congr fun p hp => by rw [h p.1 p.2 (mem_liveNodes.mp hp)]
  rw [retain_eq_extractNodes, retain_eq_extractNodes, hfilter]

/-- Keeping the nodes that pass a test leaves the subgraph of those nodes. -/
theorem WellFormed.retain_eq (wf : g.WellFormed) (keep : NodeId → Node → Bool) :
    g.retain keep = ((g.liveNodes.filter fun p => !keep p.1 p.2).length,
      g.induced fun x => (g.node? x).any (keep x)) := by
  have hmem : ∀ x, x ∈ (g.liveNodes.filter fun p => !keep p.1 p.2).map Prod.fst ↔
      ∃ n, g.node? x = some n ∧ keep x n = false := by
    intro x
    simp only [List.mem_map, List.mem_filter, Bool.not_eq_true']
    refine ⟨?_, ?_⟩
    · rintro ⟨⟨y, n⟩, ⟨hn, hkeep⟩, rfl⟩
      exact ⟨n, mem_liveNodes.mp hn, hkeep⟩
    · rintro ⟨n, hn, hkeep⟩
      exact ⟨(x, n), ⟨mem_liveNodes.mpr hn, hkeep⟩, rfl⟩
  have hnodup : ((g.liveNodes.filter fun p => !keep p.1 p.2).map Prod.fst).Nodup :=
    g.nodup_liveNodes.sublist (List.filter_sublist.map Prod.fst)
  have hlive : ∀ x ∈ (g.liveNodes.filter fun p => !keep p.1 p.2).map Prod.fst,
      (g.node? x).isSome := by
    intro x hx
    obtain ⟨n, hn, -⟩ := (hmem x).mp hx
    rw [hn]
    rfl
  rw [retain_eq_extractNodes, wf.extractNodes_eq hnodup hlive, List.length_map]
  congr 1
  apply wf.induced_congr
  intro x n hn
  rw [Bool.eq_iff_iff, decide_eq_true_iff, hmem]
  simp [hn]

end PatternGraph.Graph
