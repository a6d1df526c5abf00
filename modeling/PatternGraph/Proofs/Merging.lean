/-
  PatternGraph.Proofs.Merging

  What a merge does, as a function of the two graphs.  First come the nodes
  whose names are not bound, without their edges; then the edges whose names
  are not bound, between the nodes that bear the names of their ends.  Every
  name of the other graph is bound by then, so no edge fails to find its ends.
-/
import PatternGraph.Edit.Merge
import PatternGraph.Proofs.Copy
import PatternGraph.Proofs.Names
import PatternGraph.Proofs.Questions

namespace PatternGraph

namespace Graph

/-- The graph with nodes added one after the other. -/
def insertNodes (g : Graph) (nodes : List Node) : Graph := nodes.foldl insertNode g

/-- The node here that bears the name of a node of another graph; a free slot if none does. -/
def nodeLike (g other : Graph) (x : NodeId) : NodeId :=
  ((other.nameOf? x).bind g.nodeNamed?).getD ⟨g.nodes.size⟩

/-- An edge of another graph between the nodes here that bear the names of its ends. -/
def transplant (g other : Graph) (e : Edge) : Edge :=
  e.between (g.nodeLike other e.src) (g.nodeLike other e.dest)

/-- The graph and the nodes that it lacks of another one. -/
def withMissingNodes (g other : Graph) : Graph :=
  g.insertNodes ((g.missingNodes other).map Node.isolated)

/-- The graph and all that it lacks of another one. -/
def absorb (g other : Graph) : Graph :=
  (g.withMissingNodes other).insertEdges
    ((g.missingEdges other).map ((g.withMissingNodes other).transplant other))

/-- A graph in the middle of a merge: some of the missing nodes are there, or all of them and some
    of the missing edges. -/
inductive MidMerge (g other : Graph) : Graph → Prop where
  | nodes {copied left : List Node} (cut : g.missingNodes other = copied ++ left) :
      MidMerge g other (g.insertNodes (copied.map Node.isolated))
  | edges {copied left : List Edge} (cut : g.missingEdges other = copied ++ left) :
      MidMerge g other ((g.withMissingNodes other).insertEdges
        (copied.map ((g.withMissingNodes other).transplant other)))

/-- The end of a merge. -/
theorem MidMerge.absorb (g other : Graph) : MidMerge g other (g.absorb other) :=
  .edges (List.append_nil _).symm

/-- The budgets have room for what the graph lacks of another one. -/
def roomForMissing (g other : Graph) : Except GraphError Unit := do
  g.roomForNodes (g.missingNodes other).length
  g.roomForEdges (g.missingEdges other).length
  (g.missingEdges other).forM fun e => g.roomForTypes e.types.length

variable {g other : Graph}

theorem roomForMissing_eq_ok {u : Unit} :
    g.roomForMissing other = .ok u ↔
      g.roomForNodes (g.missingNodes other).length = .ok () ∧
        g.roomForEdges (g.missingEdges other).length = .ok () ∧
        ∀ e ∈ g.missingEdges other, g.roomForTypes e.types.length = .ok () := by
  rw [roomForMissing, bind_eq_ok]
  refine ⟨?_, ?_⟩
  · rintro ⟨⟨⟩, hnodes, hrest⟩
    obtain ⟨⟨⟩, hedges, htypes⟩ := bind_eq_ok.mp hrest
    exact ⟨hnodes, hedges, forM_eq_ok.mp htypes⟩
  · rintro ⟨hnodes, hedges, htypes⟩
    exact ⟨⟨⟩, hnodes, bind_eq_ok.mpr ⟨⟨⟩, hedges, forM_eq_ok.mpr htypes⟩⟩

/-! ## Many new nodes -/

theorem insertNodes_cons (g : Graph) (n : Node) (rest : List Node) :
    g.insertNodes (n :: rest) = (g.insertNode n).insertNodes rest :=
  rfl

theorem nameSlots_insertNodes (g : Graph) (nodes : List Node) :
    (g.insertNodes nodes).nameSlots = g.nameSlots ++ nodes.map fun n => some n.name := by
  induction nodes generalizing g with
  | nil => exact (List.append_nil _).symm
  | cons n rest ih =>
      rw [insertNodes_cons, ih, nameSlots_insertNode, List.append_assoc]
      rfl

theorem edges_insertNodes (g : Graph) (nodes : List Node) :
    (g.insertNodes nodes).edges = g.edges := by
  induction nodes generalizing g with
  | nil => rfl
  | cons n rest ih => rw [insertNodes_cons, ih]; rfl

theorem size_nodes_insertNodes (g : Graph) (nodes : List Node) :
    (g.insertNodes nodes).nodes.size = g.nodes.size + nodes.length := by
  rw [← length_nameSlots, nameSlots_insertNodes, List.length_append, List.length_map,
    length_nameSlots]

theorem limits_insertNodes (g : Graph) (nodes : List Node) :
    (g.insertNodes nodes).limits = g.limits := by
  induction nodes generalizing g with
  | nil => rfl
  | cons n rest ih => rw [insertNodes_cons, ih, limits_insertNode]

/-- Nodes without edges under different free names may be added. -/
theorem WellFormed.insertNodes (wf : g.WellFormed) {nodes : List Node}
    (hfree : ∀ n ∈ nodes, g.hasNode n.name = false) (hnodup : (nodes.map Node.name).Nodup)
    (hbare : ∀ n ∈ nodes, n.incoming = #[] ∧ n.outgoing = #[]) :
    (g.insertNodes nodes).WellFormed := by
  induction nodes generalizing g with
  | nil => exact wf
  | cons n rest ih =>
      obtain ⟨hfn, hfrest⟩ := List.forall_mem_cons.mp hfree
      obtain ⟨hbn, hbrest⟩ := List.forall_mem_cons.mp hbare
      obtain ⟨hnn, hnrest⟩ := List.nodup_cons.mp hnodup
      refine ih (wf.insertNode hfn hbn.1 hbn.2) ?_ hnrest hbrest
      intro m hm
      have hdiff : n.name ≠ m.name := fun heq => hnn (heq ▸ List.mem_map_of_mem hm)
      rw [hasNode_insertNode, hfrest m hm, Bool.or_false]
      exact beq_eq_false_iff_ne.mpr hdiff

/-! ## The other graph finds its names here -/

/-- Any of the missing nodes may be added. -/
theorem WellFormed.insertNodes_missing (wf : g.WellFormed) (wf' : other.WellFormed)
    {copied : List Node} (hcopied : copied.Sublist (g.missingNodes other)) :
    (g.insertNodes (copied.map Node.isolated)).WellFormed := by
  apply wf.insertNodes
  case hfree =>
    intro n hn
    obtain ⟨m, hm, rfl⟩ := List.mem_map.mp hn
    have hfree : g.hasNode m.name = false := by
      simpa using (List.mem_filter.mp (hcopied.subset hm)).2
    exact hfree
  case hnodup =>
    rw [List.map_map]
    exact (nodup_nodeNames wf').sublist ((hcopied.trans List.filter_sublist).map Node.name)
  case hbare =>
    intro n hn
    obtain ⟨m, -, rfl⟩ := List.mem_map.mp hn
    exact ⟨rfl, rfl⟩

theorem WellFormed.withMissingNodes (wf : g.WellFormed) (wf' : other.WellFormed) :
    (g.withMissingNodes other).WellFormed :=
  wf.insertNodes_missing wf' (List.Sublist.refl _)

/-- Every name of the other graph is bound once its missing nodes are there. -/
theorem hasNode_withMissingNodes {x : NodeId} {name : String} (h : other.nameOf? x = some name) :
    (g.withMissingNodes other).hasNode name = true := by
  obtain ⟨n, hn, rfl⟩ := Option.map_eq_some_iff.mp h
  rw [hasNode_iff_mem, Graph.withMissingNodes, nameSlots_insertNodes, List.mem_append]
  by_cases hg : g.hasNode n.name
  · exact .inl (hasNode_iff_mem.mp hg)
  · right
    have hmissing : n ∈ g.missingNodes other :=
      List.mem_filter.mpr ⟨mem_values_nodes.mpr ⟨x, hn⟩, by simpa using hg⟩
    exact List.mem_map.mpr ⟨n.isolated, List.mem_map_of_mem hmissing, rfl⟩

/-- The node here that stands for a live node of the other graph bears its name. -/
theorem nodeNamed?_nodeLike {x : NodeId} {name : String} (h : other.nameOf? x = some name)
    (hg : g.hasNode name = true) : g.nodeNamed? name = some (g.nodeLike other x) := by
  obtain ⟨id, hid⟩ := Option.isSome_iff_exists.mp hg
  rw [nodeLike, h, Option.bind_some, hid]
  rfl

theorem nodeLike_insertEdge (g other : Graph) (e : Edge) (x : NodeId) :
    (g.insertEdge e).nodeLike other x = g.nodeLike other x := by
  have hsize : (g.insertEdge e).nodes.size = g.nodes.size := by
    rw [← length_nameSlots, nameSlots_insertEdge, length_nameSlots]
  have hnamed : (g.insertEdge e).nodeNamed? = g.nodeNamed? :=
    funext (nodeNamed?_congr (nameSlots_insertEdge g e))
  rw [nodeLike, nodeLike, hsize, hnamed]

/-- Any of the missing edges may be added when the missing nodes are there. -/
theorem WellFormed.insertEdges_transplant (wf : g.WellFormed) (wf' : other.WellFormed)
    {copied : List Edge} (hcopied : copied.Sublist (g.missingEdges other)) :
    ((g.withMissingNodes other).insertEdges
      (copied.map ((g.withMissingNodes other).transplant other))).WellFormed := by
  -- the end of a copied edge bears a name that is bound by now
  have hlive : ∀ {x : NodeId}, (∃ n, other.node? x = some n) →
      ((g.withMissingNodes other).node? ((g.withMissingNodes other).nodeLike other x)).isSome := by
    rintro x ⟨n, hn⟩
    have hname := nameOf?_of_live hn
    have hfound := nodeNamed?_nodeLike hname (hasNode_withMissingNodes (g := g) hname)
    exact isSome_node?_of_nameOf? (nameOf?_of_nodeNamed? hfound)
  apply (wf.withMissingNodes wf').insertEdges
  case hfree =>
    intro d hd
    obtain ⟨e, he, rfl⟩ := List.mem_map.mp hd
    have hfree : g.hasEdge e.name = false := by
      simpa using (List.mem_filter.mp (hcopied.subset he)).2
    exact (hasEdge_congr (edges_insertNodes g _) e.name).trans hfree
  case hnodup =>
    rw [List.map_map]
    exact (nodup_edgeNames wf').sublist ((hcopied.trans List.filter_sublist).map Edge.name)
  case hends =>
    intro d hd
    obtain ⟨e, he, rfl⟩ := List.mem_map.mp hd
    obtain ⟨hsrc, hdest⟩ := wf'.live_of_mem (List.mem_filter.mp (hcopied.subset he)).1
    exact ⟨hlive hsrc, hlive hdest⟩

theorem WellFormed.absorb (wf : g.WellFormed) (wf' : other.WellFormed) :
    (g.absorb other).WellFormed :=
  wf.insertEdges_transplant wf' (List.Sublist.refl _)

/-- A merge may stop anywhere. -/
theorem MidMerge.wellFormed {h : Graph} (mid : g.MidMerge other h) (wf : g.WellFormed)
    (wf' : other.WellFormed) : h.WellFormed := by
  cases mid with
  | nodes cut => exact wf.insertNodes_missing wf' (cut ▸ List.sublist_append_left _ _)
  | edges cut => exact wf.insertEdges_transplant wf' (cut ▸ List.sublist_append_left _ _)

theorem MidMerge.limits_eq {h : Graph} (mid : g.MidMerge other h) : h.limits = g.limits := by
  cases mid with
  | nodes _ => exact limits_insertNodes _ _
  | edges _ => exact (limits_insertEdges _ _).trans (limits_insertNodes _ _)

/-! ## How many slots a merge takes -/

theorem size_nodes_withMissingNodes (g other : Graph) :
    (g.withMissingNodes other).nodes.size = g.nodes.size + (g.missingNodes other).length := by
  rw [Graph.withMissingNodes, size_nodes_insertNodes, List.length_map]

theorem size_edges_withMissingNodes (g other : Graph) :
    (g.withMissingNodes other).edges.size = g.edges.size := by
  rw [Graph.withMissingNodes, edges_insertNodes]

theorem size_nodes_absorb (g other : Graph) :
    (g.absorb other).nodes.size = g.nodes.size + (g.missingNodes other).length := by
  rw [Graph.absorb, size_nodes_insertEdges, size_nodes_withMissingNodes]

theorem size_edges_absorb (g other : Graph) :
    (g.absorb other).edges.size = g.edges.size + (g.missingEdges other).length := by
  rw [Graph.absorb, size_edges_insertEdges, size_edges_withMissingNodes, List.length_map]

end Graph

/-! ## The edit computes this function -/

namespace Edit

open PatternGraph.Graph

variable {g other : Graph}

/-- Actions that take a slot each are all done if there are slots for them, and else as many as
    there are slots. -/
theorem forM_slots {γ : Type} (P : Graph → Prop) (size : Graph → Nat) (step : Graph → γ → Graph)
    (refusal : Graph → GraphError) (action : γ → Edit PUnit) {l : List γ}
    (keep : ∀ x ∈ l, ∀ g, P g → P (step g x)) (hsize : ∀ x g, size (step g x) = size g + 1)
    (hone : ∀ x ∈ l, ∀ g, P g → action x g =
      if size g < slotLimit then .ok ⟨⟩ (step g x) else .error (refusal g) g) (hg : P g) :
    l.forM action g =
      if l.length ≤ slotLimit - size g then .ok ⟨⟩ (l.foldl step g)
      else .error (refusal ((l.take (slotLimit - size g)).foldl step g))
        ((l.take (slotLimit - size g)).foldl step g) := by
  induction l generalizing g with
  | nil => rfl
  | cons x rest ih =>
      obtain ⟨hkeep, hkeeps⟩ := List.forall_mem_cons.mp keep
      obtain ⟨hx, hrest⟩ := List.forall_mem_cons.mp hone
      have hrun := hx g hg
      rw [forM_cons]
      split at hrun
      next hslot =>
        -- one slot is taken, and the others are left
        have hfree : slotLimit - size g = slotLimit - size (step g x) + 1 := by
          rw [hsize]
          omega
        rw [bind_ok hrun, ih hkeeps hrest (hkeep g hg), hfree, List.length_cons,
          List.take_succ_cons]
        simp only [Nat.add_le_add_iff_right, List.foldl_cons]
      next hslot =>
        have hfree : slotLimit - size g = 0 := by omega
        rw [bind_error hrun, hfree, if_neg (by simp)]
        rfl

/-- Nodes are copied as long as there are slots. -/
theorem forM_newNode (nodes : List Node) (g : Graph) :
    (nodes.forM fun n => discard <| newNode n.isolated) g =
      if nodes.length ≤ slotLimit - g.nodes.size then
        .ok ⟨⟩ (g.insertNodes (nodes.map Node.isolated))
      else
        let h := g.insertNodes ((nodes.take (slotLimit - g.nodes.size)).map Node.isolated)
        .error (noNodeSlot h) h := by
  have hloop := forM_slots (g := g) (l := nodes) (fun _ => True) (fun g => g.nodes.size)
    (fun g n => g.insertNode n.isolated) noNodeSlot (fun n => discard <| newNode n.isolated)
    (fun _ _ _ _ => trivial) (fun n g => size_nodes_insertNode g _)
    (fun n _ g _ => discard_newNode n.isolated g) trivial
  simp only [insertNodes, List.foldl_map]
  exact hloop

/-- An edge whose ends have names that are bound here is copied if there is a slot. -/
theorem copyEdge_eq {e : Edge} {a b : String} (hsrc : other.nameOf? e.src = some a)
    (hdest : other.nameOf? e.dest = some b) (ha : g.hasNode a = true) (hb : g.hasNode b = true) :
    copyEdge other e g =
      if g.edges.size < slotLimit then .ok () (g.insertEdge (g.transplant other e))
      else .error (noEdgeSlot g) g := by
  have hends : other.endNames? e = some (a, b) := by rw [endNames?, hsrc, hdest]
  have hfrom := nodeNamed_eq_ok.mpr (nodeNamed?_nodeLike hsrc ha)
  have hto := nodeNamed_eq_ok.mpr (nodeNamed?_nodeLike hdest hb)
  unfold copyEdge
  rw [check_bind_ok (a := (a, b)) (by simp only [hends]), check_bind_ok hfrom, check_bind_ok hto]
  exact discard_newEdge _ g

/-- Edges are copied as long as there are slots. -/
theorem forM_copyEdge {edges : List Edge}
    (h : ∀ e ∈ edges, ∃ a b, other.nameOf? e.src = some a ∧ other.nameOf? e.dest = some b ∧
      g.hasNode a = true ∧ g.hasNode b = true) :
    (edges.forM (copyEdge other)) g =
      if edges.length ≤ slotLimit - g.edges.size then
        .ok ⟨⟩ (g.insertEdges (edges.map (g.transplant other)))
      else
        let h := g.insertEdges ((edges.take (slotLimit - g.edges.size)).map (g.transplant other))
        .error (noEdgeSlot h) h := by
  -- the graph grows under the loop, but no edge changes where a name is found
  have hloop := forM_slots (g := g) (l := edges)
    (fun h => h.nameSlots = g.nameSlots ∧ h.nodeLike other = g.nodeLike other)
    (fun g => g.edges.size) (fun h e => h.insertEdge (g.transplant other e)) noEdgeSlot
    (copyEdge other) ?keep (fun e h => size_edges_insertEdge h _) ?one ⟨rfl, rfl⟩
  case keep =>
    rintro e - h ⟨hslots, hlike⟩
    refine ⟨?_, ?_⟩
    · rw [nameSlots_insertEdge, hslots]
    · rw [funext (nodeLike_insertEdge h other _), hlike]
  case one =>
    rintro e he h' ⟨hslots, hlike⟩
    obtain ⟨a, b, hsrc, hdest, ha, hb⟩ := h e he
    rw [← hasNode_congr hslots] at ha hb
    have hsame : h'.transplant other e = g.transplant other e := by
      rw [transplant, transplant, hlike]
    rw [copyEdge_eq hsrc hdest ha hb, hsame]
  simp only [insertEdges, List.foldl_map]
  exact hloop

/-- Where a budget has no room a merge says so and touches nothing. -/
theorem merge_refused {e : GraphError} (hroom : g.roomForMissing other = .error e) :
    merge other g = .error e g := by
  unfold roomForMissing at hroom
  unfold merge
  rw [ask_bind, ask_bind]
  cases hnodes : g.roomForNodes (g.missingNodes other).length with
  | error e' =>
      rw [hnodes] at hroom
      cases hroom
      exact check_bind_error hnodes
  | ok _ =>
      rw [check_bind_ok hnodes]
      cases hedges : g.roomForEdges (g.missingEdges other).length with
      | error e' =>
          rw [hnodes, hedges] at hroom
          cases hroom
          exact check_bind_error hedges
      | ok _ =>
          rw [hnodes, hedges] at hroom
          rw [check_bind_ok hedges]
          refine bind_error ?_
          rw [forM_check_eq (fun (e : Edge) g => g.roomForTypes e.types.length)]
          exact check_error hroom

/-- A merge within the budgets copies nodes and then edges as long as there are slots. -/
theorem merge_of_room (wf' : other.WellFormed) (hroom : g.roomForMissing other = .ok ()) :
    merge other g =
      if (g.missingNodes other).length ≤ slotLimit - g.nodes.size then
        if (g.missingEdges other).length ≤ slotLimit - g.edges.size then
          .ok ⟨(g.missingNodes other).length, (g.missingEdges other).length⟩ (g.absorb other)
        else
          let full := g.withMissingNodes other
          let h := full.insertEdges
            (((g.missingEdges other).take (slotLimit - g.edges.size)).map (full.transplant other))
          .error (noEdgeSlot h) h
      else
        let h := g.insertNodes
          (((g.missingNodes other).take (slotLimit - g.nodes.size)).map Node.isolated)
        .error (noNodeSlot h) h := by
  obtain ⟨hnodes, hedges, htypes⟩ := roomForMissing_eq_ok.mp hroom
  -- the ends of the other graph's edges are live there, and their names are bound here
  have hcopy : ∀ e ∈ g.missingEdges other, ∃ a b, other.nameOf? e.src = some a ∧
      other.nameOf? e.dest = some b ∧ (g.withMissingNodes other).hasNode a = true ∧
      (g.withMissingNodes other).hasNode b = true := by
    intro e he
    obtain ⟨⟨m, hm⟩, n, hn⟩ := wf'.live_of_mem (List.mem_filter.mp he).1
    have ha := nameOf?_of_live hm
    have hb := nameOf?_of_live hn
    exact ⟨m.name, n.name, ha, hb, hasNode_withMissingNodes ha, hasNode_withMissingNodes hb⟩
  have hquestions : ((g.missingEdges other).forM fun e => check (·.roomForTypes e.types.length)) g
      = .ok ⟨⟩ g := by
    rw [forM_check_eq (fun (e : Edge) g => g.roomForTypes e.types.length)]
    exact check_ok (forM_eq_ok.mpr htypes)
  have hnew := forM_newNode (g.missingNodes other) g
  have hlinks := forM_copyEdge hcopy
  rw [size_edges_withMissingNodes] at hlinks
  unfold merge
  rw [ask_bind, ask_bind, check_bind_ok hnodes, check_bind_ok hedges, bind_ok hquestions]
  split
  next hfit =>
    rw [if_pos hfit] at hnew
    rw [bind_ok hnew]
    split
    next hfit' =>
      rw [if_pos hfit'] at hlinks
      exact bind_ok hlinks
    next hfit' =>
      rw [if_neg hfit'] at hlinks
      exact bind_error hlinks
  next hfit =>
    rw [if_neg hfit] at hnew
    exact bind_error hnew

/-- A merge within the budgets computes `absorb` while there are slots. -/
theorem merge_ok (wf' : other.WellFormed) (hroom : g.roomForMissing other = .ok ())
    (hslots : g.HasSlots (g.missingNodes other).length (g.missingEdges other).length) :
    merge other g
      = .ok ⟨(g.missingNodes other).length, (g.missingEdges other).length⟩ (g.absorb other) := by
  rw [merge_of_room wf' hroom, if_pos (Nat.le_sub_of_add_le' hslots.nodes),
    if_pos (Nat.le_sub_of_add_le' hslots.edges)]

/-- A merge within the budgets that has not all the slots is told so. -/
theorem merge_lacksSlot (wf' : other.WellFormed) (hall : g.HasSlots 0 0)
    (hroom : g.roomForMissing other = .ok ())
    (hslots : ¬ g.HasSlots (g.missingNodes other).length (g.missingEdges other).length) :
    ∃ e g', merge other g = .error e g' ∧ e.lacksSlot = true := by
  rw [merge_of_room wf' hroom]
  split
  next hnodes =>
    split
    next hedges =>
      have hn := hall.nodes
      have he := hall.edges
      exact absurd ⟨by omega, by omega⟩ hslots
    next => exact ⟨_, _, rfl, rfl⟩
  next => exact ⟨_, _, rfl, rfl⟩

/-- A merge that succeeds is within the budgets, takes slots that there are, and computes
    `absorb`. -/
theorem merge_eq_absorb {t : MergeTally} {g' : Graph} (wf' : other.WellFormed)
    (hrun : merge other g = .ok t g') :
    g.roomForMissing other = .ok () ∧
      (g.missingNodes other).length ≤ slotLimit - g.nodes.size ∧
      (g.missingEdges other).length ≤ slotLimit - g.edges.size ∧
      t = ⟨(g.missingNodes other).length, (g.missingEdges other).length⟩ ∧
      g' = g.absorb other := by
  cases hroom : g.roomForMissing other with
  | error e =>
      rw [merge_refused hroom] at hrun
      cases hrun
  | ok _ =>
      rw [merge_of_room wf' hroom] at hrun
      split at hrun
      next hnodes =>
        split at hrun
        next hedges =>
          cases hrun
          exact ⟨rfl, hnodes, hedges, rfl, rfl⟩
        next => cases hrun
      next => cases hrun

/-- A merge that fails leaves the graph as it was or in the middle of the merge. -/
theorem merge_error {e : GraphError} {g' : Graph} (wf' : other.WellFormed)
    (hrun : merge other g = .error e g') :
    g' = g ∨ g.roomForMissing other = .ok () ∧ g.MidMerge other g' := by
  cases hroom : g.roomForMissing other with
  | error e =>
      rw [merge_refused hroom] at hrun
      cases hrun
      exact .inl rfl
  | ok _ =>
      right
      -- the slots that are left say how many of the missing were taken in
      refine ⟨rfl, ?_⟩
      rw [merge_of_room wf' hroom] at hrun
      split at hrun
      next =>
        split at hrun
        next => cases hrun
        next =>
          cases hrun
          exact .edges (List.take_append_drop _ _).symm
      next =>
        cases hrun
        exact .nodes (List.take_append_drop _ _).symm

theorem keeps_slots_merge (other : Graph) : (merge other).Keeps (·.HasSlots 0 0) :=
  .bind (.ask _) fun _ => .bind (.ask _) fun _ => .bind (.check _) fun _ =>
    .bind (.check _) fun _ => .bind (.forM fun _ _ => .check _) fun _ =>
      .bind (.forM fun _ _ => (keeps_slots_newNode _).discard) fun _ =>
        .bind (.forM fun _ _ => .bind (.check _) fun _ => .bind (.check _) fun _ =>
          .bind (.check _) fun _ => (keeps_slots_newEdge _).discard) fun _ => .pure _

end Edit

end PatternGraph
