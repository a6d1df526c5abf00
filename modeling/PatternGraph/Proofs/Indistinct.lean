/-
  PatternGraph.Proofs.Indistinct

  Nothing that is done by name tells a graph from its copy while there are slots.
  A named command answers the same on graphs that agree, fails for the same
  cause, and leaves graphs that agree; so does a list of them, by induction.

  Two runs of one edit differ in their handles.  `Couples` relates the runs of
  two edits: both succeed, with results and graphs that are related, or both
  fail alike, unless the second graph has no slot left.  A copy `Follows` its
  original: it has no more slots than that, so it does not run out of them first.
  An edit is coupled with itself action by action, and a name that is looked up
  is where the handles of the two runs come together.
-/
import PatternGraph.Edit.Named
import PatternGraph.Proofs.Agreement

namespace PatternGraph

namespace Graph

variable {g g' h h' : Graph} {m n : Nat}

/-- The first graph agrees with the second and has no more slots. -/
structure Follows (g h : Graph) : Prop extends g.Agrees h where
  slots : h.HasSlots 0 0
  node_slots : g.nodes.size ≤ h.nodes.size
  edge_slots : g.edges.size ≤ h.edges.size

/-- A copy follows its original. -/
theorem Follows.compact (sound : g.Sound) : g.compact.Follows g where
  toAgrees := .compact sound
  slots := sound.slots
  node_slots := size_nodes_compact sound.slots ▸ g.nodes.length_values_le
  edge_slots := size_edges_compact sound.slots ▸ g.edges.length_values_le

theorem Follows.slots_left (follows : g.Follows h) : g.HasSlots 0 0 :=
  ⟨Nat.le_trans follows.node_slots follows.slots.nodes,
    Nat.le_trans follows.edge_slots follows.slots.edges⟩

/-- Graphs that agree again after both have taken as many slots follow each other as before. -/
theorem Follows.grow (follows : g.Follows h) (agrees : g'.Agrees h') (room : h.HasSlots m n)
    (hnodes : g'.nodes.size = g.nodes.size + m) (hedges : g'.edges.size = g.edges.size + n)
    (hnodes' : h'.nodes.size = h.nodes.size + m) (hedges' : h'.edges.size = h.edges.size + n) :
    g'.Follows h' where
  toAgrees := agrees
  slots := (hasSlots_iff hnodes' hedges').mpr room
  node_slots := by
    rw [hnodes, hnodes']
    exact Nat.add_le_add_right follows.node_slots m
  edge_slots := by
    rw [hedges, hedges']
    exact Nat.add_le_add_right follows.edge_slots n

/-- The same where no slots are taken. -/
theorem Follows.stay (follows : g.Follows h) (agrees : g'.Agrees h')
    (hleft : g'.nodes.size = g.nodes.size ∧ g'.edges.size = g.edges.size)
    (hright : h'.nodes.size = h.nodes.size ∧ h'.edges.size = h.edges.size) : g'.Follows h' :=
  follows.grow agrees follows.slots hleft.1 hleft.2 hright.1 hright.2

end Graph

namespace Edit

open PatternGraph.Graph

variable {α β γ δ : Type} {R : α → β → Graph → Graph → Prop} {S : γ → δ → Graph → Graph → Prop}
  {edit : Edit α} {edit' : Edit β} {next : α → Edit γ} {next' : β → Edit δ}
  {g g' h h' other : Graph} {c : Catalog} {x y : NodeId} {i j : EdgeId} {d e : Edge} {name : String}

/-! ## Runs side by side -/

/-- The second of two edits has no slot, or both succeed with results and graphs that are related,
    or both fail for one cause and leave graphs of which one follows the other. -/
def Couples (R : α → β → Graph → Graph → Prop) (edit : Edit α) (edit' : Edit β) (g h : Graph) :
    Prop :=
  match edit' h with
  | .ok b h' => ∃ a g', edit g = .ok a g' ∧ R a b g' h'
  | .error e h' => e.lacksSlot = true ∨ ∃ g', edit g = .error e g' ∧ g'.Follows h'

theorem couples_of_ok {a : α} {b : β} (hl : edit g = .ok a g') (hr : edit' h = .ok b h')
    (hR : R a b g' h') : Couples R edit edit' g h := by
  rw [Couples, hr]
  exact ⟨a, g', hl, hR⟩

theorem couples_of_error {e : GraphError} (hl : edit g = .error e g) (hr : edit' h = .error e h)
    (follows : g.Follows h) : Couples R edit edit' g h := by
  rw [Couples, hr]
  exact .inr ⟨g, hl, follows⟩

theorem couples_of_lacksSlot {e : GraphError} (hr : edit' h = .error e h')
    (lacks : e.lacksSlot = true) : Couples R edit edit' g h := by
  rw [Couples, hr]
  exact .inl lacks

theorem Couples.bind (hedit : Couples R edit edit' g h)
    (hnext : ∀ a b g' h', R a b g' h' → Couples S (next a) (next' b) g' h') :
    Couples S (edit >>= next) (edit' >>= next') g h := by
  unfold Couples at hedit
  rw [Couples]
  cases hr : edit' h with
  | error e h' =>
      rw [hr] at hedit
      rw [bind_error hr]
      exact hedit.imp_right fun ⟨g', hl, follows⟩ => ⟨g', bind_error hl, follows⟩
  | ok b h' =>
      rw [hr] at hedit
      obtain ⟨a, g', hl, hR⟩ := hedit
      rw [bind_ok hr, bind_ok hl]
      exact hnext a b g' h' hR

/-- A question that has the same answer on both sides. -/
theorem couples_check_bind {q q' : Graph → Except GraphError α} {next next' : α → Edit γ}
    {S : γ → γ → Graph → Graph → Prop} (follows : g.Follows h) (same : q g = q' h)
    (hnext : ∀ a, q g = .ok a → Couples S (next a) (next' a) g h) :
    Couples S (check q >>= next) (check q' >>= next') g h := by
  cases hq : q g with
  | error e => exact couples_of_error (check_bind_error hq) (check_bind_error (same ▸ hq)) follows
  | ok a =>
      have hrun := hnext a hq
      unfold Couples at hrun ⊢
      rwa [check_bind_ok (same ▸ hq), check_bind_ok hq]

/-- A node that is looked up by name: it is missing on both sides, or both handles stand for a
    node of that name. -/
theorem couples_nodeNamed_bind {next : NodeId → Edit γ} {next' : NodeId → Edit δ}
    (follows : g.Follows h) (hnext : ∀ x y, g.nameOf? x = some name → h.nameOf? y = some name →
      Couples S (next x) (next' y) g h) :
    Couples S (check (·.nodeNamed name) >>= next) (check (·.nodeNamed name) >>= next') g h := by
  rcases isSome_cases (congrFun follows.hasNode_eq name) with ⟨hl, hr⟩ | ⟨x, y, hl, hr⟩
  · have hmissing : ∀ k : Graph, k.nodeNamed? name = none →
        k.nodeNamed name = .error (.unknownName name .node) := by
      intro k hk
      rw [nodeNamed, hk]
    exact couples_of_error (check_bind_error (hmissing g hl)) (check_bind_error (hmissing h hr))
      follows
  · have hrun := hnext x y (nameOf?_of_nodeNamed? hl) (nameOf?_of_nodeNamed? hr)
    unfold Couples at hrun ⊢
    rwa [check_bind_ok (nodeNamed_eq_ok.mpr hr), check_bind_ok (nodeNamed_eq_ok.mpr hl)]

/-- An edge that is looked up by name. -/
theorem couples_edgeNamed_bind {next : EdgeId → Edit γ} {next' : EdgeId → Edit δ}
    (follows : g.Follows h) (hnext : ∀ i j d e, g.edge? i = some d → h.edge? j = some e →
      d.name = e.name → Couples S (next i) (next' j) g h) :
    Couples S (check (·.edgeNamed name) >>= next) (check (·.edgeNamed name) >>= next') g h := by
  rcases isSome_cases (congrFun follows.hasEdge_eq name) with ⟨hl, hr⟩ | ⟨i, j, hl, hr⟩
  · have hmissing : ∀ k : Graph, k.edgeNamed? name = none →
        k.edgeNamed name = .error (.unknownName name .edge) := by
      intro k hk
      rw [edgeNamed, hk]
    exact couples_of_error (check_bind_error (hmissing g hl)) (check_bind_error (hmissing h hr))
      follows
  · have hfound : ∀ {k : Graph} {i}, k.edgeNamed? name = some i → k.edgeNamed name = .ok i := by
      intro k i hi
      rw [edgeNamed, hi]
    obtain ⟨d, hd, hdname⟩ := edge?_of_edgeNamed? hl
    obtain ⟨e, he, hename⟩ := edge?_of_edgeNamed? hr
    have hrun := hnext i j d e hd he (hdname.trans hename.symm)
    unfold Couples at hrun ⊢
    rwa [check_bind_ok (hfound hr), check_bind_ok (hfound hl)]

/-- A look at two live nodes. -/
theorem couples_liveNode_bind {next : Unit → Edit γ} {next' : Unit → Edit δ}
    (hx : (g.node? x).isSome) (hy : (h.node? y).isSome)
    (hnext : Couples S (next ()) (next' ()) g h) :
    Couples S (discard (check (·.liveNode x)) >>= next) (discard (check (·.liveNode y)) >>= next')
      g h := by
  obtain ⟨n, hn⟩ := Option.isSome_iff_exists.mp hx
  obtain ⟨m, hm⟩ := Option.isSome_iff_exists.mp hy
  unfold Couples at hnext ⊢
  rwa [bind_ok (discard_ok (check_ok (liveNode_eq_ok.mpr hm))),
    bind_ok (discard_ok (check_ok (liveNode_eq_ok.mpr hn)))]

/-! ## The edits -/

/-- The same result, and graphs of which one follows the other. -/
def Same (a b : α) (g h : Graph) : Prop := a = b ∧ g.Follows h

theorem couples_addNode (follows : g.Follows h) (name : String) :
    Couples (fun x y g h => g.nameOf? x = h.nameOf? y ∧ g.Follows h) (addNode name) (addNode name)
      g h := by
  refine couples_check_bind follows (follows.freeNodeName_eq name) fun _ hfree => ?_
  refine couples_check_bind follows (follows.roomForNodes_eq 1) fun _ _ => ?_
  by_cases hslot : h.nodes.size < slotLimit
  · have hslot' := Nat.lt_of_le_of_lt follows.node_slots hslot
    refine couples_of_ok (newNode_ok _ hslot') (newNode_ok _ hslot) ⟨?_, ?_⟩
    · rw [nameOf?_of_live (node?_insertNode_self _ _), nameOf?_of_live (node?_insertNode_self _ _)]
    · exact follows.grow (follows.insertNode (freeNodeName_eq_ok.mp hfree))
        ⟨hslot, follows.slots.edges⟩ (size_nodes_insertNode g _) rfl (size_nodes_insertNode h _) rfl
  · exact couples_of_lacksSlot (newNode_error _ hslot) (lacksSlot_noNodeSlot h)

theorem couples_setLabel (follows : g.Follows h) (hx : g.nameOf? x = some name)
    (hy : h.nameOf? y = some name) (label : String) :
    Couples Same (setLabel c x label) (setLabel c y label) g h := by
  obtain ⟨n, hn, hname⟩ := nameOf?_eq_some.mp hx
  obtain ⟨m, hm, hname'⟩ := nameOf?_eq_some.mp hy
  have hsaid := follows.content_eq hn hm (hname.trans hname'.symm)
  have hlabel : n.isLabelled = m.isLabelled :=
    congrArg (fun d : NodeContent => d.label.isSome) hsaid
  exact couples_of_ok (setLabel_eq hn label) (setLabel_eq hm label)
    ⟨by rw [hlabel], follows.stay (follows.offerLabel hx hy _)
      ⟨size_nodes_offerLabel c g x _, rfl⟩ ⟨size_nodes_offerLabel c h y _, rfl⟩⟩

theorem couples_addEdge (follows : g.Follows h) (hsaid : g.edgeContent d = h.edgeContent e)
    (hsrc : (g.node? d.src).isSome) (hdest : (g.node? d.dest).isSome) :
    Couples (fun i j g h => (g.edge? i).map Edge.name = (h.edge? j).map Edge.name ∧ g.Follows h)
      (addEdge d) (addEdge e) g h := by
  have hname : d.name = e.name := congrArg EdgeContent.name hsaid
  have htypes : d.types = e.types := congrArg EdgeContent.types hsaid
  have hsrc' := isSome_node?_of_same (congrArg EdgeContent.src hsaid) hsrc
  have hdest' := isSome_node?_of_same (congrArg EdgeContent.dest hsaid) hdest
  refine couples_check_bind follows (by rw [follows.freeEdgeName_eq, hname]) fun _ hfree => ?_
  refine couples_liveNode_bind hsrc hsrc' (couples_liveNode_bind hdest hdest' ?_)
  refine couples_check_bind follows (follows.roomForEdges_eq 1) fun _ _ => ?_
  refine couples_check_bind follows (by rw [follows.roomForTypes_eq, htypes]) fun _ _ => ?_
  by_cases hslot : h.edges.size < slotLimit
  · have hslot' := Nat.lt_of_le_of_lt follows.edge_slots hslot
    refine couples_of_ok (newEdge_ok _ hslot') (newEdge_ok _ hslot) ⟨?_, ?_⟩
    · rw [edge?_insertEdge_self, edge?_insertEdge_self, Option.map_some, Option.map_some, hname]
    · exact follows.grow (follows.insertEdge (freeEdgeName_eq_ok.mp hfree) hsaid hsrc hdest)
        ⟨follows.slots.nodes, hslot⟩ (size_nodes_insertEdge g d) (size_edges_insertEdge g d)
        (size_nodes_insertEdge h e) (size_edges_insertEdge h e)
  · exact couples_of_lacksSlot (newEdge_error _ hslot) (lacksSlot_noEdgeSlot h)

theorem couples_addPath (follows : g.Follows h) (p : Path) :
    Couples Same (addPath c p) (addPath c p) g h := by
  have hl := addPath_eq c p g
  have hr := addPath_eq c p h
  cases hw : p.walk? with
  | error defect =>
      rw [hw] at hl hr
      exact couples_of_error hl hr follows
  | ok w =>
      simp only [hw, ← follows.renamed_eq, ← follows.accept_eq] at hl hr
      cases hacc : g.accept (g.renamed w) with
      | error e =>
          simp only [hacc] at hl hr
          exact couples_of_error hl hr follows
      | ok _ =>
          simp only [hacc] at hl hr
          rcases addWalk_cases c (g.renamed w) h with hok | ⟨e, h', herr, lacks, -⟩
          · -- the graph that follows takes as many slots and had no fewer left
            have hkept := (keeps_slots_addPath c p).of_ok follows.slots (hr.trans hok)
            have hsize := size_nodes_extend c g (g.renamed w)
            rw [follows.newNodeNames_eq] at hsize
            have follows' := follows.grow (follows.extend (c := c) hacc) (hasSlots_extend.mp hkept)
              hsize (size_edges_extend c g _) (size_nodes_extend c h _) (size_edges_extend c h _)
            exact couples_of_ok (hl.trans (addWalk_ok follows'.slots_left)) (hr.trans hok)
              ⟨rfl, follows'⟩
          · exact couples_of_lacksSlot (hr.trans herr) lacks

theorem couples_merge (follows : g.Follows h) (wf' : other.WellFormed) :
    Couples Same (merge other) (merge other) g h := by
  have hnodes := follows.missingNodes_eq other
  have hedges := follows.missingEdges_eq other
  cases hroom : h.roomForMissing other with
  | error e =>
      have hrefused := merge_refused (follows.roomForMissing_eq other ▸ hroom)
      exact couples_of_error hrefused (merge_refused hroom) follows
  | ok _ =>
      by_cases hslots : h.HasSlots (h.missingNodes other).length (h.missingEdges other).length
      · have hslots' : g.HasSlots (g.missingNodes other).length (g.missingEdges other).length := by
          rw [hnodes, hedges]
          exact ⟨Nat.le_trans (Nat.add_le_add_right follows.node_slots _) hslots.nodes,
            Nat.le_trans (Nat.add_le_add_right follows.edge_slots _) hslots.edges⟩
        -- both sides grow by the same, so the copy stays within the slots of the original
        have hsize := size_nodes_absorb g other
        have hsize' := size_edges_absorb g other
        rw [hnodes] at hsize
        rw [hedges] at hsize'
        refine couples_of_ok (merge_ok wf' (follows.roomForMissing_eq other ▸ hroom) hslots')
          (merge_ok wf' hroom hslots) ⟨by rw [hnodes, hedges], ?_⟩
        exact follows.grow (follows.absorb wf') hslots hsize hsize' (size_nodes_absorb h other)
          (size_edges_absorb h other)
      · obtain ⟨e, h', herr, lacks⟩ := merge_lacksSlot wf' follows.slots hroom hslots
        exact couples_of_lacksSlot herr lacks

theorem couples_removeNode (follows : g.Follows h) (hx : g.nameOf? x = some name)
    (hy : h.nameOf? y = some name) : Couples Same (removeNode x) (removeNode y) g h := by
  obtain ⟨n, hn, hname⟩ := nameOf?_eq_some.mp hx
  obtain ⟨m, hm, hname'⟩ := nameOf?_eq_some.mp hy
  have hsaid := follows.content_eq hn hm (hname.trans hname'.symm)
  have hnode : n.isolated = m.isolated := congrArg NodeContent.node hsaid
  -- a node stays unless it is the one of the name
  have hstays : ∀ {k : Graph} {z : NodeId}, k.WellFormed → k.nameOf? z = some name →
      ∀ x a, k.nameOf? x = some a → (x != z) = (a != name) := by
    intro k z wf hz x a hxa
    have hiff : x = z ↔ a = name := by
      refine ⟨fun heq => ?_, fun heq => wf.nameOf?_inj (heq ▸ hxa) hz⟩
      rw [heq, hz] at hxa
      exact (Option.some.inj hxa).symm
    rw [Bool.eq_iff_iff, bne_iff_ne, bne_iff_ne]
    exact not_congr hiff
  refine couples_of_ok (a := n.isolated) (b := m.isolated) ?_ ?_
    ⟨hnode, follows.stay (follows.induced (hstays follows.left hx) (hstays follows.right hy))
      ⟨Slots.size_sift _ _, Slots.size_sift _ _⟩ ⟨Slots.size_sift _ _, Slots.size_sift _ _⟩⟩
  · rw [removeNode, follows.left.extractNode?_eq hn]
  · rw [removeNode, follows.right.extractNode?_eq hm]

theorem couples_removeEdge (follows : g.Follows h) (hi : g.edge? i = some d)
    (hj : h.edge? j = some e) (hname : d.name = e.name) :
    Couples (fun d e g h => g.edgeContent d = h.edgeContent e ∧ g.Follows h) (removeEdge i)
      (removeEdge j) g h := by
  have hrun : ∀ {k : Graph} {i e}, k.edge? i = some e → removeEdge i k = .ok e (k.dropEdge i) := by
    intro k i e he
    rw [removeEdge, check_bind_ok (liveEdge_eq_ok.mpr he)]
    rfl
  refine couples_of_ok (hrun hi) (hrun hj) ⟨?_, follows.stay (follows.dropEdge hi hj hname)
    ⟨size_nodes_dropEdge _ _, size_edges_dropEdge _ _⟩
    ⟨size_nodes_dropEdge _ _, size_edges_dropEdge _ _⟩⟩
  rw [edgeContent_congr (follows.left.nameOf?_dropEdge i),
    edgeContent_congr (follows.right.nameOf?_dropEdge j)]
  exact follows.edgeContent_eq hi hj hname

theorem couples_reverseEdge (follows : g.Follows h) (hi : g.edge? i = some d)
    (hj : h.edge? j = some e) (hname : d.name = e.name) :
    Couples Same (reverseEdge i) (reverseEdge j) g h := by
  have hrun : ∀ {k : Graph} {i e}, k.edge? i = some e →
      reverseEdge i k = .ok () (k.turnEdge i e) := by
    intro k i e he
    rw [reverseEdge, check_bind_ok (liveEdge_eq_ok.mpr he)]
    rfl
  exact couples_of_ok (hrun hi) (hrun hj) ⟨rfl,
    follows.stay (follows.turnEdge hi hj hname) (sizes_turnEdge _ _ _) (sizes_turnEdge _ _ _)⟩

theorem couples_retain (follows : g.Follows h) (keep : NodeContent → Nat → Nat → Bool) :
    Couples Same (retain fun n => keep n.content n.inDegree n.outDegree)
      (retain fun n => keep n.content n.inDegree n.outDegree) g h := by
  have hrun : ∀ {k : Graph}, k.WellFormed →
      retain (fun n => keep n.content n.inDegree n.outDegree) k
        = .ok (k.nodeContents.countP fun d => !k.passes keep d.name)
            (k.induced fun x => (k.node? x).any fun n =>
              keep n.content n.inDegree n.outDegree) := by
    intro k wf
    have hretain := wf.retain_eq fun _ n => keep n.content n.inDegree n.outDegree
    rw [wf.length_failing] at hretain
    exact congrArg (fun p : Nat × Graph => EStateM.Result.ok p.1 p.2) hretain
  refine couples_of_ok (hrun follows.left) (hrun follows.right) ⟨?_, ?_⟩
  · rw [follows.nodes, follows.passes_eq]
  · exact follows.stay (follows.induced (follows.left.passes_of_nameOf? keep)
        (follows.passes_eq keep ▸ follows.right.passes_of_nameOf? keep))
      ⟨Slots.size_sift _ _, Slots.size_sift _ _⟩ ⟨Slots.size_sift _ _, Slots.size_sift _ _⟩

theorem couples_resolve (follows : g.Follows h) : Couples Same (resolve c) (resolve c) g h := by
  have hcount : g.refreshCount c = h.refreshCount c := by
    rw [refreshCount_eq, refreshCount_eq, follows.nodes, follows.edges]
  exact couples_of_ok rfl rfl ⟨hcount, follows.stay (follows.refresh c)
    ⟨Slots.size_map _ _, Slots.size_map _ _⟩ ⟨Slots.size_map _ _, Slots.size_map _ _⟩⟩

/-! ## Telling the result -/

theorem couples_tell (answer : α → Answer) {a b : α} (same : Same a b g h) :
    Couples Same (pure (answer a) : Edit Answer) (pure (answer b)) g h :=
  couples_of_ok rfl rfl ⟨congrArg answer same.1, same.2⟩

/-- What is read in the graph that is left. -/
theorem couples_read (answer : α → Answer) {q r : Graph → α} (same : q g = r h ∧ g.Follows h) :
    Couples Same (do return answer (← ask q)) (do return answer (← ask r)) g h :=
  couples_of_ok rfl rfl ⟨congrArg answer same.1, same.2⟩

/-- Coupled with itself an edit has one outcome on both sides, unless the second has no slot. -/
theorem Couples.outcome_eq {edit : Edit α} (hedit : Couples Same edit edit g h)
    (room : ∀ e, edit.outcome h = .error e → e.lacksSlot = false) :
    edit.outcome g = edit.outcome h ∧ (edit.after g).Follows (edit.after h) := by
  unfold Couples at hedit
  unfold outcome after at *
  cases hr : edit h with
  | ok b h' =>
      rw [hr] at hedit
      obtain ⟨a, g', hl, rfl, follows⟩ := hedit
      rw [hl]
      exact ⟨rfl, follows⟩
  | error e h' =>
      rw [hr] at hedit room
      rcases hedit with lacks | ⟨g', hl, follows⟩
      · rw [room e rfl] at lacks
        cases lacks
      · rw [hl]
        exact ⟨rfl, follows⟩

end Edit

namespace NamedCommand

open Edit PatternGraph.Graph

variable {g h : Graph}

/-- A named command does the same on a graph and on one that follows it. -/
theorem couples_edit (follows : g.Follows h) (k : NamedCommand)
    (hother : ∀ other, k.operand? = some other → other.WellFormed) :
    Couples Same k.edit k.edit g h := by
  cases k with
  | addNode name =>
      exact (couples_addNode follows name).bind fun x y _ _ same =>
        couples_read (q := (·.nameOf? x)) (r := (·.nameOf? y)) .named same
  | setLabel c name label =>
      refine couples_nodeNamed_bind follows fun x y hx hy => ?_
      exact (couples_setLabel follows hx hy label).bind fun _ _ _ _ => couples_tell .flag
  | addEdge name src dest types bidirectional hops =>
      refine couples_nodeNamed_bind follows fun x y hx hy => ?_
      refine couples_nodeNamed_bind follows fun x' y' hx' hy' => ?_
      -- the edges run between different handles, and what they say is the same
      let made (src dest : NodeId) : Edge :=
        (((⟨name, src, dest, [], [], false, .single⟩ : Edge).withTypes types).withFlag
          bidirectional).withHops hops
      have hmade : ∀ src dest, made src dest = ⟨name, src, dest, types.map Prod.fst,
          types.map Prod.snd, bidirectional, hops⟩ := fun src dest => by
        simp only [made, Edge.withTypes_eq, Edge.withFlag, Edge.withHops, List.nil_append]
      have hsaid : g.edgeContent (made x x') = h.edgeContent (made y y') := by
        simp only [hmade, edgeContent, hx, hy, hx', hy']
      have hsrc : (g.node? (made x x').src).isSome := by
        rw [hmade]
        exact isSome_node?_of_nameOf? hx
      have hdest : (g.node? (made x x').dest).isSome := by
        rw [hmade]
        exact isSome_node?_of_nameOf? hx'
      exact (couples_addEdge follows hsaid hsrc hdest).bind fun i j _ _ same =>
        couples_read (q := fun g => (g.edge? i).map Edge.name)
          (r := fun g => (g.edge? j).map Edge.name) .named same
  | addPath c p =>
      exact (couples_addPath follows p).bind fun _ _ _ _ => couples_tell fun _ => .done
  | merge other =>
      exact (couples_merge follows (hother other rfl)).bind fun _ _ _ _ => couples_tell .tally
  | removeNode name =>
      refine couples_nodeNamed_bind follows fun x y hx hy => ?_
      exact (couples_removeNode follows hx hy).bind fun _ _ _ _ => couples_tell .node
  | removeEdge name =>
      refine couples_edgeNamed_bind follows fun i j d e hi hj hname => ?_
      exact (couples_removeEdge follows hi hj hname).bind fun d e _ _ same =>
        couples_read (q := (·.edgeContent d)) (r := (·.edgeContent e)) .edge same
  | reverseEdge name =>
      refine couples_edgeNamed_bind follows fun i j d e hi hj hname => ?_
      exact (couples_reverseEdge follows hi hj hname).bind
        fun _ _ _ _ => couples_tell fun _ => .done
  | retain keep => exact (couples_retain follows keep).bind fun _ _ _ _ => couples_tell .count
  | resolve c => exact (couples_resolve follows).bind fun _ _ _ _ => couples_tell .count

/-- A list of named commands answers the same on a graph and on one that follows it, and leaves
    graphs of which one follows the other, unless an answer is that there is no slot. -/
theorem answers_eq (follows : g.Follows h) {commands : List NamedCommand}
    (hother : ∀ k ∈ commands, ∀ other, k.operand? = some other → other.WellFormed)
    (room : ∀ e, .error e ∈ answers commands h → e.lacksSlot = false) :
    answers commands g = answers commands h ∧
      (runAll commands g).Follows (runAll commands h) := by
  induction commands generalizing g h with
  | nil => exact ⟨rfl, follows⟩
  | cons k rest ih =>
      obtain ⟨hk, hrest⟩ := List.forall_mem_cons.mp hother
      obtain ⟨houtcome, hfollows⟩ := (couples_edit follows k hk).outcome_eq fun e he =>
        room e (by rw [answers, he]; exact List.mem_cons_self)
      obtain ⟨hanswers, hleft⟩ := ih hfollows hrest fun e he => room e (List.mem_cons_of_mem _ he)
      exact ⟨by rw [answers, answers, houtcome, hanswers], hleft⟩

end NamedCommand

/-- All that is shown of two graphs is the same: their texts and numbers of nodes, what is found
    wrong with them, their matrices and their connected parts. -/
structure Graph.LooksLike (g h : Graph) : Prop where
  text : g.text = h.text
  ordinals : g.ordinals = h.ordinals
  audit : g.audit = h.audit
  matrix : ∀ {M ε : Type} (backend : MatrixBackend M ε), g.toMatrix backend = h.toMatrix backend
  components : g.components = h.components

theorem Graph.Follows.looksLike {g h : Graph} (follows : g.Follows h) : g.LooksLike h where
  text := follows.text_eq
  ordinals := follows.ordinals_eq
  audit := follows.audit_eq
  matrix := follows.toMatrix_eq follows.slots_left follows.slots
  components := follows.components_eq follows.slots_left follows.slots

namespace Reachable

/-- Commands that go by names answer one after the other the same on a graph and on its copy, and
    what they leave of the two looks the same, if none of the answers on the graph is that there is
    no slot. -/
theorem copy_indistinct {g : Graph} (reach : Reachable g) {commands : List NamedCommand}
    (operands : ∀ k ∈ commands, ∀ other, k.operand? = some other → Reachable other)
    (room : ∀ e, .error e ∈ NamedCommand.answers commands g → e.lacksSlot = false) :
    NamedCommand.answers commands g.compact = NamedCommand.answers commands g ∧
      (NamedCommand.runAll commands g.compact).LooksLike (NamedCommand.runAll commands g) := by
  have hother : ∀ k ∈ commands, ∀ other, k.operand? = some other → other.WellFormed :=
    fun k hk other ho => (operands k hk other ho).wellFormed
  obtain ⟨hanswers, hfollows⟩ := NamedCommand.answers_eq (.compact reach.sound) hother room
  exact ⟨hanswers, hfollows.looksLike⟩

/-- A graph with a free slot and an edge that was turned round; its copy has other slots and other
    lists.  One of the commands fails, and one takes out the nodes that more edges enter than
    leave. -/
theorem copy_indistinct_of_removal :
    let link (r : String) (src dest : Nat) : Command :=
      .addEdge ⟨r, ⟨src⟩, ⟨dest⟩, [], [], false, .single⟩
    let g := Command.runAll
      [.addNode "x", .addNode "a", .addNode "b", .addNode "c", link "r" 1 2, link "s" 2 1,
        link "t" 1 3, .reverseEdge ⟨0⟩, .removeNode ⟨0⟩] (.empty ⟨4, 4, 1⟩)
    let commands : List NamedCommand :=
      [.setLabel .empty "a" "A", .addEdge "u" "c" "a" [] false .single,
        .addEdge "r" "a" "c" [] false .single, .removeEdge "r",
        .retain fun _ entering leaving => decide (entering ≤ leaving), .removeNode "b"]
    g.compact ≠ g ∧
      NamedCommand.answers commands g = [.ok (.flag true), .ok (.named (some "u")),
        .error (.duplicateEdge "r"), .ok (.edge ⟨"r", [], [], false, .single, some "b", some "a"⟩),
        .ok (.count 1), .ok (.node (.bare "b"))] ∧
      NamedCommand.answers commands g.compact = NamedCommand.answers commands g ∧
      (NamedCommand.runAll commands g.compact).LooksLike (NamedCommand.runAll commands g) := by
  intro link g commands
  have reach : Reachable g := (Reachable.empty _).runAll (by simp [link, Command.operand?])
    (by simp [link, Command.edge?, Edge.made_iff])
  have hoperands : ∀ k ∈ commands, ∀ other, k.operand? = some other → Reachable other := by
    simp [commands, NamedCommand.operand?]
  have hall : NamedCommand.answers commands g = [.ok (.flag true), .ok (.named (some "u")),
      .error (.duplicateEdge "r"), .ok (.edge ⟨"r", [], [], false, .single, some "b", some "a"⟩),
      .ok (.count 1), .ok (.node (.bare "b"))] := by decide +kernel
  have room : ∀ e, .error e ∈ NamedCommand.answers commands g → e.lacksSlot = false := by
    intro e he
    rw [hall] at he
    obtain rfl : e = .duplicateEdge "r" := by simpa using he
    rfl
  obtain ⟨hanswers, hlooks⟩ := reach.copy_indistinct hoperands room
  exact ⟨by decide +kernel, hall, hanswers, hlooks⟩

end Reachable

end PatternGraph
