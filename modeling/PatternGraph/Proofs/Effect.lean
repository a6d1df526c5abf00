/-
  PatternGraph.Proofs.Effect

  What commands do, each said once.  `Effect` holds of a command and two graphs
  when the command may take the first to the second; it has one constructor for
  each command, with the guards that were passed.  A command has an effect or
  changes nothing (`run_cases`), and every effect keeps a graph well formed
  (`Effect.wellFormed`).

  All commands but two succeed or change nothing.  A path and a merge take many
  slots, and where these run out they stop half done; what they leave then is an
  effect as well.
-/
import PatternGraph.Edit.History
import PatternGraph.Proofs.Merging
import PatternGraph.Proofs.Reversal
import PatternGraph.Proofs.Walks

namespace PatternGraph

namespace Command

/-- What a command does to a graph when it succeeds, or has done when it runs out of slots. -/
inductive Effect : Command → Graph → Graph → Prop where
  | addNode {g : Graph} {name : String} (free : g.hasNode name = false)
      (room : g.nodeCount + 1 ≤ g.limits.maxNodes) :
      Effect (.addNode name) g (g.insertNode (.bare name))
  | setLabel {g : Graph} {c : Catalog} {id : NodeId} {label : String} {n : Node}
      (live : g.node? id = some n) :
      Effect (.setLabel c id label) g (g.offerLabel c id (some label))
  | addEdge {g : Graph} {e : Edge} {m n : Node} (free : g.hasEdge e.name = false)
      (src : g.node? e.src = some m) (dest : g.node? e.dest = some n)
      (room : g.edgeCount + 1 ≤ g.limits.maxEdges)
      (types : e.types.length ≤ g.limits.maxTypesPerEdge) :
      Effect (.addEdge e) g (g.insertEdge e)
  | addPath {g h : Graph} {c : Catalog} {p : Path} {w : Walk} (walk : p.walk? = .ok w)
      (accepted : g.accept (g.renamed w) = .ok ()) (way : g.OnTheWay c (g.renamed w) h) :
      Effect (.addPath c p) g h
  | merge {g other h : Graph}
      (nodes : g.nodeCount + (g.missingNodes other).length ≤ g.limits.maxNodes)
      (edges : g.edgeCount + (g.missingEdges other).length ≤ g.limits.maxEdges)
      (types : ∀ e ∈ g.missingEdges other, e.types.length ≤ g.limits.maxTypesPerEdge)
      (mid : g.MidMerge other h) : Effect (.merge other) g h
  | removeNode {g : Graph} {id : NodeId} {n : Node} (live : g.node? id = some n) :
      Effect (.removeNode id) g (g.induced (· != id))
  | removeEdge {g : Graph} {id : EdgeId} {e : Edge} (live : g.edge? id = some e) :
      Effect (.removeEdge id) g (g.dropEdge id)
  | reverseEdge {g : Graph} {id : EdgeId} {e : Edge} (live : g.edge? id = some e) :
      Effect (.reverseEdge id) g (g.turnEdge id e)
  | retain {g : Graph} {keep : Node → Bool} :
      Effect (.retain keep) g (g.induced fun x => (g.node? x).any keep)
  | resolve {g : Graph} {c : Catalog} : Effect (.resolve c) g (g.refresh c)

/-- How many slots for nodes and for edges a command would take. -/
def slots (g : Graph) : Command → Nat × Nat
  | .addNode _ => (1, 0)
  | .addEdge _ => (0, 1)
  | .addPath _ p =>
    match p.walk? with
    | .ok w => ((g.newNodeNames (g.renamed w)).length, w.steps.length)
    | .error _ => (0, 0)
  | .merge other => ((g.missingNodes other).length, (g.missingEdges other).length)
  | _ => (0, 0)

/-- The graph that a command reads beside the one it edits is well formed. -/
def OperandWellFormed (k : Command) : Prop := ∀ other, k.operand? = some other → other.WellFormed

end Command

/-! ## Each edit has its effect or none -/

namespace Edit

open PatternGraph.Graph PatternGraph.Command

variable {g : Graph}

theorem addNode_yields (name : String) (g : Graph) :
    (addNode name).Yields g (Effect (.addNode name) g) := by
  refine .check_bind fun _ hfree => .check_bind fun _ hroom => .newNode ?_
  exact .addNode (freeNodeName_eq_ok.mp hfree) (roomForNodes_eq_ok.mp hroom)

theorem setLabel_yields (c : Catalog) (id : NodeId) (label : String) (g : Graph) :
    (setLabel c id label).Yields g (Effect (.setLabel c id label) g) := by
  cases hn : g.node? id with
  | none =>
      have hstale : g.liveNode id = .error (.unknownNode id) := by rw [liveNode, hn]
      exact yields_of_error (check_bind_error hstale)
  | some n =>
      obtain ⟨b, hb⟩ := setLabel_ok (c := c) (by rw [hn]; rfl : (g.node? id).isSome) label
      exact yields_of_ok hb (.setLabel hn)

theorem addEdge_yields (e : Edge) (g : Graph) :
    (addEdge e).Yields g (Effect (.addEdge e) g) := by
  refine .check_bind fun _ hfree => ?_
  refine .discard_check_bind fun m hsrc => .discard_check_bind fun n hdest => ?_
  refine .check_bind fun _ hroom => .check_bind fun _ htypes => .newEdge ?_
  exact .addEdge (freeEdgeName_eq_ok.mp hfree) (liveNode_eq_ok.mp hsrc)
    (liveNode_eq_ok.mp hdest) (roomForEdges_eq_ok.mp hroom) (roomForTypes_eq_ok.mp htypes)

/-- A path that is added has its effect. -/
theorem addPath_effect {c : Catalog} {p : Path} {g' : Graph} (hrun : addPath c p g = .ok () g') :
    Effect (.addPath c p) g g' := by
  obtain ⟨w, hw, hacc, rfl⟩ := addPath_eq_extend hrun
  exact .addPath hw hacc (.extend c g _)

/-- A path that is not added changes nothing, or it is accepted and runs out of slots on the way. -/
theorem addPath_error {c : Catalog} {p : Path} {e : GraphError} {g' : Graph}
    (hrun : addPath c p g = .error e g') : g' = g ∨ Effect (.addPath c p) g g' := by
  rcases addPath_cases c p g with ⟨_, herr⟩ | ⟨w, hw, hacc⟩
  · rw [herr] at hrun
    cases hrun
    exact .inl rfl
  · rw [addPath_of_accept hw hacc] at hrun
    rcases addWalk_cases c (g.renamed w) g with hok | ⟨_, _, herr, -, hway⟩
    · rw [hok] at hrun
      cases hrun
    · rw [herr] at hrun
      cases hrun
      exact hway.imp_right (.addPath hw hacc)

theorem effect_merge {other h : Graph} (hroom : g.roomForMissing other = .ok ())
    (mid : g.MidMerge other h) : Effect (.merge other) g h := by
  obtain ⟨hnodes, hedges, htypes⟩ := roomForMissing_eq_ok.mp hroom
  exact .merge (roomForNodes_eq_ok.mp hnodes) (roomForEdges_eq_ok.mp hedges)
    (fun e he => roomForTypes_eq_ok.mp (htypes e he)) mid

theorem removeNode_yields (wf : g.WellFormed) (id : NodeId) :
    (removeNode id).Yields g (Effect (.removeNode id) g) := by
  cases hn : g.node? id with
  | none =>
      have hstale : g.extractNode? id = none := by rw [extractNode?, hn]
      exact yields_of_error (e := .unknownNode id) (by rw [removeNode, hstale])
  | some n =>
      have hout := wf.extractNode?_eq hn
      exact yields_of_ok (a := n.isolated) (by rw [removeNode, hout]) (.removeNode hn)

theorem removeEdge_yields (id : EdgeId) (g : Graph) :
    (removeEdge id).Yields g (Effect (.removeEdge id) g) := by
  refine .check_bind fun e hlive => ?_
  exact yields_of_ok rfl (.removeEdge (liveEdge_eq_ok.mp hlive))

theorem reverseEdge_yields (id : EdgeId) (g : Graph) :
    (reverseEdge id).Yields g (Effect (.reverseEdge id) g) := by
  refine .check_bind fun e hlive => ?_
  exact yields_of_ok rfl (.reverseEdge (liveEdge_eq_ok.mp hlive))

theorem retain_yields (wf : g.WellFormed) (keep : Node → Bool) :
    (retain keep).Yields g (Effect (.retain keep) g) := by
  -- what is taken out one node after the other is the same as one restriction
  have hpart : (g.retain fun _ n => keep n).2 = g.induced fun x => (g.node? x).any keep := by
    rw [wf.retain_eq]
  exact yields_of_ok rfl (hpart ▸ .retain)

theorem resolve_yields (c : Catalog) (g : Graph) :
    (resolve c).Yields g (Effect (.resolve c) g) :=
  yields_of_ok rfl .resolve

end Edit

namespace Command

variable {g g' : Graph} {k : Command}

/-- What a command leaves behind is the graph as it was or the effect of the command. -/
theorem run_cases (wf : g.WellFormed) (hother : k.OperandWellFormed) :
    k.run g = g ∨ k.Effect g (k.run g) := by
  cases k with
  | addNode name => exact (Edit.addNode_yields name g).discard.after
  | setLabel c id label => exact (Edit.setLabel_yields c id label g).discard.after
  | addEdge e => exact (Edit.addEdge_yields e g).discard.after
  | addPath c p =>
      show (Edit.addPath c p).after g = g ∨ Effect _ g ((Edit.addPath c p).after g)
      unfold Edit.after
      cases hrun : Edit.addPath c p g with
      | ok _ g' => exact .inr (Edit.addPath_effect hrun)
      | error e g' => exact Edit.addPath_error hrun
  | merge other =>
      show (discard (Edit.merge other)).after g = g
        ∨ Effect _ g ((discard (Edit.merge other)).after g)
      unfold Edit.after
      cases hrun : Edit.merge other g with
      | ok t g' =>
          obtain ⟨hroom, -, -, -, rfl⟩ := Edit.merge_eq_absorb (hother other rfl) hrun
          rw [Edit.discard_ok hrun]
          exact .inr (Edit.effect_merge hroom (.absorb g other))
      | error e g' =>
          rw [Edit.discard_error hrun]
          exact (Edit.merge_error (hother other rfl) hrun).imp_right
            fun ⟨hroom, mid⟩ => Edit.effect_merge hroom mid
  | removeNode id => exact (Edit.removeNode_yields wf id).discard.after
  | removeEdge id => exact (Edit.removeEdge_yields id g).discard.after
  | reverseEdge id => exact (Edit.reverseEdge_yields id g).after
  | retain keep => exact (Edit.retain_yields wf keep).discard.after
  | resolve c => exact (Edit.resolve_yields c g).discard.after

/-- A command that fails changes nothing if there are slots for what it would take. -/
theorem edit_error {e : GraphError} (wf : g.WellFormed) (hother : k.OperandWellFormed)
    (hslots : g.HasSlots (k.slots g).1 (k.slots g).2) (hrun : k.edit g = .error e g') : g' = g := by
  cases k with
  | addNode name => exact (Edit.addNode_yields name g).discard.of_error hrun
  | setLabel c id label => exact (Edit.setLabel_yields c id label g).discard.of_error hrun
  | addEdge d => exact (Edit.addEdge_yields d g).discard.of_error hrun
  | addPath c p =>
      replace hrun : Edit.addPath c p g = .error e g' := hrun
      rcases Edit.addPath_cases c p g with ⟨_, herr⟩ | ⟨w, hw, hacc⟩
      · rw [herr] at hrun
        cases hrun
        rfl
      -- the walk is added as a whole then
      · rw [slots, hw] at hslots
        dsimp only at hslots
        rw [← Walk.length_steps_rename w (g.renamingFor w).apply] at hslots
        rw [Edit.addPath_of_accept hw hacc,
          Edit.addWalk_ok (Graph.hasSlots_extend.mpr hslots)] at hrun
        cases hrun
  | merge other =>
      replace hrun : (discard (Edit.merge other)) g = .error e g' := hrun
      cases hroom : g.roomForMissing other with
      | error _ =>
          rw [Edit.discard_error (Edit.merge_refused hroom)] at hrun
          cases hrun
          rfl
      | ok _ =>
          rw [Edit.discard_ok (Edit.merge_ok (hother other rfl) hroom hslots)] at hrun
          cases hrun
  | removeNode id => exact (Edit.removeNode_yields wf id).discard.of_error hrun
  | removeEdge id => exact (Edit.removeEdge_yields id g).discard.of_error hrun
  | reverseEdge id => exact (Edit.reverseEdge_yields id g).of_error hrun
  | retain keep => exact (Edit.retain_yields wf keep).discard.of_error hrun
  | resolve c => exact (Edit.resolve_yields c g).discard.of_error hrun

/-- Every effect keeps a graph well formed. -/
theorem Effect.wellFormed (effect : k.Effect g g') (wf : g.WellFormed)
    (hother : k.OperandWellFormed) : g'.WellFormed := by
  cases effect with
  | addNode free _ => exact wf.insertNode free rfl rfl
  | setLabel _ => exact wf.offerLabel _ _ _
  | addEdge free src dest _ _ =>
      exact wf.insertEdge free (by rw [src]; rfl) (by rw [dest]; rfl)
  | addPath _ accepted way =>
      obtain ⟨hfree, hnodup⟩ := Graph.fresh_of_accept accepted
      exact way.wellFormed wf hfree hnodup
  | merge _ _ _ mid => exact mid.wellFormed wf (hother _ rfl)
  | removeNode _ => exact wf.induced _
  | removeEdge _ => exact wf.dropEdge _
  | reverseEdge live => exact wf.turnEdge live
  | retain => exact wf.induced _
  | resolve => exact wf.refresh _

/-- No effect changes the budgets. -/
theorem Effect.limits_eq (effect : k.Effect g g') : g'.limits = g.limits := by
  cases effect with
  | addPath _ _ way => exact way.limits_eq
  | merge _ _ _ mid => exact mid.limits_eq
  | removeEdge _ => exact Graph.limits_dropEdge _ _
  | _ => rfl

/-- What holds of a graph and of all effects of a command holds of what the command leaves
    behind. -/
theorem run_of_effect {P : Graph → Prop} (wf : g.WellFormed) (hother : k.OperandWellFormed)
    (hg : P g) (heffect : ∀ g', k.Effect g g' → P g') : P (k.run g) := by
  rcases run_cases wf hother with hsame | hrun
  · rwa [hsame]
  · exact heffect _ hrun

/-- A command keeps a graph well formed, whether it succeeds or fails. -/
theorem run_wellFormed (wf : g.WellFormed) (hother : k.OperandWellFormed) :
    (k.run g).WellFormed :=
  run_of_effect wf hother wf fun _ heffect => heffect.wellFormed wf hother

/-- No command leaves slots beyond the limit. -/
theorem run_hasSlots (wf : g.WellFormed) (hother : k.OperandWellFormed) (hslots : g.HasSlots 0 0) :
    (k.run g).HasSlots 0 0 := by
  have hsame (hsizes : ∀ g', k.Effect g g' →
      g'.nodes.size = g.nodes.size ∧ g'.edges.size = g.edges.size) : (k.run g).HasSlots 0 0 :=
    run_of_effect (P := (·.HasSlots 0 0)) wf hother hslots fun g' heffect =>
      (Graph.hasSlots_iff (hsizes g' heffect).1 (hsizes g' heffect).2).mpr hslots
  cases k with
  | addNode name =>
      exact (Edit.Keeps.bind (.check _) fun _ => .bind (.check _) fun _ =>
        Edit.keeps_slots_newNode _).discard g hslots
  | setLabel c id label => exact (Edit.keeps_slots_setLabel c id label).discard g hslots
  | addEdge e =>
      exact (Edit.Keeps.bind (.check _) fun _ => .bind (Edit.Keeps.check _).discard fun _ =>
        .bind (Edit.Keeps.check _).discard fun _ => .bind (.check _) fun _ =>
          .bind (.check _) fun _ => Edit.keeps_slots_newEdge e).discard g hslots
  | addPath c p => exact Edit.keeps_slots_addPath c p g hslots
  | merge other => exact (Edit.keeps_slots_merge other).discard g hslots
  -- the other commands give out no slots
  | removeNode id =>
      refine hsame fun _ heffect => ?_
      cases heffect
      exact ⟨Slots.size_sift _ _, Slots.size_sift _ _⟩
  | removeEdge id =>
      refine hsame fun _ heffect => ?_
      cases heffect
      exact ⟨Graph.size_nodes_dropEdge _ _, Graph.size_edges_dropEdge _ _⟩
  | reverseEdge id =>
      refine hsame fun _ heffect => ?_
      cases heffect
      exact Graph.sizes_turnEdge _ _ _
  | retain keep =>
      refine hsame fun _ heffect => ?_
      cases heffect
      exact ⟨Slots.size_sift _ _, Slots.size_sift _ _⟩
  | resolve c =>
      refine hsame fun _ heffect => ?_
      cases heffect
      exact ⟨Slots.size_map _ _, Slots.size_map _ _⟩

theorem runAll_cons (k : Command) (rest : List Command) (g : Graph) :
    runAll (k :: rest) g = runAll rest (k.run g) :=
  rfl

theorem runAll_wellFormed {history : List Command} (wf : g.WellFormed)
    (hother : ∀ k ∈ history, k.OperandWellFormed) : (runAll history g).WellFormed := by
  induction history generalizing g with
  | nil => exact wf
  | cons k rest ih =>
      obtain ⟨hk, hrest⟩ := List.forall_mem_cons.mp hother
      exact ih (run_wellFormed wf hk) hrest

/-- No history changes the budgets. -/
theorem limits_runAll {history : List Command} (wf : g.WellFormed)
    (hother : ∀ k ∈ history, k.OperandWellFormed) :
    (runAll history g).limits = g.limits := by
  induction history generalizing g with
  | nil => rfl
  | cons k rest ih =>
      obtain ⟨hk, hrest⟩ := List.forall_mem_cons.mp hother
      refine (ih (run_wellFormed wf hk) hrest).trans ?_
      exact run_of_effect (P := fun h => h.limits = g.limits) wf hk rfl
        fun _ heffect => heffect.limits_eq

end Command

end PatternGraph
