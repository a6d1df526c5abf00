/-
  PatternGraph.Proofs.Questions

  When the questions that edits begin with are answered, as conditions on the
  graph; and from them, when a walk is accepted.
-/
import PatternGraph.Edit.Basic
import PatternGraph.Graph.Acceptance

namespace PatternGraph.Graph

variable {g : Graph}

/-! ## Single questions -/

theorem bind_eq_ok {α β : Type} {x : Except GraphError α} {next : α → Except GraphError β} {b : β} :
    (x >>= next) = .ok b ↔ ∃ a, x = .ok a ∧ next a = .ok b := by
  cases x with
  | error e => exact ⟨nofun, nofun⟩
  | ok a => exact ⟨fun h => ⟨a, rfl, h⟩, fun ⟨_, ha, h⟩ => by cases ha; exact h⟩

/-- Questions about the elements of a list are answered when each of them is. -/
theorem forM_eq_ok {γ : Type} {q : γ → Except GraphError Unit} {l : List γ} {u : Unit} :
    l.forM q = .ok u ↔ ∀ x ∈ l, q x = .ok () := by
  induction l with
  | nil => exact ⟨fun _ _ hx => absurd hx List.not_mem_nil, fun _ => rfl⟩
  | cons x rest ih =>
      have hcons : (x :: rest).forM q = (q x >>= fun _ => rest.forM q) := rfl
      rw [hcons, bind_eq_ok, List.forall_mem_cons, ih]
      exact ⟨fun ⟨⟨⟩, hx, hrest⟩ => ⟨hx, hrest⟩, fun ⟨hx, hrest⟩ => ⟨⟨⟩, hx, hrest⟩⟩

theorem freeNodeName_eq_ok {name : String} {u : Unit} :
    g.freeNodeName name = .ok u ↔ g.hasNode name = false := by
  unfold freeNodeName
  cases g.hasNode name <;> simp

theorem freeEdgeName_eq_ok {name : String} {u : Unit} :
    g.freeEdgeName name = .ok u ↔ g.hasEdge name = false := by
  unfold freeEdgeName
  cases g.hasEdge name <;> simp

theorem liveNode_eq_ok {id : NodeId} {n : Node} : g.liveNode id = .ok n ↔ g.node? id = some n := by
  unfold liveNode
  cases g.node? id <;> simp

theorem liveEdge_eq_ok {id : EdgeId} {e : Edge} : g.liveEdge id = .ok e ↔ g.edge? id = some e := by
  unfold liveEdge
  cases g.edge? id <;> simp

theorem nodeNamed_eq_ok {name : String} {id : NodeId} :
    g.nodeNamed name = .ok id ↔ g.nodeNamed? name = some id := by
  unfold nodeNamed
  cases g.nodeNamed? name <;> simp

/-- A bound refuses what exceeds it and nothing else. -/
theorem bound_eq_ok {max count : Nat} {e : GraphError} {u : Unit} :
    (if max < count then .error e else .ok () : Except GraphError Unit) = .ok u ↔ count ≤ max := by
  split
  next h => exact ⟨nofun, fun hle => absurd hle (Nat.not_le.mpr h)⟩
  next h => exact ⟨fun _ => Nat.not_lt.mp h, fun _ => rfl⟩

theorem roomForNodes_eq_ok {extra : Nat} {u : Unit} :
    g.roomForNodes extra = .ok u ↔ g.nodeCount + extra ≤ g.limits.maxNodes :=
  bound_eq_ok

theorem roomForEdges_eq_ok {extra : Nat} {u : Unit} :
    g.roomForEdges extra = .ok u ↔ g.edgeCount + extra ≤ g.limits.maxEdges :=
  bound_eq_ok

theorem roomForTypes_eq_ok {count : Nat} {u : Unit} :
    g.roomForTypes count = .ok u ↔ count ≤ g.limits.maxTypesPerEdge :=
  bound_eq_ok

theorem checkRange_eq_ok {e : PathEdge} {u : Unit} :
    e.checkRange = .ok u ↔ e.hops.inverted? = none := by
  unfold PathEdge.checkRange
  cases e.hops.inverted? <;> simp

theorem freshEdgeName_eq_ok {seen : List String} {name : String} {u : Unit} :
    g.freshEdgeName seen name = .ok u ↔ name ∉ seen ∧ g.hasEdge name = false := by
  unfold freshEdgeName
  by_cases h : name ∈ seen <;> simp [h, freeEdgeName_eq_ok]

/-! ## Walks that are accepted -/

/-- What a relationship must be, apart from its place in the walk, to be accepted. -/
def Admits (g : Graph) (e : PathEdge) : Prop :=
  g.hasEdge e.name = false ∧ e.hops.inverted? = none ∧ e.types.length ≤ g.limits.maxTypesPerEdge

theorem acceptEdges_eq_ok {seen : List String} {edges : List PathEdge} {u : Unit} :
    g.acceptEdges seen edges = .ok u ↔
      (∀ e ∈ edges, e.name ∉ seen ∧ g.Admits e) ∧ (edges.map PathEdge.name).Nodup := by
  induction edges generalizing seen with
  | nil => simp [acceptEdges]
  | cons e rest ih =>
      rw [List.forall_mem_cons, List.map_cons, List.nodup_cons]
      simp only [acceptEdges, bind_eq_ok, freshEdgeName_eq_ok, checkRange_eq_ok,
        roomForTypes_eq_ok, ih, List.mem_cons, not_or, List.mem_map, not_exists, not_and, Admits]
      refine ⟨?_, ?_⟩
      · rintro ⟨⟨⟩, ⟨hseen, hfree⟩, ⟨⟩, hrange, ⟨⟩, htypes, hrest, hnodup⟩
        exact ⟨⟨⟨hseen, hfree, hrange, htypes⟩, fun d hd => ⟨(hrest d hd).1.2, (hrest d hd).2⟩⟩,
          fun d hd heq => (hrest d hd).1.1 heq, hnodup⟩
      · rintro ⟨⟨⟨hseen, hfree, hrange, htypes⟩, hrest⟩, hnew, hnodup⟩
        exact ⟨⟨⟩, ⟨hseen, hfree⟩, ⟨⟩, hrange, ⟨⟩, htypes,
          fun d hd => ⟨⟨hnew d hd, (hrest d hd).1⟩, (hrest d hd).2⟩, hnodup⟩

/-- A walk is accepted when its relationships are new, different and admitted, and there is room
    for the nodes and edges that it adds. -/
theorem accept_eq_ok {w : Walk} {u : Unit} :
    g.accept w = .ok u ↔
      (∀ e ∈ w.edges, g.Admits e) ∧ (w.edges.map PathEdge.name).Nodup ∧
        g.nodeCount + (g.newNodeNames w).length ≤ g.limits.maxNodes ∧
        g.edgeCount + w.steps.length ≤ g.limits.maxEdges := by
  simp only [accept, bind_eq_ok, acceptEdges_eq_ok, roomForNodes_eq_ok, roomForEdges_eq_ok,
    List.not_mem_nil, not_false_eq_true, true_and]
  refine ⟨?_, ?_⟩
  · rintro ⟨⟨⟩, ⟨hedges, hnodup⟩, ⟨⟩, hnodes, hroom⟩
    exact ⟨hedges, hnodup, hnodes, hroom⟩
  · rintro ⟨hedges, hnodup, hnodes, hroom⟩
    exact ⟨⟨⟩, ⟨hedges, hnodup⟩, ⟨⟩, hnodes, hroom⟩

/-- The relationships of a walk that is accepted are new and different. -/
theorem fresh_of_accept {w : Walk} (accepted : g.accept w = .ok ()) :
    (∀ e ∈ w.edges, g.hasEdge e.name = false) ∧ (w.edges.map PathEdge.name).Nodup := by
  obtain ⟨hadmits, hnodup, -⟩ := accept_eq_ok.mp accepted
  exact ⟨fun e he => (hadmits e he).1, hnodup⟩

end PatternGraph.Graph
