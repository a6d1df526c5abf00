/-
  PatternGraph.Proofs.MergeEffect

  The exact effect of a merge.  Either a budget would be exceeded by what is
  missing; then the merge says which, the first that is asked for, and nothing
  happens.  Or the missing nodes and edges take the next slots in their order,
  each edge between the nodes that bear the names of its ends, and nothing is
  left that the graph would lack of the other one.
-/
import PatternGraph.Proofs.Association
import PatternGraph.Proofs.Listing

namespace PatternGraph

namespace Graph

variable {g g' h other : Graph} {made : List Edge} {e d : Edge} {x : NodeId} {n : Node}
  {err : GraphError}

/-! ## Refusals -/

/-- Why a merge is refused.  The budgets are asked in this order, and of the edges with too many
    types it is the first that is told. -/
inductive Refuses (g other : Graph) : GraphError → Prop where
  | nodes (excess : g.limits.maxNodes < g.nodeCount + (g.missingNodes other).length) :
      Refuses g other (.tooLarge .nodes (g.nodeCount + (g.missingNodes other).length)
        g.limits.maxNodes)
  | edges (fit : g.nodeCount + (g.missingNodes other).length ≤ g.limits.maxNodes)
      (excess : g.limits.maxEdges < g.edgeCount + (g.missingEdges other).length) :
      Refuses g other (.tooLarge .edges (g.edgeCount + (g.missingEdges other).length)
        g.limits.maxEdges)
  | types {e : Edge} (fit : g.nodeCount + (g.missingNodes other).length ≤ g.limits.maxNodes)
      (fits : g.edgeCount + (g.missingEdges other).length ≤ g.limits.maxEdges)
      (first : (g.missingEdges other).find? (g.limits.maxTypesPerEdge < ·.types.length) = some e) :
      Refuses g other (.tooLarge .typesOnEdge e.types.length g.limits.maxTypesPerEdge)

/-- Of edges whose types are counted one after the other the first with too many is refused. -/
theorem forM_roomForTypes_eq_error {edges : List Edge} :
    (edges.forM fun e => g.roomForTypes e.types.length) = .error err ↔
      ∃ e, edges.find? (g.limits.maxTypesPerEdge < ·.types.length) = some e ∧
        err = .tooLarge .typesOnEdge e.types.length g.limits.maxTypesPerEdge := by
  induction edges with
  | nil => exact ⟨nofun, nofun⟩
  | cons e rest ih =>
      have hcons : ((e :: rest).forM fun e => g.roomForTypes e.types.length)
          = g.roomForTypes e.types.length >>= fun _ =>
              rest.forM fun e => g.roomForTypes e.types.length := rfl
      by_cases hexcess : g.limits.maxTypesPerEdge < e.types.length
      · have hroom : g.roomForTypes e.types.length
            = .error (.tooLarge .typesOnEdge e.types.length g.limits.maxTypesPerEdge) :=
          if_pos hexcess
        rw [hcons, hroom, List.find?_cons_of_pos (by simpa using hexcess)]
        exact ⟨fun h => ⟨e, rfl, (Except.error.inj h).symm⟩, by rintro ⟨_, ⟨⟩, rfl⟩; rfl⟩
      · have hroom : g.roomForTypes e.types.length = .ok () := if_neg hexcess
        rw [hcons, hroom, List.find?_cons_of_neg (by simpa using hexcess)]
        exact ih

theorem roomForMissing_eq_error : g.roomForMissing other = .error err ↔ g.Refuses other err := by
  have hnodes : g.nodeCount + (g.missingNodes other).length ≤ g.limits.maxNodes →
      g.roomForNodes (g.missingNodes other).length = .ok () := roomForNodes_eq_ok.mpr
  have hedges : g.edgeCount + (g.missingEdges other).length ≤ g.limits.maxEdges →
      g.roomForEdges (g.missingEdges other).length = .ok () := roomForEdges_eq_ok.mpr
  rw [roomForMissing]
  constructor
  · intro hroom
    by_cases fit : g.nodeCount + (g.missingNodes other).length ≤ g.limits.maxNodes
    · rw [hnodes fit] at hroom
      by_cases fits : g.edgeCount + (g.missingEdges other).length ≤ g.limits.maxEdges
      · rw [hedges fits] at hroom
        obtain ⟨e, hfirst, rfl⟩ := forM_roomForTypes_eq_error.mp hroom
        exact .types fit fits hfirst
      · have hexcess := Nat.not_le.mp fits
        rw [show g.roomForEdges _ = .error _ from if_pos hexcess] at hroom
        cases hroom
        exact .edges fit hexcess
    · have hexcess := Nat.not_le.mp fit
      rw [show g.roomForNodes _ = .error _ from if_pos hexcess] at hroom
      cases hroom
      exact .nodes hexcess
  · intro hrefuses
    cases hrefuses with
    | nodes excess =>
      rw [show g.roomForNodes _ = .error _ from if_pos excess]
      rfl
    | edges fit excess =>
      rw [hnodes fit, show g.roomForEdges _ = .error _ from if_pos excess]
      rfl
    | types fit fits first =>
      rw [hnodes fit, hedges fits]
      exact forM_roomForTypes_eq_error.mpr ⟨_, first, rfl⟩

/-- A merge is refused when a budget would be exceeded, and for no other reason. -/
theorem exists_refuses_iff :
    (∃ err, g.Refuses other err) ↔
      g.limits.maxNodes < g.nodeCount + (g.missingNodes other).length ∨
        g.limits.maxEdges < g.edgeCount + (g.missingEdges other).length ∨
        ∃ e ∈ g.missingEdges other, g.limits.maxTypesPerEdge < e.types.length := by
  have hroom : (∃ err, g.Refuses other err) ↔ ¬ g.roomForMissing other = .ok () := by
    simp only [← roomForMissing_eq_error]
    cases g.roomForMissing other <;> simp
  rw [hroom, roomForMissing_eq_ok]
  simp only [roomForNodes_eq_ok, roomForEdges_eq_ok, roomForTypes_eq_ok, not_and_or, not_forall,
    Nat.not_le, exists_prop]

/-! ## What is taken in -/

/-- An edge is a copy of an edge of another graph: the same between the nodes here that bear the
    names of its ends. -/
def Copies (g other : Graph) (e d : Edge) : Prop :=
  ∃ a b src dest, other.endNames? e = some (a, b) ∧ g.nodeNamed? a = some src ∧
    g.nodeNamed? b = some dest ∧ d = e.between src dest

/-- An edge has one copy, since a name is found at one node. -/
theorem copies_rightUnique : Relator.RightUnique (g.Copies other) := by
  rintro e d d' ⟨a, b, src, dest, hends, hsrc, hdest, rfl⟩
    ⟨a', b', src', dest', hends', hsrc', hdest', rfl⟩
  obtain ⟨rfl, rfl⟩ := Prod.mk.inj (Option.some.inj (hends.symm.trans hends'))
  rw [Option.some.inj (hsrc.symm.trans hsrc'), Option.some.inj (hdest.symm.trans hdest')]

theorem copies_congr (hslots : g.nameSlots = h.nameSlots) : g.Copies = h.Copies := by
  funext other e d
  simp only [Copies, nodeNamed?_congr hslots]

/-- What a graph becomes when it takes in what it lacks of another one; `made` are the new
    edges. -/
structure TakesIn (g other : Graph) (made : List Edge) (g' : Graph) : Prop where
  /-- The slots of nodes are the old ones, and after them one for each missing node, without the
  edges that it has there.  Each node lists the new edges last. -/
  nodes : g'.nodes.cells.toList
    = (g.nodes.cells.toList ++ (g.missingNodes other).map fun n => some n.isolated).mapIdx
        fun i cell => cell.map
          (·.gain (g.handlesAt made Edge.src ⟨i⟩) (g.handlesAt made Edge.dest ⟨i⟩))
  /-- The slots of edges are the old ones, and after them those of the new edges. -/
  edges : g'.edges.cells.toList = g.edges.cells.toList ++ made.map some
  /-- The new edges are copies of the missing ones, in their order. -/
  copied : List.Forall₂ (g'.Copies other) (g.missingEdges other) made
  wellFormed : g'.WellFormed
  limits : g'.limits = g.limits
  node_count : g'.nodeCount = g.nodeCount + (g.missingNodes other).length
  edge_count : g'.edgeCount = g.edgeCount + (g.missingEdges other).length
  /-- A node that was there is as it was, with the new edges at the ends of its lists. -/
  node_kept : ∀ x n, g.node? x = some n → g'.node? x
    = some (n.gain (g.handlesAt made Edge.src x) (g.handlesAt made Edge.dest x))
  edge_kept : ∀ i e, g.edge? i = some e → g'.edge? i = some e

/-- The edges that a graph copies from another one. -/
def copiesOf (g other : Graph) : List Edge :=
  (g.missingEdges other).map ((g.withMissingNodes other).transplant other)

theorem edges_withMissingNodes (g other : Graph) : (g.withMissingNodes other).edges = g.edges :=
  edges_insertNodes g _

theorem handlesAt_withMissingNodes (g other : Graph) :
    (g.withMissingNodes other).handlesAt = g.handlesAt :=
  handlesAt_insertNodes g _

theorem WellFormed.copies_missingEdges (wf' : other.WellFormed) :
    List.Forall₂ ((g.absorb other).Copies other) (g.missingEdges other) (g.copiesOf other) := by
  rw [copiesOf, List.forall₂_map_right_iff, List.forall₂_same]
  intro e he
  obtain ⟨⟨m, hm⟩, n, hn⟩ := wf'.live_of_mem (List.mem_filter.mp he).1
  have hsrc := nameOf?_of_live hm
  have hdest := nameOf?_of_live hn
  have hslots : (g.absorb other).nameSlots = (g.withMissingNodes other).nameSlots :=
    nameSlots_insertEdges _ _
  refine ⟨m.name, n.name, _, _, ?_, ?_, ?_, rfl⟩
  · rw [endNames?, hsrc, hdest]
  · rw [nodeNamed?_congr hslots]
    exact nodeNamed?_nodeLike hsrc (hasNode_withMissingNodes hsrc)
  · rw [nodeNamed?_congr hslots]
    exact nodeNamed?_nodeLike hdest (hasNode_withMissingNodes hdest)

/-- What a merge within the budgets makes of a graph. -/
theorem WellFormed.takesIn_absorb (wf : g.WellFormed) (wf' : other.WellFormed) :
    g.TakesIn other (g.copiesOf other) (g.absorb other) where
  nodes := by
    have hcells : (g.withMissingNodes other).nodes.cells.toList
        = g.nodes.cells.toList ++ (g.missingNodes other).map fun n => some n.isolated := by
      rw [Graph.withMissingNodes, cells_nodes_insertNodes, List.map_map]
      rfl
    have hadded := cells_nodes_insertEdges (g.withMissingNodes other) (g.copiesOf other)
    rwa [hcells, handlesAt_withMissingNodes] at hadded
  edges := by
    have hadded := cells_edges_insertEdges (g.withMissingNodes other) (g.copiesOf other)
    rwa [edges_withMissingNodes] at hadded
  copied := wf'.copies_missingEdges
  wellFormed := wf.absorb wf'
  limits := limits_absorb g other
  node_count := by rw [nodeCount_absorb, length_missingNodes]
  edge_count := by rw [edgeCount_absorb, length_missingEdges]
  node_kept x n hn := by
    have hold : (g.withMissingNodes other).node? x = some n := node?_insertNodes_of_live hn
    have hadded := node?_insertEdges (g.withMissingNodes other) (g.copiesOf other) x
    rwa [hold, handlesAt_withMissingNodes] at hadded
  edge_kept i e he := by
    have hold : (g.withMissingNodes other).edge? i = some e := by
      rw [edge?, edges_withMissingNodes]
      exact he
    exact edge?_insertEdges_of_live hold

namespace TakesIn

theorem nameSlots_eq (takes : g.TakesIn other made g') :
    g'.nameSlots = g.nameSlots ++ (g.missingNodes other).map fun n => some n.name := by
  rw [nameSlots_of_cells takes.nodes fun _ _ => rfl, List.map_append, List.map_map]
  rfl

/-- The description is exact: one graph fits it. -/
theorem unique {made' : List Edge} (takes : g.TakesIn other made g')
    (takes' : g.TakesIn other made' h) : g' = h := by
  have hslots : g'.nameSlots = h.nameSlots := takes.nameSlots_eq.trans takes'.nameSlots_eq.symm
  have hcopied := takes'.copied
  rw [← copies_congr hslots] at hcopied
  obtain rfl : made = made' := copies_rightUnique.forall₂ takes.copied hcopied
  exact takes.wellFormed.eq_of_cells takes'.wellFormed (takes.nodes.trans takes'.nodes.symm)
    (takes.edges.trans takes'.edges.symm) (takes.limits.trans takes'.limits.symm)

end TakesIn

/-! ## Nothing is left -/

theorem lackingNodes_self (g : Graph) : g.lackingNodes g.nodeContents = [] := by
  refine List.filter_eq_nil_iff.mpr fun d hd => ?_
  rw [hasNode_iff_mem_nodeNames.mpr (List.mem_map_of_mem hd)]
  decide

theorem lackingEdges_self (g : Graph) : g.lackingEdges g.edgeContents = [] := by
  refine List.filter_eq_nil_iff.mpr fun d hd => ?_
  rw [hasEdge_iff_mem_edgeNames.mpr (List.mem_map_of_mem hd)]
  decide

/-- Once merged, a graph has nothing left that is missing. -/
theorem lackingNodes_absorb_self (g other : Graph) :
    (g.absorb other).lackingNodes other.nodeContents = [] := by
  rw [lackingNodes_absorb, lackingNodes_self]
  rfl

theorem WellFormed.lackingEdges_absorb_self (wf : g.WellFormed) (wf' : other.WellFormed) :
    (g.absorb other).lackingEdges other.edgeContents = [] := by
  rw [wf.lackingEdges_absorb wf', lackingEdges_self]
  rfl

/-- A graph within its budgets that lacks nothing of another one merges it without a change. -/
theorem WithinBudget.merge_eq_self (within : g.WithinBudget) (hslots : g.HasSlots 0 0)
    (wf' : other.WellFormed) (hnodes : g.lackingNodes other.nodeContents = [])
    (hedges : g.lackingEdges other.edgeContents = []) : Edit.merge other g = .ok ⟨0, 0⟩ g := by
  have hsame : g.absorb other = g := by
    rw [absorb_eq_graft, hnodes, hedges]
    rfl
  rw [wf'.merge_eq_ok hslots, hnodes, hedges, hsame]
  exact ⟨⟨within.nodes, within.edges, nofun, hslots⟩, rfl, rfl⟩

end Graph

namespace Reachable

/-- A merge of graphs that can come up has exactly this effect where there are slots for what is
    missing.  It is refused when a budget would be exceeded by that, and then nothing happens.
    Otherwise what is missing is taken in and counted, in the one way that fits the description, and
    a second merge takes in nothing. -/
theorem merge_exact {g other : Graph} (reach : Reachable g) (hother : Reachable other)
    (hslots : g.HasSlots (g.missingNodes other).length (g.missingEdges other).length) :
    (∀ err g', Edit.merge other g = .error err g' ↔ g.Refuses other err ∧ g' = g) ∧
      ((∃ err, g.Refuses other err) ↔
        g.limits.maxNodes < g.nodeCount + (g.missingNodes other).length ∨
          g.limits.maxEdges < g.edgeCount + (g.missingEdges other).length ∨
          ∃ e ∈ g.missingEdges other, g.limits.maxTypesPerEdge < e.types.length) ∧
      ((∀ err, ¬ g.Refuses other err) →
        ∃ made g', Edit.merge other g
            = .ok ⟨(g.missingNodes other).length, (g.missingEdges other).length⟩ g' ∧
          g.TakesIn other made g' ∧ (∀ made' h, g.TakesIn other made' h → h = g') ∧
          Edit.merge other g' = .ok ⟨0, 0⟩ g') := by
  have wf := reach.wellFormed
  have wf' := hother.wellFormed
  refine ⟨fun err g' => ?_, Graph.exists_refuses_iff, fun hfit => ?_⟩
  · rw [← Graph.roomForMissing_eq_error]
    cases hroom : g.roomForMissing other with
    | error e => simp [Edit.merge_refused hroom, eq_comm]
    | ok _ => simp [Edit.merge_ok wf' hroom hslots]
  · simp only [← Graph.roomForMissing_eq_error] at hfit
    cases hroom : g.roomForMissing other with
    | error err => exact absurd hroom (hfit err)
    | ok _ =>
      have hmerge := Edit.merge_ok wf' hroom hslots
      have hkept := (Edit.keeps_slots_merge other).of_ok reach.sound.slots hmerge
      obtain ⟨hnodes, hedges, htypes⟩ := Graph.roomForMissing_eq_ok.mp hroom
      -- nothing is missing any more, so the second merge only asks whether what is there fits
      have within : (g.absorb other).WithinBudget :=
        reach.withinBudget.midMerge (Graph.roomForNodes_eq_ok.mp hnodes)
          (Graph.roomForEdges_eq_ok.mp hedges)
          (fun e he => Graph.roomForTypes_eq_ok.mp (htypes e he)) (.absorb g other)
      have takes := wf.takesIn_absorb wf'
      exact ⟨_, _, hmerge, takes, fun _ _ takes' => takes'.unique takes,
        within.merge_eq_self hkept wf' (Graph.lackingNodes_absorb_self g other)
          (wf.lackingEdges_absorb_self wf')⟩

/-- The other graph describes a node of the first one differently and names an edge as that names a
    node and a node as that names an edge; both have a vacated slot and an edge that was turned
    round.  Under smaller budgets the first of two edges with too many types is told. -/
theorem merge_exact_of_overlap :
    let path (a la r b lb : String) (types : List String) : Command := .addPath .empty
      ⟨[.node ⟨a, some la⟩, .edge ⟨r, .outgoing, types, none⟩, .node ⟨b, some lb⟩]⟩
    let history := [.addNode "z", path "x" "A" "r" "y" "A" ["R"],
      .addEdge ⟨"s", ⟨2⟩, ⟨2⟩, [], [], false, .single⟩, .removeNode ⟨0⟩, .reverseEdge ⟨0⟩]
    let g := Command.runAll history (.empty ⟨4, 4, 2⟩)
    let other := Command.runAll [.addNode "z", path "y" "B" "r" "u" "B" [],
      path "y" "B" "x" "r" "C" ["S", "T"], path "u" "B" "q" "u" "B" ["S", "T"], .removeNode ⟨0⟩,
      .reverseEdge ⟨1⟩] (.empty .standard)
    let g' := (Edit.merge other).after g
    let small := Command.runAll history (.empty ⟨4, 4, 1⟩)
    (∃ made, g.TakesIn other made g') ∧ Edit.merge other g = .ok ⟨2, 2⟩ g' ∧
      Edit.merge other g' = .ok ⟨0, 0⟩ g' ∧
      g'.node? ⟨2⟩ = some ⟨"y", some "A", .unresolved "A", #[⟨1⟩, ⟨2⟩], #[⟨1⟩, ⟨0⟩]⟩ ∧
      g'.edge? ⟨2⟩ = some ⟨"x", ⟨4⟩, ⟨2⟩, ["S", "T"], [.unresolved "S", .unresolved "T"], false,
        .single⟩ ∧
      Edit.merge other small = .error (.tooLarge .typesOnEdge 2 1) small := by
  intro path history g other g' small
  have reach : Reachable g := (Reachable.empty _).runAll (by simp [history, path, Command.operand?])
    (by simp [history, path, Command.edge?, Edge.made_iff])
  have hother : Reachable other := (Reachable.empty _).runAll (by simp [path, Command.operand?])
    (by simp [path, Command.edge?, Edge.made_iff])
  have hsmall : Reachable small :=
    (Reachable.empty _).runAll (by simp [history, path, Command.operand?])
    (by simp [history, path, Command.edge?, Edge.made_iff])
  have hrun : Edit.merge other g = .ok ⟨2, 2⟩ g' := Edit.ok_after_of_outcome (by decide +kernel)
  obtain ⟨-, hrefused, hdone⟩ := reach.merge_exact hother (by decide +kernel)
  have hfit : ∀ err, ¬ g.Refuses other err := by
    intro err herr
    have hexceeded := hrefused.mp ⟨err, herr⟩
    revert hexceeded
    decide +kernel
  obtain ⟨made, h, hmerge, takes, -, hagain⟩ := hdone hfit
  obtain ⟨-, rfl⟩ := EStateM.Result.ok.inj (hrun.symm.trans hmerge)
  have hfirst : (small.missingEdges other).find? (small.limits.maxTypesPerEdge < ·.types.length)
      = some ⟨"x", ⟨3⟩, ⟨1⟩, ["S", "T"], [.unresolved "S", .unresolved "T"], false, .single⟩ := by
    decide +kernel
  have hmax : small.limits.maxTypesPerEdge = 1 := by decide +kernel
  have hrefuses := Graph.Refuses.types (by decide +kernel) (by decide +kernel) hfirst
  rw [hmax] at hrefuses
  exact ⟨⟨made, takes⟩, hrun, hagain, by decide +kernel, by decide +kernel,
    ((hsmall.merge_exact hother (by decide +kernel)).1 _ _).mpr ⟨hrefuses, rfl⟩⟩

end Reachable

end PatternGraph
