/-
  PatternGraph.Proofs.Acceptance

  Which paths a graph accepts, said of a path as it is written.  The graph asks
  its questions of the walk after anonymous names were replaced.  A replacement
  keeps names apart and is never bound, so what is asked of the replaced names
  may be asked of the written ones: an anonymous relationship is always new, an
  anonymous node always counts, and all others are looked up as they are
  written.  What was counted beforehand is what the graph grows by.
-/
import PatternGraph.Proofs.Anonymity
import PatternGraph.Proofs.Budgets

namespace PatternGraph

namespace Graph

variable {g : Graph} {w : Walk} {f : String → String} {p : Path}

/-- How many nodes a path brings: its different anonymous ones, and of the others the different
    ones that the graph lacks. -/
def arrivals (g : Graph) (p : Path) : Nat :=
  ((p.nodes.map PathNode.name).filter isAnonymous).eraseDups.length
    + ((p.nodes.map PathNode.name).filter fun a => !isAnonymous a && !g.hasNode a).eraseDups.length

/-- What a path must be for a graph to accept it. -/
structure Accepts (g : Graph) (p : Path) : Prop where
  alternates : p.Alternates
  /-- The relationships have different names. -/
  edge_names : (p.edges.map PathEdge.name).Nodup
  /-- No edge of the graph bears one of these names, unless it is anonymous. -/
  edges_new : ∀ e ∈ p.edges, isAnonymous e.name = false → g.hasEdge e.name = false
  /-- No written range ends below its start, which is one where none is written. -/
  ranges : ∀ e ∈ p.edges, ∀ r stop, e.range = some r → r.stop = some stop → r.start.getD 1 ≤ stop
  types : ∀ e ∈ p.edges, e.types.length ≤ g.limits.maxTypesPerEdge
  node_room : g.nodeCount + g.arrivals p ≤ g.limits.maxNodes
  edge_room : g.edgeCount + p.edges.length ≤ g.limits.maxEdges

/-! ## Questions about replaced names -/

theorem edges_rename (w : Walk) (f : String → String) :
    (w.rename f).edges = w.edges.map fun e => { e with name := f e.name } := by
  simp [Walk.rename, Walk.edges]

namespace KeepsApart

/-- The name that stands for a written one is free for an edge unless the written one is bound and
    not anonymous. -/
theorem hasEdge_eq_false_iff {a : String} (apart : g.KeepsApart w f) (ha : a ∈ w.names) :
    g.hasEdge (f a) = false ↔ (isAnonymous a = false → g.hasEdge a = false) := by
  cases hanon : isAnonymous a with
  | true => simp [apart.hasEdge_eq_false ha hanon]
  | false => simp [apart.kept a ha (.inl hanon)]

theorem nodup_edgeNames_iff (apart : g.KeepsApart w f) :
    ((w.rename f).edges.map PathEdge.name).Nodup ↔ (w.edges.map PathEdge.name).Nodup := by
  rw [edgeNames_rename]
  refine ⟨List.Nodup.of_map f, List.Nodup.map_on ?_⟩
  exact fun a ha b hb => apart.inj a (mem_names_of_edge ha) b (mem_names_of_edge hb)

/-- A relationship of the walk is admitted under its new name as it would be under its own, except
    that an anonymous one need not be new. -/
theorem admits_iff (apart : g.KeepsApart w f) :
    (∀ e ∈ (w.rename f).edges, g.Admits e) ↔
      (∀ e ∈ w.edges, isAnonymous e.name = false → g.hasEdge e.name = false) ∧
        (∀ e ∈ w.edges, e.hops.inverted? = none) ∧
        ∀ e ∈ w.edges, e.types.length ≤ g.limits.maxTypesPerEdge := by
  have hadmits : ∀ e ∈ w.edges, g.Admits { e with name := f e.name } ↔
      (isAnonymous e.name = false → g.hasEdge e.name = false) ∧ e.hops.inverted? = none ∧
        e.types.length ≤ g.limits.maxTypesPerEdge := by
    intro e he
    have hname := mem_names_of_edge (List.mem_map_of_mem (f := PathEdge.name) he)
    exact and_congr_left' (apart.hasEdge_eq_false_iff hname)
  rw [edges_rename, List.forall_mem_map]
  refine (forall₂_congr hadmits).trans ?_
  simp only [forall_and]

end KeepsApart

/-- As many relationships are written out as there are steps. -/
theorem length_edges_path (w : Walk) : w.path.edges.length = w.steps.length := by
  rw [w.edges_path, Walk.edges, List.length_map]

theorem KeepsApart.length_newNodeNames_eq (apart : g.KeepsApart w f) :
    (g.newNodeNames (w.rename f)).length = g.arrivals w.path := by
  rw [apart.length_newNodeNames, arrivals, w.nodes_path]

/-- A walk passes under names that keep anonymous entities apart when the graph accepts the path
    that writes it. -/
theorem KeepsApart.accept_eq_ok_iff (apart : g.KeepsApart w f) :
    g.accept (w.rename f) = .ok () ↔ g.Accepts w.path := by
  have hranges : (∀ e ∈ w.edges, e.hops.inverted? = none) ↔ ∀ e ∈ w.edges, ∀ r stop,
      e.range = some r → r.stop = some stop → r.start.getD 1 ≤ stop :=
    forall₂_congr fun e _ => Hops.inverted?_ofRange_eq_none
  have hsteps : (w.rename f).steps.length = w.path.edges.length := by
    rw [length_edges_path, Walk.rename, List.length_map]
  rw [accept_eq_ok, apart.admits_iff, apart.nodup_edgeNames_iff, apart.length_newNodeNames_eq,
    hsteps, hranges, ← w.edges_path]
  constructor
  · rintro ⟨⟨hnew, hranges, htypes⟩, hnames, hnodes, hedges⟩
    exact ⟨Path.alternates_iff.mpr ⟨w, rfl⟩, hnames, hnew, hranges, htypes, hnodes, hedges⟩
  · rintro ⟨-, hnames, hnew, hranges, htypes, hnodes, hedges⟩
    exact ⟨⟨hnew, hranges, htypes⟩, hnames, hnodes, hedges⟩

/-- Under its new names a walk takes the slots that the path is counted for. -/
theorem hasSlots_renamed_iff :
    g.HasSlots (g.newNodeNames (g.renamed w)).length (g.renamed w).steps.length ↔
      g.HasSlots (g.arrivals w.path) w.path.edges.length := by
  rw [renamed, (g.keepsApart_renamingFor w).length_newNodeNames_eq, Walk.length_steps_rename,
    length_edges_path]

/-- Adding a path succeeds exactly when the graph accepts the path as it is written and has slots
    for it. -/
theorem exists_addPath_iff (hslots : g.HasSlots 0 0) (c : Catalog) :
    (∃ g', Edit.addPath c p g = .ok () g') ↔
      g.Accepts p ∧ g.HasSlots (g.arrivals p) p.edges.length := by
  constructor
  · rintro ⟨g', hrun⟩
    obtain ⟨w, hwalk, haccepted, hroom, -⟩ := (Edit.addPath_eq_ok hslots).mp hrun
    obtain rfl := Path.eq_path_of_walk? hwalk
    exact ⟨(g.keepsApart_renamingFor w).accept_eq_ok_iff.mp haccepted,
      hasSlots_renamed_iff.mp hroom⟩
  · rintro ⟨haccepts, hroom⟩
    -- a path that alternates writes a walk, and of the walk the same is asked under its new names
    obtain ⟨w, rfl⟩ := Path.alternates_iff.mp haccepts.alternates
    have haccepted := (g.keepsApart_renamingFor w).accept_eq_ok_iff.mpr haccepts
    exact ⟨_, (Edit.addPath_eq_ok hslots).mpr
      ⟨w, Path.walk?_path w, haccepted, hasSlots_renamed_iff.mpr hroom, rfl⟩⟩

end Graph

namespace Reachable

/-- To a graph that can come up exactly the paths are added that are as they must be and for which
    there are slots, and each of them makes its counts grow by what there had to be room for. -/
theorem addPath_accepts {g : Graph} (reach : Reachable g) (c : Catalog) (p : Path) :
    ((∃ g', Edit.addPath c p g = .ok () g') ↔
        g.Accepts p ∧ g.HasSlots (g.arrivals p) p.edges.length) ∧
      ∀ g', Edit.addPath c p g = .ok () g' →
        g'.nodeCount = g.nodeCount + g.arrivals p ∧
          g'.edgeCount = g.edgeCount + p.edges.length := by
  have wf := reach.wellFormed
  refine ⟨Graph.exists_addPath_iff reach.sound.slots c, fun g' hrun => ?_⟩
  obtain ⟨w, hwalk, haccepted, rfl⟩ := Edit.addPath_eq_extend hrun
  obtain rfl := Path.eq_path_of_walk? hwalk
  obtain ⟨hfree, hnodup⟩ := Graph.fresh_of_accept haccepted
  have apart := g.keepsApart_renamingFor w
  have hsteps : (g.renamed w).steps.length = w.path.edges.length := by
    rw [Graph.length_edges_path, Graph.renamed, Walk.rename, List.length_map]
  refine ⟨?_, ?_⟩
  · rw [wf.nodeCount_extend hfree hnodup, Graph.renamed, apart.length_newNodeNames_eq]
  · rw [wf.edgeCount_extend hfree hnodup, hsteps]

/-- A path that fills the budgets beside a vacated slot, with an anonymous node and an anonymous
    relationship whose names are bound; and one whose range ends below the start that it leaves
    out. -/
theorem addPath_accepts_when_full :
    let g := Command.runAll [.addPath .empty ⟨[.node ⟨"a", none⟩,
      .edge ⟨"_anon_1", .both, [], none⟩, .node ⟨"_anon_0", none⟩]⟩, .addNode "z", .removeNode ⟨2⟩]
      (.empty ⟨4, 4, 2⟩)
    let p : Path := ⟨[.node ⟨"_anon_0", none⟩, .edge ⟨"_anon_1", .incoming, ["S", "T"], none⟩,
      .node ⟨"a", none⟩, .edge ⟨"r", .outgoing, [], some ⟨none, some 1⟩⟩, .node ⟨"_anon_0", none⟩,
      .edge ⟨"s", .outgoing, [], none⟩, .node ⟨"b", none⟩]⟩
    let q : Path := ⟨[.node ⟨"a", none⟩, .edge ⟨"r", .both, [], some ⟨none, some 0⟩⟩,
      .node ⟨"a", none⟩]⟩
    (∃ g', Edit.addPath .empty p g = .ok () g' ∧ g'.nodeCount = 4 ∧ g'.edgeCount = 4) ∧
      g.Accepts p ∧ ¬ g.Accepts q := by
  intro g p q
  have reach : Reachable g := (Reachable.empty _).runAll (by simp [Command.operand?])
    (by simp [Command.edge?])
  have hcounts : g.nodeCount = 2 ∧ g.edgeCount = 1 ∧ g.arrivals p = 2 := by decide +kernel
  have hrun : Edit.addPath .empty p g = .ok () ((Edit.addPath .empty p).after g) :=
    Edit.ok_after_of_outcome (by decide +kernel)
  have hrefused : (Edit.addPath .empty q).outcome g = .error (.invalidHopRange "r" 1 0) := by
    decide +kernel
  obtain ⟨haccepts, hgrown⟩ := reach.addPath_accepts .empty p
  refine ⟨⟨_, hrun, ?_⟩, (haccepts.mp ⟨_, hrun⟩).1, fun hq => ?_⟩
  · rw [(hgrown _ hrun).1, (hgrown _ hrun).2, hcounts.1, hcounts.2.1, hcounts.2.2]
    exact ⟨rfl, rfl⟩
  · obtain ⟨g', hg'⟩ := (reach.addPath_accepts .empty q).1.mpr ⟨hq, by decide +kernel⟩
    rw [Edit.outcome, hg'] at hrefused
    cases hrefused

end Reachable

end PatternGraph
