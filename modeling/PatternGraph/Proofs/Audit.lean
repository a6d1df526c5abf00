/-
  PatternGraph.Proofs.Audit

  What the audit asks of a graph, and that a well-formed graph passes it.  The
  audit compares numbers where well-formedness speaks of sets: a list without
  repetitions that holds the edges with a node on one side is as long as there
  are such edges.
-/
import PatternGraph.Graph.Audit
import PatternGraph.Proofs.Copy

namespace PatternGraph.Graph

variable {g : Graph}

/-! ## Names and ends -/

theorem nodeViolation?_eq_none {seen : List String} {nodes : List Node} :
    nodeViolation? seen nodes = none ↔
      (∀ n ∈ nodes, n.name ∉ seen) ∧ (nodes.map Node.name).Nodup := by
  induction nodes generalizing seen with
  | nil => simp [nodeViolation?]
  | cons n rest ih =>
      rw [List.forall_mem_cons, List.map_cons, List.nodup_cons, nodeViolation?]
      by_cases hn : n.name ∈ seen
      · simp [hn]
      · rw [if_neg (by simpa using hn), ih]
        simp only [List.mem_cons, not_or, List.mem_map, not_exists, not_and]
        refine ⟨?_, ?_⟩
        · rintro ⟨hrest, hnodup⟩
          exact ⟨⟨hn, fun m hm => (hrest m hm).2⟩, fun m hm => (hrest m hm).1, hnodup⟩
        · rintro ⟨⟨-, hrest⟩, hnew, hnodup⟩
          exact ⟨fun m hm => ⟨hnew m hm, hrest m hm⟩, hnodup⟩

theorem endViolation?_eq_none {id : EdgeId} {e : Edge} :
    g.endViolation? id e = none ↔ (g.node? e.src).isSome ∧ (g.node? e.dest).isSome := by
  unfold endViolation?
  cases g.node? e.src <;> cases g.node? e.dest <;> simp

theorem edgeViolation?_eq_none {seen : List String} {edges : List (EdgeId × Edge)} :
    g.edgeViolation? seen edges = none ↔
      (∀ p ∈ edges, p.2.name ∉ seen ∧ (g.node? p.2.src).isSome ∧ (g.node? p.2.dest).isSome) ∧
        (edges.map fun p => p.2.name).Nodup := by
  induction edges generalizing seen with
  | nil => simp [edgeViolation?]
  | cons p rest ih =>
      obtain ⟨id, e⟩ := p
      rw [List.forall_mem_cons, List.map_cons, List.nodup_cons, edgeViolation?]
      by_cases he : e.name ∈ seen
      · simp [he]
      · rw [if_neg (by simpa using he)]
        cases hends : g.endViolation? id e with
        | some v =>
            have hdead := mt endViolation?_eq_none.mpr (by rw [hends]; exact nofun)
            simp only [reduceCtorEq, false_iff]
            rintro ⟨⟨⟨-, hlive⟩, -⟩, -⟩
            exact hdead hlive
        | none =>
            have hlive := endViolation?_eq_none.mp hends
            simp only [ih, List.mem_cons, not_or, List.mem_map, not_exists, not_and]
            refine ⟨?_, ?_⟩
            · rintro ⟨hrest, hnodup⟩
              exact ⟨⟨⟨he, hlive⟩, fun q hq => ⟨(hrest q hq).1.2, (hrest q hq).2⟩⟩,
                fun q hq => (hrest q hq).1.1, hnodup⟩
            · rintro ⟨⟨-, hrest⟩, hnew, hnodup⟩
              exact ⟨fun q hq => ⟨⟨hnew q hq, (hrest q hq).1⟩, (hrest q hq).2⟩, hnodup⟩

/-! ## Adjacency -/

theorem nodup_liveEdges (g : Graph) : (g.liveEdges.map Prod.fst).Nodup := by
  rw [liveEdges, List.map_map]
  exact Slots.nodup_map_entries (fun _ _ heq => congrArg EdgeId.index heq) g.edges

/-- The handles of the edges that have the node on that side, in order. -/
def withEnd (g : Graph) (side : Edge → NodeId) (x : NodeId) : List EdgeId :=
  (g.liveEdges.filter fun p => side p.2 == x).map Prod.fst

theorem mem_withEnd {side : Edge → NodeId} {x : NodeId} {i : EdgeId} :
    i ∈ g.withEnd side x ↔ g.HasEnd side x i := by
  simp only [withEnd, List.mem_map, List.mem_filter, beq_iff_eq, HasEnd]
  refine ⟨?_, ?_⟩
  · rintro ⟨⟨j, e⟩, ⟨he, hside⟩, rfl⟩
    exact ⟨e, mem_liveEdges.mp he, hside⟩
  · rintro ⟨e, he, hside⟩
    exact ⟨(i, e), ⟨mem_liveEdges.mpr he, hside⟩, rfl⟩

theorem nodup_withEnd (g : Graph) (side : Edge → NodeId) (x : NodeId) :
    (g.withEnd side x).Nodup :=
  g.nodup_liveEdges.sublist (List.filter_sublist.map Prod.fst)

theorem length_withEnd (g : Graph) (side : Edge → NodeId) (x : NodeId) :
    (g.withEnd side x).length = g.edges.values.countP (side · == x) := by
  rw [withEnd, List.length_map, ← List.countP_eq_length_filter, ← map_snd_liveEdges,
    List.countP_map]
  rfl

/-- A list of the edges with a node on one side is as long as there are such edges. -/
theorem size_of_lists {side : Edge → NodeId} {x : NodeId} {l : Array EdgeId}
    (hl : Lists l (g.HasEnd side x)) : l.size = g.edges.values.countP (side · == x) := by
  -- the live edges with the node on that side are another list of the same set
  have hlisted : Lists (g.withEnd side x).toArray (g.HasEnd side x) :=
    ⟨g.nodup_withEnd side x, fun _ => by rw [List.mem_toArray, mem_withEnd]⟩
  rw [hl.size_eq hlisted, List.size_toArray, length_withEnd]

/-- The entries are edges that have the node on that side, and there are as many as such edges. -/
structure Tallies (g : Graph) (side : Edge → NodeId) (x : NodeId) (l : Array EdgeId) : Prop where
  hasEnd : ∀ i ∈ l, g.HasEnd side x i
  size_eq : l.size = g.edges.values.countP (side · == x)

theorem tallies_of_lists {side : Edge → NodeId} {x : NodeId} {l : Array EdgeId}
    (hl : Lists l (g.HasEnd side x)) : g.Tallies side x l :=
  ⟨fun i hi => (hl.2 i).mp hi, size_of_lists hl⟩

theorem all_hasEnd_iff {side : Edge → NodeId} {x : NodeId} {l : Array EdgeId} :
    l.all (fun i => (g.edge? i).any (side · == x)) = true ↔ ∀ i ∈ l, g.HasEnd side x i := by
  rw [Array.all_eq_true_iff_forall_mem]
  refine forall₂_congr fun i _ => ?_
  rw [Option.any_eq_true]
  simp only [beq_iff_eq, HasEnd]

theorem adjacencyAgrees_iff {x : NodeId} {n : Node} :
    g.adjacencyAgrees g.edges.values x n = true ↔
      g.Tallies Edge.src x n.outgoing ∧ g.Tallies Edge.dest x n.incoming := by
  simp only [adjacencyAgrees, Bool.and_eq_true, beq_iff_eq, all_hasEnd_iff]
  constructor
  · rintro ⟨⟨⟨hout, hin⟩, houtDegree⟩, hinDegree⟩
    exact ⟨⟨hout, houtDegree⟩, hin, hinDegree⟩
  · rintro ⟨⟨hout, houtDegree⟩, hin, hinDegree⟩
    exact ⟨⟨⟨hout, hin⟩, houtDegree⟩, hinDegree⟩

theorem adjacencyViolation?_eq_none :
    g.adjacencyViolation? = none ↔ ∀ x n, g.node? x = some n →
      g.Tallies Edge.src x n.outgoing ∧ g.Tallies Edge.dest x n.incoming := by
  have hone : ∀ x n, (if g.adjacencyAgrees g.edges.values x n then none
      else some (Violation.adjacency n.name)) = none ↔
      g.Tallies Edge.src x n.outgoing ∧ g.Tallies Edge.dest x n.incoming := by
    intro x n
    rw [← adjacencyAgrees_iff, ite_eq_left_iff]
    simp only [reduceCtorEq, imp_false, not_not]
  rw [adjacencyViolation?, List.findSome?_eq_none_iff]
  refine ⟨fun h x n hn => ?_, fun h p hp => ?_⟩
  · exact (hone x n).mp (h (x, n) (mem_liveNodes.mpr hn))
  · exact (hone p.1 p.2).mpr (h p.1 p.2 (mem_liveNodes.mp hp))

/-! ## The whole audit -/

theorem counterViolation?_eq_none :
    g.counterViolation? = none ↔ g.nodes.Counted ∧ g.edges.Counted := by
  rw [counterViolation?, ite_eq_left_iff, Slots.Counted, Slots.Counted, eq_comm,
    eq_comm (a := g.edges.live)]
  simp only [reduceCtorEq, imp_false, not_not]

/-- What the audit asks of a graph. -/
structure Audited (g : Graph) : Prop where
  nodeNames : (g.nodes.values.map Node.name).Nodup
  edgeNames : (g.edges.values.map Edge.name).Nodup
  ends : ∀ i e, g.edge? i = some e → (g.node? e.src).isSome ∧ (g.node? e.dest).isSome
  tallies : ∀ x n, g.node? x = some n →
    g.Tallies Edge.src x n.outgoing ∧ g.Tallies Edge.dest x n.incoming
  counted : g.nodes.Counted ∧ g.edges.Counted

theorem edgeViolation?_liveEdges_eq_none :
    g.edgeViolation? [] g.liveEdges = none ↔
      (∀ i e, g.edge? i = some e → (g.node? e.src).isSome ∧ (g.node? e.dest).isSome) ∧
        (g.edges.values.map Edge.name).Nodup := by
  rw [edgeViolation?_eq_none, ← map_snd_liveEdges, List.map_map]
  refine and_congr_left fun _ => ⟨fun h i e he => ?_, fun h p hp => ?_⟩
  · exact (h (i, e) (mem_liveEdges.mpr he)).2
  · exact ⟨List.not_mem_nil, h p.1 p.2 (mem_liveEdges.mp hp)⟩

theorem violation?_eq_none : g.violation? = none ↔ g.Audited := by
  rw [violation?, Option.or_eq_none_iff, Option.or_eq_none_iff, Option.or_eq_none_iff,
    nodeViolation?_eq_none, edgeViolation?_liveEdges_eq_none, adjacencyViolation?_eq_none,
    counterViolation?_eq_none]
  constructor
  · rintro ⟨⟨-, hnodes⟩, ⟨hends, hedges⟩, htallies, hcounted⟩
    exact ⟨hnodes, hedges, hends, htallies, hcounted⟩
  · rintro ⟨hnodes, hedges, hends, htallies, hcounted⟩
    exact ⟨⟨fun _ _ => List.not_mem_nil, hnodes⟩, ⟨hends, hedges⟩, htallies, hcounted⟩

theorem audit_eq_ok_iff : g.audit = .ok () ↔ g.Audited := by
  rw [← violation?_eq_none, audit]
  cases g.violation? with
  | none => exact iff_of_true rfl rfl
  | some v => exact iff_of_false nofun nofun

theorem WellFormed.audited (wf : g.WellFormed) : g.Audited where
  nodeNames := nodup_nodeNames wf
  edgeNames := nodup_edgeNames wf
  ends _ _ he := ⟨wf.src_isSome he, wf.dest_isSome he⟩
  tallies _ _ hn :=
    ⟨tallies_of_lists (wf.lists_outgoing hn), tallies_of_lists (wf.lists_incoming hn)⟩
  counted := ⟨wf.nodes_counted, wf.edges_counted⟩

/-- A well-formed graph passes the audit. -/
theorem WellFormed.audit_eq_ok (wf : g.WellFormed) : g.audit = .ok () :=
  audit_eq_ok_iff.mpr wf.audited

end PatternGraph.Graph
