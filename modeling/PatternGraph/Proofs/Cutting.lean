/-
  PatternGraph.Proofs.Cutting

  Cutting a path at a node.  The first piece ends with the node and the second
  begins with it, and adding one piece after the other makes the graph that
  the whole path makes: where the first piece stops, its last node is live,
  bears its name, and has a label if one was written, so joining it once more
  does nothing and the second piece goes on from there.

  Both ways are accepted together.  What is written in the first piece is in
  the graph when the second is asked about, so a relationship is new there when
  it was new before and is not in the first piece; and both ways fit the
  budgets when the graph that they make does.
-/
import PatternGraph.Proofs.Acceptance
import PatternGraph.Proofs.Incremental

namespace PatternGraph

namespace Walk

/-- The node that a walk ends with. -/
def last (w : Walk) : PathNode := (w.steps.map Step.target).getLastD w.start

/-- The walk with more steps after its own. -/
def append (w : Walk) (post : List Step) : Walk := ⟨w.start, w.steps ++ post⟩

theorem path_append (w : Walk) (post : List Step) :
    (w.append post).path = ⟨w.path.elements ++ post.flatMap Step.elements⟩ := by
  simp [append, path, List.flatMap_append]

/-- A walk ends with the node that is written last. -/
theorem last_eq {w : Walk} {before : List PathElement} {n : PathNode}
    (h : w.path = ⟨before ++ [.node n]⟩) : w.last = n := by
  have hnodes : w.nodes = (before.filterMap PathElement.node?) ++ [n] := by
    rw [← nodes_path, h, Path.nodes, List.filterMap_append]
    rfl
  have hlast := congrArg List.getLast? hnodes
  rw [nodes, List.getLast?_cons, List.getLast?_concat] at hlast
  rw [last, List.getLastD_eq_getLast?]
  exact Option.some.inj hlast

end Walk

/-! ## The pieces of a path -/

namespace Path

variable {before after : List PathElement} {n : PathNode}

/-- A path takes turns when the piece before a node of it and the piece after it both do. -/
theorem alternates_cut :
    (⟨before ++ .node n :: after⟩ : Path).Alternates ↔
      (⟨before ++ [.node n]⟩ : Path).Alternates ∧ (⟨.node n :: after⟩ : Path).Alternates := by
  constructor
  · rintro ⟨hodd, hturns⟩
    -- the node stands at an even place, so the places of the second piece keep their parity
    have heven : before.length % 2 = 0 := (hturns before.length (.node n) (by simp)).mp rfl
    simp only [List.length_append, List.length_cons] at hodd
    refine ⟨⟨?_, fun i x hx => hturns i x ?_⟩, ⟨?_, fun i x hx => ?_⟩⟩
    · simp only [List.length_append, List.length_cons, List.length_nil]
      omega
    · show (before ++ ([.node n] ++ after))[i]? = some x
      obtain ⟨hlt, -⟩ := List.getElem?_eq_some_iff.mp hx
      rw [← List.append_assoc, List.getElem?_append_left hlt]
      exact hx
    · simp only [List.length_cons]
      omega
    · have hplace := hturns (before.length + i) x (by
        rw [List.getElem?_append_right (Nat.le_add_right _ _), Nat.add_sub_cancel_left]
        exact hx)
      rw [hplace]
      omega
  · rintro ⟨⟨hodd, hturns⟩, ⟨hodd', hturns'⟩⟩
    simp only [List.length_append, List.length_cons, List.length_nil] at hodd hodd'
    refine ⟨?_, fun i x hx => ?_⟩
    · simp only [List.length_append, List.length_cons]
      omega
    · rcases Nat.lt_or_ge i before.length with hlt | hge
      · refine hturns i x ?_
        rw [List.getElem?_append_left hlt] at hx ⊢
        exact hx
      · rw [List.getElem?_append_right hge] at hx
        rw [hturns' _ x hx]
        omega

/-- The pieces of a path that takes turns are a walk and the steps from its last node on. -/
theorem Alternates.exists_walks (alternates : (⟨before ++ .node n :: after⟩ : Path).Alternates) :
    ∃ (w : Walk) (post : List Step), w.last = n ∧ (⟨before ++ [.node n]⟩ : Path) = w.path ∧
      (⟨.node n :: after⟩ : Path) = (⟨n, post⟩ : Walk).path ∧
      (⟨before ++ .node n :: after⟩ : Path) = (w.append post).path := by
  obtain ⟨halternates, halternates'⟩ := alternates_cut.mp alternates
  obtain ⟨w, hw⟩ := alternates_iff.mp halternates
  obtain ⟨⟨start, post⟩, hpost⟩ := alternates_iff.mp halternates'
  obtain ⟨⟨rfl⟩, rfl⟩ := List.cons.inj (congrArg Path.elements hpost)
  refine ⟨w, post, Walk.last_eq hw.symm, hw, hpost, ?_⟩
  rw [w.path_append, ← hw, List.append_assoc]
  rfl

/-- The pieces of a path write the names of the path. -/
theorem named_cut : (⟨before ++ .node n :: after⟩ : Path).Named ↔
    (⟨before ++ [.node n]⟩ : Path).Named ∧ (⟨.node n :: after⟩ : Path).Named := by
  simp only [Named, names, List.map_append, List.map_cons, List.map_nil, List.forall_mem_append,
    List.forall_mem_cons]
  constructor
  · rintro ⟨hbefore, hn, hafter⟩
    exact ⟨⟨hbefore, hn, nofun⟩, hn, hafter⟩
  · rintro ⟨⟨hbefore, -⟩, hn, hafter⟩
    exact ⟨hbefore, hn, hafter⟩

end Path

namespace Graph

variable {g h : Graph} {c : Catalog} {id left : NodeId} {n : PathNode} {e : Edge}

/-! ## Joining a node once more -/

/-- A node of the graph bears the name that is written, and has a label if one is written. -/
def Knows (g : Graph) (id : NodeId) (n : PathNode) : Prop :=
  ∃ m, g.node? id = some m ∧ m.name = n.name ∧ (n.label.isSome → m.isLabelled = true)

/-- A node that is joined is known. -/
theorem knows_joinNode (c : Catalog) (g : Graph) (n : PathNode) :
    (g.joinNode c n).2.Knows (g.joinNode c n).1 n := by
  obtain ⟨m, hm, hname⟩ := nameOf?_eq_some.mp (g.nameOf?_findOrMake n.name)
  rw [Graph.joinNode]
  cases hlabel : n.label with
  | none => exact ⟨m, hm, hname, fun hsome => by simp [hlabel] at hsome⟩
  | some label =>
      refine ⟨_, (node?_modifyNode _ _ _ _).trans (by rw [if_pos rfl, hm, Option.map_some]), ?_, ?_⟩
      · split
        · exact hname
        · exact hname
      · intro _
        split
        next hm => exact hm
        next => rfl

/-- An edge that is added changes neither name nor label. -/
theorem Knows.insertEdge (knows : g.Knows id n) (e : Edge) : (g.insertEdge e).Knows id n := by
  obtain ⟨m, hm, hname, hlabelled⟩ := knows
  rw [Knows, node?_insertEdge, hm]
  exact ⟨_, rfl, hname, hlabelled⟩

/-- Nothing is done to a node that is known. -/
theorem Knows.joinNode_eq (knows : g.Knows id n) (wf : g.WellFormed) (c : Catalog) :
    g.joinNode c n = (id, g) := by
  obtain ⟨m, hm, hname, hlabelled⟩ := knows
  have hfound : g.findOrMake n.name = (id, g) := by
    rw [findOrMake, ← hname, wf.nodeNamed?_name hm]
  rw [Graph.joinNode, hfound]
  cases hlabel : n.label with
  | none => rfl
  | some label =>
      have hsame : g.offerLabel c id (some label) = g :=
        modifyNode_of_fixed fun k hk => by
          rw [hm, Option.some.injEq] at hk
          rw [← hk, if_pos (hlabelled (by rw [hlabel]; rfl))]
      rw [hsame]

/-! ## Going on where a walk stops -/

/-- Where steps stop, their last node is known. -/
theorem Knows.addSteps (knows : g.Knows left n) (steps : List Step) :
    (g.addSteps c left steps).Knows (g.stopOf c left steps)
      ((steps.map Step.target).getLastD n) := by
  -- only the node that a step ends with has to be known for the next one
  induction steps generalizing g left n with
  | nil => exact knows
  | cons s rest ih =>
      have hright := (knows_joinNode c g s.target).insertEdge
        (s.edge.edgeBetween c left (g.joinNode c s.target).1)
      rw [List.map_cons, List.getLastD_cons]
      exact ih hright

/-- Where a walk stops, its last node is known. -/
theorem knows_extend (c : Catalog) (g : Graph) (w : Walk) :
    (g.extend c w).Knows (g.stop c w) w.last :=
  (knows_joinNode c g w.start).addSteps w.steps

/-- Steps that follow a walk are added as a walk that begins at its last node. -/
theorem extend_append {w : Walk} (wf : (g.extend c w).WellFormed) (post : List Step) :
    g.extend c (w.append post) = (g.extend c w).extend c ⟨w.last, post⟩ := by
  have hlast := (knows_extend c g w).joinNode_eq wf c
  calc g.extend c (w.append post)
    _ = (g.extend c w).addSteps c (g.stop c w) post := addSteps_append c _ _ _ _
    _ = (g.extend c w).extend c ⟨w.last, post⟩ := by
      show _ = ((g.extend c w).joinNode c w.last).2.addSteps c
        ((g.extend c w).joinNode c w.last).1 post
      rw [hlast]

/-! ## Asking the whole and asking the pieces -/

section Fresh

variable {w : Walk} (wf : g.WellFormed) (hfree : ∀ e ∈ w.edges, g.hasEdge e.name = false)
  (hnodup : (w.edges.map PathEdge.name).Nodup)

include wf hfree hnodup

/-- A relationship is admitted after a walk was added when it was admitted before and the walk does
    not write it. -/
theorem WellFormed.admits_extend_iff (e : PathEdge) :
    (g.extend c w).Admits e ↔ g.Admits e ∧ e.name ∉ w.edges.map PathEdge.name := by
  have hname : (g.extend c w).hasEdge e.name = false ↔
      g.hasEdge e.name = false ∧ e.name ∉ w.edges.map PathEdge.name := by
    rw [← Bool.not_eq_true, wf.hasEdge_extend hfree hnodup, not_or, Bool.not_eq_true]
  rw [Admits, Admits, limits_extend, hname]
  exact and_right_comm

/-- What a walk is added to fits when what it makes does. -/
theorem Fits.of_extend (fits : (g.extend c w).Fits) : g.Fits := by
  obtain ⟨hnodes, hedges, hslots⟩ := fits
  rw [limits_extend] at hnodes hedges
  rw [wf.nodeCount_extend hfree hnodup] at hnodes
  rw [wf.edgeCount_extend hfree hnodup] at hedges
  exact ⟨Nat.le_of_add_right_le hnodes, Nat.le_of_add_right_le hedges,
    (hasSlots_extend.mp hslots).mono (Nat.zero_le _) (Nat.zero_le _)⟩

end Fresh

section Together

variable {edges later : List PathEdge}

/-- The relationships are admitted, and no two of them bear one name. -/
structure AdmitsAll (g : Graph) (edges : List PathEdge) : Prop where
  each : ∀ e ∈ edges, g.Admits e
  nodup : (edges.map PathEdge.name).Nodup

theorem AdmitsAll.free (admits : g.AdmitsAll edges) : ∀ e ∈ edges, g.hasEdge e.name = false :=
  fun e he => (admits.each e he).1

/-- Relationships are admitted together when those of a walk are and the others are admitted after
    the walk was added. -/
theorem WellFormed.admitsAll_append_iff (wf : g.WellFormed) (c : Catalog) {w : Walk} :
    g.AdmitsAll (w.edges ++ later) ↔ g.AdmitsAll w.edges ∧ (g.extend c w).AdmitsAll later := by
  constructor
  · rintro ⟨heach, hnodup⟩
    obtain ⟨hfirst, hlater⟩ := List.forall_mem_append.mp heach
    rw [List.map_append, List.nodup_append'] at hnodup
    obtain ⟨hnodup, hnodup', hdisjoint⟩ := hnodup
    have admits : g.AdmitsAll w.edges := ⟨hfirst, hnodup⟩
    refine ⟨admits, fun e he => ?_, hnodup'⟩
    exact (wf.admits_extend_iff admits.free hnodup e).mpr
      ⟨hlater e he, fun hmem => hdisjoint hmem (List.mem_map_of_mem he)⟩
  · rintro ⟨admits, hlater, hnodup'⟩
    have hboth : ∀ e ∈ later, g.Admits e ∧ e.name ∉ w.edges.map PathEdge.name := fun e he =>
      (wf.admits_extend_iff admits.free admits.nodup e).mp (hlater e he)
    refine ⟨List.forall_mem_append.mpr ⟨admits.each, fun e he => (hboth e he).1⟩, ?_⟩
    rw [List.map_append, List.nodup_append']
    refine ⟨admits.nodup, hnodup', fun a ha ha' => ?_⟩
    obtain ⟨e, he, rfl⟩ := List.mem_map.mp ha'
    exact (hboth e he).2 ha

end Together

/-- A walk is taken when its relationships are admitted together and what it makes fits. -/
theorem WellFormed.takes_iff_admitsAll (wf : g.WellFormed) (c : Catalog) {w : Walk} :
    g.Takes c w ↔ g.AdmitsAll w.edges ∧ (g.extend c w).Fits := by
  rw [wf.takes_iff_fits c]
  exact ⟨fun ⟨heach, hnodup, fits⟩ => ⟨⟨heach, hnodup⟩, fits⟩,
    fun ⟨admits, fits⟩ => ⟨admits.each, admits.nodup, fits⟩⟩

/-- A walk with more steps is taken when the walk is, and when the graph that it makes takes the
    steps from its last node on. -/
theorem WellFormed.takes_append_iff (wf : g.WellFormed) (c : Catalog) (w : Walk)
    (post : List Step) :
    g.Takes c (w.append post) ↔ g.Takes c w ∧ (g.extend c w).Takes c ⟨w.last, post⟩ := by
  have hedges : (w.append post).edges = w.edges ++ post.map Step.edge := List.map_append
  rw [wf.takes_iff_admitsAll c, wf.takes_iff_admitsAll c, hedges, wf.admitsAll_append_iff c]
  constructor
  · rintro ⟨⟨hfirst, hsecond⟩, fits⟩
    have wf' : (g.extend c w).WellFormed := wf.extend hfirst.free hfirst.nodup
    rw [extend_append wf'] at fits
    -- the second piece is asked where the first one is, so it is what fits behind it
    exact ⟨⟨hfirst, fits.of_extend (w := ⟨w.last, post⟩) wf' hsecond.free hsecond.nodup⟩,
      (wf'.takes_iff_admitsAll c).mpr ⟨hsecond, fits⟩⟩
  · rintro ⟨⟨hfirst, -⟩, htaken⟩
    have wf' : (g.extend c w).WellFormed := wf.extend hfirst.free hfirst.nodup
    obtain ⟨hsecond, fits⟩ := (wf'.takes_iff_admitsAll c).mp htaken
    rw [extend_append wf']
    exact ⟨⟨hfirst, hsecond⟩, fits⟩

end Graph

/-! ## Paths -/

namespace Reachable

variable {g : Graph}

/-- A path may be cut at any of its nodes, which both pieces write.  Adding it to a graph that can
    come up succeeds when adding the one piece and then the other does, and makes the same graph;
    no name is anonymous. -/
theorem addPath_cut (reach : Reachable g) (c : Catalog) (before after : List PathElement)
    (n : PathNode) (named : (⟨before ++ .node n :: after⟩ : Path).Named) (h : Graph) :
    Edit.addPath c ⟨before ++ .node n :: after⟩ g = .ok () h ↔
      ∃ k, Edit.addPath c ⟨before ++ [.node n]⟩ g = .ok () k ∧
        Edit.addPath c ⟨.node n :: after⟩ k = .ok () h := by
  have wf := reach.wellFormed
  have hslots := reach.sound.slots
  have halternates : ∀ {p : Path} {g h : Graph}, Edit.addPath c p g = .ok () h → p.Alternates := by
    intro p g h hrun
    obtain ⟨w, hw, -⟩ := Edit.addPath_eq_extend hrun
    exact Path.alternates_iff.mpr ⟨w, Path.eq_path_of_walk? hw⟩
  by_cases alternates : (⟨before ++ .node n :: after⟩ : Path).Alternates
  · obtain ⟨w, post, rfl, hfirst, hsecond, hwhole⟩ := alternates.exists_walks
    obtain ⟨hnamed, hnamed'⟩ := Path.named_cut.mp named
    rw [hwhole] at named ⊢
    rw [hfirst] at hnamed ⊢
    rw [hsecond] at hnamed' ⊢
    rw [Edit.addPath_path_eq_ok hslots named, wf.takes_append_iff c]
    constructor
    · rintro ⟨⟨takes, takes'⟩, rfl⟩
      obtain ⟨hfree, hnodup⟩ := Graph.fresh_of_accept takes.accepted
      exact ⟨_, (Edit.addPath_path_eq_ok hslots hnamed).mpr ⟨takes, rfl⟩,
        (Edit.addPath_path_eq_ok takes.slots hnamed').mpr
          ⟨takes', Graph.extend_append (wf.extend hfree hnodup) post⟩⟩
    · rintro ⟨k, hrun, hrun'⟩
      obtain ⟨takes, rfl⟩ := (Edit.addPath_path_eq_ok hslots hnamed).mp hrun
      obtain ⟨takes', rfl⟩ := (Edit.addPath_path_eq_ok takes.slots hnamed').mp hrun'
      obtain ⟨hfree, hnodup⟩ := Graph.fresh_of_accept takes.accepted
      exact ⟨⟨takes, takes'⟩, (Graph.extend_append (wf.extend hfree hnodup) post).symm⟩
  -- a path of another shape is refused, and so is one of its pieces
  · constructor
    · exact fun hrun => absurd (halternates hrun) alternates
    · rintro ⟨k, hfirst, hsecond⟩
      exact absurd (Path.alternates_cut.mpr ⟨halternates hfirst, halternates hsecond⟩) alternates

/-- The path comes back to the node at which it is cut and names a second label for it, its last
    node has a slot behind a vacated one, and the budgets are filled. -/
theorem addPath_cut_when_full :
    let before : List PathElement := [.node ⟨"a", some "A"⟩, .edge ⟨"r", .outgoing, ["R"], none⟩,
      .node ⟨"b", none⟩, .edge ⟨"s", .incoming, [], none⟩]
    let after : List PathElement := [.edge ⟨"t", .both, [], none⟩, .node ⟨"b", some "C"⟩]
    let n : PathNode := ⟨"a", some "B"⟩
    let g := Command.runAll [.addNode "x", .addNode "b", .removeNode ⟨0⟩] (.empty ⟨2, 3, 1⟩)
    ∃ k h, Edit.addPath .empty ⟨before ++ .node n :: after⟩ g = .ok () h ∧
      Edit.addPath .empty ⟨before ++ [.node n]⟩ g = .ok () k ∧
      Edit.addPath .empty ⟨.node n :: after⟩ k = .ok () h ∧
      (h.nodeContents.map fun d => (d.name, d.label)) = [("b", some "C"), ("a", some "A")] := by
  intro before after n g
  have reach : Reachable g := (Reachable.empty _).runAll (by simp [Command.operand?])
    (by simp [Command.edge?])
  have hrun : Edit.addPath .empty ⟨before ++ .node n :: after⟩ g
      = .ok () ((Edit.addPath .empty ⟨before ++ .node n :: after⟩).after g) :=
    Edit.ok_after_of_outcome (by decide +kernel)
  obtain ⟨k, hfirst, hsecond⟩ :=
    (reach.addPath_cut .empty before after n (by decide +kernel) _).mp hrun
  exact ⟨k, _, hrun, hfirst, hsecond, by decide +kernel⟩

end Reachable

end PatternGraph
