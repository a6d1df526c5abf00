/-
  PatternGraph.Proofs.Anonymity

  Anonymous entities of a path never join existing ones.  When a path is added,
  its walk is added under names that keep what was written apart: an anonymous
  name that is bound already stands for a free one, so every anonymous node and
  edge is new, and the count of nodes grows by what is new.
-/
import PatternGraph.Proofs.Lists
import PatternGraph.Proofs.Reachability
import PatternGraph.Proofs.Renaming

namespace PatternGraph

namespace Graph

variable {g g' : Graph} {w : Walk} {f : String → String} {a : String}

/-! ## Names that keep anonymous entities apart -/

/-- The map keeps written names apart, replaces the anonymous ones that are bound by names that
    are neither bound nor written, and keeps all others. -/
structure KeepsApart (g : Graph) (w : Walk) (f : String → String) : Prop where
  inj : ∀ a ∈ w.names, ∀ b ∈ w.names, f a = f b → a = b
  kept : ∀ a ∈ w.names, isAnonymous a = false ∨ g.binds a = false → f a = a
  fresh : ∀ a ∈ w.names, isAnonymous a = true → g.binds a = true →
    isAnonymous (f a) = true ∧ g.binds (f a) = false ∧ f a ∉ w.names

theorem keepsApart_renamingFor (g : Graph) (w : Walk) :
    g.KeepsApart w (g.renamingFor w).apply where
  inj _ ha _ hb h := renamingFor_inj ha hb h
  kept a _ h := by
    refine renamingFor_of_kept ?_
    rw [clashes]
    rcases h with h | h <;> simp [h]
  fresh a ha hanon hbound := by
    have hclash : g.clashes a = true := by rw [clashes, hanon, hbound]; rfl
    exact (renamingFor_of_clash ha hclash).2

/-- What an anonymous name stands for is not bound. -/
theorem KeepsApart.binds_eq_false (apart : g.KeepsApart w f) (ha : a ∈ w.names)
    (hanon : isAnonymous a = true) : g.binds (f a) = false := by
  cases hbound : g.binds a with
  | true => exact (apart.fresh a ha hanon hbound).2.1
  | false => rw [apart.kept a ha (.inr hbound), hbound]

theorem KeepsApart.hasNode_eq_false (apart : g.KeepsApart w f) (ha : a ∈ w.names)
    (hanon : isAnonymous a = true) : g.hasNode (f a) = false :=
  (Bool.or_eq_false_iff.mp (apart.binds_eq_false ha hanon)).1

theorem KeepsApart.hasEdge_eq_false (apart : g.KeepsApart w f) (ha : a ∈ w.names)
    (hanon : isAnonymous a = true) : g.hasEdge (f a) = false :=
  (Bool.or_eq_false_iff.mp (apart.binds_eq_false ha hanon)).2

/-! ## Names on a walk -/

theorem nodeNames_rename (w : Walk) (f : String → String) :
    (w.rename f).nodes.map PathNode.name = (w.nodes.map PathNode.name).map f := by
  simp [Walk.rename, Walk.nodes]

theorem edgeNames_rename (w : Walk) (f : String → String) :
    (w.rename f).edges.map PathEdge.name = (w.edges.map PathEdge.name).map f := by
  simp [Walk.rename, Walk.edges]

theorem mem_names_of_node (ha : a ∈ w.nodes.map PathNode.name) : a ∈ w.names :=
  List.mem_append_left _ ha

theorem mem_names_of_edge (ha : a ∈ w.edges.map PathEdge.name) : a ∈ w.names :=
  List.mem_append_right _ ha

/-- The names that are new to the graph are those of the anonymous nodes and, of the others,
    those that no node bears. -/
theorem KeepsApart.length_newNodeNames (apart : g.KeepsApart w f) :
    (g.newNodeNames (w.rename f)).length
      = ((w.nodes.map PathNode.name).filter isAnonymous).eraseDups.length
        + ((w.nodes.map PathNode.name).filter
            fun a => !isAnonymous a && !g.hasNode a).eraseDups.length := by
  -- an anonymous name is always new, and the others are looked up as they are written
  have hnew : (w.nodes.map PathNode.name).filter (fun a => !g.hasNode (f a))
      = (w.nodes.map PathNode.name).filter fun a => isAnonymous a || !g.hasNode a := by
    apply List.filter_congr
    intro a ha
    cases hanon : isAnonymous a with
    | true => rw [apart.hasNode_eq_false (mem_names_of_node ha) hanon]; rfl
    | false => rw [apart.kept a (mem_names_of_node ha) (.inl hanon)]; rfl
  have hinj : ∀ a ∈ (w.nodes.map PathNode.name).filter (fun a => isAnonymous a || !g.hasNode a),
      ∀ b ∈ (w.nodes.map PathNode.name).filter (fun a => isAnonymous a || !g.hasNode a),
      f a = f b → a = b := by
    intro a ha b hb
    exact apart.inj a (mem_names_of_node (List.mem_filter.mp ha).1) b
      (mem_names_of_node (List.mem_filter.mp hb).1)
  rw [newNodeNames, nodeNames_rename, List.filter_map]
  show (List.map f ((w.nodes.map PathNode.name).filter fun a => !g.hasNode (f a))).eraseDups.length
    = _
  rw [hnew, length_eraseDups_map hinj, length_eraseDups_filter_or]

/-! ## What the names denote -/

/-- A node that was there keeps its name, so a name that was not bound is borne by a new node. -/
theorem node?_eq_none_of_extend {c : Catalog} {x : NodeId} {m : Node}
    (hx : (g.extend c w).node? x = some m) (hfree : g.hasNode m.name = false) :
    g.node? x = none := by
  cases hn : g.node? x with
  | none => rfl
  | some n =>
      have hkept := nameOf?_of_append (nameSlots_extend c g w) (nameOf?_of_live hn)
      obtain ⟨m', hm', hname⟩ := nameOf?_eq_some.mp hkept
      rw [hx] at hm'
      cases hm'
      exact absurd hname.symm (hasNode_eq_false.mp hfree x n hn)

theorem edge?_eq_none_of_extend {c : Catalog} {i : EdgeId} {d : Edge}
    (hi : (g.extend c w).edge? i = some d) (hfree : g.hasEdge d.name = false) :
    g.edge? i = none := by
  cases he : g.edge? i with
  | none => rfl
  | some e =>
      rw [edge?_extend_of_live he] at hi
      cases hi
      exact absurd rfl (hasEdge_eq_false.mp hfree i _ he)

end Graph

namespace Reachable

/-- When a path is added to a graph that can come up, its walk is added under names that keep
    anonymous entities apart: each anonymous node and edge of the path is a new one, and the count
    of nodes grows by the different anonymous nodes and the different others that were missing. -/
theorem anonymous_apart {g g' : Graph} {c : Catalog} {p : Path} (reach : Reachable g)
    (h : Edit.addPath c p g = .ok () g') :
    ∃ (w : Walk) (f : String → String), p = w.path ∧ g.KeepsApart w f ∧
      Edit.addWalk c (w.rename f) g = .ok () g' ∧
      g'.edgeContents = g.edgeContents ++ (w.rename f).links.map (linkContent c) ∧
      (∀ n ∈ w.nodes, g'.hasNode (f n.name) = true ∧
        (isAnonymous n.name = true →
          ∀ x m, g'.node? x = some m → m.name = f n.name → g.node? x = none)) ∧
      (∀ e ∈ w.edges, g'.hasEdge (f e.name) = true ∧
        (isAnonymous e.name = true →
          ∀ i d, g'.edge? i = some d → d.name = f e.name → g.edge? i = none)) ∧
      g'.nodeCount = g.nodeCount
        + ((w.nodes.map PathNode.name).filter isAnonymous).eraseDups.length
        + ((w.nodes.map PathNode.name).filter
            fun a => !isAnonymous a && !g.hasNode a).eraseDups.length := by
  have wf := reach.wellFormed
  obtain ⟨w, hwalk, haccepted, hsame⟩ := Edit.addPath_eq_extend h
  have apart := g.keepsApart_renamingFor w
  obtain ⟨hadmits, hnodup, -, -⟩ := Graph.accept_eq_ok.mp haccepted
  have hfree : ∀ e ∈ (g.renamed w).edges, g.hasEdge e.name = false :=
    fun e he => (hadmits e he).1
  have hwhole : Edit.addWalk c (g.renamed w) g = .ok () g' :=
    (Edit.addPath_of_accept hwalk haccepted).symm.trans h
  -- names that were not bound before belong to nodes and edges that were not there
  subst hsame
  refine ⟨w, (g.renamingFor w).apply, Path.eq_path_of_walk? hwalk, apart, hwhole,
    wf.edgeContents_extend hfree hnodup, ?_, ?_, ?_⟩
  · intro n hn
    have hname : n.name ∈ w.nodes.map PathNode.name := List.mem_map_of_mem hn
    refine ⟨Graph.hasNode_extend.mpr (.inr ?_), fun hanon x m hx hm => ?_⟩
    · rw [Graph.renamed, Graph.nodeNames_rename]
      exact List.mem_map_of_mem hname
    · refine Graph.node?_eq_none_of_extend hx ?_
      rw [hm]
      exact apart.hasNode_eq_false (Graph.mem_names_of_node hname) hanon
  · intro e he
    have hname : e.name ∈ w.edges.map PathEdge.name := List.mem_map_of_mem he
    refine ⟨(wf.hasEdge_extend hfree hnodup).mpr (.inr ?_), fun hanon i d hi hd => ?_⟩
    · rw [Graph.renamed, Graph.edgeNames_rename]
      exact List.mem_map_of_mem hname
    · refine Graph.edge?_eq_none_of_extend hi ?_
      rw [hd]
      exact apart.hasEdge_eq_false (Graph.mem_names_of_edge hname) hanon
  · rw [wf.nodeCount_extend hfree hnodup, Graph.renamed, apart.length_newNodeNames,
      Nat.add_assoc]

/-- A second path that writes a bound node and a bound edge without a name adds one node for both
    occurrences of the first. -/
theorem anonymous_apart_of_clash :
    let g := (Command.addPath .empty ⟨[.node ⟨"_anon_0", none⟩,
      .edge ⟨"_anon_1", .outgoing, [], none⟩, .node ⟨"a", none⟩]⟩).run (.empty .standard)
    let p : Path := ⟨[.node ⟨"_anon_0", none⟩, .edge ⟨"_anon_2", .outgoing, [], none⟩,
      .node ⟨"a", none⟩, .edge ⟨"_anon_1", .both, [], none⟩, .node ⟨"_anon_0", none⟩]⟩
    ∃ g', Edit.addPath .empty p g = .ok () g' ∧ g.nodeCount = 2 ∧ g'.nodeCount = 3 := by
  intro g p
  have reach : Reachable g := .run _ (.empty .standard) nofun nofun
  let w : Walk := ⟨⟨"_anon_0", none⟩, [⟨⟨"_anon_2", .outgoing, [], none⟩, ⟨"a", none⟩⟩,
    ⟨⟨"_anon_1", .both, [], none⟩, ⟨"_anon_0", none⟩⟩]⟩
  have hwalk : p.walk? = .ok w := rfl
  have hacc : g.accept (g.renamed w) = .ok () := by decide +kernel
  have hrun : Edit.addPath .empty p g = .ok () (g.extend .empty (g.renamed w)) :=
    (Edit.addPath_eq_ok reach.sound.slots).mpr ⟨w, hwalk, hacc, by decide +kernel, rfl⟩
  have hcount : g.nodeCount = 2 := by decide +kernel
  obtain ⟨w', -, hpath, -, -, -, -, -, hgrown⟩ := reach.anonymous_apart hrun
  have hsame : w = w' := by
    rw [hpath, Path.walk?_path] at hwalk
    exact (Except.ok.inj hwalk).symm
  subst hsame
  refine ⟨_, hrun, hcount, ?_⟩
  rw [hgrown, hcount]
  decide +kernel

end Reachable

end PatternGraph
