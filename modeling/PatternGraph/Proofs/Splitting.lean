/-
  PatternGraph.Proofs.Splitting

  One split, handle by handle.  Both graphs are restrictions of the copy by a
  test that no edge crosses, so a node that stays has all its lists and an edge
  stays when its source does; nothing is lost, and everything keeps its slot.
  The test asks whether a node of the copy is joined to the first one there,
  which is to say that the nodes behind the two are joined in the graph itself.
-/
import PatternGraph.Proofs.Components
import PatternGraph.Proofs.CopyEffect

namespace PatternGraph

namespace Graph

variable {g h part rest : Graph} {x y first : NodeId} {n m : Node}

/-! ## What a split is -/

/-- A graph has the nodes and the edges of another one that are told, in the slots of the copy and
    as they are there, and no others. -/
structure Holds (g h : Graph) (nodes : NodeId → Prop) (edges : Edge → Prop) : Prop where
  node : ∀ x n, g.node? x = some n → nodes x → ∃ m, h.node? (g.nodePlace x) = some m ∧
    g.compact.node? (g.nodePlace x) = some m ∧ m.content = n.content
  node_origin : ∀ y m, h.node? y = some m →
    ∃ x n, g.node? x = some n ∧ nodes x ∧ g.nodePlace x = y
  edge : ∀ i e, g.edge? i = some e → edges e → ∃ d, h.edge? (g.edgePlace i) = some d ∧
    g.compact.edge? (g.edgePlace i) = some d ∧ h.edgeContent d = g.edgeContent e
  edge_origin : ∀ j d, h.edge? j = some d →
    ∃ i e, g.edge? i = some e ∧ edges e ∧ g.edgePlace i = j
  limits : h.limits = g.limits
  consistent : h.WellFormed ∧ h.audit = .ok ()

/-- An end of the edge is joined to the node. -/
def JoinsEnd (g : Graph) (x : NodeId) (e : Edge) : Prop := g.Joined x e.src ∨ g.Joined x e.dest

/-- The part has what is joined to the first node, and the rest has all else. -/
structure Splits (g : Graph) (first : NodeId) (part rest : Graph) : Prop where
  joined : g.Holds part (g.Joined first) (g.JoinsEnd first)
  apart : g.Holds rest (fun x => ¬ g.Joined first x) (fun e => ¬ g.JoinsEnd first e)
  node_count : part.nodeCount + rest.nodeCount = g.nodeCount
  edge_count : part.edgeCount + rest.edgeCount = g.edgeCount
  fewer : rest.nodeCount < g.nodeCount

/-- A search from a node finds the node of that name. -/
def foundFrom (g : Graph) (first : NodeId) (name : String) : Bool :=
  (g.nodeNamed? name).any (g.searchFrom first).has

/-! ## Tests that no edge crosses -/

section Closed

variable {p : NodeId → Bool} (hclosed : ∀ i e, g.edge? i = some e → p e.src = p e.dest)

include hclosed

/-- An edge stays when its source passes, for its other end passes too. -/
theorem edge?_induced_of_closed (i : EdgeId) :
    (g.induced p).edge? i = (g.edge? i).filter fun e => p e.src := by
  rw [edge?_induced]
  cases he : g.edge? i with
  | none => rfl
  | some e =>
      have hspan : spans p e = p e.src := by rw [spans, ← hclosed i e he, Bool.and_self]
      simp only [Option.filter, hspan]

/-- A node that passes keeps all of its edges. -/
theorem WellFormed.node?_induced_of_closed (wf : g.WellFormed) (x : NodeId) :
    (g.induced p).node? x = if p x then g.node? x else none := by
  rw [node?_induced]
  split
  next hx =>
    cases hn : g.node? x with
    | none => rfl
    | some n =>
        -- the edges in its lists start or end at it, so the test passes at both of their ends
        have hkeep : n.keeping (g.keepsEdge p) = n.keeping fun _ => true := by
          apply wf.keeping_congr hn
          intro i e he hends
          rw [keepsEdge, he, Option.any_some, spans, ← hclosed i e he, Bool.and_self]
          rcases hends with rfl | rfl
          · exact hx
          · rw [hclosed i e he]
            exact hx
        rw [Option.map_some, hkeep, Node.keeping_true]
  next => rfl

end Closed

/-! ## The copy and the graph -/

theorem nameOf?_compact_nodePlace (hslots : g.HasSlots 0 0) (hx : g.node? x = some n) :
    g.compact.nameOf? (g.nodePlace x) = some n.name := by
  rw [← copyId_eq_nodePlace hx, nameOf?_compact_copyId hslots hx, nameOf?_of_live hx]

/-- Every node of the copy is the copy of a node. -/
theorem Sound.exists_nodePlace (sound : g.Sound) (hy : g.compact.node? y = some m) :
    ∃ x n, g.node? x = some n ∧ g.nodePlace x = y := by
  refine sound.renumbers_compact.exists_nodePlace ?_
  rw [← sound.renumbers_compact.size_nodes]
  exact lt_size_of_node? hy

section First

variable {others : List (NodeId × Node)} (hlive : g.liveNodes = (first, n) :: others)

include hlive

theorem node?_first : g.node? first = some n := by
  rw [← mem_liveNodes, hlive]
  exact List.mem_cons_self

/-- The first slot of the copy is joined there to what the first node is joined to. -/
theorem Sound.joined_compact_iff (sound : g.Sound) (hx : g.node? x = some m) :
    g.compact.Joined ⟨0⟩ (g.nodePlace x) ↔ g.Joined first x := by
  have hfirst := node?_first hlive
  have hzero : g.compact.nameOf? ⟨0⟩ = some n.name := by
    rw [compact_first sound.slots, nodeContents, ← map_snd_liveNodes, hlive]
    rfl
  rw [sound.compact.joined_iff_linked hzero (nameOf?_compact_nodePlace sound.slots hx),
    sound.edgeContents_compact,
    sound.joined_iff_linked (nameOf?_of_live hfirst) (nameOf?_of_live hx)]

/-- The search in the copy reaches the copies of what is joined to the first node. -/
theorem Sound.searchFrom_nodePlace (sound : g.Sound) (hx : g.node? x = some m) :
    (g.compact.searchFrom ⟨0⟩).has (g.nodePlace x) = true ↔ g.Joined first x := by
  have hzero : (g.compact.node? ⟨0⟩).isSome := by
    rw [isSome_node?_iff_nameOf?, compact_first sound.slots, nodeContents, ← map_snd_liveNodes,
      hlive]
    rfl
  rw [sound.compact.searchFrom_has hzero, sound.joined_compact_iff hlive hx]

/-- The graph is divided as the search from its first node tells: the nodes of the copy whose names
    were found in the graph itself are kept in the one part and taken out of the other. -/
theorem Sound.split?_eq_of_search (sound : g.Sound) :
    g.split? = some ((g.compact.retain fun _ m => g.foundFrom first m.name).2,
      (g.compact.retain fun _ m => !g.foundFrom first m.name).2) := by
  have hseed : (g.node? first).isSome := by rw [node?_first hlive]; rfl
  -- the search in the copy reaches a node when the search in the graph reaches its original
  have hsame : ∀ y m, g.compact.node? y = some m →
      (g.compact.searchFrom ⟨0⟩).has y = g.foundFrom first m.name := by
    intro y m hy
    obtain ⟨x, a, hx, rfl⟩ := sound.exists_nodePlace hy
    have hname := nameOf?_compact_nodePlace sound.slots hx
    rw [nameOf?_of_live hy, Option.some.injEq] at hname
    rw [Bool.eq_iff_iff, sound.searchFrom_nodePlace hlive hx, ← sound.searchFrom_has hseed, hname,
      foundFrom, sound.nodeNamed?_name hx, Option.any_some]
  cases hsplit : g.split? with
  | none =>
      have hnodes := (split?_eq_none sound.slots).mp hsplit
      rw [nodeContents, ← map_snd_liveNodes, hlive] at hnodes
      cases hnodes
  | some both =>
      obtain ⟨part, rest⟩ := both
      obtain ⟨-, hpart, hrest⟩ := split?_eq_some hsplit
      rw [hpart, hrest, retain_congr hsame,
        retain_congr fun y m hy => congrArg not (hsame y m hy)]

end First

/-! ## A restriction of the copy -/

section Restriction

variable {p : NodeId → Bool} {nodes : NodeId → Prop} {edges : Edge → Prop}
  (hp : ∀ x n, g.node? x = some n → (p (g.nodePlace x) = true ↔ nodes x))

include hp

/-- At the ends of a copied edge the test says what is told of the ends of the edge. -/
theorem Sound.pass_ends (sound : g.Sound) {i : EdgeId} {e : Edge}
    (he : g.edge? i = some e) :
    (p (g.copyEdge e).src = true ↔ nodes e.src) ∧
      (p (g.copyEdge e).dest = true ↔ nodes e.dest) := by
  obtain ⟨a, ha⟩ := sound.src_live he
  obtain ⟨b, hb⟩ := sound.dest_live he
  rw [copyEdge, Edge.between, copyId_eq_nodePlace ha, copyId_eq_nodePlace hb]
  exact ⟨hp _ _ ha, hp _ _ hb⟩

/-- A restriction of the copy by a test that no edge crosses holds what passes. -/
theorem Sound.holds_induced (sound : g.Sound)
    (hsrc : ∀ i e, g.edge? i = some e → (edges e ↔ nodes e.src))
    (hdest : ∀ i e, g.edge? i = some e → (edges e ↔ nodes e.dest)) :
    g.Holds (g.compact.induced p) nodes edges := by
  -- no edge of the copy crosses: what is told of an edge is told of both of its ends
  have hclosed : ∀ j d, g.compact.edge? j = some d → p d.src = p d.dest := by
    intro j d hd
    obtain ⟨i, e, he, -, rfl⟩ := (edge?_compact_eq_some sound.slots).mp hd
    obtain ⟨hpsrc, hpdest⟩ := sound.pass_ends hp he
    rw [Bool.eq_iff_iff, hpsrc, hpdest, ← hsrc i e he, ← hdest i e he]
  have hnode : ∀ x n, g.node? x = some n → nodes x →
      (g.compact.induced p).node? (g.nodePlace x) = g.compact.node? (g.nodePlace x) := by
    intro x n hx hwithin
    rw [sound.compact.node?_induced_of_closed hclosed, if_pos ((hp x n hx).mpr hwithin)]
  have hname : ∀ x n, g.node? x = some n → nodes x →
      (g.compact.induced p).nameOf? (g.copyId x) = g.nameOf? x := by
    intro x n hx hwithin
    rw [copyId_eq_nodePlace hx, nameOf?, hnode x n hx hwithin, ← nameOf?,
      nameOf?_compact_nodePlace sound.slots hx, nameOf?_of_live hx]
  constructor
  case node =>
    intro x n hx hwithin
    obtain ⟨m, hm, hcontent, -⟩ := sound.renumbers_compact.lists x n hx
    exact ⟨m, (hnode x n hx hwithin).trans hm, hm, hcontent⟩
  case node_origin =>
    intro y m hy
    rw [sound.compact.node?_induced_of_closed hclosed] at hy
    split at hy
    next hpass =>
      obtain ⟨x, n, hx, rfl⟩ := sound.exists_nodePlace hy
      exact ⟨x, n, hx, (hp x n hx).mp hpass, rfl⟩
    next => cases hy
  case edge =>
    intro i e he hwithin
    obtain ⟨a, ha⟩ := sound.src_live he
    obtain ⟨b, hb⟩ := sound.dest_live he
    have hcopy := (edge?_compact_eq_some sound.slots).mpr ⟨i, e, he, rfl, rfl⟩
    have hpass := (sound.pass_ends hp he).1.mpr ((hsrc i e he).mp hwithin)
    refine ⟨g.copyEdge e, ?_, hcopy, ?_⟩
    · rw [edge?_induced_of_closed hclosed, hcopy, Option.filter_some_pos]
      exact hpass
    · simp only [edgeContent, copyEdge, Edge.between,
        hname _ _ ha ((hsrc i e he).mp hwithin), hname _ _ hb ((hdest i e he).mp hwithin)]
  case edge_origin =>
    intro j d hd
    rw [edge?_induced_of_closed hclosed, Option.filter_eq_some_iff] at hd
    obtain ⟨hj, hpass⟩ := hd
    obtain ⟨i, e, he, hplace, rfl⟩ := (edge?_compact_eq_some sound.slots).mp hj
    exact ⟨i, e, he, (hsrc i e he).mpr ((sound.pass_ends hp he).1.mp hpass), hplace⟩
  case limits => exact limits_compact sound.slots
  case consistent =>
    exact ⟨(sound.compact.induced p).toWellFormed, (sound.compact.induced p).audit_eq_ok⟩

/-- Keeping the nodes that pass is such a restriction. -/
theorem Sound.holds_retain (sound : g.Sound)
    (hsrc : ∀ i e, g.edge? i = some e → (edges e ↔ nodes e.src))
    (hdest : ∀ i e, g.edge? i = some e → (edges e ↔ nodes e.dest)) :
    g.Holds (g.compact.retain fun id _ => p id).2 nodes edges := by
  rw [sound.compact.retain_eq]
  dsimp only
  refine sound.holds_induced (fun x n hx => ?_) hsrc hdest
  obtain ⟨m, hm, -⟩ := sound.renumbers_compact.lists x n hx
  rw [hm, Option.any_some]
  exact hp x n hx

end Restriction

/-! ## One split -/

/-- An edge has an end joined to a node when either of its ends is: the edge joins the two. -/
theorem joinsEnd_iff {i : EdgeId} {e : Edge} (he : g.edge? i = some e) :
    (g.JoinsEnd x e ↔ g.Joined x e.src) ∧ (g.JoinsEnd x e ↔ g.Joined x e.dest) := by
  have hadj : g.Adjacent e.src e.dest := ⟨i, e, he, .inl ⟨rfl, rfl⟩⟩
  constructor
  · exact ⟨fun h => h.elim id fun hdest => .step hdest hadj.symm, .inl⟩
  · exact ⟨fun h => h.elim (fun hsrc => .step hsrc hadj) id, .inr⟩

/-- Where there is a node, a split divides the graph into what is joined to the first one and what
    is not. -/
theorem Sound.splits (sound : g.Sound) {others : List (NodeId × Node)}
    (hlive : g.liveNodes = (first, n) :: others) (h : g.split? = some (part, rest)) :
    g.Splits first part rest := by
  -- the counts are read off the contents, of which the two graphs have shares
  obtain ⟨-, -, -, divides, -⟩ := sound.divides_split h
  have hfewer := sound.length_rest_lt h
  have hnodes : (part.nodeContents ++ rest.nodeContents).Perm g.nodeContents := by
    rw [divides.part_nodes, divides.rest_nodes]
    exact List.filter_append_perm _ _
  have hnodes := hnodes.length_eq
  have hedges := (divides.edges_perm sound.toWellFormed).length_eq
  rw [List.length_append, divides.part_sound.length_nodeContents,
    divides.rest_sound.length_nodeContents, sound.length_nodeContents] at hnodes
  rw [List.length_append, divides.part_sound.length_edgeContents,
    divides.rest_sound.length_edgeContents, sound.length_edgeContents] at hedges
  rw [divides.rest_sound.length_nodeContents, sound.length_nodeContents] at hfewer
  obtain ⟨-, rfl, rfl⟩ := split?_eq_some h
  refine ⟨sound.holds_retain (fun x m hx => sound.searchFrom_nodePlace hlive hx)
    (fun i e he => (joinsEnd_iff he).1) (fun i e he => (joinsEnd_iff he).2), ?_, hnodes, hedges,
    hfewer⟩
  refine sound.holds_retain (fun x m hx => ?_) (fun i e he => not_congr (joinsEnd_iff he).1)
    (fun i e he => not_congr (joinsEnd_iff he).2)
  rw [← sound.searchFrom_nodePlace hlive hx, Bool.not_eq_true', Bool.not_eq_true]

end Graph

namespace Reachable

variable {g : Graph}

/-- A graph that can come up is split unless it has no nodes.  The part has the nodes that are
    joined to the first one and the edges at them, the rest has all else, both in the slots of the
    copy, and the rest is smaller.  It makes no difference if the search is made in the graph
    itself, and its copies keep or lose the nodes whose names were found. -/
theorem split_exact (reach : Reachable g) :
    (g.split? = none ↔ ∀ x, g.node? x = none) ∧
      ∀ first n others, g.liveNodes = (first, n) :: others →
        ∃ part rest, g.split? = some (part, rest) ∧ g.Splits first part rest ∧
          part = (g.compact.retain fun _ m => g.foundFrom first m.name).2 ∧
          rest = (g.compact.retain fun _ m => !g.foundFrom first m.name).2 := by
  have sound := reach.sound
  have hnone : g.split? = none ↔ g.liveNodes = [] := by
    rw [Graph.split?_eq_none sound.slots, Graph.nodeContents, ← Graph.map_snd_liveNodes,
      List.map_map, List.map_eq_nil_iff]
  constructor
  · rw [hnone, List.eq_nil_iff_forall_not_mem]
    constructor
    · intro hempty x
      exact Option.eq_none_iff_forall_ne_some.mpr fun n hn =>
        hempty (x, n) (Graph.mem_liveNodes.mpr hn)
    · rintro hempty ⟨x, n⟩ hn
      rw [Graph.mem_liveNodes, hempty x] at hn
      cases hn
  · intro first n others hlive
    cases hsplit : g.split? with
    | none =>
        rw [hnone.mp hsplit] at hlive
        cases hlive
    | some both =>
        -- the search in the graph itself finds the same two parts
        obtain ⟨hpart, hrest⟩ := Prod.mk.inj
          (Option.some.inj (hsplit.symm.trans (sound.split?_eq_of_search hlive)))
        exact ⟨both.1, both.2, rfl, sound.splits hlive hsplit, hpart, hrest⟩

/-- The first node is in one part with a node that has a loop, after the node in front of both was
    taken out; the rest has two edges of the same direction, one of them turned round. -/
theorem split_exact_of_removal :
    let edge (r : String) (src dest : Nat) : Command :=
      .addEdge ⟨r, ⟨src⟩, ⟨dest⟩, [], [], false, .single⟩
    let g := Command.runAll [.addNode "x", .addNode "a", .addNode "b", .addNode "c", .addNode "d",
      edge "r" 4 2, edge "s" 0 1, edge "t" 3 1, edge "l" 3 3, edge "u" 2 4, .reverseEdge ⟨0⟩,
      .removeNode ⟨0⟩] (.empty .standard)
    ∃ part rest, g.split? = some (part, rest) ∧ g.Splits ⟨1⟩ part rest ∧
      part.nodes.cells.map (Option.map Node.name) = #[some "a", none, some "c", none] ∧
      rest.nodes.cells.map (Option.map Node.name) = #[none, some "b", none, some "d"] ∧
      part.edges.cells.map (Option.map Edge.name) = #[none, some "t", some "l", none] ∧
      rest.edges.cells.map (Option.map Edge.name) = #[some "r", none, none, some "u"] := by
  intro edge g
  have reach : Reachable g := (Reachable.empty .standard).runAll (by simp [edge, Command.operand?])
    (by simp [edge, Command.edge?, Edge.made_iff])
  have hlive : g.liveNodes = (⟨1⟩, ⟨"a", none, .absent, #[⟨2⟩], #[]⟩) :: g.liveNodes.tail := by
    decide +kernel
  obtain ⟨part, rest, hsplit, splits, -⟩ := reach.split_exact.2 _ _ _ hlive
  have hcells : g.split?.map (fun both =>
      (both.1.nodes.cells.map (Option.map Node.name), both.2.nodes.cells.map (Option.map Node.name),
        both.1.edges.cells.map (Option.map Edge.name),
        both.2.edges.cells.map (Option.map Edge.name)))
      = some (#[some "a", none, some "c", none], #[none, some "b", none, some "d"],
        #[none, some "t", some "l", none], #[some "r", none, none, some "u"]) := by decide +kernel
  rw [hsplit, Option.map_some, Option.some.injEq, Prod.mk.injEq, Prod.mk.injEq, Prod.mk.injEq]
    at hcells
  obtain ⟨hpart, hrest, hpartEdges, hrestEdges⟩ := hcells
  exact ⟨part, rest, hsplit, splits, hpart, hrest, hpartEdges, hrestEdges⟩

end Reachable

end PatternGraph
