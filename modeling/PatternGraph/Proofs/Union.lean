/-
  PatternGraph.Proofs.Union

  The connected parts of two graphs side by side.  A graph that says what
  another one says, and then more about other names, splits as the other one
  does until that is used up, since no edge leads out of it.  Merging graphs
  without common names puts them side by side in this way.
-/
import PatternGraph.Proofs.Agreement
import PatternGraph.Proofs.Reassembly

namespace PatternGraph

namespace Graph

variable {g h m a b part rest : Graph} {more : List NodeContent} {later : List EdgeContent}
  {x y : String}

/-! ## Splitting often enough -/

theorem peel_of_split?_eq_none (hnone : g.split? = none) (k : Nat) : peel k g = [] := by
  cases k with
  | zero => rfl
  | succ k => rw [peel, hnone]

theorem peel_of_split (hsplit : g.split? = some (part, rest)) (k : Nat) :
    peel (k + 1) g = part :: peel k rest := by
  rw [peel, hsplit]

/-- It makes no difference how often a graph may be split when there are no more nodes. -/
theorem Sound.peel_congr (sound : g.Sound) {j k : Nat} (hj : g.nodeContents.length ≤ j)
    (hk : g.nodeContents.length ≤ k) : peel j g = peel k g := by
  induction j generalizing k g with
  | zero =>
      have hnil := List.eq_nil_of_length_eq_zero (Nat.le_zero.mp hj)
      have hnone := (split?_eq_none sound.slots).mpr hnil
      rw [peel_of_split?_eq_none hnone, peel_of_split?_eq_none hnone]
  | succ j ih =>
      match hsplit : g.split? with
      | none => rw [peel_of_split?_eq_none hsplit, peel_of_split?_eq_none hsplit]
      | some (part, rest) =>
          have hfewer := sound.length_rest_lt hsplit
          obtain ⟨k, rfl⟩ : ∃ n, k = n + 1 := ⟨k - 1, by omega⟩
          have hrest : peel j rest = peel k rest :=
            ih (sound.split hsplit).2 (by omega) (by omega)
          rw [peel_of_split hsplit, peel_of_split hsplit, hrest]

/-- The parts of a graph are what is split off and the parts of the rest. -/
theorem Sound.components_of_split (sound : g.Sound) (hsplit : g.split? = some (part, rest)) :
    g.components = part :: rest.components := by
  have hfewer := sound.length_rest_lt hsplit
  have hlength : ∀ k : Graph, k.nodes.values.length = k.nodeContents.length := fun _ =>
    (List.length_map ..).symm
  rw [components, components, hlength, hlength,
    sound.peel_congr (Nat.le_refl _) (Nat.le_succ g.nodeContents.length), peel_of_split hsplit,
    (sound.split hsplit).2.peel_congr (Nat.le_of_lt hfewer) (Nat.le_refl _)]

/-! ## One graph and then another -/

/-- The graphs say the same, whatever their budgets. -/
structure Echoes (g h : Graph) : Prop where
  nodes : g.nodeContents = h.nodeContents
  edges : g.edgeContents = h.edgeContents

/-- A graph says what another one says and then more, and what is more is not about the names of
    the other one. -/
structure Prolongs (m a : Graph) (more : List NodeContent) (later : List EdgeContent) : Prop where
  whole : m.Sound
  front : a.Sound
  nodes : m.nodeContents = a.nodeContents ++ more
  edges : m.edgeContents = a.edgeContents ++ later
  fresh : ∀ n ∈ more, n.name ∉ a.nodeNames
  apart : ∀ e ∈ later, ∀ name ∈ a.nodeNames, e.src ≠ some name ∧ e.dest ≠ some name

namespace Prolongs

variable (prolongs : m.Prolongs a more later)
include prolongs

/-- A chain of edges from a name of the front does not leave it. -/
theorem linked_iff (hx : x ∈ a.nodeNames) :
    Linked m.edgeContents x y ↔ Linked a.edgeContents x y := by
  refine ⟨fun h => ?_, fun h => h.mono fun e he => ?_⟩
  · induction h with
    | refl => exact .refl
    | tail _ last ih =>
        obtain ⟨e, he, hends⟩ := last
        rw [prolongs.edges, List.mem_append] at he
        rcases he with he | he
        · exact ih.tail ⟨e, he, hends⟩
        -- the last edge would have to begin where the chain has come to
        · have hends' := prolongs.apart e he _ (prolongs.front.mem_nodeNames_of_linked hx ih)
          rcases hends with ⟨hsrc, -⟩ | ⟨-, hdest⟩
          · exact absurd hsrc hends'.1
          · exact absurd hdest hends'.2
  · rw [prolongs.edges]
    exact List.mem_append_left _ he

/-- A test of names that what is more does not pass keeps nothing of it, and its opposite keeps
    all of it. -/
theorem filter_nodes {q : String → Bool} (hq : ∀ n ∈ more, q n.name = false) :
    m.nodeContents.filter (fun n => q n.name) = a.nodeContents.filter (fun n => q n.name) ∧
      m.nodeContents.filter (fun n => !q n.name)
        = a.nodeContents.filter (fun n => !q n.name) ++ more := by
  have hnone : more.filter (fun n => q n.name) = [] :=
    List.filter_eq_nil_iff.mpr fun n hn => by rw [hq n hn]; exact Bool.false_ne_true
  have hall : more.filter (fun n => !q n.name) = more :=
    List.filter_eq_self.mpr fun n hn => by rw [hq n hn]; rfl
  rw [prolongs.nodes, List.filter_append, List.filter_append, hnone, hall, List.append_nil]
  exact ⟨rfl, rfl⟩

/-- The same for edges, which are tested by the names of their sources. -/
theorem filter_edges {q : String → Bool} (hq : ∀ e ∈ later, e.src.any q = false) :
    m.edgeContents.filter (fun e => e.src.any q) = a.edgeContents.filter (fun e => e.src.any q) ∧
      m.edgeContents.filter (fun e => e.src.any (!q ·))
        = a.edgeContents.filter (fun e => e.src.any (!q ·)) ++ later := by
  have hnone : later.filter (fun e => e.src.any q) = [] :=
    List.filter_eq_nil_iff.mpr fun e he => by rw [hq e he]; exact Bool.false_ne_true
  have hall : later.filter (fun e => e.src.any (!q ·)) = later := by
    refine List.filter_eq_self.mpr fun e he => ?_
    have hedge : e ∈ m.edgeContents := prolongs.edges ▸ List.mem_append_right _ he
    obtain ⟨name, -, hsrc, -⟩ := prolongs.whole.bound e hedge
    have hname := hq e he
    rw [hsrc, Option.any_some] at hname
    rw [hsrc, Option.any_some, hname]
    rfl
  rw [prolongs.edges, List.filter_append, List.filter_append, hnone, hall, List.append_nil]
  exact ⟨rfl, rfl⟩

/-- The part that is split off is the one that is split off the front; what is left prolongs what
    is left of the front. -/
theorem split (hsplit : a.split? = some (part, rest)) :
    ∃ part' rest', m.split? = some (part', rest') ∧ part'.Echoes part ∧
      rest'.Prolongs rest more later := by
  obtain ⟨first, others, hfirst, divides, hq⟩ := prolongs.front.divides_split hsplit
  have hcons : m.nodeContents = first :: (others ++ more) := by
    rw [prolongs.nodes, hfirst, List.cons_append]
  obtain ⟨⟨part', rest'⟩, hsplit'⟩ : ∃ p, m.split? = some p := by
    rw [← Option.ne_none_iff_exists', ne_eq, split?_eq_none prolongs.whole.slots, hcons]
    exact List.cons_ne_nil _ _
  obtain ⟨first', others', hfirst', divides', hq'⟩ := prolongs.whole.divides_split hsplit'
  obtain ⟨rfl, -⟩ := List.cons.inj (hfirst'.symm.trans hcons)
  have hmem : first'.name ∈ a.nodeNames := by
    rw [nodeNames, hfirst]
    exact List.mem_cons_self
  -- both searches start at one name and reach what is linked to it, which is in the front
  have hreached : m.reachedName = a.reachedName := funext fun name => by
    rw [Bool.eq_iff_iff, hq', hq, prolongs.linked_iff hmem]
  have hfront : ∀ name, a.reachedName name = true → name ∈ a.nodeNames := fun name hname =>
    prolongs.front.mem_nodeNames_of_linked hmem ((hq name).mp hname)
  have hmore : ∀ n ∈ more, a.reachedName n.name = false := fun n hn =>
    Bool.eq_false_iff.mpr fun hname => prolongs.fresh n hn (hfront _ hname)
  have hlater : ∀ e ∈ later, e.src.any a.reachedName = false := by
    intro e he
    rw [Bool.eq_false_iff, ne_eq, Option.any_eq_true]
    rintro ⟨name, hsrc, hname⟩
    exact (prolongs.apart e he name (hfront _ hname)).1 hsrc
  obtain ⟨hpartNodes, hrestNodes⟩ := prolongs.filter_nodes hmore
  obtain ⟨hpartEdges, hrestEdges⟩ := prolongs.filter_edges hlater
  have hsub : ∀ name ∈ rest.nodeNames, name ∈ a.nodeNames := by
    rw [nodeNames, divides.rest_nodes]
    exact fun name hname => (List.filter_sublist.map NodeContent.name).subset hname
  refine ⟨part', rest', hsplit', ⟨?_, ?_⟩, ?_⟩
  · rw [divides'.part_nodes, divides.part_nodes, hreached, hpartNodes]
  · rw [divides'.part_edges, divides.part_edges, hreached, hpartEdges]
  · constructor
    case whole => exact (prolongs.whole.split hsplit').2
    case front => exact (prolongs.front.split hsplit).2
    case nodes => rw [divides'.rest_nodes, divides.rest_nodes, hreached, hrestNodes]
    case edges => rw [divides'.rest_edges, divides.rest_edges, hreached, hrestEdges]
    case fresh => exact fun n hn hname => prolongs.fresh n hn (hsub _ hname)
    case apart => exact fun e he name hname => prolongs.apart e he name (hsub _ hname)

/-- The parts are those of the front and then those of a graph that says what is more. -/
theorem components :
    ∃ r : Graph, r.Sound ∧ r.nodeContents = more ∧ r.edgeContents = later ∧
      List.Forall₂ Echoes m.components (a.components ++ r.components) := by
  induction hn : a.nodeContents.length using Nat.strongRecOn generalizing m a with
  | _ n ih =>
  match hsplit : a.split? with
  | none =>
    have hnodes := (split?_eq_none prolongs.front.slots).mp hsplit
    have hedges := prolongs.front.edgeContents_eq_nil hnodes
    refine ⟨m, prolongs.whole, ?_, ?_, ?_⟩
    · rw [prolongs.nodes, hnodes, List.nil_append]
    · rw [prolongs.edges, hedges, List.nil_append]
    · rw [Graph.components, Graph.components, peel_of_split?_eq_none hsplit, List.nil_append]
      exact List.forall₂_same.mpr fun _ _ => ⟨rfl, rfl⟩
  | some (part, rest) =>
    have hfewer := prolongs.front.length_rest_lt hsplit
    obtain ⟨part', rest', hsplit', hpart, hrest⟩ := prolongs.split hsplit
    obtain ⟨r, sound, hmore, hlater, hparts⟩ := ih _ (hn ▸ hfewer) hrest rfl
    refine ⟨r, sound, hmore, hlater, ?_⟩
    rw [prolongs.whole.components_of_split hsplit', prolongs.front.components_of_split hsplit,
      List.cons_append]
    exact .cons hpart hparts

end Prolongs

/-- Graphs that say the same have parts that say the same. -/
theorem Echoes.components (echoes : g.Echoes h) (sound : g.Sound) (sound' : h.Sound) :
    List.Forall₂ Echoes g.components h.components := by
  have prolongs : g.Prolongs h [] [] := ⟨sound, sound', by rw [echoes.nodes, List.append_nil],
    by rw [echoes.edges, List.append_nil], nofun, nofun⟩
  obtain ⟨r, soundMore, hnodes, -, hparts⟩ := prolongs.components
  -- what says nothing has no parts
  have hnil : r.components = [] :=
    peel_of_split?_eq_none ((split?_eq_none soundMore.slots).mpr hnodes) _
  rwa [hnil, List.append_nil] at hparts

/-- What is read of graphs by what they say is the same for graphs that say the same. -/
theorem map_eq_of_echoes {α : Type} {f : Graph → α} (hf : ∀ g h, g.Echoes h → f g = f h)
    {parts others : List Graph} (hparts : List.Forall₂ Echoes parts others) :
    parts.map f = others.map f := by
  induction hparts with
  | nil => rfl
  | cons hpart _ ih => rw [List.map_cons, List.map_cons, hf _ _ hpart, ih]

/-- A merge with a graph that shares no name prolongs a graph by all of the other one. -/
theorem Sound.prolongs_merge (sound : a.Sound) (wfb : b.WellFormed) {t : MergeTally}
    (hnodes : ∀ name, a.hasNode name = true → b.hasNode name = false)
    (hedges : ∀ name, a.hasEdge name = true → b.hasEdge name = false)
    (hmerge : Edit.merge b a = .ok t m) : m.Prolongs a b.nodeContents b.edgeContents := by
  have hslots := (Edit.keeps_slots_merge b).of_ok sound.slots hmerge
  obtain ⟨-, -, rfl⟩ := (wfb.merge_eq_ok sound.slots).mp hmerge
  have hnode : ∀ name ∈ a.nodeNames, b.hasNode name ≠ true := fun name hname =>
    Bool.eq_false_iff.mp (hnodes name (hasNode_iff_mem_nodeNames.mpr hname))
  have hedge : ∀ name ∈ a.edgeNames, b.hasEdge name ≠ true := fun name hname =>
    Bool.eq_false_iff.mp (hedges name (hasEdge_iff_mem_edgeNames.mpr hname))
  have hfresh : ∀ n ∈ b.nodeContents, n.name ∉ a.nodeNames := fun n hn hname =>
    hnode _ hname (hasNode_iff_mem_nodeNames.mpr (List.mem_map_of_mem hn))
  constructor
  case whole => exact ⟨sound.absorb wfb, hslots⟩
  case front => exact sound
  case nodes => rw [nodeContents_absorb, lackingNodes_eq_self hfresh]
  case edges =>
    rw [sound.edgeContents_absorb wfb, lackingEdges_eq_self fun d hd hname =>
      hedge _ hname (hasEdge_iff_mem_edgeNames.mpr (List.mem_map_of_mem hd))]
  case fresh => exact hfresh
  -- the ends of the edges of the other graph are its nodes
  case apart =>
    intro e he name hname
    obtain ⟨x, y, hsrc, hdest, hx, hy⟩ := wfb.bound e he
    rw [hsrc, hdest]
    refine ⟨?_, ?_⟩
    · rintro ⟨⟩
      exact hnode _ hname hx
    · rintro ⟨⟩
      exact hnode _ hname hy

/-- What is read of the parts is what is read of the parts of the front and then of those of a graph
    that says what is more. -/
theorem Prolongs.map_components {α : Type} {f : Graph → α} (hf : ∀ g h, g.Echoes h → f g = f h)
    (prolongs : m.Prolongs a b.nodeContents b.edgeContents) (sound : b.Sound) :
    m.components.map f = a.components.map f ++ b.components.map f := by
  obtain ⟨r, soundMore, hnodes, hedges, hparts⟩ := prolongs.components
  have hrest := Echoes.components ⟨hnodes, hedges⟩ soundMore sound
  rw [map_eq_of_echoes hf hparts, List.map_append, map_eq_of_echoes hf hrest]

end Graph

open PatternGraph.Graph

namespace Reachable

/-- When graphs that share no node name and no edge name are merged, the connected parts are those
    of the first and then those of the second, with the same texts, and every node and edge keeps
    what it says, its references to the schema with it. -/
theorem components_merge {a b m : Graph} {t : MergeTally} (ha : Reachable a) (hb : Reachable b)
    (hnodes : ∀ name, a.hasNode name = true → b.hasNode name = false)
    (hedges : ∀ name, a.hasEdge name = true → b.hasEdge name = false)
    (hmerge : Edit.merge b a = .ok t m) :
    m.components.map text = a.components.map text ++ b.components.map text ∧
      m.components.map nodeContents
        = a.components.map nodeContents ++ b.components.map nodeContents ∧
      m.components.map edgeContents
        = a.components.map edgeContents ++ b.components.map edgeContents := by
  have prolongs := ha.sound.prolongs_merge hb.wellFormed hnodes hedges hmerge
  exact ⟨prolongs.map_components (fun _ _ h => text_of_contents h.nodes h.edges) hb.sound,
    prolongs.map_components (fun _ _ h => h.nodes) hb.sound,
    prolongs.map_components (fun _ _ h => h.edges) hb.sound⟩

/-- A graph with a free slot, where the second part begins between the nodes of the first, and one
    under other budgets whose schema knows a label and a type. -/
theorem components_merge_of_removal :
    let edge (r : String) (src dest : Nat) : Command :=
      .addEdge ⟨r, ⟨src⟩, ⟨dest⟩, [r], [.unresolved r], false, .single⟩
    let c := ((SchemaTable.addLabel {} "City" ⟨7⟩).addType "IN" ⟨3⟩).catalog
    let a := Command.runAll
      [.addNode "a", .addNode "x", .addNode "b", .addNode "d", edge "r" 0 3, edge "l" 2 2,
        .reverseEdge ⟨0⟩, .removeNode ⟨1⟩] (.empty .standard)
    let b := Command.runAll
      [.addNode "u", .addPath c ⟨[.node ⟨"v", some "City"⟩, .edge ⟨"i", .incoming, ["IN"], none⟩,
        .node ⟨"w", none⟩]⟩] (.empty ⟨3, 1, 1⟩)
    let m := (Edit.merge b).after a
    m.components.map nodeNames = [["a", "d"], ["b"], ["u"], ["v", "w"]] ∧
      m.components.map text = a.components.map text ++ b.components.map text ∧
      m.components.map edgeContents
        = a.components.map edgeContents ++ b.components.map edgeContents := by
  intro edge c a b m
  have ha : Reachable a := (Reachable.empty _).runAll (by simp [edge, Command.operand?])
    (by simp [edge, Command.edge?, Edge.made_iff])
  have hb : Reachable b := (Reachable.empty _).runAll (by simp [Command.operand?])
    (by simp [Command.edge?, Edge.made_iff])
  have hmerge : Edit.merge b a = .ok ⟨3, 1⟩ m := Edit.ok_after_of_outcome (by decide +kernel)
  have hnodes : ∀ name, a.hasNode name = true → b.hasNode name = false := by
    have hall : ∀ name ∈ a.nodeNames, b.hasNode name = false := by decide +kernel
    exact fun name hname => hall name (hasNode_iff_mem_nodeNames.mp hname)
  have hedges : ∀ name, a.hasEdge name = true → b.hasEdge name = false := by
    have hall : ∀ name ∈ a.edgeNames, b.hasEdge name = false := by decide +kernel
    exact fun name hname => hall name (hasEdge_iff_mem_edgeNames.mp hname)
  have hparts := ha.components_merge hb hnodes hedges hmerge
  exact ⟨by decide +kernel, hparts.1, hparts.2.2⟩

end Reachable

end PatternGraph
