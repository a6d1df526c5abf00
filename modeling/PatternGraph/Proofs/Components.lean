/-
  PatternGraph.Proofs.Components

  The connected parts of a graph are its maximal connected subgraphs.  One
  split divides a graph by a test on names that no edge crosses: a name passes
  when it is linked to that of the first node.  The part then hangs together,
  and the rest is divided in the same way; `Partition` is what the divisions
  add up to, by induction on the number of nodes that are left.
-/
import PatternGraph.Proofs.Linked
import PatternGraph.Proofs.Reachability
import PatternGraph.Proofs.Search

namespace PatternGraph

namespace Graph

variable {g part rest : Graph} {q : String → Bool} {a b : String}

/-! ## Graphs without nodes, and names that are linked -/

/-- What is linked to the name of a node is the name of a node. -/
theorem WellFormed.mem_nodeNames_of_linked (wf : g.WellFormed) (ha : a ∈ g.nodeNames)
    (h : Linked g.edgeContents a b) : b ∈ g.nodeNames := by
  obtain ⟨x, hx⟩ := mem_nodeNames.mp ha
  obtain ⟨y, hy, -⟩ := (wf.linked_iff hx).mp h
  exact mem_nodeNames.mpr ⟨y, hy⟩

/-- A graph counts no nodes exactly when it says nothing of any. -/
theorem WellFormed.isEmpty_iff (wf : g.WellFormed) : g.isEmpty = true ↔ g.nodeContents = [] := by
  rw [isEmpty, beq_iff_eq, ← wf.length_nodeContents, List.length_eq_zero_iff]

/-- Where there are no nodes there are no edges. -/
theorem WellFormed.edgeContents_eq_nil (wf : g.WellFormed) (h : g.nodeContents = []) :
    g.edgeContents = [] := by
  refine List.eq_nil_iff_forall_not_mem.mpr fun d hd => ?_
  obtain ⟨i, e, he, -⟩ := mem_edgeContents.mp hd
  obtain ⟨n, hn⟩ := wf.src_live he
  have hmem : n.name ∈ g.nodeNames := mem_nodeNames.mpr ⟨e.src, nameOf?_of_live hn⟩
  rw [nodeNames, h] at hmem
  cases hmem

/-! ## One split -/

/-- A graph is divided by a test on names that no edge crosses: the part has what passes and the
    rest has what does not. -/
structure Divides (g part rest : Graph) (q : String → Bool) : Prop where
  closed : ∀ a b, Touches g.edgeContents a b → q a = q b
  part_sound : part.Sound
  rest_sound : rest.Sound
  part_limits : part.limits = g.limits
  rest_limits : rest.limits = g.limits
  part_nodes : part.nodeContents = g.nodeContents.filter (fun n => q n.name)
  rest_nodes : rest.nodeContents = g.nodeContents.filter (fun n => !q n.name)
  part_edges : part.edgeContents = g.edgeContents.filter (fun e => e.src.any q)
  rest_edges : rest.edgeContents = g.edgeContents.filter (fun e => e.src.any (!q ·))

/-- Keeping the nodes that a test on names tells keeps what passes it. -/
theorem WellFormed.contents_retain (wf : g.WellFormed) {t : NodeId → Bool}
    (hq : ∀ x a, g.nameOf? x = some a → t x = q a)
    (hclosed : ∀ a b, Touches g.edgeContents a b → q a = q b) :
    (g.retain fun id _ => t id).2.nodeContents = g.nodeContents.filter (fun n => q n.name) ∧
      (g.retain fun id _ => t id).2.edgeContents
        = g.edgeContents.filter (fun e => e.src.any q) := by
  rw [wf.retain_eq]
  apply wf.contents_induced _ hclosed
  intro x a hx
  obtain ⟨n, hn, -⟩ := nameOf?_eq_some.mp hx
  rw [hn, ← hq x a hx]
  rfl

theorem WellFormed.limits_retain (wf : g.WellFormed) (keep : NodeId → Node → Bool) :
    (g.retain keep).2.limits = g.limits := by
  rw [wf.retain_eq]
  rfl

theorem nameOf?_compact (hslots : g.HasSlots 0 0) (x : NodeId) :
    g.compact.nameOf? x = (g.nodes.values[x.index]?).map Node.name := by
  rw [compact_eq hslots, nameOf?_insertEdges, nameOf?, node?_bareCopy, Option.map_map]
  rfl

/-- The first slot of a copy holds the first node, where there is one. -/
theorem compact_first (hslots : g.HasSlots 0 0) :
    g.compact.nameOf? ⟨0⟩ = g.nodeContents.head?.map NodeContent.name := by
  rw [nameOf?_compact hslots, nodeContents]
  cases g.nodes.values <;> rfl

/-- The search from the first node of the copy reaches the node of that name. -/
def reachedName (g : Graph) (name : String) : Bool :=
  (g.compact.nodeNamed? name).any (g.compact.searchFrom ⟨0⟩).has

theorem Sound.has_eq_reachedName (sound : g.Sound) {x : NodeId}
    (hx : g.compact.nameOf? x = some a) :
    (g.compact.searchFrom ⟨0⟩).has x = g.reachedName a := by
  rw [reachedName, sound.compact.nodeNamed?_eq_some.mpr hx]
  rfl

/-- The names that are reached are those that are linked to the first one. -/
theorem Sound.reachedName_iff (sound : g.Sound) {first : String}
    (hfirst : g.compact.nameOf? ⟨0⟩ = some first) (a : String) :
    g.reachedName a = true ↔ Linked g.edgeContents first a := by
  have hlive := isSome_node?_of_nameOf? hfirst
  rw [← sound.edgeContents_compact, sound.compact.linked_iff hfirst]
  refine ⟨?_, ?_⟩
  · intro ha
    obtain ⟨x, hx, hhas⟩ := (Option.any_eq_true _ _).mp ha
    exact ⟨x, nameOf?_of_nodeNamed? hx, (sound.compact.searchFrom_has hlive x).mp hhas⟩
  · rintro ⟨x, hx, hjoined⟩
    rw [← sound.has_eq_reachedName hx]
    exact (sound.compact.searchFrom_has hlive x).mpr hjoined

/-- A split divides a graph into what is linked to the first node and what is not. -/
theorem Sound.divides_split (sound : g.Sound) (h : g.split? = some (part, rest)) :
    ∃ first others, g.nodeContents = first :: others ∧ g.Divides part rest g.reachedName ∧
      ∀ a, g.reachedName a = true ↔ Linked g.edgeContents first.name a := by
  have hparts := sound.split h
  obtain ⟨hlive, rfl, rfl⟩ := split?_eq_some h
  rw [isSome_node?_iff_nameOf?, compact_first sound.slots, Option.isSome_map] at hlive
  obtain ⟨first, hfirst⟩ := Option.isSome_iff_exists.mp hlive
  obtain ⟨others, hothers⟩ := List.head?_eq_some_iff.mp hfirst
  have hname : g.compact.nameOf? ⟨0⟩ = some first.name := by
    rw [compact_first sound.slots, hfirst]
    rfl
  have hlinked := sound.reachedName_iff hname
  have hclosed : ∀ a b, Touches g.edgeContents a b → g.reachedName a = g.reachedName b := by
    intro a b ht
    rw [Bool.eq_iff_iff, hlinked, hlinked]
    exact ⟨fun hl => hl.tail ht, fun hl => hl.tail ht.symm⟩
  -- the copy says the same, so it is divided by the same test
  have hclosedCopy : ∀ a b, Touches g.compact.edgeContents a b →
      g.reachedName a = g.reachedName b := by
    rw [sound.edgeContents_compact]
    exact hclosed
  have hpart := sound.compact.contents_retain (fun x a hx => sound.has_eq_reachedName hx)
    hclosedCopy
  have hrest := sound.compact.contents_retain
    (t := fun x => !(g.compact.searchFrom ⟨0⟩).has x) (q := fun a => !g.reachedName a)
    (fun x a hx => by rw [sound.has_eq_reachedName hx]) (fun a b ht => by rw [hclosedCopy a b ht])
  rw [nodeContents_compact sound.slots, sound.edgeContents_compact] at hpart hrest
  have hlimits : ∀ keep, (g.compact.retain keep).2.limits = g.limits := fun keep =>
    (sound.compact.limits_retain keep).trans (limits_compact sound.slots)
  exact ⟨first, others, hothers, ⟨hclosed, hparts.1, hparts.2, hlimits _,
    hlimits _, hpart.1, hrest.1, hpart.2, hrest.2⟩, hlinked⟩

/-- Nothing is split where there are no nodes, and only there. -/
theorem split?_eq_none (hslots : g.HasSlots 0 0) : g.split? = none ↔ g.nodeContents = [] := by
  have hfirst := congrArg Option.isSome (compact_first hslots)
  rw [← isSome_node?_iff_nameOf?, Option.isSome_map] at hfirst
  unfold split?
  dsimp only
  cases hn : g.compact.node? ⟨0⟩ <;> cases hcontents : g.nodeContents <;> simp_all

/-- A split takes the first node away at least. -/
theorem Sound.length_rest_lt (sound : g.Sound) (h : g.split? = some (part, rest)) :
    rest.nodeContents.length < g.nodeContents.length := by
  obtain ⟨first, others, hfirst, divides, hq⟩ := sound.divides_split h
  have hself : g.reachedName first.name = true := (hq _).mpr .refl
  have hle := List.length_filter_le (fun n : NodeContent => !g.reachedName n.name) others
  rw [divides.rest_nodes, hfirst, List.filter_cons_of_neg (by simp [hself]), List.length_cons]
  omega

/-! ## What the splits add up to -/

/-- The parts divide the graph, each hangs together, and nothing that is linked to a part is
    outside it. -/
structure Partition (g : Graph) (parts : List Graph) : Prop where
  nonempty : ∀ part ∈ parts, part.nodeContents ≠ []
  sound : ∀ part ∈ parts, part.Sound
  limits : ∀ part ∈ parts, part.limits = g.limits
  linked : ∀ part ∈ parts, ∀ a ∈ part.nodeNames, ∀ b ∈ part.nodeNames,
    Linked part.edgeContents a b
  maximal : ∀ part ∈ parts, ∀ a ∈ part.nodeNames, ∀ b, Linked g.edgeContents a b →
    b ∈ part.nodeNames
  nodes : (parts.flatMap nodeContents).Perm g.nodeContents
  edges : (parts.flatMap edgeContents).Perm g.edgeContents
  node_order : ∀ part ∈ parts, part.nodeContents.Sublist g.nodeContents
  edge_order : ∀ part ∈ parts, part.edgeContents.Sublist g.edgeContents
  heads : (parts.filterMap fun part => part.nodeContents.head?).Sublist g.nodeContents

/-- A graph without nodes has no parts. -/
theorem Sound.partition_nil (sound : g.Sound) (h : g.nodeContents = []) :
    g.Partition [] where
  nonempty := nofun
  sound := nofun
  limits := nofun
  linked := nofun
  maximal := nofun
  nodes := by rw [h]; exact .refl []
  edges := by rw [sound.edgeContents_eq_nil h]; exact .refl []
  node_order := nofun
  edge_order := nofun
  heads := List.nil_sublist _

namespace Divides

variable {first : NodeContent} {others : List NodeContent} {parts : List Graph}

/-- The part has the names that pass the test. -/
theorem mem_part (divides : g.Divides part rest q) :
    a ∈ part.nodeNames ↔ a ∈ g.nodeNames ∧ q a = true := by
  rw [nodeNames, nodeNames, divides.part_nodes, List.mem_map, List.mem_map]
  refine ⟨?_, ?_⟩
  · rintro ⟨n, hn, rfl⟩
    exact ⟨⟨n, (List.mem_filter.mp hn).1, rfl⟩, (List.mem_filter.mp hn).2⟩
  · rintro ⟨⟨n, hn, rfl⟩, hq⟩
    exact ⟨n, List.mem_filter.mpr ⟨hn, hq⟩, rfl⟩

/-- The rest has the names that do not. -/
theorem of_mem_rest (divides : g.Divides part rest q) (ha : a ∈ rest.nodeNames) : q a = false := by
  rw [nodeNames, divides.rest_nodes, List.mem_map] at ha
  obtain ⟨n, hn, rfl⟩ := ha
  simpa using (List.mem_filter.mp hn).2

/-- What is linked in the graph to a name of the rest is linked to it in the rest. -/
theorem linked_rest (divides : g.Divides part rest q) (ha : q a = false)
    (h : Linked g.edgeContents a b) : Linked rest.edgeContents a b := by
  rw [divides.rest_edges]
  have hclosed : ∀ a b, Touches g.edgeContents a b → (!q a) = !q b := fun a b ht => by
    rw [divides.closed a b ht]
  exact (h.filter (q := fun a => !q a) hclosed (by simpa using ha)).2

/-- Every edge starts at a name, which passes the test or does not. -/
theorem edges_perm (wf : g.WellFormed) (divides : g.Divides part rest q) :
    (part.edgeContents ++ rest.edgeContents).Perm g.edgeContents := by
  -- an edge without a source would be in neither part; there is none
  have hnot : g.edgeContents.filter (fun e => e.src.any (!q ·))
      = g.edgeContents.filter (fun e => !e.src.any q) := by
    apply List.filter_congr
    intro d hd
    obtain ⟨i, e, he, rfl⟩ := mem_edgeContents.mp hd
    obtain ⟨n, hn⟩ := wf.src_live he
    have hsrc := nameOf?_of_live hn
    simp only [edgeContent, hsrc, Option.any_some]
  rw [divides.part_edges, divides.rest_edges, hnot]
  exact List.filter_append_perm _ _

/-- The part of the first node and a partition of the rest are a partition of the graph. -/
theorem partition_cons (wf : g.WellFormed) (divides : g.Divides part rest q)
    (hfirst : g.nodeContents = first :: others)
    (hq : ∀ a, q a = true ↔ Linked g.edgeContents first.name a) (ih : rest.Partition parts) :
    g.Partition (part :: parts) := by
  have hself : q first.name = true := (hq _).mpr .refl
  have hpart : part.nodeContents = first :: others.filter fun n => q n.name := by
    rw [divides.part_nodes, hfirst]
    exact List.filter_cons_of_pos hself
  have hrest : rest.nodeContents = others.filter fun n => !q n.name := by
    rw [divides.rest_nodes, hfirst, List.filter_cons_of_neg (by simp [hself])]
  -- the part is linked through its own edges
  have hwithin : ∀ a, q a = true → Linked part.edgeContents first.name a := by
    intro a ha
    rw [divides.part_edges]
    exact (((hq a).mp ha).filter divides.closed hself).2
  have hsub : rest.nodeContents.Sublist g.nodeContents := by
    rw [divides.rest_nodes]
    exact List.filter_sublist
  constructor
  case nonempty =>
    refine List.forall_mem_cons.mpr ⟨?_, ih.nonempty⟩
    rw [hpart]
    exact List.cons_ne_nil _ _
  case sound => exact List.forall_mem_cons.mpr ⟨divides.part_sound, ih.sound⟩
  case limits =>
    exact List.forall_mem_cons.mpr
      ⟨divides.part_limits, fun p hp => (ih.limits p hp).trans divides.rest_limits⟩
  case linked =>
    refine List.forall_mem_cons.mpr ⟨?_, ih.linked⟩
    intro a ha b hb
    exact (hwithin a (divides.mem_part.mp ha).2).symm.trans (hwithin b (divides.mem_part.mp hb).2)
  case maximal =>
    refine List.forall_mem_cons.mpr ⟨?_, ?_⟩
    · intro a ha b hab
      obtain ⟨hag, hqa⟩ := divides.mem_part.mp ha
      exact divides.mem_part.mpr
        ⟨wf.mem_nodeNames_of_linked hag hab, (hq b).mpr (((hq a).mp hqa).trans hab)⟩
    · intro p hp a ha b hab
      have harest : a ∈ rest.nodeNames := ((ih.node_order p hp).map _).subset ha
      exact ih.maximal p hp a ha b (divides.linked_rest (divides.of_mem_rest harest) hab)
  case nodes =>
    rw [List.flatMap_cons]
    refine (ih.nodes.append_left _).trans ?_
    rw [divides.part_nodes, divides.rest_nodes]
    exact List.filter_append_perm _ _
  case edges =>
    rw [List.flatMap_cons]
    exact (ih.edges.append_left _).trans (divides.edges_perm wf)
  case node_order =>
    refine List.forall_mem_cons.mpr ⟨?_, fun p hp => (ih.node_order p hp).trans hsub⟩
    rw [divides.part_nodes]
    exact List.filter_sublist
  case edge_order =>
    have hedges : rest.edgeContents.Sublist g.edgeContents := by
      rw [divides.rest_edges]
      exact List.filter_sublist
    refine List.forall_mem_cons.mpr ⟨?_, fun p hp => (ih.edge_order p hp).trans hedges⟩
    rw [divides.part_edges]
    exact List.filter_sublist
  -- the first node is in the part, so the parts of the rest begin after it
  case heads =>
    rw [List.filterMap_cons_some (b := first) (by rw [hpart]; rfl), hfirst]
    refine List.Sublist.cons_cons first (ih.heads.trans ?_)
    rw [hrest]
    exact List.filter_sublist

end Divides

/-- Splitting off part after part divides a graph, if it is done as often as there are nodes. -/
theorem Sound.partition_peel (sound : g.Sound) {k : Nat} (hk : g.nodeContents.length ≤ k) :
    g.Partition (peel k g) := by
  induction k generalizing g with
  | zero => exact sound.partition_nil (List.eq_nil_of_length_eq_zero (Nat.le_zero.mp hk))
  | succ k ih =>
      rw [peel]
      split
      next hnone => exact sound.partition_nil ((split?_eq_none sound.slots).mp hnone)
      next part rest hsplit =>
        obtain ⟨first, others, hfirst, divides, hq⟩ := sound.divides_split hsplit
        have hfewer := sound.length_rest_lt hsplit
        exact divides.partition_cons sound.toWellFormed hfirst hq (ih divides.rest_sound (by omega))

theorem Sound.partition_components (sound : g.Sound) : g.Partition g.components :=
  sound.partition_peel (Nat.le_of_eq (List.length_map ..))

end Graph

end PatternGraph
