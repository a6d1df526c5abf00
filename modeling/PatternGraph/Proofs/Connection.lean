/-
  PatternGraph.Proofs.Connection

  What a path connects.  Its edges lead from any of its nodes to any other, so
  a chain that uses new and old edges leaves the old ones at a node of the path
  and comes back to them at one: whatever was connected to the path before is
  connected to all of it now, and nothing else has changed.  Connected parts
  are counted by names that are picked from them, one from each.
-/
import Mathlib.Data.List.Perm.Subperm
import PatternGraph.Proofs.Decomposition
import PatternGraph.Proofs.Graft
import PatternGraph.Proofs.PathEffect

namespace PatternGraph

/-! ## Chains of old and new edges -/

section Chains

variable {edges drawn : List EdgeContent} {names : List String} {a b : String}

/-- Some name of the list is linked to the name. -/
def LinkedToSome (edges : List EdgeContent) (names : List String) (a : String) : Prop :=
  ∃ m ∈ names, Linked edges a m

theorem Touches.append_iff :
    Touches (edges ++ drawn) a b ↔ Touches edges a b ∨ Touches drawn a b := by
  simp only [Touches, List.mem_append, or_and_right, exists_or]

/-- Where more edges are drawn between names of a list, and lead from each of them to each, a chain
    is an old one or comes to the list from both sides. -/
theorem linked_append_iff (between : ∀ a b, Touches drawn a b → a ∈ names ∧ b ∈ names)
    (through : ∀ a ∈ names, ∀ b ∈ names, Linked drawn a b) :
    Linked (edges ++ drawn) a b ↔
      Linked edges a b ∨ LinkedToSome edges names a ∧ LinkedToSome edges names b := by
  constructor
  · intro h
    induction h with
    | refl => exact .inl .refl
    | @tail b d _ last ih =>
        rcases Touches.append_iff.mp last with hold | hnew
        · rcases ih with hab | ⟨ha, m, hm, hbm⟩
          · exact .inl (hab.tail hold)
          · exact .inr ⟨ha, m, hm, hbm.head hold.symm⟩
        -- a new edge leads from a name of the list to another one
        · obtain ⟨hb, hd⟩ := between _ _ hnew
          have hlast : LinkedToSome edges names d := ⟨d, hd, .refl⟩
          rcases ih with hab | ⟨ha, -⟩
          · exact .inr ⟨⟨b, hb, hab⟩, hlast⟩
          · exact .inr ⟨ha, hlast⟩
  · have hold : ∀ {x y}, Linked edges x y → Linked (edges ++ drawn) x y := fun h =>
      h.mono fun _ he => List.mem_append_left _ he
    rintro (hab | ⟨⟨m, hm, ham⟩, n, hn, hbn⟩)
    · exact hold hab
    · have hmn : Linked (edges ++ drawn) m n :=
        (through m hm n hn).mono fun _ he => List.mem_append_right _ he
      exact ((hold ham).trans hmn).trans (hold hbn).symm

end Chains

/-! ## The links of a walk -/

section Links

variable {w : Walk} {a b : String}

/-- The edges of a walk join names of its nodes. -/
theorem Walk.mem_names_of_touches (c : Catalog)
    (h : Touches (w.links.map (linkContent c)) a b) :
    a ∈ w.nodes.map PathNode.name ∧ b ∈ w.nodes.map PathNode.name := by
  obtain ⟨d, hd, hends⟩ := h
  obtain ⟨link, hlink, rfl⟩ := List.mem_map.mp hd
  obtain ⟨p, hp, q, hq, hsrc, hdest⟩ := Graph.ends_of_linkContent (c := c) hlink
  rw [hsrc, hdest] at hends
  simp only [Option.some.injEq] at hends
  rcases hends with ⟨rfl, rfl⟩ | ⟨rfl, rfl⟩
  · exact ⟨hp, hq⟩
  · exact ⟨hq, hp⟩

/-- A relationship is an edge between the nodes on its sides, whichever way it points. -/
theorem touches_linkContent (c : Catalog) {link : String × PathEdge × String}
    {edges : List EdgeContent} (h : linkContent c link ∈ edges) :
    Touches edges link.1 link.2.2 := by
  refine ⟨_, h, ?_⟩
  simp only [linkContent]
  cases link.2.1.direction
  case incoming => exact .inr ⟨rfl, rfl⟩
  all_goals exact .inl ⟨rfl, rfl⟩

/-- The first node of a walk is linked to all of its nodes. -/
theorem Walk.linked_start (c : Catalog) (w : Walk) :
    ∀ a ∈ w.nodes.map PathNode.name, Linked (w.links.map (linkContent c)) w.start.name a := by
  have hsteps : ∀ (steps : List Step) (start : PathNode),
      ∀ a ∈ (start :: steps.map Step.target).map PathNode.name,
        Linked ((linksFrom start.name steps).map (linkContent c)) start.name a := by
    intro steps
    induction steps with
    | nil =>
        intro start a ha
        obtain rfl := List.mem_singleton.mp ha
        exact .refl
    | cons s rest ih =>
        intro start a ha
        rcases List.mem_cons.mp ha with rfl | hlater
        · exact .refl
        · have hfirst : Touches ((linksFrom start.name (s :: rest)).map (linkContent c))
              start.name s.target.name :=
            touches_linkContent c List.mem_cons_self
          exact ((ih s.target a hlater).mono fun _ he => List.mem_cons_of_mem _ he).head hfirst
  exact hsteps w.steps w.start

theorem Walk.linked_of_mem (c : Catalog) (ha : a ∈ w.nodes.map PathNode.name)
    (hb : b ∈ w.nodes.map PathNode.name) : Linked (w.links.map (linkContent c)) a b :=
  (w.linked_start c a ha).symm.trans (w.linked_start c b hb)

end Links

/-! ## One name of every part -/

section Picking

variable {edges : List EdgeContent} {names picked other : List String}

/-- From the names that are linked to each other one is picked each time. -/
structure Picks (edges : List EdgeContent) (names picked : List String) : Prop where
  mem : ∀ a ∈ picked, a ∈ names
  apart : picked.Pairwise fun a b => ¬ Linked edges a b
  covers : ∀ a ∈ names, ∃ r ∈ picked, Linked edges a r

theorem Picks.length_le (picks : Picks edges names picked) (picks' : Picks edges names other) :
    picked.length ≤ other.length := by
  -- for every name that is picked take the one that the other list has in its place
  have hplace : ∀ a, ∃ r, a ∈ picked → r ∈ other ∧ Linked edges a r := fun a => by
    by_cases ha : a ∈ picked
    · obtain ⟨r, hr⟩ := picks'.covers a (picks.mem a ha)
      exact ⟨r, fun _ => hr⟩
    · exact ⟨a, fun h => absurd h ha⟩
  choose place hplace using hplace
  have hnodup : (picked.map place).Nodup := by
    refine List.pairwise_map.mpr (picks.apart.imp_of_mem fun {a b} ha hb hne heq => hne ?_)
    exact (hplace a ha).2.trans (heq ▸ (hplace b hb).2.symm)
  have hsub : picked.map place ⊆ other := by
    intro r hr
    obtain ⟨a, ha, rfl⟩ := List.mem_map.mp hr
    exact (hplace a ha).1
  rw [← List.length_map place]
  exact (hnodup.subperm hsub).length_le

/-- As many names are picked each time. -/
theorem Picks.length_eq (picks : Picks edges names picked) (picks' : Picks edges names other) :
    picked.length = other.length :=
  Nat.le_antisymm (picks.length_le picks') (picks'.length_le picks)

end Picking

namespace Graph

variable {g g' h : Graph} {parts : List Graph} {names : List String} {a b : String}

/-- The name of the first node. -/
def firstName (g : Graph) : String := g.nodeNames.headD ""

theorem firstName_mem (h : g.nodeContents ≠ []) : g.firstName ∈ g.nodeNames := by
  rw [firstName, nodeNames]
  cases hc : g.nodeContents with
  | nil => exact absurd hc h
  | cons n rest => exact List.mem_cons_self

/-- What is linked to a name that no node bears is that name. -/
theorem WellFormed.eq_of_linked (wf : g.WellFormed) (ha : a ∉ g.nodeNames)
    (h : Linked g.edgeContents a b) : a = b := by
  rcases h.cases_head with rfl | ⟨d, ⟨e, he, hends⟩, -⟩
  · rfl
  · obtain ⟨p, q, hsrc, hdest, hp, hq⟩ := wf.bound e he
    rw [hasNode_iff_mem_nodeNames] at hp hq
    rw [hsrc, hdest] at hends
    simp only [Option.some.injEq] at hends
    rcases hends with ⟨rfl, -⟩ | ⟨-, rfl⟩
    · exact absurd hp ha
    · exact absurd hq ha

/-- The first names of the parts are picked from them. -/
theorem Partition.picks (partition : g.Partition parts) (wf : g.WellFormed) :
    Picks g.edgeContents g.nodeNames (parts.map firstName) where
  mem a ha := by
    obtain ⟨part, hpart, rfl⟩ := List.mem_map.mp ha
    exact partition.mem_nodeNames.mpr ⟨part, hpart, firstName_mem (partition.nonempty part hpart)⟩
  apart := by
    have hdisjoint := pairwise_of_perm partition.nodeNames_perm wf.nodeNames_nodup
    refine List.pairwise_map.mpr (hdisjoint.imp_of_mem fun {p q} hp hq hpq hlinked => ?_)
    have hmem := firstName_mem (partition.nonempty p hp)
    exact hpq _ (partition.maximal p hp _ hmem _ hlinked) (firstName_mem (partition.nonempty q hq))
  covers a ha := by
    obtain ⟨part, hpart, ha⟩ := partition.mem_nodeNames.mp ha
    exact ⟨_, List.mem_map_of_mem hpart,
      partition.linked_of_mem hpart ha (firstName_mem (partition.nonempty part hpart))⟩

/-! ## Names in one part -/

/-- Both names are in one connected part. -/
def Together (g : Graph) (a b : String) : Prop :=
  ∃ part ∈ g.components, part.hasNode a = true ∧ part.hasNode b = true

/-- The name is one of the list, or it is in one connected part with a name of the list. -/
def Meets (g : Graph) (names : List String) (a : String) : Prop :=
  a ∈ names ∨ ∃ m ∈ names, g.Together a m

theorem Sound.together_iff (sound : g.Sound) :
    g.Together a b ↔ a ∈ g.nodeNames ∧ Linked g.edgeContents a b := by
  have partition := sound.partition_components
  simp only [Together, hasNode_iff_mem_nodeNames]
  constructor
  · rintro ⟨part, hpart, ha, hb⟩
    exact ⟨partition.mem_nodeNames.mpr ⟨part, hpart, ha⟩, partition.linked_of_mem hpart ha hb⟩
  · rintro ⟨ha, hlinked⟩
    exact (partition.together_iff ha).mpr hlinked

theorem Sound.meets_iff (sound : g.Sound) :
    g.Meets names a ↔ LinkedToSome g.edgeContents names a := by
  constructor
  · rintro (ha | ⟨m, hm, htogether⟩)
    · exact ⟨a, ha, .refl⟩
    · exact ⟨m, hm, (sound.together_iff.mp htogether).2⟩
  · rintro ⟨m, hm, hlinked⟩
    by_cases ha : a ∈ g.nodeNames
    · exact .inr ⟨m, hm, sound.together_iff.mpr ⟨ha, hlinked⟩⟩
    · exact .inl (sound.eq_of_linked ha hlinked ▸ hm)

/-! ## Connecting names -/

/-- What becomes of the connected parts of a graph when the names of a list are connected. -/
structure Connects (g : Graph) (names : List String) (g' : Graph) : Prop where
  /-- Two names share a part if they did, or if both are on the list or shared one with the list. -/
  together : ∀ a b, g'.Together a b ↔ g.Together a b ∨ g.Meets names a ∧ g.Meets names b
  /-- The parts with names of the list have become one. -/
  count : g'.components.length + (g.components.filter fun part => names.any part.hasNode).length
    = g.components.length + 1
  /-- All is connected when there were no other parts. -/
  connected : g'.isConnected = true ↔ ∀ part ∈ g.components, names.any part.hasNode = true

/-- The connected parts without names of the list. -/
def passed (g : Graph) (names : List String) : List Graph :=
  g.components.filter fun part => !names.any part.hasNode

theorem mem_passed {part : Graph} :
    part ∈ g.passed names ↔ part ∈ g.components ∧ ∀ m ∈ names, m ∉ part.nodeNames := by
  rw [passed, List.mem_filter, Bool.not_eq_true', List.any_eq_false]
  simp only [hasNode_iff_mem_nodeNames]

/-- The first name of a part that is passed is one of a node that does not meet the list. -/
theorem Sound.not_meets_of_passed (sound : g.Sound)
    (ha : a ∈ (g.passed names).map firstName) : a ∈ g.nodeNames ∧ ¬ g.Meets names a := by
  have partition := sound.partition_components
  obtain ⟨part, hpassed, rfl⟩ := List.mem_map.mp ha
  obtain ⟨hpart, hnone⟩ := mem_passed.mp hpassed
  have hfirst := firstName_mem (partition.nonempty part hpart)
  refine ⟨partition.mem_nodeNames.mpr ⟨part, hpart, hfirst⟩, fun hmeets => ?_⟩
  obtain ⟨m, hm, hlinked⟩ := sound.meets_iff.mp hmeets
  exact hnone m hm (partition.maximal part hpart _ hfirst m hlinked)

/-- A node that does not meet the list is linked to the first name of a part that is passed. -/
theorem Sound.exists_passed (sound : g.Sound) (ha : a ∈ g.nodeNames)
    (hmeets : ¬ g.Meets names a) :
    ∃ r ∈ (g.passed names).map firstName, Linked g.edgeContents a r := by
  have partition := sound.partition_components
  obtain ⟨part, hpart, hin⟩ := partition.mem_nodeNames.mp ha
  have hpassed : part ∈ g.passed names := by
    refine mem_passed.mpr ⟨hpart, fun m hm hm' => hmeets (.inr ⟨m, hm, ?_⟩)⟩
    exact sound.together_iff.mpr ⟨ha, partition.linked_of_mem hpart hin hm'⟩
  exact ⟨_, List.mem_map_of_mem hpassed,
    partition.linked_of_mem hpart hin (firstName_mem (partition.nonempty part hpart))⟩

section Drawn

variable {drawn : List EdgeContent} {m : String}

/-- A graph gets the nodes of a list, which is not empty, and edges that lead from each of them to
    each and to no other node. -/
structure Draws (g : Graph) (names : List String) (drawn : List EdgeContent) (g' : Graph) :
    Prop where
  sound : g'.Sound
  nodes : ∀ a, a ∈ g'.nodeNames ↔ a ∈ g.nodeNames ∨ a ∈ names
  edges : g'.edgeContents = g.edgeContents ++ drawn
  nonempty : names ≠ []
  between : ∀ a b, Touches drawn a b → a ∈ names ∧ b ∈ names
  through : ∀ a ∈ names, ∀ b ∈ names, Linked drawn a b

variable (draws : g.Draws names drawn g') (sound : g.Sound)
include draws sound

theorem Draws.linked_iff : Linked g'.edgeContents a b ↔
    Linked g.edgeContents a b ∨ g.Meets names a ∧ g.Meets names b := by
  rw [draws.edges, sound.meets_iff, sound.meets_iff]
  exact linked_append_iff draws.between draws.through

theorem Draws.together_iff :
    g'.Together a b ↔ g.Together a b ∨ g.Meets names a ∧ g.Meets names b := by
  rw [draws.sound.together_iff, draws.nodes, draws.linked_iff sound]
  have hmem : g.Meets names a → a ∈ g.nodeNames ∨ a ∈ names := by
    rintro (ha | ⟨m, -, htogether⟩)
    · exact .inr ha
    · exact .inl (sound.together_iff.mp htogether).1
  constructor
  · rintro ⟨ha, hlinked | hmeets⟩
    · by_cases hold : a ∈ g.nodeNames
      · exact .inl (sound.together_iff.mpr ⟨hold, hlinked⟩)
      -- a name that is new is linked only to itself by the old edges
      · obtain rfl := sound.eq_of_linked hold hlinked
        exact .inr ⟨.inl (ha.resolve_left hold), .inl (ha.resolve_left hold)⟩
    · exact .inr hmeets
  · rintro (htogether | hmeets)
    · obtain ⟨ha, hlinked⟩ := sound.together_iff.mp htogether
      exact ⟨.inl ha, .inl hlinked⟩
    · exact ⟨hmem hmeets.1, .inr hmeets⟩

/-- A name of the list and the first names of the parts that are passed are picked from the new
    parts. -/
theorem Draws.picks (hm : m ∈ names) :
    Picks g'.edgeContents g'.nodeNames (m :: (g.passed names).map firstName) where
  mem := List.forall_mem_cons.mpr ⟨(draws.nodes m).mpr (.inr hm), fun a ha =>
    (draws.nodes a).mpr (.inl (sound.not_meets_of_passed ha).1)⟩
  apart := by
    refine List.pairwise_cons.mpr ⟨fun r hr hlinked => ?_, ?_⟩
    · have hpassed := (sound.not_meets_of_passed hr).2
      rcases (draws.linked_iff sound).mp hlinked with hold | ⟨-, hmeets⟩
      · exact hpassed (sound.meets_iff.mpr ⟨m, hm, hold.symm⟩)
      · exact hpassed hmeets
    · have hfirst := (sound.partition_components.picks sound.toWellFormed).apart
      refine (hfirst.sublist (List.filter_sublist.map firstName)).imp_of_mem
        fun {r s} hr _ hne hlinked => ?_
      rcases (draws.linked_iff sound).mp hlinked with hold | ⟨hmeets, -⟩
      · exact hne hold
      · exact (sound.not_meets_of_passed hr).2 hmeets
  covers a ha := by
    by_cases hmeets : g.Meets names a
    · exact ⟨m, List.mem_cons_self, (draws.linked_iff sound).mpr (.inr ⟨hmeets, .inl hm⟩)⟩
    · have hold : a ∈ g.nodeNames := ((draws.nodes a).mp ha).resolve_right fun h => hmeets (.inl h)
      obtain ⟨r, hr, hlinked⟩ := sound.exists_passed hold hmeets
      exact ⟨r, .tail m hr, (draws.linked_iff sound).mpr (.inl hlinked)⟩

/-- Drawing edges that connect the names of a list connects them. -/
theorem Draws.connects : g.Connects names g' := by
  obtain ⟨m, hm⟩ := List.exists_mem_of_ne_nil _ draws.nonempty
  have partition' := draws.sound.partition_components
  have hlength := (partition'.picks draws.sound.toWellFormed).length_eq (draws.picks sound hm)
  rw [List.length_map, List.length_cons, List.length_map, passed] at hlength
  have hsplit := List.length_eq_length_filter_add (l := g.components)
    fun part => names.any part.hasNode
  refine ⟨fun a b => draws.together_iff sound, by omega, ?_⟩
  rw [draws.sound.isConnected_iff, ← partition'.length_le_one_iff draws.sound.toWellFormed, hlength,
    ← List.length_filter_eq_length_iff]
  omega

end Drawn

/-- A walk connects its nodes. -/
theorem WellFormed.draws_extend (wf : g.WellFormed) {c : Catalog} {w : Walk}
    (accepted : g.accept w = .ok ()) (hslots : (g.extend c w).HasSlots 0 0) :
    g.Draws (w.nodes.map PathNode.name) (w.links.map (linkContent c)) (g.extend c w) where
  sound := ⟨wf.extend (fresh_of_accept accepted).1 (fresh_of_accept accepted).2, hslots⟩
  nodes a := by
    rw [← hasNode_iff_mem_nodeNames, ← hasNode_iff_mem_nodeNames]
    exact hasNode_extend
  edges := wf.edgeContents_extend (fresh_of_accept accepted).1 (fresh_of_accept accepted).2
  nonempty := List.cons_ne_nil _ _
  between _ _ := Walk.mem_names_of_touches c
  through _ ha _ hb := Walk.linked_of_mem c ha hb

end Graph

/-! ## The path -/

/-- Adding one path in a list is adding it. -/
theorem Edit.addPaths_singleton (c : Catalog) (p : Path) :
    Edit.addPaths c [p] = Edit.addPath c p :=
  bind_pure_unit

namespace Reachable

variable {g : Graph}

/-- A path that is added to a graph that can come up connects what it touches and nothing else:
    names share a connected part if they did, or if both are of the path, under its new names, or
    shared a part with it.  So the parts that it touches become one, and a graph that is made of one
    path is connected. -/
theorem addPath_connects (reach : Reachable g) (c : Catalog) (p : Path) :
    (∀ g', Edit.addPath c p g = .ok () g' →
      ∃ w, p.walk? = .ok w ∧ g.Connects ((g.renamed w).nodes.map PathNode.name) g') ∧
      ∀ limits h, Graph.ofPaths c limits [p] = .ok h → h.isConnected = true := by
  have hconnects : ∀ {k k' : Graph}, k.Sound → Edit.addPath c p k = .ok () k' →
      ∃ w, p.walk? = .ok w ∧ k.Connects ((k.renamed w).nodes.map PathNode.name) k' := by
    intro k k' sound hrun
    obtain ⟨w, hw, haccepted, rfl⟩ := Edit.addPath_eq_extend hrun
    have hslots := (Edit.keeps_slots_addPath c p).of_ok sound.slots hrun
    exact ⟨w, hw, (sound.draws_extend haccepted hslots).connects sound⟩
  refine ⟨fun g' => hconnects reach.sound, fun limits h hmade => ?_⟩
  have sound : (Graph.empty limits).Sound := .empty limits
  have hrun : Edit.addPath c p (.empty limits) = .ok () h := by
    rw [← Edit.addPaths_singleton]
    exact Graph.addPaths_of_ofPaths hmade
  obtain ⟨w, -, connects⟩ := hconnects sound hrun
  -- nothing was there that the path does not touch
  exact connects.connected.mpr nofun

/-- A path with a loop that meets two parts of three, and has an anonymous node whose name is bound
    already; it does not connect that one by its name. -/
theorem addPath_connects_of_loop :
    let g := Command.runAll [.addPath .empty ⟨[.node ⟨"a", none⟩, .edge ⟨"r", .outgoing, [], none⟩,
      .node ⟨"d", none⟩]⟩, .addNode "x", .addNode "_anon_0", .addNode "c", .removeNode ⟨2⟩]
      (.empty .standard)
    let p : Path := ⟨[.node ⟨"_anon_0", none⟩, .edge ⟨"_anon_1", .incoming, [], none⟩,
      .node ⟨"c", none⟩, .edge ⟨"s", .both, [], none⟩, .node ⟨"c", none⟩,
      .edge ⟨"t", .outgoing, [], none⟩, .node ⟨"a", none⟩]⟩
    let g' := (Edit.addPath .empty p).after g
    g.components.map Graph.nodeNames = [["a", "d"], ["_anon_0"], ["c"]] ∧
      g'.components.map Graph.nodeNames = [["a", "d", "c", "_anon_2"], ["_anon_0"]] ∧
      ∃ w, p.walk? = .ok w ∧ g.Connects ((g.renamed w).nodes.map PathNode.name) g' := by
  intro g p g'
  have reach : Reachable g := (Reachable.empty _).runAll (by simp [Command.operand?])
    (by simp [Command.edge?])
  have hrun : Edit.addPath .empty p g = .ok () g' := Edit.ok_after_of_outcome (by decide +kernel)
  exact ⟨by decide +kernel, by decide +kernel, (reach.addPath_connects .empty p).1 g' hrun⟩

end Reachable

end PatternGraph
