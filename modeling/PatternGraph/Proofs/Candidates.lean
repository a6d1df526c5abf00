/-
  PatternGraph.Proofs.Candidates

  How many candidates are tried for fresh names.  `Hunt` is the loop that looks
  for replacements without a bound on its turns: a turn passes over a name that
  needs no replacement, or tries one candidate.  A candidate that was tried is
  a replacement now, or it is bound or written; candidates are tried in the
  order of their numbers, never one twice.  So as many were tried as there are
  replacements, nodes, edges and written names together, at most.

  The hunt ends, and what it has found then are the replacements that the graph
  finds for the walk.
-/
import Mathlib.Algebra.Order.Ring.Nat
import PatternGraph.Proofs.Anonymity

namespace PatternGraph

/-- Looking for replacements, between two turns: the names that are still to be looked at, and what
    was found. -/
structure Hunt where
  todo : List String
  found : Renaming

namespace Hunt

variable {g : Graph} {w : Walk} {s : Hunt} {r : Renaming} {name : String} {rest : List String}

/-- Every written name is still to be looked at, and nothing was tried. -/
def start (w : Walk) : Hunt := ⟨w.names, {}⟩

/-- One turn.  A name that needs no replacement is passed over; for one that needs one the next
    candidate is tried, and if that is bound or written the name is looked at again. -/
def turn (g : Graph) (w : Walk) (s : Hunt) : Hunt :=
  match s.todo with
  | [] => s
  | name :: rest =>
    if g.clashes name && !s.found.covers name then
      let candidate := anonymousName s.found.tried
      if g.binds candidate || w.names.contains candidate then
        { s with found := { s.found with tried := s.found.tried + 1 } }
      else ⟨rest, ⟨(name, candidate) :: s.found.pairs, s.found.tried + 1⟩⟩
    else { s with todo := rest }

/-- So many turns. -/
def turns (g : Graph) (w : Walk) : Nat → Hunt → Hunt
  | 0, s => s
  | k + 1, s => turns g w k (turn g w s)

/-! ## What a turn does -/

/-- The name is replaced, unless it was replaced already. -/
def Needs (g : Graph) (r : Renaming) (name : String) : Prop :=
  g.clashes name = true ∧ r.covers name = false

/-- The candidate of the number cannot be used. -/
def Taken (g : Graph) (w : Walk) (k : Nat) : Prop :=
  g.binds (anonymousName k) = true ∨ anonymousName k ∈ w.names

theorem needs_iff : (g.clashes name && !r.covers name) = true ↔ Needs g r name := by
  rw [Bool.and_eq_true, Bool.not_eq_true', Needs]

theorem isTaken_iff {k : Nat} :
    (g.binds (anonymousName k) || w.names.contains (anonymousName k)) = true ↔ Taken g w k := by
  rw [Bool.or_eq_true, List.contains_iff_mem, Taken]

theorem taken_iff {k : Nat} : Taken g w k ↔ anonymousName k ∈ g.names ++ w.names := by
  rw [List.mem_append, Graph.mem_names, Taken]

theorem turn_of_passed (h : ¬ Needs g r name) : turn g w ⟨name :: rest, r⟩ = ⟨rest, r⟩ := by
  unfold turn
  dsimp only
  rw [if_neg (mt needs_iff.mp h)]

theorem turn_of_taken (h : Needs g r name) (htaken : Taken g w r.tried) :
    turn g w ⟨name :: rest, r⟩ = ⟨name :: rest, ⟨r.pairs, r.tried + 1⟩⟩ := by
  unfold turn
  dsimp only
  rw [if_pos (needs_iff.mpr h), if_pos (isTaken_iff.mpr htaken)]

theorem turn_of_free (h : Needs g r name) (hfree : ¬ Taken g w r.tried) :
    turn g w ⟨name :: rest, r⟩
      = ⟨rest, ⟨(name, anonymousName r.tried) :: r.pairs, r.tried + 1⟩⟩ := by
  unfold turn
  dsimp only
  rw [if_pos (needs_iff.mpr h), if_neg (mt isTaken_iff.mp hfree)]

theorem turns_add (g : Graph) (w : Walk) (j k : Nat) (s : Hunt) :
    turns g w (j + k) s = turns g w k (turns g w j s) := by
  induction j generalizing s with
  | zero => rw [Nat.zero_add, turns]
  | succ j ih => rw [Nat.succ_add, turns, turns, ih]

/-! ## What the candidates were spent on -/

/-- Every candidate that was tried is a replacement or is taken, and the names that are replaced are
    different names that the graph binds. -/
structure Accounts (g : Graph) (w : Walk) (r : Renaming) : Prop where
  tried : ∀ k < r.tried, anonymousName k ∈ r.pairs.map Prod.snd ∨ Taken g w k
  distinct : (r.pairs.map Prod.fst).Nodup
  bound : ∀ a ∈ r.pairs.map Prod.fst, g.binds a = true

theorem Accounts.start : Accounts g w {} := ⟨nofun, List.nodup_nil, nofun⟩

/-- A name that is not covered is not among those that are replaced. -/
theorem not_mem_of_covers_eq_false (h : r.covers name = false) :
    name ∉ r.pairs.map Prod.fst := by
  rw [Renaming.covers, Option.isSome_eq_false_iff, Option.isNone_iff_eq_none,
    List.lookup_eq_none_iff] at h
  intro hmem
  obtain ⟨p, hp, rfl⟩ := List.mem_map.mp hmem
  exact absurd (h p hp) (by simp)

theorem Accounts.turn (accounts : Accounts g w s.found) : Accounts g w (turn g w s).found := by
  obtain ⟨todo, r⟩ := s
  cases todo with
  | nil => exact accounts
  | cons name rest =>
      by_cases hneeds : Needs g r name
      · by_cases htaken : Taken g w r.tried
        · rw [turn_of_taken hneeds htaken]
          refine ⟨fun k hk => ?_, accounts.distinct, accounts.bound⟩
          rcases Nat.lt_or_eq_of_le (Nat.lt_succ_iff.mp hk) with hlt | rfl
          · exact accounts.tried k hlt
          · exact .inr htaken
        · rw [turn_of_free hneeds htaken]
          have hnew := not_mem_of_covers_eq_false hneeds.2
          have hbound : g.binds name = true := (Bool.and_eq_true_iff.mp hneeds.1).2
          refine ⟨fun k hk => ?_, List.nodup_cons.mpr ⟨hnew, accounts.distinct⟩,
            List.forall_mem_cons.mpr ⟨hbound, accounts.bound⟩⟩
          rcases Nat.lt_or_eq_of_le (Nat.lt_succ_iff.mp hk) with hlt | rfl
          · exact (accounts.tried k hlt).imp_left (List.mem_cons_of_mem _)
          · exact .inl List.mem_cons_self
      · rw [turn_of_passed hneeds]
        exact accounts

theorem Accounts.turns (accounts : Accounts g w s.found) (k : Nat) :
    Accounts g w (turns g w k s).found := by
  induction k generalizing s with
  | zero => exact accounts
  | succ k ih => exact ih accounts.turn

/-- As many candidates were tried as there are taken names and replacements, at most. -/
theorem Accounts.tried_le (accounts : Accounts g w r) :
    r.tried ≤ g.names.length + w.names.length + r.pairs.length := by
  have hsub : (List.range r.tried).map anonymousName
      ⊆ (g.names ++ w.names) ++ r.pairs.map Prod.snd := by
    intro a ha
    obtain ⟨k, hk, rfl⟩ := List.mem_map.mp ha
    rw [List.mem_append, ← taken_iff, or_comm]
    exact accounts.tried k (List.mem_range.mp hk)
  have hnodup : ((List.range r.tried).map anonymousName).Nodup :=
    List.Nodup.map (fun _ _ => anonymousName_inj) List.nodup_range
  have hlength := (hnodup.subperm hsub).length_le
  rwa [List.length_map, List.length_range, List.length_append, List.length_append,
    List.length_map] at hlength

/-- No more names are replaced than the graph binds. -/
theorem Accounts.length_pairs_le (accounts : Accounts g w r) :
    r.pairs.length ≤ g.names.length := by
  have hsub : r.pairs.map Prod.fst ⊆ g.names := fun a ha =>
    Graph.mem_names.mpr (accounts.bound a ha)
  have hlength := (accounts.distinct.subperm hsub).length_le
  rwa [List.length_map] at hlength

/-! ## The end of the hunt -/

/-- While candidates are taken the same name is looked at. -/
theorem turns_taken (h : Needs g r name) {d : Nat} (htaken : ∀ j < d, Taken g w (r.tried + j)) :
    turns g w d ⟨name :: rest, r⟩ = ⟨name :: rest, ⟨r.pairs, r.tried + d⟩⟩ := by
  induction d generalizing r with
  | zero => rfl
  | succ d ih =>
      have hfirst : Taken g w r.tried := htaken 0 (Nat.succ_pos d)
      rw [turns, turn_of_taken h hfirst]
      have hagain : Needs g ⟨r.pairs, r.tried + 1⟩ name := h
      rw [ih hagain fun j hj => ?_, Nat.add_assoc, Nat.add_comm 1 d]
      rw [Nat.add_assoc, Nat.add_comm 1 j]
      exact htaken (j + 1) (by omega)

/-- After some turns a name was looked at for the last time, and what was found is what is found for
    it in one step. -/
theorem exists_turns_cons (g : Graph) (w : Walk) (name : String) (rest : List String)
    (r : Renaming) :
    ∃ k, turns g w k ⟨name :: rest, r⟩ = ⟨rest, Renaming.step g (g.names ++ w.names) r name⟩ ∧
      ∀ j < k, (turns g w j ⟨name :: rest, r⟩).todo = name :: rest := by
  rw [Renaming.step]
  by_cases hneeds : Needs g r name
  · rw [if_pos (needs_iff.mpr hneeds), Renaming.add]
    have hfree := Renaming.freeNumber_not_mem (g.names ++ w.names) r.tried
    obtain ⟨d, -, hd, hpassed, -⟩ :=
      Renaming.freeNumber_spec (g.names ++ w.names) (g.names ++ w.names).length r.tried
    rw [hd] at hfree ⊢
    have htaken : ∀ j ≤ d, turns g w j ⟨name :: rest, r⟩
        = ⟨name :: rest, ⟨r.pairs, r.tried + j⟩⟩ := fun j hj =>
      turns_taken hneeds fun i hi => taken_iff.mpr (hpassed i (by omega))
    refine ⟨d + 1, ?_, fun j hj => by rw [htaken j (by omega)]⟩
    have hagain : Needs g ⟨r.pairs, r.tried + d⟩ name := hneeds
    rw [turns_add, htaken d (Nat.le_refl d), turns, turns,
      turn_of_free hagain (mt taken_iff.mp hfree)]
  · refine ⟨1, ?_, fun j hj => ?_⟩
    · rw [turns, turns, turn_of_passed hneeds, if_neg (mt needs_iff.mp hneeds)]
    · rw [Nat.lt_one_iff.mp hj, turns]

theorem exists_turns (g : Graph) (w : Walk) (names : List String) (r : Renaming) :
    ∃ k, turns g w k ⟨names, r⟩
        = ⟨[], names.foldl (Renaming.step g (g.names ++ w.names)) r⟩ ∧
      ∀ j < k, (turns g w j ⟨names, r⟩).todo ≠ [] := by
  induction names generalizing r with
  | nil => exact ⟨0, rfl, nofun⟩
  | cons name rest ih =>
      obtain ⟨k, hk, hfirst⟩ := exists_turns_cons g w name rest r
      obtain ⟨m, hm, hlater⟩ := ih (Renaming.step g (g.names ++ w.names) r name)
      refine ⟨k + m, by rw [turns_add, hk, hm, List.foldl_cons], fun j hj => ?_⟩
      rcases Nat.lt_or_ge j k with hlt | hge
      · rw [hfirst j hlt]
        exact List.cons_ne_nil _ _
      · rw [← Nat.add_sub_cancel' hge, turns_add, hk]
        exact hlater _ (by omega)

end Hunt

/-! ## Counting names -/

theorem Graph.WellFormed.length_names {g : Graph} (wf : g.WellFormed) :
    g.names.length = g.nodeCount + g.edgeCount := by
  rw [Graph.names, List.length_append, List.length_map, List.length_map, Graph.nodeCount,
    Graph.edgeCount, wf.node_count, wf.edge_count]

/-- Every element of a path writes one name. -/
theorem Walk.length_names (w : Walk) : w.names.length = w.path.elements.length := by
  rw [Walk.names, Walk.path, List.length_append, List.length_map, List.length_map, List.length_cons,
    Path.length_flatMap_elements, Walk.nodes, Walk.edges, List.length_cons, List.length_map,
    List.length_map]
  omega

namespace Reachable

variable {g : Graph} {p : Path} {w : Walk}

/-- For a graph that can come up and a path of the right shape the hunt for fresh names ends with
    the replacements of the walk.  At no time were more candidates tried than there are nodes, edges
    and elements of the path, and replacements so far; so the next number always fits into 64 bits
    for a path of less than 2 ^ 63 elements. -/
theorem renaming_ends (reach : Reachable g) (hw : p.walk? = .ok w) :
    (∃ k, Hunt.turns g w k (.start w) = ⟨[], g.renamingFor w⟩ ∧
      ∀ j < k, (Hunt.turns g w j (.start w)).todo ≠ []) ∧
    (g.renamingFor w).tried ≤ g.nodeCount + g.edgeCount + p.elements.length
      + (g.renamingFor w).pairs.length ∧
    ∀ k, let found := (Hunt.turns g w k (.start w)).found
      found.tried ≤ g.nodeCount + g.edgeCount + p.elements.length + found.pairs.length ∧
      (p.elements.length < 2 ^ 63 → found.tried < 2 ^ 64) := by
  have wf := reach.wellFormed
  obtain rfl := Path.eq_path_of_walk? hw
  obtain ⟨last, hlast, hwaits⟩ := Hunt.exists_turns g w w.names {}
  have hlast : Hunt.turns g w last (.start w) = ⟨[], g.renamingFor w⟩ := hlast
  have haccounts : ∀ k, Hunt.Accounts g w (Hunt.turns g w k (.start w)).found :=
    (Hunt.Accounts.start (g := g) (w := w)).turns (s := .start w)
  have hbound : ∀ k, (Hunt.turns g w k (.start w)).found.tried ≤ g.nodeCount + g.edgeCount
      + w.path.elements.length + (Hunt.turns g w k (.start w)).found.pairs.length := fun k => by
    rw [← wf.length_names, ← w.length_names]
    exact (haccounts k).tried_le
  have hend := hbound last
  rw [hlast] at hend
  refine ⟨⟨last, hlast, hwaits⟩, hend, fun k => ⟨hbound k, fun hpath => ?_⟩⟩
  -- the replaced names are bound, so they are no more than the nodes and the edges
  have hpairs := (haccounts k).length_pairs_le
  rw [wf.length_names] at hpairs
  have hnodeCount : g.nodeCount ≤ g.nodes.size := wf.nodes_counted.live_le_size
  have hedgeCount : g.edgeCount ≤ g.edges.size := wf.edges_counted.live_le_size
  have hnodes : g.nodes.size < 2 ^ 32 := Nat.lt_succ_of_le reach.sound.slots.nodes
  have hedges : g.edges.size < 2 ^ 32 := Nat.lt_succ_of_le reach.sound.slots.edges
  have hk := hbound k
  omega

/-- For the first name two candidates are bound, one of them to an edge, and the next one is written
    later on the path; for the second name the first candidate that is left is free. -/
theorem renaming_ends_of_clash :
    let g := (Command.addPath .empty ⟨[.node ⟨"_anon_0", none⟩,
      .edge ⟨"_anon_1", .outgoing, [], none⟩, .node ⟨"a", none⟩]⟩).run (.empty .standard)
    let p : Path := ⟨[.node ⟨"_anon_0", none⟩, .edge ⟨"_anon_2", .outgoing, [], none⟩,
      .node ⟨"a", none⟩, .edge ⟨"_anon_1", .both, [], none⟩, .node ⟨"_anon_0", none⟩]⟩
    ∃ w, p.walk? = .ok w ∧
      g.renamingFor w = ⟨[("_anon_1", "_anon_4"), ("_anon_0", "_anon_3")], 5⟩ ∧
      (∃ k, Hunt.turns g w k (.start w) = ⟨[], g.renamingFor w⟩) ∧
      (g.renamingFor w).tried ≤ 2 + 1 + 5 + 2 ∧
      (Hunt.turns g w 3 (.start w)).found.tried < 2 ^ 64 := by
  intro g p
  have reach : Reachable g := .run _ (.empty .standard) nofun nofun
  let w : Walk := ⟨⟨"_anon_0", none⟩, [⟨⟨"_anon_2", .outgoing, [], none⟩, ⟨"a", none⟩⟩,
    ⟨⟨"_anon_1", .both, [], none⟩, ⟨"_anon_0", none⟩⟩]⟩
  have hw : p.walk? = .ok w := rfl
  have hfound : g.renamingFor w = ⟨[("_anon_1", "_anon_4"), ("_anon_0", "_anon_3")], 5⟩ := by
    decide +kernel
  have hcounts : g.nodeCount = 2 ∧ g.edgeCount = 1 := by decide +kernel
  obtain ⟨⟨k, hk, -⟩, htried, hturns⟩ := reach.renaming_ends hw
  refine ⟨w, hw, hfound, ⟨k, hk⟩, ?_, ?_⟩
  · rw [hcounts.1, hcounts.2, hfound] at htried
    rw [hfound]
    exact htried
  · exact (hturns 3).2 (by decide +kernel)

end Reachable

end PatternGraph
