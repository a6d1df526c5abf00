/-
  PatternGraph.Proofs.Search

  The search from a node reaches exactly the nodes that are joined to it.  What
  is reached or waiting is joined to the seed, and what is adjacent to a reached
  node is reached or waiting; so when nothing is waiting any more, the reached
  nodes are closed under adjacency and hold the seed.

  Nothing is waiting after as many steps as the search is given: a handle that
  waits and an end of an edge at a node that is not reached count one each, and
  every step lowers their number.
-/
import PatternGraph.Graph.Components
import PatternGraph.Graph.Joined
import PatternGraph.Proofs.Content

namespace PatternGraph

namespace Search

variable {g : Graph} {s : Search} {seed id x : NodeId} {rest : List NodeId} {n : Node}

/-! ## Marks and steps -/

theorem has_start (g : Graph) (seed x : NodeId) : (start g seed).has x = false := by
  unfold has start
  rw [Array.getD_eq_getD_getElem?, Array.getElem?_replicate]
  split <;> rfl

theorem has_mark (hid : id.index < s.reached.size) (x : NodeId) :
    (s.mark id).has x = (x == id || s.has x) := by
  unfold has mark
  rw [Array.getD_eq_getD_getElem?, Array.getD_eq_getD_getElem?, Array.getElem?_setIfInBounds]
  by_cases hx : x = id
  · simp [hx, hid]
  · have hne : ¬ id.index = x.index := fun heq => hx (NodeId.ext heq.symm)
    rw [if_neg hne, beq_eq_false_iff_ne.mpr hx, Bool.false_or]

theorem size_mark (s : Search) (id : NodeId) : (s.mark id).reached.size = s.reached.size := by
  simp [mark]

theorem step_of_nil (h : s.frontier = []) : step g s = s := by
  unfold step
  rw [h]

/-- A handle that is stale or was looked at before is passed over. -/
theorem step_of_passed (h : s.frontier = id :: rest) (hpassed : g.node? id = none ∨ s.has id) :
    step g s = { s with frontier := rest } := by
  unfold step
  rw [h]
  dsimp only
  rw [if_pos]
  rw [Bool.or_eq_true, Option.isNone_iff_eq_none]
  exact hpassed

/-- A node that is reached for the first time puts its neighbours on the frontier. -/
theorem step_of_reached (h : s.frontier = id :: rest) (hn : g.node? id = some n)
    (hnew : s.has id = false) :
    step g s = { s.mark id with frontier := (unreached g (s.mark id) id).reverse ++ rest } := by
  unfold step
  rw [h]
  dsimp only
  rw [if_neg]
  rw [hn, hnew]
  exact Bool.false_ne_true

theorem mem_unreached {y : NodeId} :
    y ∈ unreached g s id ↔ y ∈ g.neighbors id ∧ (g.node? y).isSome ∧ s.has y = false := by
  rw [unreached, List.mem_filter, Bool.and_eq_true, Bool.not_eq_true']

/-! ## What is reached -/

/-- What holds of a search that began at the seed. -/
structure Sound (g : Graph) (seed : NodeId) (s : Search) : Prop where
  size : s.reached.size = g.nodes.size
  seeded : s.has seed = true ∨ seed ∈ s.frontier
  joined : ∀ x, s.has x = true ∨ x ∈ s.frontier → g.Joined seed x
  closed : ∀ x y, s.has x = true → g.Adjacent x y → s.has y = true ∨ y ∈ s.frontier

theorem Sound.start (g : Graph) (seed : NodeId) : Sound g seed (start g seed) where
  size := by simp [Search.start]
  seeded := .inr List.mem_cons_self
  joined := by
    intro x hx
    rw [has_start] at hx
    rcases hx with hx | hx
    · cases hx
    · rw [List.mem_singleton.mp hx]
      exact .refl seed
  closed := by
    intro x y hx
    rw [has_start] at hx
    cases hx

/-- Passing a handle over loses nothing: it is stale, and then nothing is adjacent to it, or it
    was reached. -/
theorem Sound.passed (sound : Sound g seed s) (wf : g.WellFormed) (hseed : (g.node? seed).isSome)
    (h : s.frontier = id :: rest) (hpassed : g.node? id = none ∨ s.has id) :
    Sound g seed { s with frontier := rest } := by
  -- a live node that waited is the one passed over, and then it was reached, or it still waits
  have hkept : ∀ y, (g.node? y).isSome → s.has y = true ∨ y ∈ s.frontier →
      s.has y = true ∨ y ∈ rest := by
    intro y hy hin
    rw [h, List.mem_cons] at hin
    rcases hin with hin | rfl | hin
    · exact .inl hin
    · rcases hpassed with hstale | hhas
      · rw [hstale] at hy
        cases hy
      · exact .inl hhas
    · exact .inr hin
  refine ⟨sound.size, hkept seed hseed sound.seeded, ?_, ?_⟩
  · rintro x (hx | hx)
    · exact sound.joined x (.inl hx)
    · exact sound.joined x (.inr (h ▸ List.mem_cons_of_mem id hx))
  · intro x y hx hadj
    have hlive := Option.isSome_iff_exists.mpr (wf.live_of_adjacent hadj).2
    exact hkept y hlive (sound.closed x y hx hadj)

theorem Sound.reached (sound : Sound g seed s) (wf : g.WellFormed)
    (h : s.frontier = id :: rest) (hn : g.node? id = some n) :
    Sound g seed
      { s.mark id with frontier := (unreached g (s.mark id) id).reverse ++ rest } := by
  have hmark : ∀ x, (s.mark id).has x = (x == id || s.has x) :=
    has_mark (by rw [sound.size]; exact Graph.lt_size_of_node? hn)
  have hid : g.Joined seed id := sound.joined id (.inr (by rw [h]; exact List.mem_cons_self))
  -- what was reached or waiting still is
  have hkept : ∀ y, s.has y = true ∨ y ∈ s.frontier → (s.mark id).has y = true ∨
      y ∈ (unreached g (s.mark id) id).reverse ++ rest := by
    intro y hy
    rw [hmark, Bool.or_eq_true, beq_iff_eq, List.mem_append]
    rw [h, List.mem_cons] at hy
    grind
  refine ⟨(size_mark s id).trans sound.size, hkept seed sound.seeded, ?_, ?_⟩
  · intro x hx
    change (s.mark id).has x = true ∨ _ at hx
    rw [hmark, Bool.or_eq_true, beq_iff_eq, List.mem_append, List.mem_reverse, mem_unreached] at hx
    rcases hx with (rfl | hx) | ⟨hnear, -⟩ | hx
    · exact hid
    · exact sound.joined x (.inl hx)
    · exact .step hid ((wf.mem_neighbors hn).mp hnear)
    · exact sound.joined x (.inr (h ▸ List.mem_cons_of_mem id hx))
  · intro x y hx hadj
    change (s.mark id).has x = true at hx
    rw [hmark, Bool.or_eq_true, beq_iff_eq] at hx
    rcases hx with rfl | hx
    -- a neighbour of the new node is reached already or goes on the frontier now
    · cases hy : (s.mark x).has y with
      | true => exact .inl hy
      | false =>
          have hnear := (wf.mem_neighbors hn).mpr hadj
          have hlive := Option.isSome_iff_exists.mpr (wf.live_of_adjacent hadj).2
          exact .inr (List.mem_append_left _
            (List.mem_reverse.mpr (mem_unreached.mpr ⟨hnear, hlive, hy⟩)))
    · exact hkept y (sound.closed x y hx hadj)

theorem Sound.step (sound : Sound g seed s) (wf : g.WellFormed) (hseed : (g.node? seed).isSome) :
    Sound g seed (step g s) := by
  cases h : s.frontier with
  | nil =>
      rw [step_of_nil h]
      exact sound
  | cons id rest =>
      cases hn : g.node? id with
      | none =>
          rw [step_of_passed h (.inl hn)]
          exact sound.passed wf hseed h (.inl hn)
      | some n =>
          cases hhas : s.has id with
          | true =>
              rw [step_of_passed h (.inr hhas)]
              exact sound.passed wf hseed h (.inr hhas)
          | false =>
              rw [step_of_reached h hn hhas]
              exact sound.reached wf h hn

theorem Sound.run (sound : Sound g seed s) (wf : g.WellFormed) (hseed : (g.node? seed).isSome)
    (k : Nat) : Sound g seed (run g k s) := by
  induction k generalizing s with
  | zero => exact sound
  | succ k ih => exact ih (sound.step wf hseed)

/-- When nothing is waiting any more, what is joined to the seed was reached. -/
theorem Sound.has_iff (sound : Sound g seed s) (h : s.frontier = []) (x : NodeId) :
    s.has x = true ↔ g.Joined seed x := by
  refine ⟨?_, ?_⟩
  · exact fun hx => sound.joined x (.inl hx)
  · intro hx
    induction hx with
    | refl =>
        rcases sound.seeded with hseed | hseed
        · exact hseed
        · rw [h] at hseed
          cases hseed
    -- along a chain each node is reached because the one before it was
    | step _ last ih =>
        rcases sound.closed _ _ ih last with hy | hy
        · exact hy
        · rw [h] at hy
          cases hy

/-! ## Nothing is left to look at -/

/-- The ends of edges at nodes that are not reached. -/
def unreachedEnds (g : Graph) (s : Search) : List EdgeId :=
  (g.liveNodes.filter fun p => !s.has p.1).flatMap fun p => p.2.incident

/-- How many steps the search can take at most. -/
def pending (g : Graph) (s : Search) : Nat := s.frontier.length + (unreachedEnds g s).length

/-- Taking an element out takes away at least what it contributes. -/
theorem length_flatMap_filter_add_le {α β : Type} {f : α → List β} {p q : α → Bool} {l : List α}
    {a : α} (ha : a ∈ l) (hp : p a = true) (hq : q a = false)
    (hqp : ∀ b, q b = true → p b = true) :
    ((l.filter q).flatMap f).length + (f a).length ≤ ((l.filter p).flatMap f).length := by
  have hsub : ∀ l : List α, ((l.filter q).flatMap f).Sublist ((l.filter p).flatMap f) := by
    intro l
    induction l with
    | nil => exact List.Sublist.refl []
    | cons b rest ih =>
        rw [List.filter_cons, List.filter_cons]
        cases hb : q b with
        | true =>
            rw [if_pos rfl, if_pos (hqp b hb), List.flatMap_cons, List.flatMap_cons]
            exact ih.append_left _
        | false =>
            rw [if_neg Bool.false_ne_true]
            split
            · rw [List.flatMap_cons]
              exact ih.trans (List.sublist_append_right _ _)
            · exact ih
  obtain ⟨front, back, rfl⟩ := List.append_of_mem ha
  have hfront := (hsub front).length_le
  have hback := (hsub back).length_le
  rw [List.filter_append, List.filter_append, List.filter_cons_of_neg (by simp [hq]),
    List.filter_cons_of_pos hp, List.flatMap_append, List.flatMap_append, List.flatMap_cons,
    List.length_append, List.length_append, List.length_append]
  omega

theorem length_neighbors_le (h : g.node? id = some n) :
    (g.neighbors id).length ≤ n.incident.length := by
  have hout := List.length_filterMap_le (fun e => (g.edge? e).map Edge.dest) n.outgoing.toList
  have hin := List.length_filterMap_le (fun e => (g.edge? e).map Edge.src) n.incoming.toList
  simp only [Graph.neighbors, h, Node.incident, List.length_append]
  omega

/-- A step with something to look at leaves fewer steps. -/
theorem pending_step (hsize : s.reached.size = g.nodes.size) (h : s.frontier ≠ []) :
    pending g (step g s) < pending g s := by
  obtain ⟨id, rest, hfront⟩ := List.exists_cons_of_ne_nil h
  have hpassed : step g s = { s with frontier := rest } → pending g (step g s) < pending g s := by
    intro hstep
    rw [hstep, pending, pending, hfront, List.length_cons]
    exact Nat.add_lt_add_right (Nat.lt_succ_self _) _
  cases hn : g.node? id with
  | none => exact hpassed (step_of_passed hfront (.inl hn))
  | some n =>
      cases hhas : s.has id with
      | true => exact hpassed (step_of_passed hfront (.inr hhas))
      | false =>
          have hmark := has_mark (s := s) (by rw [hsize]; exact Graph.lt_size_of_node? hn)
          -- the node takes its ends with it, and puts no more handles on the frontier than that
          have hends : (unreachedEnds g (s.mark id)).length + n.incident.length
              ≤ (unreachedEnds g s).length := by
            refine length_flatMap_filter_add_le (f := fun p : NodeId × Node => p.2.incident)
              (a := (id, n)) (Graph.mem_liveNodes.mpr hn) ?_ ?_ ?_
            · simp [hhas]
            · simp [hmark]
            · intro p hp
              rw [hmark] at hp
              simp_all
          have hnear : (unreached g (s.mark id) id).length ≤ n.incident.length :=
            Nat.le_trans (List.length_filter_le _ _) (length_neighbors_le hn)
          rw [step_of_reached hfront hn hhas, pending, pending, hfront]
          show ((unreached g (s.mark id) id).reverse ++ rest).length
            + (unreachedEnds g (s.mark id)).length < _
          rw [List.length_append, List.length_reverse, List.length_cons]
          omega

theorem run_of_nil (h : s.frontier = []) (k : Nat) : run g k s = s := by
  induction k with
  | zero => rfl
  | succ k ih => rw [run, step_of_nil h, ih]

theorem frontier_run (wf : g.WellFormed) (hseed : (g.node? seed).isSome) {k : Nat}
    (sound : Sound g seed s) (h : pending g s ≤ k) : (run g k s).frontier = [] := by
  induction k generalizing s with
  | zero => exact List.eq_nil_of_length_eq_zero (by unfold pending at h; rw [run]; omega)
  | succ k ih =>
      -- the fuel may outlast the frontier, and then the rest of the run does nothing
      by_cases hnil : s.frontier = []
      · rw [run_of_nil hnil, hnil]
      · have hlt := pending_step sound.size hnil
        exact ih (sound.step wf hseed) (by omega)

theorem pending_start (g : Graph) (seed : NodeId) : pending g (start g seed) = g.endCount + 1 := by
  have hall : (g.liveNodes.filter fun p => !(start g seed).has p.1) = g.liveNodes :=
    List.filter_eq_self.mpr fun p _ => by rw [has_start]; rfl
  rw [pending, unreachedEnds, hall, Graph.endCount, ← Graph.map_snd_liveNodes, List.flatMap_map]
  exact Nat.add_comm 1 _

end Search

/-- The search from a live node reaches the nodes that are joined to it and no others. -/
theorem Graph.WellFormed.searchFrom_has {g : Graph} (wf : g.WellFormed) {seed : NodeId}
    (hseed : (g.node? seed).isSome) (x : NodeId) :
    (g.searchFrom seed).has x = true ↔ g.Joined seed x := by
  have hstart := Search.Sound.start g seed
  have hdone := Search.frontier_run wf hseed hstart (Nat.le_of_eq (Search.pending_start g seed))
  exact (hstart.run wf hseed _).has_iff hdone x

end PatternGraph
