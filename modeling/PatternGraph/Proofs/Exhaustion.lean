/-
  PatternGraph.Proofs.Exhaustion

  How long it takes to split a graph.  An edge between two nodes puts one handle
  on the frontier, when the first of its ends is expanded: the other end is not
  reached then, and it is when the second one is expanded.  A loop puts none
  there.  So the handles that wait and the edges that are still to put one there
  are one fewer after every step, and the search takes one step for its first
  node and one for every edge of the part that is no loop.

  `Search.Ends` says of a search that it is over after a number of steps and
  what it did until then; `Peels` is the loop that splits off part after part,
  without a bound on its rounds.
-/
import PatternGraph.Proofs.Decomposition
import PatternGraph.Proofs.Neighbors
import PatternGraph.Proofs.Splitting

namespace PatternGraph

/-- A test that says yes as often as three others together counts what they count together. -/
theorem countP_eq_add_add {α : Type} {l : List α} {p q r t : α → Bool}
    (h : ∀ a ∈ l, (p a).toNat = (q a).toNat + (r a).toNat + (t a).toNat) :
    l.countP p = l.countP q + l.countP r + l.countP t := by
  have hone : ∀ b : Bool, (if b = true then 1 else 0) = b.toNat := by decide
  induction l with
  | nil => rfl
  | cons a rest ih =>
      obtain ⟨ha, hrest⟩ := List.forall_mem_cons.mp h
      have hrest := ih hrest
      simp only [List.countP_cons, hone]
      omega

namespace Search

variable {g : Graph} {s : Search} {seed id x : NodeId} {rest : List NodeId} {n : Node} {e : Edge}

/-! ## What a step expands -/

/-- The node that the next step expands: the next handle, if it is live and was not reached. -/
def expands? (g : Graph) (s : Search) : Option NodeId :=
  match s.frontier with
  | [] => none
  | id :: _ => if (g.node? id).isNone || s.has id then none else some id

/-- The nodes that so many steps expand, in order. -/
def expanded (g : Graph) : Nat → Search → List NodeId
  | 0, _ => []
  | k + 1, s => (expands? g s).toList ++ expanded g k (step g s)

theorem expands?_eq_some : expands? g s = some id ↔
    (∃ rest, s.frontier = id :: rest) ∧ (g.node? id).isSome ∧ s.has id = false := by
  unfold expands?
  cases s.frontier with
  | nil => simp
  | cons next rest =>
      simp only [Bool.or_eq_true, Option.ite_none_left_eq_some, not_or, Option.some.injEq,
        List.cons.injEq, exists_and_left, exists_eq', and_true, Option.isNone_iff_eq_none,
        Bool.not_eq_true]
      constructor
      · rintro ⟨⟨hlive, hnew⟩, rfl⟩
        exact ⟨rfl, Option.isSome_iff_ne_none.mpr hlive, hnew⟩
      · rintro ⟨rfl, hlive, hnew⟩
        exact ⟨⟨Option.isSome_iff_ne_none.mp hlive, hnew⟩, rfl⟩

/-- A step that expands nothing passes the next handle over. -/
theorem step_of_expands?_none (h : expands? g s = none) :
    step g s = { s with frontier := s.frontier.tail } := by
  cases hfront : s.frontier with
  | nil =>
      rw [step_of_nil hfront]
      cases s
      exact congrArg (Search.mk · _) hfront
  | cons id rest =>
      refine step_of_passed hfront ?_
      by_contra hpassed
      rw [not_or, Bool.not_eq_true] at hpassed
      have hsome := expands?_eq_some.mpr
        ⟨⟨rest, hfront⟩, Option.isSome_iff_ne_none.mpr hpassed.1, hpassed.2⟩
      rw [h] at hsome
      cases hsome

/-- A step that expands a node reaches it and puts its unreached neighbours on the frontier. -/
theorem step_of_expands?_some (h : expands? g s = some id) :
    step g s = { s.mark id with
      frontier := (unreached g (s.mark id) id).reverse ++ s.frontier.tail } := by
  obtain ⟨⟨rest, hfront⟩, hlive, hnew⟩ := expands?_eq_some.mp h
  obtain ⟨n, hn⟩ := Option.isSome_iff_exists.mp hlive
  rw [step_of_reached hfront hn hnew, hfront, List.tail_cons]

theorem size_step (g : Graph) (s : Search) : (step g s).reached.size = s.reached.size := by
  cases h : expands? g s with
  | none => rw [step_of_expands?_none h]
  | some id =>
      rw [step_of_expands?_some h]
      exact size_mark s id

/-- A step reaches what it expands and nothing else. -/
theorem has_step (hsize : s.reached.size = g.nodes.size) :
    (step g s).has x = true ↔ expands? g s = some x ∨ s.has x = true := by
  cases h : expands? g s with
  | none =>
      rw [step_of_expands?_none h]
      simp only [reduceCtorEq, false_or]
      rfl
  | some id =>
      obtain ⟨n, hn⟩ := Option.isSome_iff_exists.mp (expands?_eq_some.mp h).2.1
      have hmark := has_mark (s := s) (by rw [hsize]; exact Graph.lt_size_of_node? hn) x
      rw [step_of_expands?_some h]
      show (s.mark id).has x = true ↔ _
      rw [hmark, Bool.or_eq_true, beq_iff_eq, Option.some.injEq, eq_comm]

theorem has_run (hsize : s.reached.size = g.nodes.size) (k : Nat) :
    (run g k s).has x = true ↔ x ∈ expanded g k s ∨ s.has x = true := by
  induction k generalizing s with
  | zero => simp [run, expanded]
  | succ k ih =>
      rw [run, ih ((size_step g s).trans hsize), has_step hsize, expanded, List.mem_append,
        Option.mem_toList]
      exact or_left_comm.trans or_assoc.symm

/-- No node is expanded that was reached before, and none is expanded twice. -/
theorem nodup_expanded (hsize : s.reached.size = g.nodes.size) (k : Nat) :
    (expanded g k s).Nodup ∧ ∀ x ∈ expanded g k s, s.has x = false := by
  induction k generalizing s with
  | zero => exact ⟨List.nodup_nil, nofun⟩
  | succ k ih =>
      obtain ⟨hnodup, hnew⟩ := ih ((size_step g s).trans hsize)
      -- what is expanded later is not reached after the step, so it is neither this node nor old
      have hlater : ∀ x ∈ expanded g k (step g s), expands? g s ≠ some x ∧ s.has x = false := by
        intro x hx
        have hunreached := mt (has_step hsize).mpr (Bool.eq_false_iff.mp (hnew x hx))
        rw [not_or, Bool.not_eq_true] at hunreached
        exact hunreached
      rw [expanded]
      cases h : expands? g s with
      | none => exact ⟨hnodup, fun x hx => (hlater x hx).2⟩
      | some id =>
          refine ⟨List.nodup_cons.mpr ⟨fun hx => (hlater id hx).1 h, hnodup⟩, ?_⟩
          exact List.forall_mem_cons.mpr
            ⟨(expands?_eq_some.mp h).2.2, fun x hx => (hlater x hx).2⟩

/-! ## Handles that wait -/

/-- Only live handles wait. -/
def Live (g : Graph) (s : Search) : Prop := ∀ x ∈ s.frontier, (g.node? x).isSome

theorem Live.start (hseed : (g.node? seed).isSome) : Live g (start g seed) := by
  intro x hx
  rw [List.mem_singleton.mp hx]
  exact hseed

theorem Live.step (live : Live g s) : Live g (step g s) := by
  have hrest : ∀ x ∈ s.frontier.tail, (g.node? x).isSome := fun x hx =>
    live x (List.mem_of_mem_tail hx)
  cases h : expands? g s with
  | none =>
      rw [step_of_expands?_none h]
      exact hrest
  | some id =>
      rw [step_of_expands?_some h]
      intro x hx
      rcases List.mem_append.mp hx with hx | hx
      · exact (mem_unreached.mp (List.mem_reverse.mp hx)).2.1
      · exact hrest x hx

theorem Live.run (live : Live g s) (k : Nat) : Live g (run g k s) := by
  induction k generalizing s with
  | zero => exact live
  | succ k ih => exact ih live.step

/-! ## Edges that are still to put a handle on the frontier -/

/-- The edge is between two nodes neither of which was reached. -/
def untouched (s : Search) (e : Edge) : Bool := !s.has e.src && !s.has e.dest && !e.isLoop

/-- How many steps may be left: one for each handle that waits, and one for each edge that is still
    to put one on the frontier, if the search comes there. -/
def stepsLeft (g : Graph) (s : Search) : Nat :=
  s.frontier.length + g.edges.values.countP s.untouched

/-- The edges that are untouched no more when a node is expanded are as many as the handles that
    it puts on the frontier. -/
theorem countP_untouched (wf : g.WellFormed) (hsize : s.reached.size = g.nodes.size)
    (h : expands? g s = some id) :
    g.edges.values.countP s.untouched
      = g.edges.values.countP (s.mark id).untouched + (unreached g (s.mark id) id).length := by
  obtain ⟨-, hlive, hnew⟩ := expands?_eq_some.mp h
  obtain ⟨n, hn⟩ := Option.isSome_iff_exists.mp hlive
  have hmark := has_mark (s := s) (by rw [hsize]; exact Graph.lt_size_of_node? hn)
  rw [unreached, ← List.countP_eq_length_filter, wf.countP_neighbors hn, ← Nat.add_assoc]
  apply countP_eq_add_add
  intro e he
  obtain ⟨⟨a, ha⟩, b, hb⟩ := wf.live_of_mem he
  simp only [untouched, hmark, ha, hb, Edge.isLoop, Option.isSome_some, Bool.true_and]
  -- the edge leaves the node, or it enters it, or it does neither
  cases hsrc : e.src == id <;> cases hdest : e.dest == id
  · simp
  · have hloop : (e.src == e.dest) = false := by rw [eq_of_beq hdest, hsrc]
    rw [eq_of_beq hdest] at hloop ⊢
    simp [hnew, hloop]
  · have hloop : (e.src == e.dest) = false := by rw [eq_of_beq hsrc, BEq.comm, hdest]
    rw [eq_of_beq hsrc] at hloop ⊢
    simp [hnew, hloop]
  · rw [eq_of_beq hsrc, eq_of_beq hdest]
    simp

/-- A step with something to look at leaves exactly one step less. -/
theorem stepsLeft_step (wf : g.WellFormed) (hsize : s.reached.size = g.nodes.size)
    (hwaits : s.frontier ≠ []) : stepsLeft g (step g s) + 1 = stepsLeft g s := by
  have hlength := List.length_tail (l := s.frontier)
  have hpos := List.length_pos_iff.mpr hwaits
  cases h : expands? g s with
  | none =>
      rw [step_of_expands?_none h, stepsLeft, stepsLeft]
      show s.frontier.tail.length + g.edges.values.countP s.untouched + 1 = _
      omega
  | some id =>
      have hcount := countP_untouched wf hsize h
      rw [step_of_expands?_some h, stepsLeft, stepsLeft]
      show ((unreached g (s.mark id) id).reverse ++ s.frontier.tail).length
        + g.edges.values.countP (s.mark id).untouched + 1 = _
      rw [List.length_append, List.length_reverse]
      omega

theorem stepsLeft_of_nil (h : s.frontier = []) :
    stepsLeft g s = 0 + g.edges.values.countP s.untouched := by
  rw [stepsLeft, h, List.length_nil]

/-- Nothing waits after as many steps as lower the count to what is left of it at the end. -/
theorem exists_run (wf : g.WellFormed) (hsize : s.reached.size = g.nodes.size) {n : Nat}
    (hn : stepsLeft g s ≤ n) :
    ∃ k, (∀ j < k, (run g j s).frontier ≠ []) ∧ (run g k s).frontier = [] ∧
      stepsLeft g s = k + g.edges.values.countP (run g k s).untouched := by
  induction n generalizing s with
  | zero =>
      have hnil : s.frontier = [] := List.eq_nil_of_length_eq_zero (by unfold stepsLeft at hn; omega)
      exact ⟨0, nofun, hnil, stepsLeft_of_nil hnil⟩
  | succ n ih =>
      by_cases hnil : s.frontier = []
      · exact ⟨0, nofun, hnil, stepsLeft_of_nil hnil⟩
      · have hless := stepsLeft_step wf hsize hnil
        obtain ⟨k, hwaits, hends, hk⟩ := ih ((size_step g s).trans hsize) (by omega)
        refine ⟨k + 1, fun j hj => ?_, hends, ?_⟩
        · cases j with
          | zero => exact hnil
          | succ j => exact hwaits j (by omega)
        · rw [run]
          omega

/-! ## Searches that are over -/

/-- The search from a node is over after so many steps.  Until then only live handles waited, and
    what is joined to the node was expanded, each node once, and nothing else. -/
structure Ends (g : Graph) (seed : NodeId) (steps : Nat) : Prop where
  waits : ∀ k < steps, (run g k (start g seed)).frontier ≠ []
  ends : (run g steps (start g seed)).frontier = []
  found : g.searchFrom seed = run g steps (start g seed)
  live : ∀ k, ∀ x ∈ (run g k (start g seed)).frontier, (g.node? x).isSome
  once : (expanded g steps (start g seed)).Nodup
  expands : ∀ x, x ∈ expanded g steps (start g seed) ↔ g.Joined seed x

theorem run_add (g : Graph) (j k : Nat) (s : Search) : run g (j + k) s = run g k (run g j s) := by
  induction j generalizing s with
  | zero => rw [Nat.zero_add, run]
  | succ j ih => rw [Nat.succ_add, run, run, ih]

section Seeded

variable (wf : g.WellFormed) (hseed : (g.node? seed).isSome)
include wf hseed

/-- The search is given enough steps, and those that are left over do nothing. -/
theorem searchFrom_eq_run {steps : Nat}
    (hwaits : ∀ k < steps, (run g k (start g seed)).frontier ≠ [])
    (hends : (run g steps (start g seed)).frontier = []) :
    g.searchFrom seed = run g steps (start g seed) := by
  have hdone := frontier_run wf hseed (Sound.start g seed) (Nat.le_of_eq (pending_start g seed))
  have hle : steps ≤ g.endCount + 1 := Nat.le_of_not_lt fun hlt => hwaits _ hlt hdone
  rw [Graph.searchFrom, ← Nat.add_sub_cancel' hle, run_add, run_of_nil hends]

/-- When the search is over, the edges that are untouched are those that start elsewhere. -/
theorem countP_not_isLoop_eq :
    g.edges.values.countP (fun e => !e.isLoop)
      = g.edges.values.countP (fun e => (g.searchFrom seed).has e.src && !e.isLoop)
        + g.edges.values.countP (g.searchFrom seed).untouched := by
  rw [List.countP_eq_countP_filter_add _ _ fun e : Edge => (g.searchFrom seed).has e.src,
    List.countP_filter, List.countP_filter]
  congr 1
  · simp only [Bool.and_comm]
  · apply List.countP_congr
    intro e he
    obtain ⟨i, hi⟩ := Graph.mem_values_edges.mp he
    have hadj : g.Adjacent e.src e.dest := ⟨i, e, hi, .inl ⟨rfl, rfl⟩⟩
    -- either both ends of an edge are reached or neither is
    have hsame : (g.searchFrom seed).has e.src = (g.searchFrom seed).has e.dest := by
      rw [Bool.eq_iff_iff, wf.searchFrom_has hseed, wf.searchFrom_has hseed]
      exact ⟨fun hsrc => hsrc.step hadj, fun hdest => hdest.step hadj.symm⟩
    rw [untouched, ← hsame, Bool.and_self, Bool.and_comm]

/-- The search from a live node ends after one step for the node and one for each edge that starts
    at what is joined to it and is no loop. -/
theorem ends_of_live :
    Ends g seed (1 + g.edges.values.countP fun e => (g.searchFrom seed).has e.src && !e.isLoop) := by
  have hsize : (start g seed).reached.size = g.nodes.size := (Sound.start g seed).size
  obtain ⟨steps, hwaits, hends, hsteps⟩ := exists_run wf hsize (Nat.le_refl _)
  have hfound := searchFrom_eq_run wf hseed hwaits hends
  have hexpanded : ∀ x, x ∈ expanded g steps (start g seed) ↔ g.Joined seed x := by
    intro x
    rw [← wf.searchFrom_has hseed, hfound, has_run hsize, has_start]
    simp
  -- nothing is reached at the start, so every edge that is no loop is untouched
  have hstart : stepsLeft g (start g seed) = 1 + g.edges.values.countP fun e => !e.isLoop := by
    rw [stepsLeft]
    congr 1
    apply List.countP_congr
    intro e _
    simp [untouched, has_start]
  have heq : steps
      = 1 + g.edges.values.countP fun e => (g.searchFrom seed).has e.src && !e.isLoop := by
    have hcount := countP_not_isLoop_eq wf hseed
    rw [← hfound] at hsteps
    omega
  exact heq ▸ ⟨hwaits, hends, hfound, (Live.start hseed).run, (nodup_expanded hsize steps).1,
    hexpanded⟩

end Seeded

end Search

namespace Graph

variable {g part rest : Graph} {seed : NodeId} {first : NodeContent} {others : List NodeContent}
  {parts : List Graph}

/-! ## The edges of a part -/

/-- In a well-formed graph a loop is an edge whose ends bear one name. -/
theorem WellFormed.isLoop_iff (wf : g.WellFormed) {e : Edge} (he : e ∈ g.edges.values) :
    e.isLoop = ((g.edgeContent e).src == (g.edgeContent e).dest) := by
  obtain ⟨⟨m, hm⟩, n, hn⟩ := wf.live_of_mem he
  have hsrc := nameOf?_of_live hm
  have hdest := nameOf?_of_live hn
  rw [Edge.isLoop, Bool.eq_iff_iff, beq_iff_eq, beq_iff_eq, edgeContent]
  constructor
  · exact congrArg g.nameOf?
  · intro hname
    rw [hsrc] at hname
    exact wf.nameOf?_inj hsrc hname.symm

/-- The edges that are no loops, counted by what they say. -/
theorem WellFormed.countP_not_isLoop (wf : g.WellFormed) :
    g.edges.values.countP (fun e => !e.isLoop)
      = g.edgeContents.countP fun d => !(d.src == d.dest) := by
  rw [edgeContents, List.countP_map]
  apply List.countP_congr
  intro e he
  rw [wf.isLoop_iff he]
  rfl

theorem WellFormed.countP_not_isLoop_le (wf : g.WellFormed) :
    g.edges.values.countP (fun e => !e.isLoop) ≤ g.edgeCount := by
  rw [edgeCount, wf.edge_count]
  exact List.countP_le_length

/-- A graph with a node is split. -/
theorem exists_split (hslots : g.HasSlots 0 0) (hfirst : g.nodeContents = first :: others) :
    ∃ part rest, g.split? = some (part, rest) := by
  cases hsplit : g.split? with
  | none =>
      rw [(split?_eq_none hslots).mp hsplit] at hfirst
      cases hfirst
  | some both => exact ⟨both.1, both.2, rfl⟩

/-- The search from the first node ends after one step for the node and one for every edge of the
    part that is no loop. -/
theorem Sound.ends_of_split (sound : g.Sound) (hfirst : g.nodeContents = first :: others)
    (hseed : g.nameOf? seed = some first.name) (hsplit : g.split? = some (part, rest)) :
    Search.Ends g seed (1 + part.edges.values.countP fun e => !e.isLoop) := by
  obtain ⟨first', others', hfirst', divides, hq⟩ := sound.divides_split hsplit
  obtain rfl : first = first' := (List.cons.inj (hfirst.symm.trans hfirst')).1
  have hlive := isSome_node?_of_nameOf? hseed
  -- an edge is in the part if its source is reached
  have hcount : part.edges.values.countP (fun e => !e.isLoop)
      = g.edges.values.countP fun e => (g.searchFrom seed).has e.src && !e.isLoop := by
    rw [divides.part_sound.countP_not_isLoop, divides.part_edges, List.countP_filter,
      edgeContents, List.countP_map]
    apply List.countP_congr
    intro e he
    obtain ⟨⟨m, hm⟩, -⟩ := sound.live_of_mem he
    have hsrc := nameOf?_of_live hm
    have hreached : (g.searchFrom seed).has e.src = (g.edgeContent e).src.any g.reachedName := by
      rw [edgeContent, hsrc, Option.any_some, Bool.eq_iff_iff, sound.searchFrom_has hlive, hq,
        sound.joined_iff_linked hseed hsrc]
    rw [sound.isLoop_iff he, hreached, Bool.and_comm]
    rfl
  rw [hcount]
  exact Search.ends_of_live sound.toWellFormed hlive

/-! ## Splitting again and again -/

/-- Splitting off parts from a graph and from what is left each time gives the parts in so many
    rounds, and then there is nothing to split. -/
inductive Peels : (rounds : Nat) → Graph → List Graph → Prop where
  /-- There is nothing to split. -/
  | done {g : Graph} (h : g.split? = none) : Peels 0 g []
  /-- One part is split off, and more from the rest. -/
  | round {g part rest : Graph} {rounds : Nat} {parts : List Graph}
      (h : g.split? = some (part, rest)) (more : Peels rounds rest parts) :
      Peels (rounds + 1) g (part :: parts)

/-- Splitting as often as there are nodes stops by itself, after one round for each part. -/
theorem Sound.peels_peel (sound : g.Sound) {k : Nat} (hk : g.nodeContents.length ≤ k) :
    Peels (peel k g).length g (peel k g) := by
  induction k generalizing g with
  | zero =>
      have hnil := List.eq_nil_of_length_eq_zero (Nat.le_zero.mp hk)
      exact .done ((split?_eq_none sound.slots).mpr hnil)
  | succ k ih =>
      rw [peel]
      split
      next hnone => exact .done hnone
      next part rest hsplit =>
        have hfewer := sound.length_rest_lt hsplit
        exact .round hsplit (ih (sound.split hsplit).2 (by omega))

/-- A copy is split as the graph is. -/
theorem Sound.split?_compact (sound : g.Sound) : g.compact.split? = g.split? := by
  rw [split?, split?, (Agrees.compact sound).compact_eq sound.compact.slots sound.slots]

theorem Peels.congr {h : Graph} {rounds : Nat} (peels : Peels rounds g parts)
    (hsplit : h.split? = g.split?) : Peels rounds h parts := by
  cases peels with
  | done hnone => exact .done (hsplit.trans hnone)
  | round hsome more => exact .round (hsplit.trans hsome) more

/-- The loop begins with a copy, as if the graph itself were split. -/
theorem Sound.peels_components (sound : g.Sound) :
    Peels g.components.length g.compact g.components :=
  (sound.peels_peel (Nat.le_of_eq (List.length_map ..))).congr sound.split?_compact

/-- There are no more parts than nodes, since every part has a first one. -/
theorem Partition.length_le (partition : g.Partition parts) :
    parts.length ≤ g.nodeContents.length := by
  have hheads := partition.heads.length_le
  rwa [List.filterMap_length_eq_length.mpr] at hheads
  intro part hpart
  rw [List.isSome_head?]
  exact partition.nonempty part hpart

end Graph

namespace Reachable

variable {g : Graph}

/-- In a graph that can come up the search from the first node takes one step for the node and one
    for every edge of the part that is no loop, and so does the search in the copy, which is the one
    that a split runs.  Splitting off part after part ends after one round for each connected part,
    of which there are no more than nodes. -/
theorem split_linear (reach : Reachable g) :
    (∀ first n others, g.liveNodes = (first, n) :: others →
      ∃ part rest steps, g.split? = some (part, rest) ∧
        Search.Ends g first steps ∧ Search.Ends g.compact ⟨0⟩ steps ∧
        steps = 1 + part.edges.values.countP (fun e => !e.isLoop) ∧
        steps ≤ 1 + 2 * part.edgeCount) ∧
    g.Decomposition g.components ∧ Graph.Peels g.components.length g.compact g.components ∧
    g.components.length ≤ g.nodeCount := by
  have sound := reach.sound
  have hpartition := sound.partition_components
  refine ⟨fun first n others hlive => ?_, hpartition.decomposition sound.toWellFormed,
    sound.peels_components, ?_⟩
  · have hcontents : g.nodeContents = n.content :: others.map fun p => p.2.content := by
      rw [Graph.nodeContents, ← Graph.map_snd_liveNodes, hlive, List.map_map]
      rfl
    have hname := Graph.nameOf?_of_live (Graph.node?_first hlive)
    -- the search in the copy starts at the copy of the first node
    have hcopy : g.compact.nameOf? ⟨0⟩ = some n.name := by
      rw [Graph.compact_first sound.slots, hcontents]
      rfl
    have hcopyContents := (Graph.nodeContents_compact sound.slots).trans hcontents
    obtain ⟨part, rest, hsplit⟩ := Graph.exists_split sound.slots hcontents
    have hbound := (sound.split hsplit).1.countP_not_isLoop_le
    exact ⟨part, rest, _, hsplit, sound.ends_of_split hcontents hname hsplit,
      sound.compact.ends_of_split hcopyContents hcopy (sound.split?_compact.trans hsplit), rfl,
      by omega⟩
  · rw [← sound.length_nodeContents]
    exact hpartition.length_le

/-- The part of the first node has two edges between two nodes and a loop, so the search takes three
    steps; there are two parts.  One of the edges was turned round, and the node in front of the
    others was taken out. -/
theorem split_linear_of_loop :
    let edge (r : String) (src dest : Nat) : Command :=
      .addEdge ⟨r, ⟨src⟩, ⟨dest⟩, [], [], false, .single⟩
    let g := Command.runAll [.addNode "x", .addNode "a", .addNode "b", .addNode "c", edge "q" 0 3,
      edge "r" 1 3, edge "s" 3 1, edge "l" 3 3, .reverseEdge ⟨1⟩, .removeNode ⟨0⟩]
      (.empty .standard)
    Search.Ends g ⟨1⟩ 3 ∧ Search.Ends g.compact ⟨0⟩ 3 ∧
      Graph.Peels 2 g.compact g.components := by
  intro edge g
  have reach : Reachable g := (Reachable.empty _).runAll (by simp [edge, Command.operand?])
    (by simp [edge, Command.edge?, Edge.made_iff])
  obtain ⟨hsearch, -, hpeels, -⟩ := reach.split_linear
  have hfirst : g.liveNodes.head?.map Prod.fst = some ⟨1⟩ := by decide +kernel
  have hedges : g.split?.map (fun p => p.1.edges.values.countP fun e => !e.isLoop) = some 2 := by
    decide +kernel
  have hparts : g.components.length = 2 := by decide +kernel
  rw [hparts] at hpeels
  cases hlive : g.liveNodes with
  | nil =>
      rw [hlive] at hfirst
      cases hfirst
  | cons p others =>
      obtain ⟨first, n⟩ := p
      obtain ⟨part, rest, steps, hsplit, hends, hcopy, hsteps, -⟩ := hsearch first n others hlive
      rw [hlive] at hfirst
      obtain rfl : first = ⟨1⟩ := Option.some.inj hfirst
      rw [hsplit] at hedges
      obtain rfl : steps = 3 := hsteps.trans (congrArg (1 + ·) (Option.some.inj hedges))
      exact ⟨hends, hcopy, hpeels⟩

end Reachable

end PatternGraph
