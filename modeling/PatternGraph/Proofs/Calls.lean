/-
  PatternGraph.Proofs.Calls

  What calls on a draft say, read off the list of calls without a draft.  A call
  is out of place if it starts a path that has begun or extends one that has
  not; the first such call says why there is no path.  Calls in place write a
  walk: one step for each relationship, pointing as the calls since the
  relationship before it say, and named by the call or counted up from a seed.
-/
import Mathlib.Data.List.Basic
import Mathlib.Data.List.Induction
import PatternGraph.Path.Draft
import PatternGraph.Path.Walk

namespace PatternGraph

namespace DraftCall

/-! ## Reading calls -/

/-- The call starts a path. -/
def isNode : DraftCall → Bool
  | .node _ => true
  | _ => false

/-- The call extends a path. -/
def isEdge : DraftCall → Bool
  | .edge _ _ => true
  | _ => false

/-- The call makes elements of a path. -/
def isElement (k : DraftCall) : Bool := k.isNode || k.isEdge

/-- The direction that the call sets. -/
def direction? : DraftCall → Option Direction
  | .direction way => some way
  | _ => none

/-- The hop range that the call sets. -/
def range? : DraftCall → Option HopRange
  | .hops r => some r
  | _ => none

/-- The names that are given to the elements of a call, that of a relationship before that of its
    target, and `none` where the element is anonymous. -/
def given : DraftCall → List (Option String)
  | .node n => [n.name]
  | .edge e target => [e.name, target.name]
  | _ => []

/-- Why a call is out of place after others. -/
def misplaced? (before : List DraftCall) : DraftCall → Option PathDefect
  | .node _ => if before.any isElement then some .secondStart else none
  | .edge _ _ => if before.any isElement then none else some .edgeBeforeStart
  | _ => none

/-- How many elements are anonymous. -/
def unnamed (calls : List DraftCall) : Nat := (calls.flatMap given).count none

/-- The calls since the last relationship, the latest first. -/
def pending (calls : List DraftCall) : List DraftCall := calls.reverse.takeWhile (!·.isEdge)

/-- The direction that was set last and waits for the next relationship. -/
def pendingDirection (calls : List DraftCall) : Direction :=
  ((pending calls).findSome? direction?).getD .outgoing

/-- The hop range that was set last and waits for the next relationship. -/
def pendingRange (calls : List DraftCall) : Option HopRange := (pending calls).findSome? range?

/-- The step that a relationship makes after other calls. -/
def stepAfter (seed : Nat) (before : List DraftCall) (e : EdgeDraft) (target : NodeDraft) :
    Step where
  edge :=
    { name := e.name.getD (anonymousName (seed + unnamed before))
      direction := pendingDirection before
      types := e.types
      range := pendingRange before }
  target :=
    { name := target.name.getD (anonymousName (seed + unnamed before + [e.name].count none))
      label := target.label }

/-- The calls begin with a node, as far as they make elements, and no later one is a node. -/
def Opens (calls : List DraftCall) (n : NodeDraft) : Prop :=
  ∃ later, calls.filter isElement = .node n :: later ∧ ∀ k ∈ later, k.isNode = false

/-- The calls write the walk. -/
structure Writes (seed : Nat) (calls : List DraftCall) (w : Walk) : Prop where
  start : ∃ n, Opens calls n ∧ w.start = ⟨n.name.getD (anonymousName seed), n.label⟩
  length : w.steps.length = calls.countP isEdge
  step : ∀ before e target after, calls = before ++ .edge e target :: after →
    w.steps[before.countP isEdge]? = some (stepAfter seed before e target)

/-- Every call is in place after those before it. -/
inductive InPlace : List DraftCall → Prop where
  | nil : InPlace []
  | snoc {calls : List DraftCall} {k : DraftCall} (inPlace : InPlace calls)
      (fits : k.misplaced? calls = none) : InPlace (calls ++ [k])

/-- The calls before the first one that is out of place; all calls if none is. -/
structure Heeds (calls heeded : List DraftCall) : Prop where
  inPlace : InPlace heeded
  stops : calls = heeded ∨
    ∃ k after defect, calls = heeded ++ k :: after ∧ k.misplaced? heeded = some defect

/-- The defect that the calls lead to. -/
inductive Fails (calls : List DraftCall) : PathDefect → Prop where
  | misplaced {heeded after : List DraftCall} {k : DraftCall} {defect : PathDefect}
      (inPlace : InPlace heeded) (split : calls = heeded ++ k :: after)
      (fault : k.misplaced? heeded = some defect) : Fails calls defect
  | nothing (bare : calls.any isElement = false) : Fails calls .nothingDrafted

variable {calls : List DraftCall} {k : DraftCall} {seed : Nat} {w : Walk}

/-! ## One more call -/

theorem unnamed_concat (calls : List DraftCall) (k : DraftCall) :
    unnamed (calls ++ [k]) = unnamed calls + k.given.count none := by
  rw [unnamed, List.flatMap_append, List.count_append, List.flatMap_singleton]
  rfl

theorem pending_concat (calls : List DraftCall) (k : DraftCall) :
    pending (calls ++ [k]) = if k.isEdge then [] else k :: pending calls := by
  rw [pending, List.reverse_concat, List.takeWhile_cons]
  cases k.isEdge <;> rfl

theorem pendingDirection_concat (calls : List DraftCall) (k : DraftCall) :
    pendingDirection (calls ++ [k])
      = if k.isEdge then .outgoing else k.direction?.getD (pendingDirection calls) := by
  rw [pendingDirection, pending_concat]
  cases k <;> rfl

theorem pendingRange_concat (calls : List DraftCall) (k : DraftCall) :
    pendingRange (calls ++ [k])
      = if k.isEdge then none else k.range?.or (pendingRange calls) := by
  rw [pendingRange, pending_concat]
  cases k <;> rfl

theorem filter_concat (calls : List DraftCall) (k : DraftCall) :
    (calls ++ [k]).filter isElement
      = calls.filter isElement ++ if k.isElement then [k] else [] := by
  rw [List.filter_append]
  cases h : k.isElement <;> simp [h]

/-- A relationship stands among the calls before the last one, or it is the last one. -/
theorem concat_eq_append_cons {before after : List DraftCall} {j : DraftCall}
    (h : calls ++ [k] = before ++ j :: after) :
    (after = [] ∧ before = calls ∧ j = k) ∨
      ∃ rest, after = rest ++ [k] ∧ calls = before ++ j :: rest := by
  rcases after.eq_nil_or_concat' with rfl | ⟨rest, last, rfl⟩
  · obtain ⟨rfl, hlast⟩ := List.append_inj' h rfl
    exact .inl ⟨rfl, rfl, (List.cons.inj hlast).1.symm⟩
  · rw [← List.cons_append, ← List.append_assoc] at h
    obtain ⟨rfl, hlast⟩ := List.append_inj' h rfl
    obtain rfl := (List.cons.inj hlast).1
    exact .inr ⟨rest, rfl, rfl⟩

theorem any_concat (calls : List DraftCall) (k : DraftCall) :
    (calls ++ [k]).any isElement = (calls.any isElement || k.isElement) := by
  rw [List.any_append, List.any_cons, List.any_nil, Bool.or_false]

/-! ## Calls that write a walk -/

/-- There is an element exactly if the calls that make elements are not nothing. -/
theorem any_eq_not_isEmpty (calls : List DraftCall) :
    calls.any isElement = !(calls.filter isElement).isEmpty := by
  induction calls with
  | nil => rfl
  | cons k rest ih =>
      rw [List.any_cons, List.filter_cons, ih]
      cases k.isElement <;> rfl

theorem filter_eq_nil (bare : calls.any isElement = false) : calls.filter isElement = [] := by
  rw [any_eq_not_isEmpty, Bool.not_eq_false'] at bare
  exact List.isEmpty_iff.mp bare

theorem misplaced_node_eq_none {n : NodeDraft} :
    (node n).misplaced? calls = none ↔ calls.any isElement = false := by
  rw [misplaced?]
  cases calls.any isElement <;> simp

theorem misplaced_edge_eq_none {e : EdgeDraft} {target : NodeDraft} :
    (edge e target).misplaced? calls = none ↔ calls.any isElement = true := by
  rw [misplaced?]
  cases calls.any isElement <;> simp

theorem flatMap_given_eq_nil (bare : calls.any isElement = false) : calls.flatMap given = [] := by
  rw [List.flatMap_eq_nil_iff]
  intro k hk
  have helement : k.isElement = false := by simpa using List.any_eq_false.mp bare k hk
  cases k with
  | node n => cases helement
  | edge e target => cases helement
  | direction way => rfl
  | hops r => rfl

theorem Opens.any {n : NodeDraft} (opens : Opens calls n) : calls.any isElement = true := by
  obtain ⟨later, hfilter, -⟩ := opens
  rw [any_eq_not_isEmpty, hfilter]
  rfl

theorem Writes.any (writes : Writes seed calls w) : calls.any isElement = true := by
  obtain ⟨n, opens, -⟩ := writes.start
  exact opens.any

/-- A call that makes no element writes nothing. -/
theorem Writes.concat_quiet (writes : Writes seed calls w) (hk : k.isElement = false) :
    Writes seed (calls ++ [k]) w := by
  have hedge : k.isEdge = false := (Bool.or_eq_false_iff.mp hk).2
  obtain ⟨n, ⟨later, hfilter, hlater⟩, hstart⟩ := writes.start
  refine ⟨⟨n, ⟨later, ?_, hlater⟩, hstart⟩, ?_, ?_⟩
  · rw [filter_concat, hk, hfilter]
    exact List.append_nil _
  · rw [List.countP_append, List.countP_singleton, hedge, writes.length]
    rfl
  · intro before e target after hsplit
    -- the relationship is not the last call, so it was there before
    rcases concat_eq_append_cons hsplit with ⟨-, -, rfl⟩ | ⟨rest, -, hcalls⟩
    · cases hedge
    · exact writes.step before e target rest hcalls

/-- The first call that makes an element writes the starting node. -/
theorem writes_node (bare : calls.any isElement = false) (seed : Nat) (n : NodeDraft) :
    Writes seed (calls ++ [.node n]) ⟨⟨n.name.getD (anonymousName seed), n.label⟩, []⟩ := by
  have hnone : ∀ k ∈ calls, k.isElement = false := by
    simpa using List.any_eq_false.mp bare
  refine ⟨⟨n, ⟨[], ?_, nofun⟩, rfl⟩, ?_, ?_⟩
  · rw [filter_concat, filter_eq_nil bare]
    rfl
  · symm
    rw [List.length_nil, List.countP_eq_zero]
    intro k hk hedge
    rcases List.mem_append.mp hk with hk | hk
    · rw [(Bool.or_eq_false_iff.mp (hnone k hk)).2] at hedge
      cases hedge
    · rw [List.mem_singleton.mp hk] at hedge
      cases hedge
  · intro before e target after hsplit
    rcases concat_eq_append_cons hsplit with ⟨-, -, heq⟩ | ⟨rest, -, rfl⟩
    · cases heq
    · have hedge := hnone (.edge e target) (by simp)
      cases hedge

/-- A later relationship writes one more step. -/
theorem Writes.concat_edge (writes : Writes seed calls w) (e : EdgeDraft) (target : NodeDraft) :
    Writes seed (calls ++ [.edge e target])
      ⟨w.start, w.steps ++ [stepAfter seed calls e target]⟩ := by
  obtain ⟨n, ⟨later, hfilter, hlater⟩, hstart⟩ := writes.start
  refine ⟨⟨n, ⟨later ++ [.edge e target], ?_, ?_⟩, hstart⟩, ?_, ?_⟩
  · rw [filter_concat, hfilter]
    rfl
  · intro k hk
    rcases List.mem_append.mp hk with hk | hk
    · exact hlater k hk
    · rw [List.mem_singleton.mp hk]
      rfl
  · rw [List.length_append, List.countP_append, writes.length]
    rfl
  · intro before e' target' after hsplit
    -- the new relationship makes the last step, and an old one still makes the step that it made
    rcases concat_eq_append_cons hsplit with ⟨-, rfl, heq⟩ | ⟨rest, -, hcalls⟩
    · cases heq
      rw [← writes.length]
      exact List.getElem?_concat_length
    · have hstep := writes.step before e' target' rest hcalls
      have hlt := (List.getElem?_eq_some_iff.mp hstep).1
      exact (List.getElem?_append_left hlt).trans hstep

/-- Every number of a relationship is that of one among the calls. -/
theorem exists_edge {i : Nat} (hi : i < calls.countP isEdge) :
    ∃ before e target after, calls = before ++ .edge e target :: after ∧
      before.countP isEdge = i := by
  induction calls using List.reverseRecOn with
  | nil => cases hi
  | append_singleton calls k ih =>
      rw [List.countP_append, List.countP_singleton] at hi
      by_cases hlt : i < calls.countP isEdge
      · obtain ⟨before, e, target, after, rfl, hcount⟩ := ih hlt
        exact ⟨before, e, target, after ++ [k], by rw [List.append_assoc, List.cons_append], hcount⟩
      · cases k with
        | edge e target =>
            have hi : i < calls.countP isEdge + 1 := hi
            exact ⟨calls, e, target, [], rfl, by omega⟩
        | node n => exact absurd hi hlt
        | direction way => exact absurd hi hlt
        | hops r => exact absurd hi hlt

/-- Calls write one walk at most. -/
theorem Writes.unique {w' : Walk} (writes : Writes seed calls w) (writes' : Writes seed calls w') :
    w = w' := by
  obtain ⟨n, ⟨later, hfilter, -⟩, hstart⟩ := writes.start
  obtain ⟨n', ⟨later', hfilter', -⟩, hstart'⟩ := writes'.start
  rw [hfilter] at hfilter'
  cases hfilter'
  have hsteps : w.steps = w'.steps := by
    refine List.ext_getElem? fun i => ?_
    -- within the number of relationships both walks have the step that the calls say
    by_cases hi : i < calls.countP isEdge
    · obtain ⟨before, e, target, after, hcalls, rfl⟩ := exists_edge hi
      rw [writes.step _ _ _ _ hcalls, writes'.step _ _ _ _ hcalls]
    · rw [List.getElem?_eq_none (by rw [writes.length]; omega),
        List.getElem?_eq_none (by rw [writes'.length]; omega)]
  obtain ⟨start, steps⟩ := w
  obtain ⟨start', steps'⟩ := w'
  exact congrArg₂ Walk.mk (hstart.trans hstart'.symm) hsteps

/-! ## Calls out of place -/

/-- All calls are in place, or there is a first one that is not. -/
theorem exists_heeds (calls : List DraftCall) : ∃ heeded, Heeds calls heeded := by
  induction calls using List.reverseRecOn with
  | nil => exact ⟨[], .nil, .inl rfl⟩
  | append_singleton calls k ih =>
      obtain ⟨heeded, inPlace, rfl | ⟨j, after, defect, rfl, hdefect⟩⟩ := ih
      · -- all were in place so far, and the new call decides
        cases hk : k.misplaced? calls with
        | none => exact ⟨_, inPlace.snoc hk, .inl rfl⟩
        | some defect => exact ⟨_, inPlace, .inr ⟨k, [], defect, rfl, hk⟩⟩
      · refine ⟨_, inPlace, .inr ⟨j, after ++ [k], defect, ?_, hdefect⟩⟩
        rw [List.append_assoc, List.cons_append]

/-- Calls that open with a node and have no other node are in place. -/
theorem Opens.misplaced_eq_none {n : NodeDraft} {before after : List DraftCall}
    (opens : Opens (before ++ k :: after) n) : k.misplaced? before = none := by
  obtain ⟨later, hfilter, hlater⟩ := opens
  rw [List.filter_append] at hfilter
  cases k with
  | direction way => rfl
  | hops r => rfl
  | node m =>
      rw [misplaced_node_eq_none, any_eq_not_isEmpty]
      cases hbefore : before.filter isElement with
      | nil => rfl
      | cons first rest =>
          -- after a first element the node would be one of the later ones
          rw [hbefore] at hfilter
          obtain ⟨-, rfl⟩ := List.cons.inj hfilter
          have hnode := hlater (.node m) (List.mem_append_right _ List.mem_cons_self)
          cases hnode
  | edge e target =>
      rw [misplaced_edge_eq_none, any_eq_not_isEmpty]
      cases hbefore : before.filter isElement with
      | nil =>
          rw [hbefore] at hfilter
          cases hfilter
      | cons first rest => rfl

theorem isElement_of_misplaced {before : List DraftCall} {defect : PathDefect}
    (h : k.misplaced? before = some defect) : k.isElement = true := by
  cases k <;> first | rfl | cases h

theorem inPlace_of_bare (bare : calls.any isElement = false) : InPlace calls := by
  obtain ⟨heeded, inPlace, rfl | ⟨k, after, defect, rfl, fault⟩⟩ := exists_heeds calls
  · exact inPlace
  · have hk := List.any_eq_false.mp bare k (by simp)
    exact absurd (isElement_of_misplaced fault) hk

theorem Opens.inPlace {n : NodeDraft} (opens : Opens calls n) : InPlace calls := by
  obtain ⟨heeded, inPlace, rfl | ⟨k, after, defect, rfl, fault⟩⟩ := exists_heeds calls
  · exact inPlace
  · rw [opens.misplaced_eq_none] at fault
    cases fault

theorem Writes.inPlace (writes : Writes seed calls w) : InPlace calls := by
  obtain ⟨n, opens, -⟩ := writes.start
  exact opens.inPlace

theorem Opens.not_fails {n : NodeDraft} (opens : Opens calls n) {defect : PathDefect} :
    ¬ Fails calls defect := by
  intro fails
  cases fails with
  | misplaced inPlace split fault =>
      subst split
      rw [opens.misplaced_eq_none] at fault
      cases fault
  | nothing bare =>
      rw [opens.any] at bare
      cases bare

end DraftCall

end PatternGraph
