/-
  PatternGraph.Proofs.Drafting

  Drafts do what their calls say.  As long as every call is in place, the draft
  holds the walk that the calls write, the direction and the range that wait,
  and the next number; one call more keeps that, and so does a whole run.  A
  call out of place is remembered, and nothing that comes after it is heeded.
-/
import PatternGraph.Proofs.Calls
import PatternGraph.Proofs.Seeds

namespace PatternGraph

open DraftCall

/-! ## Anonymous names -/

/-- The names that were chosen for the anonymous elements, in the order of the path. -/
def DraftCall.madeUp (calls : List DraftCall) (p : Path) : List String :=
  ((calls.flatMap given).zip p.names).filterMap fun (given, name) =>
    if given.isNone then some name else none

/-- The names of elements in order, where anonymous ones are counted up. -/
def namesFrom : Nat → List (Option String) → List String
  | _, [] => []
  | next, given :: rest =>
    given.getD (anonymousName next) :: namesFrom (next + [given].count none) rest

theorem namesFrom_append (next : Nat) (l l' : List (Option String)) :
    namesFrom next (l ++ l') = namesFrom next l ++ namesFrom (next + l.count none) l' := by
  induction l generalizing next with
  | nil => rfl
  | cons given rest ih =>
      have hcount : (given :: rest).count none = [given].count none + rest.count none := by
        rw [← List.singleton_append, List.count_append]
      rw [List.cons_append, namesFrom, ih, hcount, Nat.add_assoc]
      rfl

/-- The names that are chosen are numbered without a gap. -/
theorem filterMap_zip_namesFrom (next : Nat) (l : List (Option String)) :
    ((l.zip (namesFrom next l)).filterMap fun (given, name) =>
        if given.isNone then some name else none)
      = (List.range' next (l.count none)).map anonymousName := by
  induction l generalizing next with
  | nil => rfl
  | cons given rest ih =>
      rw [namesFrom, List.zip_cons_cons]
      cases given with
      | none =>
          have hcount : (none :: rest).count none = rest.count none + 1 := List.count_cons_self
          rw [hcount, List.range'_succ, List.map_cons, ← ih]
          rfl
      | some name =>
          have hcount : (some name :: rest).count none = rest.count none :=
            List.count_cons_of_ne (Option.some_ne_none name)
          rw [hcount, ← ih]
          rfl

theorem chooseName_eq (next : Nat) (given : Option String) :
    PathDraft.chooseName next given
      = (given.getD (anonymousName next), next + [given].count none) := by
  cases given <;> rfl

/-! ## The draft -/

namespace PathDraft

variable {calls : List DraftCall} {k : DraftCall} {seed : Nat} {w : Walk} {d : PathDraft}
  {defect : PathDefect}

/-- The draft after calls that were all in place. -/
structure Stands (seed : Nat) (calls : List DraftCall) (d : PathDraft) : Prop where
  fault : d.fault = none
  next : d.nextAnonymous = seed + unnamed calls
  direction : d.direction = pendingDirection calls
  range : d.range = pendingRange calls
  names : d.elements.map PathElement.name = namesFrom seed (calls.flatMap given)
  path : calls.any isElement = false ∧ d.elements = [] ∨
    ∃ w, Writes seed calls w ∧ d.elements = w.path.elements

theorem Stands.seeded (seed : Nat) : Stands seed [] (.seeded seed) :=
  ⟨rfl, rfl, rfl, rfl, rfl, .inl ⟨rfl, rfl⟩⟩

theorem Stands.isEmpty_eq (stands : Stands seed calls d) :
    d.elements.isEmpty = !calls.any isElement := by
  rcases stands.path with ⟨hany, helements⟩ | ⟨w, writes, helements⟩
  · rw [hany, helements]
    rfl
  · rw [writes.any, helements]
    rfl

/-- A call that makes no element sets what waits for the next relationship. -/
theorem Stands.concat_quiet (stands : Stands seed calls d) (hk : k.isElement = false) :
    Stands seed (calls ++ [k]) (d.apply k) := by
  have happly : d.apply k =
      { d with direction := k.direction?.getD d.direction, range := k.range?.or d.range } := by
    cases k <;> first | rfl | cases hk
  have hgiven : k.given = [] := by
    cases k <;> first | rfl | cases hk
  have hedge : k.isEdge = false := (Bool.or_eq_false_iff.mp hk).2
  rw [happly]
  exact {
    fault := stands.fault
    next := by
      rw [unnamed_concat, hgiven]
      exact stands.next
    direction := by
      rw [pendingDirection_concat, hedge, stands.direction]
      rfl
    range := by
      rw [pendingRange_concat, hedge, stands.range]
      rfl
    names := by
      rw [List.flatMap_append, List.flatMap_singleton, hgiven, List.append_nil]
      exact stands.names
    path := by
      rcases stands.path with ⟨hany, helements⟩ | ⟨w, writes, helements⟩
      · refine .inl ⟨?_, helements⟩
        rw [any_concat, hany, hk]
        rfl
      · exact .inr ⟨w, writes.concat_quiet hk, helements⟩ }

/-- The first node is named by its call, or by the seed. -/
theorem Stands.node (stands : Stands seed calls d) {n : NodeDraft}
    (fits : (DraftCall.node n).misplaced? calls = none) :
    Stands seed (calls ++ [.node n]) (d.node n) := by
  have hany : calls.any isElement = false := misplaced_node_eq_none.mp fits
  have hgiven := flatMap_given_eq_nil hany
  have helements : d.elements = [] := by
    rw [← List.isEmpty_iff, stands.isEmpty_eq, hany]
    rfl
  -- no element is there yet, so none was anonymous
  have hnext : d.nextAnonymous = seed := by
    rw [stands.next, unnamed, hgiven]
    rfl
  have hnode : d.node n =
      { d with
        elements := [.node ⟨n.name.getD (anonymousName seed), n.label⟩]
        nextAnonymous := seed + [n.name].count none } := by
    rw [node_eq, stands.fault, helements, chooseName_eq, hnext]
    rfl
  rw [hnode]
  exact {
    fault := stands.fault
    next := by
      rw [unnamed_concat, unnamed, hgiven]
      exact congrArg (seed + ·) (Nat.zero_add _).symm
    direction := stands.direction.trans (pendingDirection_concat calls (.node n)).symm
    range := stands.range.trans (pendingRange_concat calls (.node n)).symm
    names := by
      rw [List.flatMap_append, hgiven]
      rfl
    path := .inr ⟨_, writes_node hany seed n, rfl⟩ }

/-- A relationship takes what waited for it and is named before its target. -/
theorem Stands.edge (stands : Stands seed calls d) {e : EdgeDraft} {target : NodeDraft}
    (fits : (DraftCall.edge e target).misplaced? calls = none) :
    Stands seed (calls ++ [.edge e target]) (d.edge e target) := by
  have hany : calls.any isElement = true := misplaced_edge_eq_none.mp fits
  obtain ⟨hbare, -⟩ | ⟨w, writes, helements⟩ := stands.path
  · rw [hany] at hbare
    cases hbare
  -- what waits for the relationship and the number that is next are what the calls so far say
  have hedge : d.edge e target =
      { d with
        elements := d.elements ++ (stepAfter seed calls e target).elements
        nextAnonymous := seed + unnamed calls + [e.name].count none + [target.name].count none
        direction := .outgoing
        range := none } := by
    rw [edge_eq, stands.fault, stands.isEmpty_eq, hany, chooseName_eq, chooseName_eq, stands.next,
      stands.direction, stands.range]
    rfl
  have hcount : (DraftCall.edge e target).given.count none
      = [e.name].count none + [target.name].count none := by
    rw [given, ← List.singleton_append, List.count_append]
  rw [hedge]
  exact {
    fault := stands.fault
    next := by
      rw [unnamed_concat, hcount]
      simp only [Nat.add_assoc]
    direction := (pendingDirection_concat calls (.edge e target)).symm
    range := (pendingRange_concat calls (.edge e target)).symm
    names := by
      rw [List.map_append, stands.names, List.flatMap_append, namesFrom_append]
      rfl
    path := by
      refine .inr ⟨_, writes.concat_edge e target, ?_⟩
      rw [helements, Walk.path, Walk.path, List.flatMap_append]
      rfl }

/-- One more call that is in place. -/
theorem Stands.concat (stands : Stands seed calls d) (fits : k.misplaced? calls = none) :
    Stands seed (calls ++ [k]) (d.apply k) := by
  cases k with
  | node n => exact stands.node fits
  | edge e target => exact stands.edge fits
  | direction way => exact stands.concat_quiet rfl
  | hops r => exact stands.concat_quiet rfl

/-- Calls in place one after the other. -/
theorem stands_run (inPlace : InPlace calls) (seed : Nat) :
    Stands seed calls ((PathDraft.seeded seed).run calls) := by
  induction inPlace with
  | nil => exact .seeded seed
  | snoc inPlace fits ih =>
      rw [run, List.foldl_concat]
      exact ih.concat fits

/-- A call that is out of place is remembered; nothing is named for it. -/
theorem Stands.fault_apply (stands : Stands seed calls d) (h : k.misplaced? calls = some defect) :
    (d.apply k).fault = some defect ∧ (d.apply k).nextAnonymous = d.nextAnonymous := by
  cases k with
  | node n =>
      rw [apply, node_eq, stands.fault, stands.isEmpty_eq]
      obtain ⟨hany, rfl⟩ : calls.any isElement = true ∧ .secondStart = defect := by
        simpa [misplaced?] using h
      rw [hany]
      exact ⟨rfl, rfl⟩
  | edge e target =>
      rw [apply, edge_eq, stands.fault, stands.isEmpty_eq]
      obtain ⟨hany, rfl⟩ : calls.any isElement = false ∧ .edgeBeforeStart = defect := by
        simpa [misplaced?] using h
      rw [hany]
      exact ⟨rfl, rfl⟩
  | direction way => cases h
  | hops r => cases h

/-- After a fault no call names anything and no other fault is remembered. -/
theorem fault_run (h : d.fault = some defect) (calls : List DraftCall) :
    (d.run calls).fault = some defect ∧ (d.run calls).nextAnonymous = d.nextAnonymous := by
  induction calls generalizing d with
  | nil => exact ⟨h, rfl⟩
  | cons k rest ih =>
      -- direction and range are still set, but no relationship takes them any more
      have hkeep : (d.apply k).fault = some defect ∧
          (d.apply k).nextAnonymous = d.nextAnonymous := by
        cases k with
        | node n => rw [apply, node_eq, h]; exact ⟨h, rfl⟩
        | edge e target => rw [apply, edge_eq, h]; exact ⟨h, rfl⟩
        | direction way => exact ⟨h, rfl⟩
        | hops r => exact ⟨h, rfl⟩
      obtain ⟨hfault, hnext⟩ := ih hkeep.1
      exact ⟨hfault, hnext.trans hkeep.2⟩

theorem run_append (d : PathDraft) (calls more : List DraftCall) :
    d.run (calls ++ more) = (d.run calls).run more :=
  List.foldl_append

/-- The first call that is out of place decides. -/
theorem fault_run_of_misplaced {heeded after : List DraftCall} (inPlace : InPlace heeded)
    (h : k.misplaced? heeded = some defect) (seed : Nat) :
    ((PathDraft.seeded seed).run (heeded ++ k :: after)).fault = some defect ∧
      ((PathDraft.seeded seed).run (heeded ++ k :: after)).nextAnonymous
        = seed + unnamed heeded := by
  have stands := stands_run inPlace seed
  obtain ⟨hfault, hnext⟩ := stands.fault_apply h
  rw [run_append]
  obtain ⟨hfault', hnext'⟩ := fault_run hfault after
  exact ⟨hfault', hnext'.trans (hnext.trans stands.next)⟩

/-! ## Finishing -/

theorem finish_of_fails (fails : Fails calls defect) (seed : Nat) :
    ((PathDraft.seeded seed).run calls).finish = .error defect := by
  cases fails with
  | misplaced inPlace split fault =>
      subst split
      rw [finish, (fault_run_of_misplaced inPlace fault seed).1]
  | nothing bare =>
      have stands := stands_run (inPlace_of_bare bare) seed
      rw [finish, stands.fault, stands.isEmpty_eq, bare]
      rfl

theorem elements_of_writes (writes : Writes seed calls w) :
    ((PathDraft.seeded seed).run calls).elements = w.path.elements := by
  obtain ⟨bare, -⟩ | ⟨w', writes', helements⟩ := (stands_run writes.inPlace seed).path
  · rw [writes.any] at bare
    cases bare
  · rw [writes.unique writes', helements]

theorem finish_of_writes (writes : Writes seed calls w) :
    ((PathDraft.seeded seed).run calls).finish = .ok w.path := by
  rw [finish, (stands_run writes.inPlace seed).fault, elements_of_writes writes]
  rfl

theorem names_of_writes (writes : Writes seed calls w) :
    w.path.names = namesFrom seed (calls.flatMap given) := by
  rw [← (stands_run writes.inPlace seed).names, elements_of_writes writes]
  rfl

/-- Calls fail or they write a walk. -/
theorem fails_or_writes (seed : Nat) (calls : List DraftCall) :
    (∃ defect, Fails calls defect) ∨ ∃ w, Writes seed calls w := by
  obtain ⟨heeded, inPlace, rfl | ⟨k, after, defect, split, fault⟩⟩ := exists_heeds calls
  · rcases (stands_run inPlace seed).path with ⟨bare, -⟩ | ⟨w, writes, -⟩
    · exact .inl ⟨_, .nothing bare⟩
    · exact .inr ⟨w, writes⟩
  · exact .inl ⟨defect, .misplaced inPlace split fault⟩

/-- A path that is drafted means what the calls say.  It is finished exactly if the calls open with
    a node and have no other, and is then the walk that the calls write; else the first call out of
    place says why, or the lack of any element.  Anonymous elements are numbered from the seed on
    without a gap, and the next number is that after the calls that were heeded. -/
theorem run_exact (seed : Nat) (calls : List DraftCall) :
    ((∃ p, ((PathDraft.seeded seed).run calls).finish = .ok p) ↔ ∃ n, Opens calls n) ∧
      (∀ p, ((PathDraft.seeded seed).run calls).finish = .ok p ↔
        ∃ w, Writes seed calls w ∧ p = w.path) ∧
      (∀ defect, ((PathDraft.seeded seed).run calls).finish = .error defect ↔
        Fails calls defect) ∧
      (∀ p, ((PathDraft.seeded seed).run calls).finish = .ok p →
        madeUp calls p = (List.range' seed (unnamed calls)).map anonymousName ∧
          (madeUp calls p).Nodup) ∧
      (∃ heeded, Heeds calls heeded) ∧
      ∀ heeded, Heeds calls heeded →
        ((PathDraft.seeded seed).run calls).nextAnonymous = seed + unnamed heeded := by
  have hpath (p : Path) : ((PathDraft.seeded seed).run calls).finish = .ok p ↔
      ∃ w, Writes seed calls w ∧ p = w.path := by
    constructor
    · intro hp
      rcases fails_or_writes seed calls with ⟨defect, fails⟩ | ⟨w, writes⟩
      · rw [finish_of_fails fails] at hp
        cases hp
      · rw [finish_of_writes writes] at hp
        cases hp
        exact ⟨w, writes, rfl⟩
    · rintro ⟨w, writes, rfl⟩
      exact finish_of_writes writes
  refine ⟨?opens, hpath, ?fails, ?names, exists_heeds calls, ?next⟩
  case opens =>
    constructor
    · rintro ⟨p, hp⟩
      obtain ⟨w, writes, -⟩ := (hpath p).mp hp
      obtain ⟨n, opens, -⟩ := writes.start
      exact ⟨n, opens⟩
    · rintro ⟨n, opens⟩
      rcases fails_or_writes seed calls with ⟨defect, fails⟩ | ⟨w, writes⟩
      · exact absurd fails opens.not_fails
      · exact ⟨w.path, finish_of_writes writes⟩
  case fails =>
    intro defect
    refine ⟨fun h => ?_, fun fails => finish_of_fails fails seed⟩
    rcases fails_or_writes seed calls with ⟨defect', fails⟩ | ⟨w, writes⟩
    · rw [finish_of_fails fails] at h
      cases h
      exact fails
    · rw [finish_of_writes writes] at h
      cases h
  case names =>
    intro p hp
    obtain ⟨w, writes, rfl⟩ := (hpath p).mp hp
    have hnames := names_of_writes writes
    have hmade : madeUp calls w.path = (List.range' seed (unnamed calls)).map anonymousName := by
      rw [madeUp, hnames]
      exact filterMap_zip_namesFrom seed _
    refine ⟨hmade, ?_⟩
    rw [hmade]
    exact List.Nodup.map (fun i j hij => anonymousName_inj hij) List.nodup_range'
  case next =>
    rintro heeded ⟨inPlace, rfl | ⟨k, after, defect, rfl, fault⟩⟩
    · exact (stands_run inPlace seed).next
    · exact (fault_run_of_misplaced inPlace fault seed).2

/-- A direction that is set before the start waits for the first relationship, and a range is used
    up by it; a second start stops the path and the count. -/
theorem run_exact_of_calls :
    let calls : List DraftCall :=
      [.direction .incoming, .node {}, .hops ⟨some 1, some 3⟩,
        .edge { types := ["KNOWS"] } { name := some "b" }, .undirected,
        .edge { name := some "r" } { label := some "City" }]
    let p : Path := ⟨[.node ⟨"_anon_7", none⟩,
      .edge ⟨"_anon_8", .incoming, ["KNOWS"], some ⟨some 1, some 3⟩⟩, .node ⟨"b", none⟩,
      .edge ⟨"r", .both, [], none⟩, .node ⟨"_anon_9", some "City"⟩]⟩
    let more := calls ++ [.node {}, .edge {} {}]
    ((PathDraft.seeded 7).run calls).finish = .ok p ∧
      madeUp calls p = (List.range' 7 (unnamed calls)).map anonymousName ∧ (madeUp calls p).Nodup ∧
      Fails more .secondStart ∧ ((PathDraft.seeded 7).run more).nextAnonymous = 10 := by
  intro calls p more
  have hfinish : ((PathDraft.seeded 7).run calls).finish = .ok p := by decide +kernel
  have hmore : ((PathDraft.seeded 7).run more).finish = .error .secondStart := by decide +kernel
  obtain ⟨-, -, -, hnames, -⟩ := run_exact 7 calls
  obtain ⟨-, -, hfails, -⟩ := run_exact 7 more
  exact ⟨hfinish, (hnames p hfinish).1, (hnames p hfinish).2, (hfails _).mp hmore,
    by decide +kernel⟩

end PathDraft

end PatternGraph
