/-
  PatternGraph.Proofs.Seeds

  The seeds of drafts do not matter.  From whichever numbers the anonymous names
  of its paths are counted, a statement comes equally far, fails for the same
  cause, and makes a graph that looks the same.

  Drafts of the same calls look the same after every call.  Their anonymous
  names are counted up, so each is written once, and by that the paths are
  added alike.
-/
import PatternGraph.Edit.Statement
import PatternGraph.Proofs.Veil

namespace PatternGraph

/-! ## Paths under a veil -/

/-- The name of an element. -/
def PathElement.name : PathElement → String
  | .node n => n.name
  | .edge e => e.name

/-- The element with its name replaced. -/
def PathElement.rename (f : String → String) : PathElement → PathElement
  | .node n => .node (n.rename f)
  | .edge e => .edge (e.rename f)

namespace Path

variable {p : Path} {w : Walk}

/-- The path with every name replaced. -/
def rename (f : String → String) (p : Path) : Path := ⟨p.elements.map (.rename f)⟩

/-- The names of the elements in order. -/
def names (p : Path) : List String := p.elements.map PathElement.name

theorem steps?_rename (f : String → String) : (els : List PathElement) →
    steps? (els.map (.rename f)) = (steps? els).map (List.map (Step.rename f))
  | [] => rfl
  | .node _ :: _ => rfl
  | [.edge _] => rfl
  | .edge _ :: .edge _ :: _ => rfl
  | .edge e :: .node n :: rest => by
      show (steps? (rest.map (.rename f))).map (Step.rename f ⟨e, n⟩ :: ·)
        = ((steps? rest).map (⟨e, n⟩ :: ·)).map (List.map (Step.rename f))
      rw [steps?_rename f rest]
      cases steps? rest <;> rfl

/-- A renamed path is read as the renamed walk, and it has the same defect if it is none. -/
theorem walk?_rename (f : String → String) (p : Path) :
    (p.rename f).walk? = p.walk?.map (Walk.rename f) := by
  obtain ⟨els⟩ := p
  match els with
  | [] => rfl
  | .edge _ :: _ => rfl
  | .node n :: rest =>
    show (if (rest.map (PathElement.rename f)).length % 2 = 1 then _
      else (steps? (rest.map (.rename f))).map _) = _
    rw [List.length_map, steps?_rename]
    simp only [walk?]
    split
    · rfl
    · cases steps? rest <;> rfl

/-- A walk has the names of the path, those of its nodes first. -/
theorem names_perm (h : p.walk? = .ok w) : p.names.Perm w.names := by
  have hsteps : ∀ l : List Step, ((l.flatMap Step.elements).map PathElement.name).Perm
      ((l.map Step.target).map PathNode.name ++ (l.map Step.edge).map PathEdge.name) := by
    intro l
    induction l with
    | nil => exact .nil
    | cons s rest ih =>
        -- the relationship is written before its target, and listed after all nodes
        have hmiddle : ((s.target.name :: (rest.map Step.target).map PathNode.name)
            ++ s.edge.name :: (rest.map Step.edge).map PathEdge.name).Perm _ := List.perm_middle
        exact ((ih.cons s.target.name).cons s.edge.name).trans hmiddle.symm
  rw [eq_path_of_walk? h]
  exact (hsteps w.steps).cons _

end Path

/-! ## Drafts under a veil -/

/-- The names that a call gives. -/
def DraftCall.names : DraftCall → List String
  | .node n => n.name.toList
  | .edge e target => e.name.toList ++ target.name.toList
  | .direction _ | .hops _ => []

/-- Anonymous names are counted up and each is listed once. -/
structure Numbered (next : Nat) (names : List String) : Prop where
  below : ∀ a ∈ names, isAnonymous a = true → ∃ k < next, a = anonymousName k
  once : (names.filter isAnonymous).Nodup

namespace PathDraft

variable {d d' : PathDraft}

/-- Which number is next is not seen. -/
theorem veil_chooseName (n : Nat) (given : Option String) :
    veil (chooseName n given).1 = veil (given.getD (anonymousName 0)) := by
  cases given with
  | some name => rfl
  | none => exact (veil_anonymousName n).trans (veil_anonymousName 0).symm

theorem node_eq (d : PathDraft) (n : NodeDraft) :
    d.node n =
      if d.fault.isSome then d
      else if d.elements.isEmpty then
        { d with
          elements := [.node ⟨(chooseName d.nextAnonymous n.name).1, n.label⟩]
          nextAnonymous := (chooseName d.nextAnonymous n.name).2 }
      else { d with fault := some .secondStart } :=
  rfl

theorem edge_eq (d : PathDraft) (e : EdgeDraft) (target : NodeDraft) :
    d.edge e target =
      if d.fault.isSome then d
      else if d.elements.isEmpty then { d with fault := some .edgeBeforeStart }
      else
        { d with
          elements := d.elements ++
            [.edge ⟨(chooseName d.nextAnonymous e.name).1, d.direction, e.types, d.range⟩,
              .node ⟨(chooseName (chooseName d.nextAnonymous e.name).2 target.name).1,
                target.label⟩]
          nextAnonymous := (chooseName (chooseName d.nextAnonymous e.name).2 target.name).2
          direction := .outgoing
          range := none } :=
  rfl

/-- A name that is chosen may be listed after the others, if it is not an anonymous one that was
    given. -/
theorem numbered_chooseName {next : Nat} {names : List String} (numbered : Numbered next names)
    {given : Option String} (plain : ∀ a ∈ given.toList, isAnonymous a = false) :
    Numbered (chooseName next given).2 (names ++ [(chooseName next given).1]) := by
  cases given with
  | some a =>
      have ha : isAnonymous a = false := plain a (by simp)
      show Numbered next (names ++ [a])
      refine ⟨?_, ?_⟩
      · intro b hb hanon
        rcases List.mem_append.mp hb with hold | hnew
        · exact numbered.below b hold hanon
        · rw [List.mem_singleton.mp hnew, ha] at hanon
          cases hanon
      · rw [List.filter_append, List.filter_cons_of_neg (by simp [ha]), List.filter_nil,
          List.append_nil]
        exact numbered.once
  | none =>
      show Numbered (next + 1) (names ++ [anonymousName next])
      have hanon := isAnonymous_anonymousName next
      refine ⟨?_, ?_⟩
      · intro b hb hbanon
        rcases List.mem_append.mp hb with hold | hnew
        · obtain ⟨k, hk, rfl⟩ := numbered.below b hold hbanon
          exact ⟨k, by omega, rfl⟩
        · exact ⟨next, by omega, List.mem_singleton.mp hnew⟩
      · rw [List.filter_append, List.filter_cons_of_pos hanon, List.filter_nil]
        refine List.nodup_append'.mpr ⟨numbered.once, List.nodup_singleton _, ?_⟩
        -- the numbers that were chosen before are smaller
        rw [List.disjoint_singleton]
        intro hmem
        obtain ⟨hold, -⟩ := List.mem_filter.mp hmem
        obtain ⟨k, hk, hname⟩ := numbered.below _ hold hanon
        have hsame := anonymousName_inj hname
        omega

/-- The drafts look the same. -/
structure Alike (d d' : PathDraft) : Prop where
  elements : d.elements.map (PathElement.rename veil) = d'.elements.map (PathElement.rename veil)
  direction : d.direction = d'.direction
  range : d.range = d'.range
  fault : d.fault = d'.fault

/-- The anonymous names of the draft are counted up. -/
def IsNumbered (d : PathDraft) : Prop := Numbered d.nextAnonymous (d.elements.map PathElement.name)

theorem Alike.isEmpty_eq (alike : d.Alike d') : d.elements.isEmpty = d'.elements.isEmpty := by
  rw [← List.isEmpty_map (f := PathElement.rename veil), alike.elements, List.isEmpty_map]

theorem Alike.isFaulty_eq (alike : d.Alike d') : d.fault.isSome = d'.fault.isSome := by
  rw [alike.fault]

theorem Alike.node (alike : d.Alike d') (n : NodeDraft) : (d.node n).Alike (d'.node n) := by
  rw [node_eq, node_eq, alike.isFaulty_eq, alike.isEmpty_eq]
  split
  · exact alike
  · split
    · refine ⟨?_, alike.direction, alike.range, alike.fault⟩
      simp only [List.map_cons, List.map_nil, PathElement.rename, PathNode.rename, veil_chooseName]
    · exact ⟨alike.elements, alike.direction, alike.range, rfl⟩

theorem Alike.edge (alike : d.Alike d') (e : EdgeDraft) (target : NodeDraft) :
    (d.edge e target).Alike (d'.edge e target) := by
  rw [edge_eq, edge_eq, alike.isFaulty_eq, alike.isEmpty_eq]
  split
  · exact alike
  · split
    · exact ⟨alike.elements, alike.direction, alike.range, rfl⟩
    · refine ⟨?_, rfl, rfl, alike.fault⟩
      rw [List.map_append, List.map_append, alike.elements, alike.direction, alike.range]
      simp only [List.map_cons, List.map_nil, PathElement.rename, PathEdge.rename,
        PathNode.rename, veil_chooseName]

theorem Alike.run (alike : d.Alike d') (calls : List DraftCall) :
    (d.run calls).Alike (d'.run calls) := by
  induction calls generalizing d d' with
  | nil => exact alike
  | cons k rest ih =>
      refine ih ?_
      cases k with
      | node n => exact alike.node n
      | edge e target => exact alike.edge e target
      | direction way => exact ⟨alike.elements, rfl, alike.range, alike.fault⟩
      | hops r => exact ⟨alike.elements, alike.direction, rfl, alike.fault⟩

theorem IsNumbered.node (numbered : d.IsNumbered) {n : NodeDraft}
    (plain : ∀ a ∈ n.name.toList, isAnonymous a = false) : (d.node n).IsNumbered := by
  rw [node_eq]
  split
  · exact numbered
  · split
    next hempty =>
      -- there is no name before the first
      have hnone : Numbered d.nextAnonymous [] := ⟨nofun, List.nodup_nil⟩
      exact numbered_chooseName hnone plain
    next => exact numbered

theorem IsNumbered.edge (numbered : d.IsNumbered) {e : EdgeDraft} {target : NodeDraft}
    (plain : ∀ a ∈ e.name.toList ++ target.name.toList, isAnonymous a = false) :
    (d.edge e target).IsNumbered := by
  rw [edge_eq]
  split
  · exact numbered
  · split
    · exact numbered
    · -- the relationship chooses its name first, and its target counts on from there
      obtain ⟨hedge, htarget⟩ := List.forall_mem_append.mp plain
      have hboth := numbered_chooseName (numbered_chooseName numbered hedge) htarget
      rw [List.append_assoc] at hboth
      unfold IsNumbered
      rw [List.map_append]
      exact hboth

theorem IsNumbered.run (numbered : d.IsNumbered) {calls : List DraftCall}
    (plain : ∀ k ∈ calls, ∀ a ∈ k.names, isAnonymous a = false) : (d.run calls).IsNumbered := by
  induction calls generalizing d with
  | nil => exact numbered
  | cons k rest ih =>
      obtain ⟨hk, hrest⟩ := List.forall_mem_cons.mp plain
      refine ih ?_ hrest
      cases k with
      | node n => exact numbered.node hk
      | edge e target => exact numbered.edge hk
      | direction way => exact numbered
      | hops r => exact numbered

/-- Drafts that look the same finish as paths that look the same, or with the same defect. -/
theorem Alike.finish (alike : d.Alike d') :
    d.finish.map (Path.rename veil) = d'.finish.map (Path.rename veil) := by
  rw [PathDraft.finish, PathDraft.finish, alike.fault, alike.isEmpty_eq]
  cases d'.fault with
  | some defect => rfl
  | none =>
      cases d'.elements.isEmpty with
      | true => rfl
      | false => exact congrArg (fun els => Except.ok (Path.mk els)) alike.elements

theorem IsNumbered.finish (numbered : d.IsNumbered) {p : Path} (h : d.finish = .ok p) :
    (p.names.filter isAnonymous).Nodup := by
  unfold PathDraft.finish at h
  split at h
  · cases h
  · split at h
    · cases h
    · cases h
      exact numbered.once

end PathDraft

/-! ## Statements under a veil -/

namespace SeededDraft

variable {d d' : SeededDraft}

/-- No call gives a name that is anonymous. -/
def Plain (d : SeededDraft) : Prop := ∀ k ∈ d.calls, ∀ a ∈ k.names, isAnonymous a = false

/-- The same calls write paths that look the same, or have the same defect. -/
theorem path_alike (hcalls : d.calls = d'.calls) :
    d.path.map (Path.rename veil) = d'.path.map (Path.rename veil) := by
  have hstart : (PathDraft.seeded d.seed).Alike (PathDraft.seeded d'.seed) := ⟨rfl, rfl, rfl, rfl⟩
  rw [SeededDraft.path, SeededDraft.path, hcalls]
  exact (hstart.run _).finish

/-- Each anonymous name of a drafted path is written once. -/
theorem Plain.once (plain : d.Plain) {p : Path} (hp : d.path = .ok p) {w : Walk}
    (hw : p.walk? = .ok w) : (w.names.filter isAnonymous).Nodup := by
  have hstart : (PathDraft.seeded d.seed).IsNumbered := ⟨nofun, List.nodup_nil⟩
  have honce := (hstart.run plain).finish hp
  exact ((Path.names_perm hw).filter _).nodup_iff.mp honce

end SeededDraft

namespace Edit

variable {c : Catalog} {g h : Graph}

/-- Adding a draft fails with the defect of its path or adds the path. -/
theorem addDraft_eq (c : Catalog) (d : SeededDraft) (g : Graph) :
    addDraft c d g =
      match d.path with
      | .error defect => .error (.malformedPath defect) g
      | .ok p => addPath c p g := by
  unfold addDraft
  cases hp : d.path with
  | error defect => exact check_bind_error (by simp only)
  | ok p => exact check_bind_ok (by simp only)

theorem veiled_addDraft (alike : g.Alike h) {d d' : SeededDraft} (hcalls : d.calls = d'.calls)
    (plain : d.Plain) : veiled (addDraft c d g) = veiled (addDraft c d' h) := by
  have plain' : d'.Plain := fun k hk => plain k (hcalls ▸ hk)
  have hpath := SeededDraft.path_alike hcalls
  rw [addDraft_eq, addDraft_eq]
  cases hp : d.path <;> cases hq : d'.path <;> rw [hp, hq] at hpath
  case error.ok => cases hpath
  case ok.error => cases hpath
  case error.error =>
    cases hpath
    exact veiled_error rfl alike
  case ok.ok p q =>
    -- paths that look the same are read as walks that look the same
    refine veiled_addPath alike ?_ (fun w => plain.once hp) (fun w => plain'.once hq)
    rw [← Path.walk?_rename, ← Path.walk?_rename]
    exact congrArg Path.walk? (Except.ok.inj hpath)

/-- Statements of the same calls come equally far in alike graphs. -/
theorem progress_alike (alike : g.Alike h) {drafts drafts' : List SeededDraft}
    (hcalls : List.Forall₂ (fun d d' => d.calls = d'.calls) drafts drafts')
    (plain : ∀ d ∈ drafts, d.Plain) :
    let left := progress (drafts.map (addDraft c)) g
    let right := progress (drafts'.map (addDraft c)) h
    left.done = right.done ∧
      left.failure.map (GraphError.rename veil) = right.failure.map (GraphError.rename veil) ∧
      left.graph.Alike right.graph := by
  induction hcalls generalizing g h with
  | nil => exact ⟨rfl, rfl, alike⟩
  | @cons d d' rest rest' hfirst _ ih =>
      obtain ⟨hd, hplain⟩ := List.forall_mem_cons.mp plain
      have hstep := veiled_addDraft (c := c) alike hfirst hd
      -- both drafts are added, and the rest is; or both fail, and that is the end
      simp only [List.map_cons, progress]
      cases hg : addDraft c d g <;> cases hh : addDraft c d' h <;> rw [hg, hh] at hstep
      case ok.error => cases hstep
      case error.ok => cases hstep
      case error.error =>
        obtain ⟨hcause, hleft⟩ := EStateM.Result.error.inj hstep
        exact ⟨rfl, congrArg some hcause, hleft⟩
      case ok.ok =>
        obtain ⟨-, hleft⟩ := EStateM.Result.ok.inj hstep
        obtain ⟨hdone, hfailure, hgraph⟩ := ih hleft hplain
        exact ⟨congrArg (· + 1) hdone, hfailure, hgraph⟩

/-- Whichever seeds the drafts of a statement have, they write paths that look the same, and the
    statement comes equally far, fails for the same cause and leaves a graph that is the same slot
    by slot, but where both have an anonymous name it may be another one. -/
theorem seeds_irrelevant {drafts drafts' : List SeededDraft}
    (hcalls : drafts.map SeededDraft.calls = drafts'.map SeededDraft.calls)
    (plain : ∀ d ∈ drafts, d.Plain) (c : Catalog) (g : Graph) :
    drafts.map (fun d => d.path.map (Path.rename veil))
        = drafts'.map (fun d => d.path.map (Path.rename veil)) ∧
      let left := progress (drafts.map (addDraft c)) g
      let right := progress (drafts'.map (addDraft c)) g
      left.done = right.done ∧
        left.failure.map (GraphError.rename veil) = right.failure.map (GraphError.rename veil) ∧
        left.graph.rename veil = right.graph.rename veil := by
  have hdrafts := forall₂_of_map_eq hcalls
  refine ⟨?_, progress_alike (.refl g) hdrafts plain⟩
  rw [← List.forall₂_eq_eq_eq, List.forall₂_map_left_iff, List.forall₂_map_right_iff]
  exact hdrafts.imp fun _ _ => SeededDraft.path_alike

/-- Seeds that clash with the graph and seeds that do not: two paths are added under different
    names, and the third repeats a relationship. -/
theorem seeds_irrelevant_of_clash :
    let g := (Command.addPath .empty ⟨[.node ⟨"_anon_0", none⟩,
      .edge ⟨"_anon_1", .outgoing, [], none⟩, .node ⟨"a", none⟩]⟩).run (.empty .standard)
    let first : List DraftCall := [.node ⟨none, some "P"⟩, .edge ⟨none, ["T"]⟩ ⟨some "a", none⟩]
    let second : List DraftCall := [.node ⟨some "a", none⟩, .direction .incoming,
      .edge ⟨some "r", []⟩ ⟨none, none⟩]
    let third : List DraftCall := [.node ⟨none, none⟩, .edge ⟨some "r", []⟩ ⟨some "b", none⟩]
    let left := progress ([⟨0, first⟩, ⟨0, second⟩, ⟨0, third⟩].map (addDraft .empty)) g
    let right := progress ([⟨7, first⟩, ⟨1, second⟩, ⟨0, third⟩].map (addDraft .empty)) g
    right.done = 2 ∧ right.failure = some (.duplicateEdge "r") ∧ left.graph ≠ right.graph ∧
      left.done = 2 ∧ left.graph.rename veil = right.graph.rename veil := by
  intro g first second third left right
  have hdone : right.done = 2 := by decide +kernel
  have hsame := seeds_irrelevant
    (show [⟨0, first⟩, ⟨0, second⟩, ⟨0, third⟩].map SeededDraft.calls
      = [⟨7, first⟩, ⟨1, second⟩, ⟨0, third⟩].map SeededDraft.calls from rfl)
    (by simp only [SeededDraft.Plain]; decide +kernel) .empty g
  exact ⟨hdone, by decide +kernel, by decide +kernel, hsame.2.1.trans hdone, hsame.2.2.2⟩

end Edit

end PatternGraph
