/-
  PatternGraph.Proofs.Handles

  Handles are given out once.  A handle is the number of a slot, so this is
  about the slots that a history fills: none of them was given out before, none
  is filled twice, and a slot that is vacated is never filled again, whichever
  commands follow and whether they succeed or fail, also where they run out of
  slots half done.  All of these numbers are below the limit, so the words that
  stand for them are as different as they are.
-/
import PatternGraph.Proofs.Continuation
import PatternGraph.Proofs.Reachability

namespace PatternGraph

/-! ## Slots that are filled -/

namespace Slots

variable {α : Type} {R : Nat → α → α → Prop} {s t : Slots α} {i : Nat}

/-- The slots that hold a value in the second table and none in the first. -/
def filled (s t : Slots α) : List Nat :=
  (t.entries.map Prod.fst).filter fun i => (s.get? i).isNone

theorem mem_filled : i ∈ s.filled t ↔ (∃ b, t.get? i = some b) ∧ s.get? i = none := by
  rw [filled, List.mem_filter, List.mem_map, Option.isNone_iff_eq_none]
  refine and_congr_left fun _ => ⟨?_, ?_⟩
  · rintro ⟨⟨_, b⟩, hmem, rfl⟩
    exact ⟨b, mem_entries.mp hmem⟩
  · rintro ⟨b, hb⟩
    exact ⟨(i, b), mem_entries.mpr hb, rfl⟩

theorem nodup_filled (s t : Slots α) : (s.filled t).Nodup :=
  (nodup_map_entries (f := id) (fun _ _ h => h) t).filter _

theorem entries_push (s : Slots α) (a : α) : (s.push a).entries = s.entries ++ [(s.size, a)] := by
  simp [entries, push, size, List.zipIdx_append]

/-- A new value fills the next slot. -/
theorem filled_push (s : Slots α) (a : α) : s.filled (s.push a) = [s.size] := by
  have hnew : s.get? s.size = none := by simp [get?, size]
  have hold : (s.entries.map Prod.fst).filter (fun i => (s.get? i).isNone) = [] := by
    refine List.filter_eq_nil_iff.mpr fun i hi => ?_
    obtain ⟨⟨_, b⟩, hmem, rfl⟩ := List.mem_map.mp hi
    simp [mem_entries.mp hmem]
  rw [filled, entries_push, List.map_append, List.filter_append, hold]
  simp [hnew]

/-- What is filled while a table goes on was not given out before. -/
theorem Continues.of_mem_filled (h : s.Continues R t) (hi : i ∈ s.filled t) :
    s.size ≤ i ∧ i < t.size := by
  obtain ⟨⟨b, hb⟩, hnone⟩ := mem_filled.mp hi
  refine ⟨Nat.le_of_not_lt fun hlt => ?_, lt_size_of_get? hb⟩
  rw [h.get?_eq_none hlt hnone] at hb
  cases hb

end Slots

/-- The handle that is given for a new node is that of the one slot that is filled. -/
theorem Edit.filled_addNode {name : String} {id : NodeId} {g g' : Graph}
    (h : addNode name g = .ok id g') : g.nodes.filled g'.nodes = [id.index] := by
  obtain ⟨_, -, h⟩ := check_bind_eq_ok h
  obtain ⟨_, -, h⟩ := check_bind_eq_ok h
  obtain ⟨-, rfl, rfl⟩ := newNode_eq_ok.mp h
  exact Slots.filled_push _ _

theorem Edit.filled_addEdge {e : Edge} {id : EdgeId} {g g' : Graph}
    (h : addEdge e g = .ok id g') : g.edges.filled g'.edges = [id.index] := by
  obtain ⟨_, -, h⟩ := check_bind_eq_ok h
  obtain ⟨_, -, h⟩ := discard_check_bind_eq_ok h
  obtain ⟨_, -, h⟩ := discard_check_bind_eq_ok h
  obtain ⟨_, -, h⟩ := check_bind_eq_ok h
  obtain ⟨_, -, h⟩ := check_bind_eq_ok h
  obtain ⟨-, rfl, rfl⟩ := newEdge_eq_ok.mp h
  exact Slots.filled_push _ _

namespace Command

variable {α : Type} {kind : Graph → Slots α} {R : Nat → α → α → Prop} {g : Graph}
  {history later : List Command}

/-- The slots of one kind that the commands of a history fill, in this order. -/
def slotsFilled (kind : Graph → Slots α) : List Command → Graph → List Nat
  | [], _ => []
  | k :: rest, g => (kind g).filled (kind (k.run g)) ++ slotsFilled kind rest (k.run g)

/-- What is behind the handles of one kind along a history and in what follows it. -/
structure Lasting (kind : Graph → Slots α) (R : Nat → α → α → Prop) (history later : List Command)
    (g : Graph) : Prop where
  /-- What was there and is left is related to what it was. -/
  kept : ∀ i a b, (kind g).get? i = some a → (kind (runAll history g)).get? i = some b → R i a b
  /-- What is gone stays gone. -/
  gone : ∀ i < (kind g).size, (kind (runAll history g)).get? i = none →
    (kind (runAll (history ++ later) g)).get? i = none
  /-- What is there was there before or was given a slot on the way. -/
  accounted : ∀ i b, (kind (runAll history g)).get? i = some b →
    ((kind g).get? i).isSome ∨ i ∈ slotsFilled kind history g
  /-- Slots are filled that were not given out before. -/
  fresh : ∀ i ∈ slotsFilled kind history g, (kind g).size ≤ i
  /-- No slot is filled twice. -/
  once : (slotsFilled kind history g).Nodup
  /-- The words for the slots that were given out before and for those that are filled now are all
  different. -/
  words : ((List.range (kind g).size ++ slotsFilled kind history g).map UInt32.ofNat).Nodup

/-- No command gives back slots of this kind or fills one again. -/
def Preserves (kind : Graph → Slots α) : Prop :=
  ∀ {k : Command} {g : Graph}, g.WellFormed → k.OperandWellFormed →
    (kind g).Continues (fun _ _ _ => True) (kind (k.run g))

theorem preserves_nodes : Preserves Graph.nodes := fun wf hother =>
  (run_continues wf hother).nodes.imp fun _ _ _ _ => trivial

theorem preserves_edges : Preserves Graph.edges := fun wf hother =>
  (run_continues wf hother).edges.imp fun _ _ _ _ => trivial

/-- What is there was there before or was given a slot on the way. -/
theorem mem_slotsFilled {i : Nat} {b : α} (hb : (kind (runAll history g)).get? i = some b) :
    ((kind g).get? i).isSome ∨ i ∈ slotsFilled kind history g := by
  induction history generalizing g with
  | nil => exact .inl (Option.isSome_of_eq_some hb)
  | cons k rest ih =>
      rcases ih hb with hlive | hlater
      · -- the command found the slot full or filled it
        obtain ⟨c, hc⟩ := Option.isSome_iff_exists.mp hlive
        cases ha : (kind g).get? i with
        | some a => exact .inl rfl
        | none => exact .inr (List.mem_append_left _ (Slots.mem_filled.mpr ⟨⟨c, hc⟩, ha⟩))
      · exact .inr (List.mem_append_right _ hlater)

section Histories

variable (preserves : Preserves kind) (wf : g.WellFormed)
  (hother : ∀ k ∈ history, k.OperandWellFormed)
include preserves wf hother

theorem le_of_mem_slotsFilled : ∀ i ∈ slotsFilled kind history g, (kind g).size ≤ i := by
  induction history generalizing g with
  | nil => nofun
  | cons k rest ih =>
      obtain ⟨hk, hrest⟩ := List.forall_mem_cons.mp hother
      have hstep := preserves wf hk
      intro i hi
      rcases List.mem_append.mp hi with hnow | hlater
      · exact (hstep.of_mem_filled hnow).1
      -- the slots that were given out when the rest begins are no fewer
      · exact Nat.le_trans hstep.size_le (ih (run_wellFormed wf hk) hrest i hlater)

theorem nodup_slotsFilled : (slotsFilled kind history g).Nodup := by
  induction history generalizing g with
  | nil => exact List.nodup_nil
  | cons k rest ih =>
      obtain ⟨hk, hrest⟩ := List.forall_mem_cons.mp hother
      have wf' := run_wellFormed wf hk
      refine List.nodup_append'.mpr ⟨Slots.nodup_filled _ _, ih wf' hrest, ?_⟩
      -- a slot that this command fills is given out when the rest begins
      intro i hnow hlater
      have hlt := ((preserves wf hk).of_mem_filled hnow).2
      have hge := le_of_mem_slotsFilled preserves wf' hrest i hlater
      omega

end Histories

/-- In a graph that has no slots beyond the limit the slots of this kind are below it. -/
def Bounded (kind : Graph → Slots α) : Prop :=
  ∀ {g : Graph}, g.HasSlots 0 0 → (kind g).size ≤ slotLimit

/-- Every slot that is filled is below the limit. -/
theorem lt_of_mem_slotsFilled (preserves : Preserves kind) (bounded : Bounded kind)
    (sound : g.Sound) (hother : ∀ k ∈ history, k.OperandWellFormed) :
    ∀ i ∈ slotsFilled kind history g, i < slotLimit := by
  induction history generalizing g with
  | nil => nofun
  | cons k rest ih =>
      obtain ⟨hk, hrest⟩ := List.forall_mem_cons.mp hother
      have wf := sound.toWellFormed
      have hslots := run_hasSlots wf hk sound.slots
      intro i hi
      rcases List.mem_append.mp hi with hnow | hlater
      · exact Nat.lt_of_lt_of_le ((preserves wf hk).of_mem_filled hnow).2 (bounded hslots)
      · exact ih ⟨run_wellFormed wf hk, hslots⟩ hrest i hlater

/-- Numbers below the limit are told apart by their words. -/
theorem nodup_words {numbers : List Nat} (hlt : ∀ i ∈ numbers, i < slotLimit)
    (hnodup : numbers.Nodup) : (numbers.map UInt32.ofNat).Nodup := by
  refine hnodup.map_on fun i hi j hj hword => ?_
  have hnumber := congrArg UInt32.toNat hword
  rwa [toNat_ofNat_of_lt_slotLimit (hlt i hi), toNat_ofNat_of_lt_slotLimit (hlt j hj)] at hnumber

theorem Lasting.of_continues {R' : Nat → α → α → Prop} (preserves : Preserves kind)
    (bounded : Bounded kind) (sound : g.Sound) (hother : ∀ k ∈ history, k.OperandWellFormed)
    (first : (kind g).Continues R (kind (runAll history g)))
    (second : (kind (runAll history g)).Continues R' (kind (runAll later (runAll history g)))) :
    Lasting kind R history later g where
  kept _ _ _ ha hb := first.of_get? ha hb
  gone i hi hnone := by
    rw [runAll, List.foldl_append]
    exact second.get?_eq_none (Nat.lt_of_lt_of_le hi first.size_le) hnone
  accounted _ _ hb := mem_slotsFilled hb
  fresh := le_of_mem_slotsFilled preserves sound.toWellFormed hother
  once := nodup_slotsFilled preserves sound.toWellFormed hother
  words := by
    refine nodup_words (List.forall_mem_append.mpr ⟨?_, ?_⟩) (List.nodup_append'.mpr ⟨?_, ?_, ?_⟩)
    · exact fun i hi => Nat.lt_of_lt_of_le (List.mem_range.mp hi) (bounded sound.slots)
    · exact lt_of_mem_slotsFilled preserves bounded sound hother
    · exact List.nodup_range
    · exact nodup_slotsFilled preserves sound.toWellFormed hother
    · intro i hold hnew
      have hlt := List.mem_range.mp hold
      have hge := le_of_mem_slotsFilled preserves sound.toWellFormed hother i hnew
      omega

end Command

namespace Reachable

open Command

/-- Along every history of a graph that can come up a handle means what it meant or nothing, and
    nothing for good once it means nothing; no handle is given out twice, and no two of them are the
    same word.  What is left of an edge has the ends that it had, exchanged as often as it was
    turned round, and only its unknown types were found. -/
theorem handles_last {g : Graph} (reach : Reachable g) (history later : List Command)
    (operands : ∀ k ∈ history ++ later, ∀ other, k.operand? = some other → Reachable other) :
    Lasting Graph.nodes (fun _ => Node.Becomes) history later g ∧
      Lasting Graph.edges (fun i => Edge.Becomes (turnsIn history ⟨i⟩)) history later g ∧
      (∀ name id g', Edit.addNode name g = .ok id g' → g.nodes.filled g'.nodes = [id.index]) ∧
      ∀ e id g', Edit.addEdge e g = .ok id g' → g.edges.filled g'.edges = [id.index] := by
  have hother : ∀ k ∈ history ++ later, k.OperandWellFormed :=
    fun k hk other ho => (operands k hk other ho).wellFormed
  obtain ⟨hfirst, hsecond⟩ := List.forall_mem_append.mp hother
  have wf := reach.wellFormed
  have first := runAll_continues wf hfirst
  have second := runAll_continues (runAll_wellFormed wf hfirst) hsecond
  exact ⟨.of_continues preserves_nodes (·.nodes) reach.sound hfirst first.nodes second.nodes,
    .of_continues preserves_edges (·.edges) reach.sound hfirst first.edges second.edges,
    fun _ _ _ => Edit.filled_addNode, fun _ _ _ => Edit.filled_addEdge⟩

/-- An edge outlives the removal of a node and is turned round while its type is found; the node
    that comes under the old name has a handle of its own, and the old handle stays stale. -/
theorem handles_last_of_removal :
    let g := Command.runAll [.addNode "a", .addNode "b", .addNode "c",
      .addEdge ⟨"r", ⟨0⟩, ⟨1⟩, [], [], false, .single⟩,
      .addEdge ⟨"s", ⟨0⟩, ⟨2⟩, ["T"], [.unresolved "T"], false, .single⟩] (.empty .standard)
    let history : List Command := [.removeNode ⟨1⟩, .addNode "b", .addNode "a",
      .addEdge ⟨"r", ⟨0⟩, ⟨3⟩, [], [], false, .single⟩, .reverseEdge ⟨1⟩, .reverseEdge ⟨0⟩,
      .resolve (SchemaTable.addType {} "T" ⟨5⟩).catalog]
    let later : List Command := [.merge g, .addNode "d"]
    let mid := Command.runAll history g
    slotsFilled Graph.nodes history g = [3] ∧ slotsFilled Graph.edges history g = [2] ∧
      mid.edge? ⟨1⟩ = some ⟨"s", ⟨2⟩, ⟨0⟩, ["T"], [.resolved ⟨5⟩], false, .single⟩ ∧
      mid.node? ⟨1⟩ = none ∧ (Command.runAll (history ++ later) g).node? ⟨1⟩ = none ∧
      Lasting Graph.nodes (fun _ => Node.Becomes) history later g ∧
      Lasting Graph.edges (fun i => Edge.Becomes (turnsIn history ⟨i⟩)) history later g := by
  intro g history later mid
  have reach : Reachable g := (Reachable.empty .standard).runAll (by simp [Command.operand?])
    (by simp [Command.edge?, Edge.made_iff])
  have hlast := reach.handles_last history later
    (by simp [history, later, Command.operand?, reach])
  have hgone : mid.node? ⟨1⟩ = none := by decide +kernel
  exact ⟨by decide +kernel, by decide +kernel, by decide +kernel, hgone,
    hlast.1.gone 1 (by decide +kernel) hgone, hlast.1, hlast.2.1⟩

end Reachable

end PatternGraph
