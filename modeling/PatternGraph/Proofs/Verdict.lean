/-
  PatternGraph.Proofs.Verdict

  What a passed audit says of a graph, whatever its slots, lists and counters.
  Of an adjacency list the audit asks that its entries are edges of the right
  kind and that there are as many entries as such edges.  Such a list is the right
  one if it repeats no edge.  If it repeats one it leaves another out, and the
  audit does not see that.
-/
import PatternGraph.Proofs.Audit

namespace PatternGraph

/-- Values that are listed without repetition are told apart by the slot that they stand in. -/
theorem Slots.eq_of_nodup_map_values {α β : Type} {s : Slots α} {f : α → β} {i j : Nat} {a b : α}
    (hnodup : (s.values.map f).Nodup) (ha : s.get? i = some a) (hb : s.get? j = some b)
    (heq : f a = f b) : i = j := by
  rw [← map_snd_entries, List.map_map] at hnodup
  have hsame := List.inj_on_of_nodup_map hnodup (mem_entries.mpr ha) (mem_entries.mpr hb) heq
  exact congrArg Prod.fst hsame

namespace Graph

variable {g : Graph} {side : Edge → NodeId} {x : NodeId} {n : Node} {l : Array EdgeId}

/-! ## Lists of the right length -/

/-- A list of the right length repeats no edge exactly if it leaves none out. -/
theorem Tallies.nodup_iff (tallies : g.Tallies side x l) :
    l.toList.Nodup ↔ ∀ i, g.HasEnd side x i → i ∈ l := by
  have hlength : l.toList.length = (g.withEnd side x).length := by
    rw [Array.length_toList, tallies.size_eq, length_withEnd]
  constructor
  · intro hnodup i hi
    have hsub : l.toList ⊆ g.withEnd side x := fun i hi =>
      mem_withEnd.mpr (tallies.hasEnd i (Array.mem_toList_iff.mp hi))
    have hperm := (hnodup.subperm hsub).perm_of_length_le (Nat.le_of_eq hlength.symm)
    exact Array.mem_toList_iff.mp (hperm.mem_iff.mpr (mem_withEnd.mpr hi))
  · intro hcovers
    have hsub : g.withEnd side x ⊆ l.toList := fun i hi =>
      Array.mem_toList_iff.mpr (hcovers i (mem_withEnd.mp hi))
    have hperm := ((g.nodup_withEnd side x).subperm hsub).perm_of_length_le (Nat.le_of_eq hlength)
    exact hperm.nodup_iff.mp (g.nodup_withEnd side x)

theorem Tallies.lists (tallies : g.Tallies side x l) (hnodup : l.toList.Nodup) :
    Lists l (g.HasEnd side x) :=
  ⟨hnodup, fun i => ⟨tallies.hasEnd i, tallies.nodup_iff.mp hnodup i⟩⟩

/-! ## Passed audits -/

/-- A graph that passes the audit is well formed if its lists repeat no edge. -/
theorem Audited.wellFormed (audited : g.Audited)
    (hnodup : ∀ x n, g.node? x = some n → n.outgoing.toList.Nodup ∧ n.incoming.toList.Nodup) :
    g.WellFormed := by
  apply WellFormed.of_lists
  case hnode =>
    intro i j m n hm hn hname
    exact NodeId.ext (Slots.eq_of_nodup_map_values audited.nodeNames hm hn hname)
  case hedge =>
    intro i j d e hd he hname
    exact EdgeId.ext (Slots.eq_of_nodup_map_values audited.edgeNames hd he hname)
  case hends => exact audited.ends
  case hlists =>
    intro x n hn
    obtain ⟨hout, hin⟩ := audited.tallies x n hn
    exact ⟨hout.lists (hnodup x n hn).1, hin.lists (hnodup x n hn).2⟩
  case hnodes => exact audited.counted.1
  case hedges => exact audited.counted.2

/-- Whatever a graph is made of, it is well formed exactly if it passes the audit and its lists
    repeat no edge; and a list that passes repeats an edge exactly if it leaves one out. -/
theorem audit_exact (g : Graph) :
    (g.WellFormed ↔ g.audit = .ok () ∧
      ∀ x n, g.node? x = some n → n.outgoing.toList.Nodup ∧ n.incoming.toList.Nodup) ∧
    (g.audit = .ok () → ∀ x n, g.node? x = some n →
      (n.outgoing.toList.Nodup ↔ ∀ i, g.HasEnd Edge.src x i → i ∈ n.outgoing) ∧
      (n.incoming.toList.Nodup ↔ ∀ i, g.HasEnd Edge.dest x i → i ∈ n.incoming)) := by
  refine ⟨⟨fun wf => ?_, ?_⟩, fun hpassed x n hn => ?_⟩
  · exact ⟨wf.audit_eq_ok, fun x n hn => ⟨wf.outgoing_nodup hn, wf.incoming_nodup hn⟩⟩
  · rintro ⟨hpassed, hnodup⟩
    exact (audit_eq_ok_iff.mp hpassed).wellFormed hnodup
  · obtain ⟨hout, hin⟩ := (audit_eq_ok_iff.mp hpassed).tallies x n hn
    exact ⟨hout.nodup_iff, hin.nodup_iff⟩

/-- A node with two loops that lists the first one twice as leaving it, and not the second, passes
    the audit, though it is not well formed. -/
theorem audit_passes_repetition :
    let g : Graph :=
      { nodes := ⟨#[some { name := "a", incoming := #[⟨0⟩, ⟨1⟩], outgoing := #[⟨0⟩, ⟨0⟩] }], 1⟩
        edges := ⟨#[some { name := "r", src := ⟨0⟩, dest := ⟨0⟩ },
          some { name := "s", src := ⟨0⟩, dest := ⟨0⟩ }], 2⟩
        limits := .standard }
    g.audit = .ok () ∧ ¬ g.WellFormed := by
  intro g
  refine ⟨by decide +kernel, fun wf => ?_⟩
  have hnodup := wf.outgoing_nodup (x := ⟨0⟩) rfl
  exact absurd hnodup (by decide)

end Graph

end PatternGraph
