/-
  PatternGraph.Proofs.Lists

  Lists without repetitions.  Counting different elements is counting a list
  that holds each of them once, and in a list without repetitions the number of
  an element is found by looking the element up.
-/
import Mathlib.Data.List.Nodup

namespace PatternGraph

variable {α : Type} [BEq α] [LawfulBEq α]

/-! ## Counting different elements -/

theorem nodup_eraseDups : (l : List α) → l.eraseDups.Nodup
  | [] => by simp
  | a :: rest => by
      rw [List.eraseDups_cons, List.nodup_cons]
      have hlen := List.length_filter_le (fun b => !b == a) rest
      refine ⟨?_, nodup_eraseDups _⟩
      rw [List.mem_eraseDups, List.mem_filter]
      simp
termination_by l => l.length
decreasing_by
  rw [List.length_cons]
  omega

/-- As many different elements are left as there are in a list of the same elements, each once. -/
theorem length_eraseDups {l m : List α} (hm : m.Nodup) (h : ∀ a, a ∈ l ↔ a ∈ m) :
    l.eraseDups.length = m.length := by
  have hperm : l.eraseDups.Perm m := by
    rw [List.perm_ext_iff_of_nodup (nodup_eraseDups l) hm]
    intro a
    rw [List.mem_eraseDups, h]
  exact hperm.length_eq

/-- Different elements stay different under a map that keeps them apart. -/
theorem length_eraseDups_map {β : Type} [BEq β] [LawfulBEq β] {l : List α} {f : α → β}
    (hf : ∀ a ∈ l, ∀ b ∈ l, f a = f b → a = b) :
    (l.map f).eraseDups.length = l.eraseDups.length := by
  have hnodup : (l.eraseDups.map f).Nodup := by
    refine List.Nodup.map_on ?_ (nodup_eraseDups l)
    exact fun a ha b hb => hf a (List.mem_eraseDups.mp ha) b (List.mem_eraseDups.mp hb)
  rw [length_eraseDups hnodup, List.length_map]
  intro b
  simp only [List.mem_map, List.mem_eraseDups]

/-- The different elements that pass one of two tests, counted test by test. -/
theorem length_eraseDups_filter_or (l : List α) (p q : α → Bool) :
    (l.filter fun a => p a || q a).eraseDups.length
      = (l.filter p).eraseDups.length + (l.filter fun a => !p a && q a).eraseDups.length := by
  have hnodup : ((l.filter p).eraseDups ++ (l.filter fun a => !p a && q a).eraseDups).Nodup := by
    refine List.nodup_append.mpr ⟨nodup_eraseDups _, nodup_eraseDups _, ?_⟩
    intro a ha b hb hab
    have hpa := (List.mem_filter.mp (List.mem_eraseDups.mp ha)).2
    have hpb := (List.mem_filter.mp (List.mem_eraseDups.mp hb)).2
    rw [← hab, hpa] at hpb
    cases hpb
  rw [length_eraseDups hnodup, List.length_append]
  intro a
  simp only [List.mem_append, List.mem_eraseDups, List.mem_filter]
  cases p a <;> simp

/-! ## Numbering -/

/-- Where no element is repeated, looking one up finds its number. -/
theorem lookup_zipIdx {l : List α} (hl : l.Nodup) {i : Nat} {a : α} (h : l[i]? = some a)
    (k : Nat) : (l.zipIdx k).lookup a = some (k + i) := by
  induction l generalizing i k with
  | nil => cases h
  | cons b rest ih =>
      obtain ⟨hb, hrest⟩ := List.nodup_cons.mp hl
      rw [List.zipIdx_cons, List.lookup_cons]
      cases i with
      | zero =>
          obtain rfl : b = a := Option.some.inj h
          rw [beq_self_eq_true]
          rfl
      | succ i =>
          rw [List.getElem?_cons_succ] at h
          have hne : (a == b) = false := beq_eq_false_iff_ne.mpr fun heq =>
            hb (heq ▸ List.mem_of_getElem? h)
          rw [hne]
          dsimp only
          rw [ih hrest h, Nat.add_assoc, Nat.add_comm 1 i]

end PatternGraph
