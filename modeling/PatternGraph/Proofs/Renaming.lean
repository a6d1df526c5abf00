/-
  PatternGraph.Proofs.Renaming

  The replacements that are found for a walk.  A candidate that is found is not
  taken: were all candidates taken up to it, there would be more taken names
  than there are.  Candidates are never tried twice, so no two names get one
  replacement, and a replacement is not written on the walk, so none falls
  together with a name that is kept.
-/
import PatternGraph.Graph.Renaming
import PatternGraph.Proofs.Content

namespace PatternGraph

/-! ## Anonymous names -/

theorem toList_anonymousName (n : Nat) :
    (anonymousName n).toList = anonymousStem.toList ++ Nat.toDigits 10 n := by
  rw [anonymousName, String.toList_append]
  exact congrArg _ Nat.toList_repr

theorem anonymousName_inj {m n : Nat} (h : anonymousName m = anonymousName n) : m = n := by
  have hlist := congrArg String.toList h
  rw [toList_anonymousName, toList_anonymousName] at hlist
  have hdigits := List.append_cancel_left hlist
  rw [← Nat.ofDigitChars_ten_toDigits (n := m), hdigits, Nat.ofDigitChars_ten_toDigits]

theorem isAnonymous_anonymousName (n : Nat) : isAnonymous (anonymousName n) = true := by
  have hstem : anonymousStem.toList = ['_', 'a', 'n', 'o', 'n', '_'] := by decide +kernel
  have hdigits : (Nat.toDigits 10 n).all Char.isDigit = true :=
    List.all_eq_true.mpr fun c hc => Nat.isDigit_of_mem_toDigits (by decide) (by decide) hc
  have hne : (Nat.toDigits 10 n).isEmpty = false :=
    List.isEmpty_eq_false_iff.mpr Nat.toDigits_ne_nil
  rw [isAnonymous, toList_anonymousName, hstem]
  show (!(Nat.toDigits 10 n).isEmpty && (Nat.toDigits 10 n).all Char.isDigit) = true
  rw [hne, hdigits]
  rfl

namespace Renaming

/-! ## Free numbers -/

/-- Numbers are passed over while their names are taken, and as long as there is fuel. -/
theorem freeNumber_spec (taken : List String) (fuel k : Nat) :
    ∃ d ≤ fuel, freeNumber taken fuel k = k + d ∧
      (∀ j < d, anonymousName (k + j) ∈ taken) ∧ (d < fuel → anonymousName (k + d) ∉ taken) := by
  induction fuel generalizing k with
  | zero => exact ⟨0, Nat.le_refl 0, rfl, by simp, by simp⟩
  | succ fuel ih =>
      rw [freeNumber]
      by_cases hk : anonymousName k ∈ taken
      · rw [if_pos (by simpa using hk)]
        obtain ⟨d, hd, heq, hpassed, hfree⟩ := ih (k + 1)
        refine ⟨d + 1, by omega, by omega, ?_, ?_⟩
        · intro j hj
          cases j with
          | zero => exact hk
          | succ j =>
              have hnext := hpassed j (by omega)
              rwa [Nat.add_right_comm] at hnext
        · intro hlt
          have hnext := hfree (by omega)
          rwa [Nat.add_right_comm] at hnext
      · rw [if_neg (by simpa using hk)]
        exact ⟨0, by omega, rfl, by simp, fun _ => hk⟩

theorem le_freeNumber (taken : List String) (fuel k : Nat) : k ≤ freeNumber taken fuel k := by
  obtain ⟨d, -, heq, -⟩ := freeNumber_spec taken fuel k
  omega

/-- With as much fuel as there are taken names the number that is found has a free name. -/
theorem freeNumber_not_mem (taken : List String) (k : Nat) :
    anonymousName (freeNumber taken taken.length k) ∉ taken := by
  obtain ⟨d, hd, heq, hpassed, hfree⟩ := freeNumber_spec taken taken.length k
  rw [heq]
  intro hmem
  -- the number that was found is taken only if the fuel ran out
  have hall : d = taken.length := by
    rcases Nat.lt_or_eq_of_le hd with hlt | heq
    · exact absurd hmem (hfree hlt)
    · exact heq
  -- otherwise one name more than there are would be taken
  have hsub : (List.range (d + 1)).map (fun j => anonymousName (k + j)) ⊆ taken := by
    intro a ha
    obtain ⟨j, hj, rfl⟩ := List.mem_map.mp ha
    rcases Nat.lt_or_eq_of_le (Nat.lt_succ_iff.mp (List.mem_range.mp hj)) with hlt | rfl
    · exact hpassed j hlt
    · exact hmem
  have hnodup : ((List.range (d + 1)).map fun j => anonymousName (k + j)).Nodup :=
    List.Nodup.map (fun i j hij => Nat.add_left_cancel (anonymousName_inj hij)) List.nodup_range
  have hlen := (hnodup.subperm hsub).length_le
  rw [List.length_map, List.length_range] at hlen
  omega

/-! ## Replacements one after the other -/

/-- What holds of the replacements for the names that were seen. -/
structure Sound (g : Graph) (taken seen : List String) (r : Renaming) : Prop where
  covers : ∀ a, r.covers a = true ↔ a ∈ seen ∧ g.clashes a = true
  fresh : ∀ a b, r.pairs.lookup a = some b → ∃ k < r.tried, b = anonymousName k ∧ b ∉ taken
  inj : ∀ a b c, r.pairs.lookup a = some c → r.pairs.lookup b = some c → a = b

/-- Looks at one name. -/
def step (g : Graph) (taken : List String) (r : Renaming) (name : String) : Renaming :=
  if g.clashes name && !r.covers name then r.add taken name else r

variable {g : Graph} {taken seen : List String} {r : Renaming} {name : String}

theorem lookup_add (taken : List String) (r : Renaming) (name a : String) :
    (r.add taken name).pairs.lookup a
      = if a = name then some (anonymousName (freeNumber taken taken.length r.tried))
        else r.pairs.lookup a := by
  rw [add, List.lookup_cons]
  by_cases ha : a = name
  · rw [if_pos ha, beq_iff_eq.mpr ha]
  · rw [if_neg ha, beq_eq_false_iff_ne.mpr ha]

theorem Sound.add (sound : Sound g taken seen r) (hclash : g.clashes name = true) :
    Sound g taken (name :: seen) (r.add taken name) := by
  have hle := le_freeNumber taken taken.length r.tried
  -- an old replacement has a smaller number than the new one
  have hold : ∀ a, r.pairs.lookup a
      ≠ some (anonymousName (freeNumber taken taken.length r.tried)) := by
    intro a ha
    obtain ⟨k, hk, hname, -⟩ := sound.fresh a _ ha
    have hsame := anonymousName_inj hname
    omega
  constructor
  case covers =>
    intro a
    have hcovers := sound.covers a
    unfold Renaming.covers at hcovers ⊢
    rw [lookup_add]
    by_cases ha : a = name
    · simp [ha, hclash]
    · simp only [List.mem_cons, ha, false_or]
      exact hcovers
  case fresh =>
    intro a b hab
    rw [lookup_add] at hab
    show ∃ k < freeNumber taken taken.length r.tried + 1, _
    split at hab
    · cases hab
      exact ⟨_, Nat.lt_succ_self _, rfl, freeNumber_not_mem taken r.tried⟩
    · obtain ⟨k, hk, hb⟩ := sound.fresh a b hab
      exact ⟨k, by omega, hb⟩
  case inj =>
    intro a b c ha hb
    rw [lookup_add] at ha hb
    split at ha <;> split at hb
    next hna hnb => rw [hna, hnb]
    next => exact absurd (hb.trans ha.symm) (hold b)
    next => exact absurd (ha.trans hb.symm) (hold a)
    next => exact sound.inj a b c ha hb

theorem Sound.step (sound : Sound g taken seen r) (name : String) :
    Sound g taken (name :: seen) (step g taken r name) := by
  unfold Renaming.step
  split
  next h => exact sound.add (Bool.and_eq_true_iff.mp h).1
  next h =>
    refine ⟨fun a => ?_, sound.fresh, sound.inj⟩
    rw [sound.covers, List.mem_cons]
    refine ⟨?_, ?_⟩
    · exact fun ⟨ha, hclash⟩ => ⟨.inr ha, hclash⟩
    · rintro ⟨rfl | ha, hclash⟩
      · -- the name clashes and yet it is not replaced now, so it was replaced before
        rw [hclash, Bool.true_and, Bool.not_eq_true, Bool.not_eq_false'] at h
        exact (sound.covers a).mp h
      · exact ⟨ha, hclash⟩

theorem Sound.foldl (sound : Sound g taken seen r) (names : List String) :
    Sound g taken (names.reverse ++ seen) (names.foldl (Renaming.step g taken) r) := by
  induction names generalizing seen r with
  | nil => exact sound
  | cons name rest ih =>
      rw [List.reverse_cons, List.append_assoc]
      exact ih (sound.step name)

end Renaming

/-! ## The renaming of a walk -/

namespace Graph

variable {g : Graph} {w : Walk} {a b : String}

theorem mem_names : a ∈ g.names ↔ g.binds a = true := by
  have hnodes : a ∈ g.nodes.values.map Node.name ↔ g.hasNode a = true := by
    rw [← nodeNames_eq, hasNode_iff_mem_nodeNames]
  have hedges : a ∈ g.edges.values.map Edge.name ↔ g.hasEdge a = true := by
    rw [← edgeNames_eq, hasEdge_iff_mem_edgeNames]
  rw [names, List.mem_append, hnodes, hedges, binds, Bool.or_eq_true]

theorem renamingFor_sound (g : Graph) (w : Walk) :
    Renaming.Sound g (g.names ++ w.names) w.names.reverse (g.renamingFor w) := by
  have hempty : Renaming.Sound g (g.names ++ w.names) [] {} :=
    ⟨fun a => by simp [Renaming.covers], fun a b h => by simp at h, fun a b c h => by simp at h⟩
  have hfold := hempty.foldl w.names
  rw [List.append_nil] at hfold
  exact hfold

/-- A name that does not clash is kept. -/
theorem renamingFor_of_kept (h : g.clashes a = false) : (g.renamingFor w).apply a = a := by
  have hcovers := mt ((renamingFor_sound g w).covers a).mp (by rw [h]; exact fun h => nomatch h.2)
  rw [Renaming.covers, Option.not_isSome_iff_eq_none] at hcovers
  rw [Renaming.apply, hcovers]
  rfl

/-- A written name that clashes is replaced by an anonymous name that is neither bound nor
    written. -/
theorem renamingFor_of_clash (ha : a ∈ w.names) (h : g.clashes a = true) :
    (g.renamingFor w).pairs.lookup a = some ((g.renamingFor w).apply a) ∧
      isAnonymous ((g.renamingFor w).apply a) = true ∧
      g.binds ((g.renamingFor w).apply a) = false ∧ (g.renamingFor w).apply a ∉ w.names := by
  have sound := renamingFor_sound g w
  have hcovers := (sound.covers a).mpr ⟨List.mem_reverse.mpr ha, h⟩
  obtain ⟨b, hb⟩ := Option.isSome_iff_exists.mp hcovers
  have happly : (g.renamingFor w).apply a = b := by rw [Renaming.apply, hb]; rfl
  obtain ⟨k, -, rfl, hfree⟩ := sound.fresh a b hb
  rw [List.mem_append, not_or, mem_names, Bool.not_eq_true] at hfree
  rw [happly]
  exact ⟨hb, isAnonymous_anonymousName k, hfree.1, hfree.2⟩

/-- Different names on a walk stay different. -/
theorem renamingFor_inj (ha : a ∈ w.names) (hb : b ∈ w.names)
    (h : (g.renamingFor w).apply a = (g.renamingFor w).apply b) : a = b := by
  cases hca : g.clashes a with
  | true =>
      obtain ⟨hla, -, -, hnew⟩ := renamingFor_of_clash ha hca
      cases hcb : g.clashes b with
      | true =>
          obtain ⟨hlb, -⟩ := renamingFor_of_clash hb hcb
          exact (renamingFor_sound g w).inj a b _ hla (h ▸ hlb)
      | false =>
          rw [h, renamingFor_of_kept hcb] at hnew
          exact absurd hb hnew
  | false =>
      rw [renamingFor_of_kept hca] at h
      cases hcb : g.clashes b with
      | true =>
          obtain ⟨-, -, -, hnew⟩ := renamingFor_of_clash hb hcb
          rw [← h] at hnew
          exact absurd ha hnew
      | false => rw [h, renamingFor_of_kept hcb]

end Graph

end PatternGraph
