/-
  PatternGraph.Proofs.Run

  How an edit runs, one action at a time.  A question that is answered passes
  its answer on with the graph as it is, and one that is refused ends the edit
  there.
-/
import PatternGraph.Edit.Basic

namespace PatternGraph.Edit

variable {α β : Type} {edit : Edit α} {next : α → Edit β} {g g' : Graph} {a : α} {e : GraphError}
  {q : Graph → Except GraphError α}

theorem bind_ok (h : edit g = .ok a g') : (edit >>= next) g = next a g' := by
  rw [bind_apply, h]

theorem bind_error (h : edit g = .error e g') : (edit >>= next) g = .error e g' := by
  rw [bind_apply, h]

theorem check_ok (h : q g = .ok a) : check q g = .ok a g := by
  rw [check, h]

theorem check_error (h : q g = .error e) : check q g = .error e g := by
  rw [check, h]

theorem check_bind_ok (h : q g = .ok a) : (check q >>= next) g = next a g :=
  bind_ok (check_ok h)

theorem check_bind_error (h : q g = .error e) :
    (check q >>= next) g = .error e g :=
  bind_error (check_error h)

/-- One edit after another succeeds when the first does and the second does on what it leaves. -/
theorem bind_eq_ok_iff {b : β} :
    (edit >>= next) g = .ok b g' ↔ ∃ a h, edit g = .ok a h ∧ next a h = .ok b g' := by
  cases hrun : edit g with
  | error e h => simp [bind_error hrun]
  | ok a h =>
      rw [bind_ok hrun]
      refine ⟨fun hnext => ⟨a, h, rfl, hnext⟩, ?_⟩
      rintro ⟨_, _, ⟨⟩, hnext⟩
      exact hnext

/-- An edit that begins with a question succeeds only if the question is answered. -/
theorem check_bind_eq_ok {b : β} (h : (check q >>= next) g = .ok b g') :
    ∃ a, q g = .ok a ∧ next a g = .ok b g' := by
  cases hq : q g with
  | error e =>
      rw [check_bind_error hq] at h
      cases h
  | ok a =>
      rw [check_bind_ok hq] at h
      exact ⟨a, rfl, h⟩

theorem ask_bind (q : Graph → α) (next : α → Edit β) (g : Graph) :
    (ask q >>= next) g = next (q g) g :=
  bind_ok rfl

/-- Leaving the result out changes neither the graph nor the failure. -/
theorem discard_apply (edit : Edit α) (g : Graph) :
    (discard edit) g =
      match edit g with
      | .ok _ g' => .ok () g'
      | .error e g' => .error e g' := by
  show EStateM.map _ edit g = _
  unfold EStateM.map
  cases edit g <;> rfl

theorem discard_ok (h : edit g = .ok a g') : (discard edit) g = .ok () g' := by
  rw [discard_apply, h]

theorem discard_error (h : edit g = .error e g') : (discard edit) g = .error e g' := by
  rw [discard_apply, h]

/-- The same as `check_bind_eq_ok` where the answer is left out. -/
theorem discard_check_bind_eq_ok {next : Unit → Edit β} {b : β}
    (h : (discard (check q) >>= next) g = .ok b g') : ∃ a, q g = .ok a ∧ next () g = .ok b g' := by
  cases hq : q g with
  | error e =>
      rw [bind_error (discard_error (check_error hq))] at h
      cases h
  | ok a =>
      rw [bind_ok (discard_ok (check_ok hq))] at h
      exact ⟨a, rfl, h⟩

/-- The answer of an edit and the graph that it leaves are all that there is to a run. -/
theorem ok_after_of_outcome (h : edit.outcome g = .ok a) : edit g = .ok a (edit.after g) := by
  unfold outcome at h
  unfold after
  cases hrun : edit g <;> rw [hrun] at h <;> cases h
  rfl

/-! ## All or nothing -/

/-- The edit leaves a graph that satisfies the condition, or it fails and leaves the graph as it
    was. -/
def Yields (edit : Edit α) (g : Graph) (post : Graph → Prop) : Prop :=
  match edit g with
  | .ok _ g' => post g'
  | .error _ g' => g' = g

theorem yields_of_ok {post : Graph → Prop} (h : edit g = .ok a g') (hpost : post g') :
    edit.Yields g post := by
  rw [Yields, h]
  exact hpost

theorem yields_of_error {post : Graph → Prop} (h : edit g = .error e g) : edit.Yields g post := by
  rw [Yields, h]

/-- A question that comes first may be taken as answered. -/
theorem Yields.check_bind {post : Graph → Prop} (h : ∀ a, q g = .ok a → (next a).Yields g post) :
    (check q >>= next).Yields g post := by
  cases hq : q g with
  | error e => exact yields_of_error (check_bind_error hq)
  | ok a =>
      rw [Yields, check_bind_ok hq]
      exact h a hq

/-- The same where the answer is left out. -/
theorem Yields.discard_check_bind {next : Unit → Edit β} {post : Graph → Prop}
    (h : ∀ a, q g = .ok a → (next ()).Yields g post) :
    (discard (check q) >>= next).Yields g post := by
  cases hq : q g with
  | error e => exact yields_of_error (bind_error (discard_error (check_error hq)))
  | ok a =>
      rw [Yields, bind_ok (discard_ok (check_ok hq))]
      exact h a hq

theorem Yields.discard {post : Graph → Prop} (h : edit.Yields g post) :
    (discard edit).Yields g post := by
  unfold Yields at h ⊢
  rw [discard_apply]
  cases hrun : edit g <;> simp only [hrun] at h ⊢ <;> exact h

/-- Such an edit changes nothing when it fails. -/
theorem Yields.of_error {post : Graph → Prop} (h : edit.Yields g post)
    (hrun : edit g = .error e g') : g' = g := by
  rwa [Yields, hrun] at h

/-- What an edit that satisfies a condition on success leaves behind in any case. -/
theorem Yields.after {post : Graph → Prop} (h : edit.Yields g post) :
    edit.after g = g ∨ post (edit.after g) := by
  unfold Yields at h
  unfold Edit.after
  cases hrun : edit g <;> simp only [hrun] at h ⊢
  · exact .inr h
  · exact .inl h

/-! ## What edits keep -/

/-- What holds of a graph holds of the graph that the edit leaves behind, whether it succeeds or
    fails. -/
def Keeps (P : Graph → Prop) (edit : Edit α) : Prop := ∀ g, P g → P (edit.after g)

section Keeps

variable {P : Graph → Prop}

theorem Keeps.of_ok (keeps : edit.Keeps P) (hg : P g) (h : edit g = .ok a g') : P g' := by
  have hafter := keeps g hg
  rwa [after, h] at hafter

theorem Keeps.of_error (keeps : edit.Keeps P) (hg : P g) (h : edit g = .error e g') : P g' := by
  have hafter := keeps g hg
  rwa [after, h] at hafter

theorem Keeps.bind (first : edit.Keeps P) (second : ∀ a, (next a).Keeps P) :
    (edit >>= next).Keeps P := by
  intro g hg
  unfold after
  cases hrun : edit g with
  | ok a g' =>
      rw [bind_ok hrun]
      exact second a g' (first.of_ok hg hrun)
  | error e g' =>
      rw [bind_error hrun]
      exact first.of_error hg hrun

theorem Keeps.check (q : Graph → Except GraphError α) : (check q).Keeps P := by
  intro g hg
  unfold after Edit.check
  cases q g <;> exact hg

theorem Keeps.ask (q : Graph → α) : (ask q).Keeps P :=
  fun _ hg => hg

theorem Keeps.pure (a : α) : (Pure.pure a : Edit α).Keeps P :=
  fun _ hg => hg

theorem Keeps.modify {f : Graph → Graph} (keep : ∀ g, P g → P (f g)) :
    (modify f : Edit PUnit).Keeps P :=
  keep

theorem Keeps.discard (keeps : edit.Keeps P) : (discard edit).Keeps P := by
  intro g hg
  have hafter := keeps g hg
  unfold after at hafter ⊢
  rw [discard_apply]
  cases hrun : edit g <;> simpa only [hrun] using hafter

end Keeps

/-! ## One action for each element of a list -/

theorem forM_cons {γ : Type} (x : γ) (rest : List γ) (action : γ → Edit PUnit) :
    (x :: rest).forM action = (action x >>= fun _ => rest.forM action) :=
  rfl

theorem Keeps.forM {P : Graph → Prop} {γ : Type} {l : List γ} {action : γ → Edit PUnit}
    (keep : ∀ x ∈ l, (action x).Keeps P) : (l.forM action).Keeps P := by
  induction l with
  | nil => exact .pure _
  | cons x rest ih =>
      obtain ⟨hx, hrest⟩ := List.forall_mem_cons.mp keep
      exact .bind hx fun _ => ih hrest

/-- Questions about the elements of a list are one question, which is refused as the first of
    them is that is. -/
theorem forM_check_eq {γ : Type} (q : γ → Graph → Except GraphError PUnit) (l : List γ)
    (g : Graph) :
    (l.forM fun x => check (q x)) g = check (fun g => l.forM fun x => q x g) g := by
  induction l with
  | nil => rfl
  | cons x rest ih =>
      have hcons : ((x :: rest).forM fun x => q x g) = (q x g >>= fun _ => rest.forM (q · g)) := rfl
      rw [forM_cons]
      cases hx : q x g with
      | error e =>
          rw [check_bind_error hx]
          exact (check_error (by rw [hcons, hx]; rfl)).symm
      | ok _ =>
          rw [check_bind_ok hx, ih, check, check, hcons, hx]
          rfl

end PatternGraph.Edit
