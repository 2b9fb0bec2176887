import Mathlib.Tactic

/-! Loops whose body ends with a result (`inr`), goes on from another state (`inl`), or has no outcome
(`none`), and the simulation of one such loop by another. Nothing here depends on the body. -/

namespace Retry

variable {S S' B B' : Type*}

/-- At most `k` rounds of the loop. -/
def loop (body : S → Option (S ⊕ B)) : Nat → S → Option B
  | 0, _ => none
  | k + 1, s => (body s).bind (Sum.elim (loop body k) some)

/-- The loop, started in a state, ends with a result. -/
inductive Ends (body : S → Option (S ⊕ B)) : S → B → Prop
  | done {s : S} {b : B} (h : body s = some (.inr b)) : Ends body s b
  | again {s s' : S} {b : B} (h : body s = some (.inl s')) (h' : Ends body s' b) : Ends body s b

variable {body : S → Option (S ⊕ B)} {body' : S' → Option (S' ⊕ B')} {s : S} {s' : S'} {b : B} {b' : B'}

theorem Ends.of_loop {k : Nat} (h : loop body k s = some b) : Ends body s b := by
  induction k generalizing s with
  | zero => cases h
  | succ k ih =>
      obtain ⟨next | b', hbody, h⟩ := Option.bind_eq_some_iff.mp h
      · exact .again hbody (ih h)
      · cases h
        exact .done hbody

theorem Ends.exists_loop (h : Ends body s b) : ∃ k, loop body k s = some b := by
  induction h with
  | done h =>
      refine ⟨1, ?_⟩
      rw [loop, h]
      rfl
  | again h _ ih =>
      obtain ⟨k, hk⟩ := ih
      refine ⟨k + 1, ?_⟩
      rw [loop, h]
      exact hk

/-- From related states the two bodies have outcomes of the same kind, and related again. -/
def Simulates (body : S → Option (S ⊕ B)) (body' : S' → Option (S' ⊕ B')) (R : S → S' → Prop)
    (Q : B → B' → Prop) : Prop :=
  ∀ s s', R s s' → Option.Rel (Sum.LiftRel R Q) (body s) (body' s')

variable {R : S → S' → Prop} {Q : B → B' → Prop}

theorem Simulates.flip (h : Simulates body body' R Q) :
    Simulates body' body (fun s' s => R s s') (fun b' b => Q b b') := by
  intro s' s hR
  have hrel := h s s' hR
  generalize body s = x at hrel
  generalize body' s' = y at hrel
  cases hrel with
  | none => exact .none
  | some hrel =>
      cases hrel with
      | inl hR' => exact .some (.inl hR')
      | inr hQ => exact .some (.inr hQ)

theorem Simulates.again (h : Simulates body body' R Q) (hR : R s s') {next : S}
    (hbody : body s = some (.inl next)) : ∃ next', body' s' = some (.inl next') ∧ R next next' := by
  have hrel := h s s' hR
  rw [hbody] at hrel
  generalize body' s' = y at hrel ⊢
  cases hrel with
  | some hrel =>
      cases hrel with
      | inl hR' => exact ⟨_, rfl, hR'⟩

theorem Simulates.done (h : Simulates body body' R Q) (hR : R s s')
    (hbody : body s = some (.inr b)) : ∃ b', body' s' = some (.inr b') ∧ Q b b' := by
  have hrel := h s s' hR
  rw [hbody] at hrel
  generalize body' s' = y at hrel ⊢
  cases hrel with
  | some hrel =>
      cases hrel with
      | inr hQ => exact ⟨_, rfl, hQ⟩

/-- **Of two related loops one ends where the other does.** -/
theorem Simulates.ends (h : Simulates body body' R Q) (hR : R s s') (hends : Ends body s b) :
    ∃ b', Ends body' s' b' ∧ Q b b' := by
  induction hends generalizing s' with
  | done hbody =>
      obtain ⟨b', hbody', hQ⟩ := h.done hR hbody
      exact ⟨b', .done hbody', hQ⟩
  | again hbody _ ih =>
      obtain ⟨next', hbody', hR'⟩ := h.again hR hbody
      obtain ⟨b', hends', hQ⟩ := ih hR'
      exact ⟨b', .again hbody' hends', hQ⟩

end Retry
