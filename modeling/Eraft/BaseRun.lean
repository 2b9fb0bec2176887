import Mathlib.Tactic

/-! Runs of a labelled transition system, with their history. A run is kept as the list of its moves,
the latest first, so that a property can speak about what happened earlier in the same run. Nothing
here depends on the system. -/

namespace Runs

/-- One transition, with the states around it. -/
structure Move (S E : Type*) where
  before : S
  label : E
  after : S

variable {S E : Type*}

/-- The runs that start in `init` and make transitions of `next`. -/
inductive Run (init : S → Prop) (next : S → E → S → Prop) : List (Move S E) → S → Prop
  | start {s : S} (h : init s) : Run init next [] s
  | step {moves : List (Move S E)} {s s' : S} {e : E} (h : Run init next moves s)
      (hnext : next s e s') : Run init next (⟨s, e, s'⟩ :: moves) s'

/-- The states a run has gone through, the current one first. -/
def moments (moves : List (Move S E)) (s : S) : List S := s :: moves.map Move.before

theorem mem_moments_self (moves : List (Move S E)) (s : S) : s ∈ moments moves s :=
  List.mem_cons_self

theorem moments_cons (move : Move S E) (moves : List (Move S E)) (s : S) :
    moments (move :: moves) s = s :: moments moves move.before := rfl

theorem mem_moments_step {move : Move S E} {moves : List (Move S E)} {s x : S}
    (hx : x ∈ moments moves move.before) : x ∈ moments (move :: moves) s :=
  List.mem_cons_of_mem _ hx

theorem mem_moments_before {move : Move S E} {moves : List (Move S E)} (s : S) (h : move ∈ moves) :
    move.before ∈ moments moves s :=
  List.mem_cons_of_mem _ (List.mem_map_of_mem h)

variable {init : S → Prop} {next : S → E → S → Prop}

/-- **Invariance.** What holds at the start of a run and is kept by every move holds in every run.
The move may use that the run so far is one. -/
theorem Run.induct {I : List (Move S E) → S → Prop} (hinit : ∀ s, init s → I [] s)
    (hstep : ∀ moves s e s', Run init next moves s → I moves s → next s e s' →
      I (⟨s, e, s'⟩ :: moves) s')
    {moves : List (Move S E)} {s : S} (hrun : Run init next moves s) : I moves s := by
  induction hrun with
  | start h => exact hinit _ h
  | step h hnext ih => exact hstep _ _ _ _ h ih hnext

theorem Run.after_eq {move : Move S E} {moves : List (Move S E)} {s : S}
    (hrun : Run init next (move :: moves) s) : move.after = s := by
  cases hrun
  rfl

theorem Run.next_of_mem {moves : List (Move S E)} {s : S} (hrun : Run init next moves s) :
    ∀ move ∈ moves, next move.before move.label move.after := by
  induction hrun with
  | start => exact nofun
  | step _ hnext ih => exact List.forall_mem_cons.mpr ⟨hnext, ih⟩

/-- Before a move of a run there is a run, which the move continues. -/
theorem Run.of_append {later earlier : List (Move S E)} {move : Move S E} {s : S}
    (hrun : Run init next (later ++ move :: earlier) s) :
    Run init next earlier move.before ∧ next move.before move.label move.after := by
  induction later generalizing s with
  | nil =>
      cases hrun with
      | step hrun hnext => exact ⟨hrun, hnext⟩
  | cons _ later ih =>
      cases hrun with
      | step hrun _ => exact ih hrun

/-- What a move leads to is a moment of the run. -/
theorem Run.mem_moments_after {moves : List (Move S E)} {s : S} (hrun : Run init next moves s) :
    ∀ move ∈ moves, move.after ∈ moments moves s := by
  induction hrun with
  | start => exact nofun
  | step hrun hnext ih =>
      refine List.forall_mem_cons.mpr ⟨mem_moments_self _ _, fun move hmove => ?_⟩
      exact mem_moments_step (ih move hmove)

/-- Every moment of a run is where a shorter run ends. -/
theorem Run.of_moment {moves : List (Move S E)} {s x : S} (hrun : Run init next moves s)
    (hx : x ∈ moments moves s) : ∃ earlier, Run init next earlier x := by
  induction hrun with
  | start h =>
      rw [List.mem_singleton.mp hx]
      exact ⟨[], .start h⟩
  | step hrun hnext ih =>
      rw [moments_cons] at hx
      rcases List.mem_cons.mp hx with rfl | hx
      · exact ⟨_, .step hrun hnext⟩
      · exact ih hx

/-- A run goes on with a run from where it ends. -/
theorem Run.append {moves later : List (Move S E)} {s s' : S} (hrun : Run init next moves s)
    (hlater : Run (· = s) next later s') : Run init next (later ++ moves) s' := by
  induction hlater with
  | start h => exact h ▸ hrun
  | step _ hnext ih => exact .step ih hnext

section Play

variable {P : Type*} {f : S → P → Option (E × S)}

/-- The run that a list of plays makes from the state `s` on, after `moves`. A play picks a transition
in the state it meets; `none` when one of them finds none. -/
def play (f : S → P → Option (E × S)) : List P → List (Move S E) → S → Option (List (Move S E) × S)
  | [], moves, s => some (moves, s)
  | p :: plays, moves, s => (f s p).bind fun r => play f plays (⟨s, r.1, r.2⟩ :: moves) r.2

theorem Run.play (hf : ∀ s p e s', f s p = some (e, s') → next s e s') (plays : List P)
    {moves moves' : List (Move S E)} {s s' : S} (hrun : Run init next moves s)
    (h : Runs.play f plays moves s = some (moves', s')) : Run init next moves' s' := by
  induction plays generalizing moves s with
  | nil =>
      cases h
      exact hrun
  | cons p plays ih =>
      obtain ⟨⟨e, s₁⟩, hs₁, h⟩ := Option.bind_eq_some_iff.mp h
      exact ih (.step hrun (hf _ _ _ _ hs₁)) h

/-- A run can be exhibited by playing it and evaluating a test on its outcome. -/
theorem exists_run_of_play (hf : ∀ s p e s', f s p = some (e, s') → next s e s') (start : Option S)
    (hstart : ∀ s, start = some s → init s) (plays : List P)
    {test : List (Move S E) × S → Bool} (h : (start.bind (play f plays [])).any test = true) :
    ∃ moves s, Run init next moves s ∧ test (moves, s) = true := by
  obtain ⟨⟨moves, s'⟩, hplay, htest⟩ := (Option.any_eq_true _ _).mp h
  obtain ⟨s, hs, hplay⟩ := Option.bind_eq_some_iff.mp hplay
  exact ⟨moves, s', .play hf plays (.start (hstart s hs)) hplay, htest⟩

end Play

end Runs
