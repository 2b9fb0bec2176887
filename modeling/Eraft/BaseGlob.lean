import Mathlib.Data.List.Forall2
import Mathlib.Tactic

/-! Patterns over any alphabet: a token stands for one symbol with a property, or, as a star, for any number
of symbols. A star is searched for by trying what follows it at one place after the other. -/

namespace Glob

inductive Token (α : Type*) where
  | star
  | one (accepts : α → Bool)

variable {α : Type*} {p : α → Bool} {q : List (Token α)} {t : List α}

/-- The whole text is of the form of the pattern. -/
def Matches : List (Token α) → List α → Prop
  | [], t => t = []
  | .star :: q, t => ∃ i ≤ t.length, Matches q (t.drop i)
  | .one _ :: _, [] => False
  | .one p :: q, x :: t => p x = true ∧ Matches q t

theorem matches_one_iff :
    Matches (.one p :: q) t ↔ ∃ x t', t = x :: t' ∧ p x = true ∧ Matches q t' := by
  cases t with
  | nil => simp [Matches]
  | cons x t => simp [Matches]

theorem matches_star_nil (t : List α) : Matches [.star] t := ⟨t.length, le_rfl, List.drop_length⟩

/-- Two stars stand for no more than one. -/
theorem matches_star_star : Matches (.star :: .star :: q) t ↔ Matches (.star :: q) t := by
  constructor
  · rintro ⟨i, hi, j, hj, h⟩
    rw [List.length_drop] at hj
    rw [List.drop_drop] at h
    exact ⟨i + j, by omega, h⟩
  · intro h
    exact ⟨0, Nat.zero_le _, h⟩

/-- What begins with a single symbol needs one, so that a star in front of it never stands for all there
is. -/
theorem matches_star_one :
    Matches (.star :: .one p :: q) t ↔ ∃ i < t.length, Matches (.one p :: q) (t.drop i) := by
  constructor
  · rintro ⟨i, hi, h⟩
    refine ⟨i, Nat.lt_of_le_of_ne hi ?_, h⟩
    rintro rfl
    rw [List.drop_length] at h
    exact h
  · rintro ⟨i, hi, h⟩
    exact ⟨i, hi.le, h⟩

/-- The token stands for the symbols. -/
def Stands : Token α → List α → Prop
  | .star, _ => True
  | .one p, s => ∃ x, s = [x] ∧ p x = true

/-- **Matching is splitting**: each token gets a part of the text, and nothing is left over. -/
theorem matches_iff_split (q : List (Token α)) (t : List α) :
    Matches q t ↔ ∃ parts, List.Forall₂ Stands q parts ∧ t = parts.flatten := by
  induction q generalizing t with
  | nil => simp [Matches]
  | cons token q ih =>
      cases token with
      | star =>
          constructor
          · rintro ⟨i, _, h⟩
            obtain ⟨parts, hparts, heq⟩ := (ih _).mp h
            refine ⟨t.take i :: parts, .cons trivial hparts, ?_⟩
            rw [List.flatten_cons, ← heq, List.take_append_drop]
          · rintro ⟨parts, hparts, rfl⟩
            obtain ⟨part, parts, _, hrest, rfl⟩ := List.forall₂_cons_left_iff.mp hparts
            refine ⟨part.length, by simp, (ih _).mpr ⟨parts, hrest, ?_⟩⟩
            rw [List.flatten_cons, List.drop_left]
      | one p =>
          rw [matches_one_iff]
          constructor
          · rintro ⟨x, t', rfl, hx, h⟩
            obtain ⟨parts, hparts, rfl⟩ := (ih _).mp h
            exact ⟨[x] :: parts, .cons ⟨x, rfl, hx⟩ hparts, rfl⟩
          · rintro ⟨parts, hparts, rfl⟩
            obtain ⟨part, parts, ⟨x, rfl, hx⟩, hrest, rfl⟩ := List.forall₂_cons_left_iff.mp hparts
            exact ⟨x, parts.flatten, rfl, hx, (ih _).mpr ⟨parts, hrest, rfl⟩⟩

end Glob
