import Mathlib.Tactic

/-! Lists whose elements carry consecutive indices, as the entries of a log do. Selecting elements by
their index is then a cut at a position. Nothing here depends on what the elements are. -/

namespace Indexed

variable {α : Type*} {index : α → Nat} {n k : Nat} {x : α} {xs ys : List α}

/-- The indices go up one by one from `n`. -/
def From (index : α → Nat) (n : Nat) (xs : List α) : Prop := ∀ i x, xs[i]? = some x → index x = n + i

theorem From.nil : From index n [] := by
  intro i x hx
  cases hx

theorem from_cons : From index n (x :: xs) ↔ index x = n ∧ From index (n + 1) xs := by
  constructor
  · intro h
    refine ⟨h 0 x rfl, fun i y hy => ?_⟩
    have := h (i + 1) y hy
    omega
  · rintro ⟨hx, hxs⟩ i y hy
    cases i with
    | zero =>
        cases hy
        exact hx
    | succ i =>
        have := hxs i y hy
        omega

theorem From.head? (h : From index n xs) (hx : xs.head? = some x) : index x = n :=
  h 0 x (List.head?_eq_getElem? ▸ hx)

theorem From.take (h : From index n xs) (k : Nat) : From index n (xs.take k) := by
  intro i x hx
  rw [List.getElem?_take] at hx
  split_ifs at hx
  exact h i x hx

theorem From.append (h : From index n xs) (h' : From index (n + xs.length) ys) :
    From index n (xs ++ ys) := by
  intro i x hx
  rcases Nat.lt_or_ge i xs.length with hi | hi
  · rw [List.getElem?_append_left hi] at hx
    exact h i x hx
  · rw [List.getElem?_append_right hi] at hx
    have := h' _ x hx
    omega

/-- The elements from index `k` on. -/
theorem From.filter_le (h : From index n xs) (k : Nat) :
    xs.filter (fun x => k ≤ index x) = xs.drop (k - n) := by
  induction xs generalizing n with
  | nil => rw [List.drop_nil, List.filter_nil]
  | cons x xs ih =>
      obtain ⟨hx, hxs⟩ := from_cons.mp h
      rw [List.filter_cons, ih hxs]
      rcases Nat.lt_or_ge n k with hlt | hge
      · rw [if_neg (by rw [hx, decide_eq_true_eq]; omega), show k - n = k - (n + 1) + 1 by omega,
          List.drop_succ_cons]
      · rw [if_pos (by rw [hx]; exact decide_eq_true hge), Nat.sub_eq_zero_of_le hge,
          Nat.sub_eq_zero_of_le (Nat.le_succ_of_le hge), List.drop_zero, List.drop_zero]

/-- The elements below index `k`. -/
theorem From.filter_lt (h : From index n xs) (k : Nat) :
    xs.filter (fun x => index x < k) = xs.take (k - n) := by
  induction xs generalizing n with
  | nil => rw [List.take_nil, List.filter_nil]
  | cons x xs ih =>
      obtain ⟨hx, hxs⟩ := from_cons.mp h
      rw [List.filter_cons, ih hxs]
      rcases Nat.lt_or_ge n k with hlt | hge
      · rw [if_pos (by rw [hx]; exact decide_eq_true hlt), show k - n = k - (n + 1) + 1 by omega,
          List.take_succ_cons]
      · rw [if_neg (by rw [hx, decide_eq_true_eq]; omega), Nat.sub_eq_zero_of_le hge,
          Nat.sub_eq_zero_of_le (Nat.le_succ_of_le hge), List.take_zero, List.take_zero]

end Indexed
