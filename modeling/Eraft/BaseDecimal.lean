import Mathlib.Data.Nat.Digits.Defs
import Mathlib.Tactic

/-! Decimal notation, the most significant digit first. Reading the digits of a number one by one gives
the number, and never more than it on the way. -/

namespace Decimal

variable {n v d : Nat} {ds : List Nat}

/-- The digits of a number; 0 has one. -/
def digits (n : Nat) : List Nat := if n = 0 then [0] else (Nat.digits 10 n).reverse

/-- The number that has been read after the digits `ds`, if it was `v` before them. -/
def value (ds : List Nat) (v : Nat) : Nat := ds.foldl (fun v d => v * 10 + d) v

theorem value_cons : value (d :: ds) v = value ds (v * 10 + d) := rfl

theorem le_value : v ≤ value ds v := by
  induction ds generalizing v with
  | nil => exact le_rfl
  | cons d ds ih =>
      rw [value_cons]
      exact le_trans (by omega) ih

theorem value_le_append (ds ds' : List Nat) : value ds v ≤ value (ds ++ ds') v := by
  rw [value, value, List.foldl_append]
  exact le_value

theorem value_lt (hds : ∀ d ∈ ds, d < 10) : value ds v < (v + 1) * 10 ^ ds.length := by
  induction ds generalizing v with
  | nil => simp [value]
  | cons d ds ih =>
      have hd : d < 10 := hds d List.mem_cons_self
      calc value (d :: ds) v < (v * 10 + d + 1) * 10 ^ ds.length :=
            ih fun d' hd' => hds d' (List.mem_cons_of_mem d hd')
        _ ≤ ((v + 1) * 10) * 10 ^ ds.length := Nat.mul_le_mul_right _ (by omega)
        _ = (v + 1) * 10 ^ (d :: ds).length := by rw [List.length_cons, Nat.pow_succ', Nat.mul_assoc]

theorem value_digits : value (digits n) 0 = n := by
  unfold digits
  split_ifs with h
  · exact h.symm
  · have hfold : (fun d v => v * 10 + d) = fun (d v : Nat) => d + 10 * v := by
      funext d v
      omega
    rw [value, List.foldl_reverse, hfold]
    exact (Nat.ofDigits_eq_foldr 10 _).symm.trans (Nat.ofDigits_digits 10 n)

theorem lt_of_mem_digits (h : d ∈ digits n) : d < 10 := by
  unfold digits at h
  split_ifs at h
  · rw [List.mem_singleton.mp h]
    decide
  · exact Nat.digits_lt_base (by decide) (List.mem_reverse.mp h)

theorem digits_ne_nil : digits n ≠ [] := by
  unfold digits
  split_ifs with h
  · exact List.cons_ne_nil _ _
  · rw [Ne, List.reverse_eq_nil_iff, Nat.digits_eq_nil_iff_eq_zero]
    exact h

end Decimal
