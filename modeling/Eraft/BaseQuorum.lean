import Mathlib.Data.List.Sort
import Mathlib.Data.Finset.Card

/-! Counting facts behind quorums: how many elements of a list are at least its `t`-th smallest one,
and how many keys of an association list satisfy a predicate. Nothing here depends on the system. -/

namespace Quorum

/-- An order statistic from below: at most `t` elements of a list lie under the element at position
`t` of its ascending sort. -/
theorem length_le_add_countP {α : Type*} [LinearOrder α] (l : List α) {t : Nat} {n : α}
    (hn : (l.insertionSort (· ≤ ·))[t]? = some n) :
    l.length ≤ t + l.countP (fun x => decide (n ≤ x)) := by
  obtain ⟨hlt, hget⟩ := List.getElem?_eq_some_iff.mp hn
  have hsorted := List.pairwise_insertionSort (· ≤ ·) l
  have hdrop : ∀ x ∈ (l.insertionSort (· ≤ ·)).drop t, decide (n ≤ x) = true := by
    intro x hx
    obtain ⟨i, hi, rfl⟩ := List.mem_iff_getElem.mp hx
    rw [List.length_drop] at hi
    rw [List.getElem_drop, decide_eq_true_eq, ← hget]
    rcases Nat.eq_zero_or_pos i with rfl | hpos
    · exact le_rfl
    · exact List.pairwise_iff_getElem.mp hsorted t (t + i) hlt (by omega) (by omega)
  have hcount : ((l.insertionSort (· ≤ ·)).drop t).countP (fun x => decide (n ≤ x)) =
      ((l.insertionSort (· ≤ ·)).drop t).length := List.countP_eq_length.mpr hdrop
  have hle := (List.drop_sublist t (l.insertionSort (· ≤ ·))).countP_le
    (p := fun x => decide (n ≤ x))
  rw [hcount, List.length_drop, (List.perm_insertionSort (· ≤ ·) l).length_eq,
    (List.perm_insertionSort (· ≤ ·) l).countP_eq] at hle
  omega

/-- And from above: if the element at position `t` lies under `n`, so do the ones before it. -/
theorem countP_add_le_length {α : Type*} [LinearOrder α] (l : List α) {t : Nat} {a n : α}
    (ha : (l.insertionSort (· ≤ ·))[t]? = some a) (hlt : a < n) :
    l.countP (fun x => decide (n ≤ x)) + (t + 1) ≤ l.length := by
  obtain ⟨ht, hget⟩ := List.getElem?_eq_some_iff.mp ha
  have hsorted := List.pairwise_insertionSort (· ≤ ·) l
  have htake : ∀ x ∈ (l.insertionSort (· ≤ ·)).take (t + 1), ¬decide (n ≤ x) = true := by
    intro x hx
    obtain ⟨i, hi, rfl⟩ := List.mem_iff_getElem.mp hx
    rw [List.length_take] at hi
    rw [List.getElem_take, decide_eq_true_eq, not_le]
    rcases Nat.lt_or_ge i t with hit | hit
    · exact (hget ▸ List.pairwise_iff_getElem.mp hsorted i t (by omega) ht hit).trans_lt hlt
    · obtain rfl : i = t := by omega
      exact hget ▸ hlt
  have hzero : ((l.insertionSort (· ≤ ·)).take (t + 1)).countP (fun x => decide (n ≤ x)) = 0 :=
    List.countP_eq_zero.mpr htake
  have hsplit := @List.countP_append α (fun x => decide (n ≤ x))
    ((l.insertionSort (· ≤ ·)).take (t + 1)) ((l.insertionSort (· ≤ ·)).drop (t + 1))
  rw [List.take_append_drop, hzero, (List.perm_insertionSort (· ≤ ·) l).countP_eq] at hsplit
  have hdrop := List.countP_le_length (p := fun x => decide (n ≤ x))
    (l := (l.insertionSort (· ≤ ·)).drop (t + 1))
  rw [List.length_drop, (List.perm_insertionSort (· ≤ ·) l).length_eq] at hdrop
  rw [(List.perm_insertionSort (· ≤ ·) l).length_eq] at ht
  omega

/-- Counting over a list read through a partial function that was defined everywhere. -/
theorem countP_mapM {α β : Type*} {f : α → Option β} {l : List α} {l' : List β}
    (h : l.mapM f = some l') (p : β → Bool) :
    l'.length = l.length ∧ l'.countP p = l.countP fun x => (f x).any p := by
  induction l generalizing l' with
  | nil =>
      cases h
      exact ⟨rfl, rfl⟩
  | cons x l ih =>
      simp only [List.mapM_cons, Option.bind_eq_bind, Option.bind_eq_some_iff] at h
      obtain ⟨y, hy, l₁, hl₁, h⟩ := h
      cases h
      obtain ⟨hlen, hcount⟩ := ih hl₁
      refine ⟨congrArg Nat.succ hlen, ?_⟩
      rw [List.countP_cons, List.countP_cons, hcount, hy]
      rfl

/-- A partial function that is defined on every element of a list can be read through it. -/
theorem exists_mapM {α β : Type*} {f : α → Option β} {l : List α} (h : ∀ x ∈ l, ∃ y, f x = some y) :
    ∃ l', l.mapM f = some l' := by
  induction l with
  | nil => exact ⟨[], rfl⟩
  | cons x l ih =>
      obtain ⟨hx, hl⟩ := List.forall_mem_cons.mp h
      obtain ⟨y, hy⟩ := hx
      obtain ⟨l', hl'⟩ := ih hl
      refine ⟨y :: l', ?_⟩
      rw [List.mapM_cons, hy, hl']
      rfl

/-- The keys of an association list whose entry satisfies `p`. -/
def keysWhere {κ β : Type*} [DecidableEq κ] (p : κ × β → Bool) (kvs : List (κ × β)) : Finset κ :=
  ((kvs.filter p).map Prod.fst).toFinset

variable {κ β : Type*} [DecidableEq κ] {p : κ × β → Bool} {kvs : List (κ × β)}

theorem mem_keysWhere {k : κ} : k ∈ keysWhere p kvs ↔ ∃ v, (k, v) ∈ kvs ∧ p (k, v) = true := by
  simp [keysWhere]

/-- With distinct keys, counting entries is counting keys. -/
theorem card_keysWhere (hnodup : (kvs.map Prod.fst).Nodup) :
    (keysWhere p kvs).card = kvs.countP p := by
  have hsub : ((kvs.filter p).map Prod.fst).Nodup :=
    hnodup.sublist (List.filter_sublist.map Prod.fst)
  rw [keysWhere, List.toFinset_card_of_nodup hsub, List.length_map, List.countP_eq_length_filter]

end Quorum
