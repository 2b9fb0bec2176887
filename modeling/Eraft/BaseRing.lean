import Mathlib.Data.List.Rotate
import Mathlib.Tactic

/-! Queues in a ring of cells. A list is read from any position on, around its end, and written in the
same way. The queue of `n` elements that starts at position `r` is `held l r n`; taking from it moves
`r`, and writing right behind it makes it longer. -/

namespace Ring

variable {α : Type*} {l d : List α} {p r w n k i : Nat}

/-- A position `k` cells further is behind the end once at most. -/
theorem add_mod_eq {cap : Nat} (hr : r < cap) (hk : k ≤ cap) :
    (r + k) % cap = if r + k < cap then r + k else r + k - cap := by
  split_ifs with h
  · exact Nat.mod_eq_of_lt h
  · rw [Nat.mod_eq_sub_mod (by omega), Nat.mod_eq_of_lt (by omega)]

/-- How far `w` is ahead of `r` in a ring of `cap` cells. -/
def dist (cap r w : Nat) : Nat := (w + cap - r) % cap

theorem dist_lt {cap : Nat} (hr : r < cap) : dist cap r w < cap := Nat.mod_lt _ (by omega)

theorem dist_of_le {cap : Nat} (hw : w < cap) (h : r ≤ w) : dist cap r w = w - r := by
  rw [dist, show w + cap - r = w - r + cap by omega, Nat.add_mod_right, Nat.mod_eq_of_lt (by omega)]

theorem dist_of_lt {cap : Nat} (hr : r < cap) (h : w < r) : dist cap r w = w + cap - r := by
  rw [dist, Nat.mod_eq_of_lt (by omega)]

theorem dist_eq {cap : Nat} (hr : r < cap) (hw : w < cap) :
    dist cap r w = if r ≤ w then w - r else w + cap - r := by
  split_ifs with h
  · exact dist_of_le hw h
  · exact dist_of_lt hr (Nat.lt_of_not_le h)

/-- The writer gets ahead. -/
theorem dist_add_right {cap : Nat} (hr : r < cap) (hw : w < cap) (hn : dist cap r w + n < cap) :
    dist cap r ((w + n) % cap) = dist cap r w + n := by
  rw [dist_eq hr (Nat.mod_lt _ (by omega)), add_mod_eq hw (by omega)]
  rw [dist_eq hr hw] at hn ⊢
  split_ifs at hn ⊢ <;> omega

/-- The reader catches up. -/
theorem dist_add_left {cap : Nat} (hr : r < cap) (hw : w < cap) (hn : n ≤ dist cap r w) :
    dist cap ((r + n) % cap) w = dist cap r w - n := by
  have hlt : dist cap r w < cap := dist_lt hr
  rw [dist_eq (Nat.mod_lt _ (by omega)) hw, add_mod_eq hr (by omega)]
  rw [dist_eq hr hw] at hn hlt ⊢
  split_ifs at hn ⊢ <;> omega

/-- The list with its elements from position `p` on replaced. -/
def put (l : List α) (p : Nat) (d : List α) : List α := l.take p ++ (d ++ l.drop (p + d.length))

theorem put_nil : put l p [] = l := by
  rw [put, List.length_nil, List.nil_append, Nat.add_zero, List.take_append_drop]

theorem length_put (h : p + d.length ≤ l.length) : (put l p d).length = l.length := by
  rw [put, List.length_append, List.length_append, List.length_take, List.length_drop]
  omega

theorem getElem?_put (h : p + d.length ≤ l.length) :
    (put l p d)[i]? = if p ≤ i ∧ i < p + d.length then d[i - p]? else l[i]? := by
  have htake : (l.take p).length = p := by rw [List.length_take, Nat.min_eq_left (by omega)]
  rw [put, List.getElem?_append, htake, List.getElem?_take]
  by_cases hfront : i < p
  · rw [if_pos hfront, if_pos hfront, if_neg (by omega)]
  · rw [if_neg hfront, List.getElem?_append, List.getElem?_drop]
    split_ifs with hmid hmid' hmid'
    · rfl
    · omega
    · omega
    · congr 1
      omega

/-- The elements are written from position `w` on, and go on at the beginning. -/
def putAround (l : List α) (w : Nat) (d : List α) : List α :=
  if w + d.length ≤ l.length then put l w d
  else put (put l w (d.take (l.length - w))) 0 (d.drop (l.length - w))

theorem length_putAround (hw : w < l.length) (hd : d.length ≤ l.length) :
    (putAround l w d).length = l.length := by
  unfold putAround
  split_ifs with h
  · exact length_put h
  · have hfirst : w + (d.take (l.length - w)).length ≤ l.length := by
      rw [List.length_take]
      omega
    rw [length_put, length_put hfirst]
    rw [length_put hfirst, List.length_drop]
    omega

theorem getElem?_putAround (hw : w < l.length) (hd : d.length ≤ l.length) (hi : i < l.length) :
    (putAround l w d)[i]? = if dist l.length w i < d.length then d[dist l.length w i]? else l[i]? := by
  rw [dist_eq hw hi]
  unfold putAround
  by_cases h : w + d.length ≤ l.length
  · rw [if_pos h, getElem?_put h]
    by_cases hle : w ≤ i
    · rw [if_pos hle]
      by_cases hin : i < w + d.length
      · rw [if_pos ⟨hle, hin⟩, if_pos (by omega)]
      · rw [if_neg (fun hboth => hin hboth.2), if_neg (by omega)]
    · rw [if_neg hle, if_neg (fun hboth => hle hboth.1), if_neg (by omega)]
  · have hlen : (d.take (l.length - w)).length = l.length - w := by
      rw [List.length_take]
      omega
    have hlen' : (d.drop (l.length - w)).length = d.length - (l.length - w) := List.length_drop
    have hfirst : w + (d.take (l.length - w)).length ≤ l.length := by omega
    have hsecond : 0 + (d.drop (l.length - w)).length ≤ (put l w (d.take (l.length - w))).length := by
      rw [length_put hfirst]
      omega
    rw [if_neg h, getElem?_put hsecond, getElem?_put hfirst, hlen, hlen', List.getElem?_drop]
    by_cases hle : w ≤ i
    · rw [if_pos hle, if_pos (show i - w < d.length by omega),
        if_neg (show ¬(0 ≤ i ∧ i < 0 + (d.length - (l.length - w))) by omega),
        if_pos (show w ≤ i ∧ i < w + (l.length - w) by omega), List.getElem?_take, if_pos (by omega)]
    · rw [if_neg hle]
      by_cases hin : i < d.length - (l.length - w)
      · rw [if_pos (by omega), if_pos (by omega)]
        congr 1
        omega
      · rw [if_neg (by omega), if_neg (by omega), if_neg (by omega)]

/-- The `n` elements from position `r` on. -/
def held (l : List α) (r n : Nat) : List α := (l.rotate r).take n

theorem length_held (hn : n ≤ l.length) : (held l r n).length = n := by
  rw [held, List.length_take, List.length_rotate, Nat.min_eq_left hn]

theorem getElem?_held (hn : n ≤ l.length) (hi : i < n) : (held l r n)[i]? = l[(r + i) % l.length]? := by
  rw [held, List.getElem?_take, if_pos hi, List.getElem?_rotate (by omega), Nat.add_comm]

theorem held_zero : held l r 0 = [] := List.take_zero

theorem held_mod : held l (r % l.length) n = held l r n := by rw [held, List.rotate_mod, held]

theorem take_held (h : k ≤ n) : (held l r n).take k = held l r k := by
  rw [held, List.take_take, Nat.min_eq_left h, held]

/-- **Taking from the queue.** -/
theorem drop_held (hk : k ≤ n) (hn : n ≤ l.length) : (held l r n).drop k = held l (r + k) (n - k) := by
  apply List.ext_getElem?
  intro i
  rw [List.getElem?_drop]
  by_cases hi : i < n - k
  · rw [getElem?_held hn (by omega), getElem?_held (by omega) hi, Nat.add_assoc]
  · rw [List.getElem?_eq_none (by rw [length_held hn]; omega),
      List.getElem?_eq_none (by rw [length_held (by omega)]; omega)]

theorem held_add (h : k + n ≤ l.length) : held l r (k + n) = held l r k ++ held l (r + k) n := by
  have hdrop : (held l r (k + n)).drop k = held l (r + k) n := by
    rw [drop_held (Nat.le_add_right k n) h, Nat.add_sub_cancel_left]
  rw [← take_held (Nat.le_add_right k n), ← hdrop, List.take_append_drop]

theorem held_of_le (h : r + n ≤ l.length) : held l r n = (l.drop r).take n := by
  rcases Nat.eq_zero_or_pos n with rfl | hpos
  · rw [held_zero, List.take_zero]
  · rw [held, List.rotate_eq_drop_append_take (by omega), List.take_append_of_le_length]
    rw [List.length_drop]
    omega

theorem held_of_lt (hr : r ≤ l.length) (h : l.length ≤ r + n) (hn : n ≤ l.length) :
    held l r n = l.drop r ++ l.take (r + n - l.length) := by
  rw [held, List.rotate_eq_drop_append_take hr, List.take_append, List.take_of_length_le, List.take_take]
  · congr 2
    rw [List.length_drop]
    omega
  · rw [List.length_drop]
    omega

/-- **Adding to the queue.** -/
theorem held_putAround (hr : r < l.length) (hw : w < l.length)
    (hd : dist l.length r w + d.length ≤ l.length) :
    held (putAround l w d) r (dist l.length r w + d.length) = held l r (dist l.length r w) ++ d := by
  have hlen : (putAround l w d).length = l.length := length_putAround hw (by omega)
  have hheld : (held l r (dist l.length r w)).length = dist l.length r w := length_held (by omega)
  apply List.ext_getElem?
  intro i
  by_cases hi : i < dist l.length r w + d.length
  · have hcell : (r + i) % l.length < l.length := Nat.mod_lt _ (by omega)
    rw [getElem?_held (by omega) hi, hlen, getElem?_putAround hw (by omega) hcell, List.getElem?_append,
      hheld]
    -- the cell of an old element is not among the ones that are written
    have hback : dist l.length w ((r + i) % l.length) =
        if i < dist l.length r w then l.length + i - dist l.length r w else i - dist l.length r w := by
      rw [dist_eq hw hcell, add_mod_eq hr (by omega)]
      rw [dist_eq hr hw] at hi hd ⊢
      split_ifs at hi hd ⊢ <;> omega
    rw [hback]
    by_cases hold : i < dist l.length r w
    · rw [if_pos hold, if_pos hold, if_neg (by omega), getElem?_held (by omega) hold]
    · rw [if_neg hold, if_neg hold, if_pos (by omega)]
  · rw [List.getElem?_eq_none, List.getElem?_eq_none]
    · rw [List.length_append, hheld]
      omega
    · rw [length_held (by omega)]
      omega

/-- The cells from the written position on: the new elements, and what was behind them. -/
theorem getElem?_held_putAround (hw : w < l.length) (hd : d.length ≤ l.length) (hn : n ≤ l.length) (hi : i < n) :
    (held (putAround l w d) w n)[i]? = if i < d.length then d[i]? else l[(w + i) % l.length]? := by
  have hlen : (putAround l w d).length = l.length := length_putAround hw hd
  have hcell : (w + i) % l.length < l.length := Nat.mod_lt _ (by omega)
  have hdist : dist l.length w ((w + i) % l.length) = i := by
    rw [dist_eq hw hcell, add_mod_eq hw (by omega)]
    split_ifs <;> omega
  rw [getElem?_held (by omega) hi, hlen, getElem?_putAround hw hd hcell, hdist]

end Ring
