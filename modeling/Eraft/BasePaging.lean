import Mathlib.Data.List.TakeWhile
import Mathlib.Data.List.Nodup
import Mathlib.Tactic

/-! A list is searched in pages. A call looks at the next `m` elements from a cursor on, returns those that
are found among them, and moves the cursor by their number, not by the number of elements it has looked
at; when it has come to the end of the list, it returns the cursor 0. The calls go on until then. A test
may have no result (`none`), and then the call has none. -/

namespace Paging

variable {α : Type*} {m c c' z j : Nat} {l w out out' : List α} {call : Nat → Option (List α × Nat)}

/-- Calls from the cursor `c` on until the cursor is 0 again, with all that is returned. -/
inductive Loop (call : Nat → Option (List α × Nat)) : Nat → List α → Prop
  | last {c : Nat} {out : List α} (h : call c = some (out, 0)) : Loop call c out
  | more {c c' : Nat} {out out' : List α} (h : call c = some (out, c')) (hc : c' ≠ 0)
      (h' : Loop call c' out') : Loop call c (out ++ out')

theorem Loop.exists_call (h : Loop call c out) : ∃ w c', call c = some (w, c') ∧ w <+: out := by
  cases h with
  | last h => exact ⟨out, 0, h, List.prefix_rfl⟩
  | more h _ _ => exact ⟨_, _, h, List.prefix_append _ _⟩

theorem Loop.of_zero (h : Loop call c out) (hcall : call c = some (w, 0)) : out = w := by
  cases h with
  | last h =>
      cases hcall.symm.trans h
      rfl
  | more h hc _ =>
      cases hcall.symm.trans h
      exact absurd rfl hc

theorem Loop.of_ne_zero (h : Loop call c out) (hcall : call c = some (w, c')) (hc : c' ≠ 0) :
    ∃ out', out = w ++ out' ∧ Loop call c' out' := by
  cases h with
  | last h =>
      cases hcall.symm.trans h
      exact absurd rfl hc
  | more h _ h' =>
      cases hcall.symm.trans h
      exact ⟨_, rfl, h'⟩

/-- A cursor that stays where it is keeps the calls going for ever. -/
theorem not_loop_of_stuck (hcall : call c = some (w, c)) (hc : c ≠ 0) : ¬Loop call c out := by
  intro h
  induction h generalizing w with
  | last h =>
      cases hcall.symm.trans h
      exact hc rfl
  | more h _ _ ih =>
      cases hcall.symm.trans h
      exact ih hcall hc

/-! ### One page -/

section Page

variable (p : α → Option Bool) (m : Nat) (l : List α)

def hit (x : α) : Bool := p x == some true

/-- What a call with the cursor `c` looks at. -/
def window (c : Nat) : List α := (l.drop c).take m

/-- What a call returns, and the cursor for the next one. -/
def page (c : Nat) : Option (List α × Nat) :=
  if c < l.length ∧ ∀ x ∈ window m l c, (p x).isSome = true then
    some ((window m l c).filter (hit p),
      if l.length ≤ c + m then 0 else c + ((window m l c).filter (hit p)).length)
  else none

/-- How many elements are found in front of the first one that is not. -/
def leading : Nat := (l.takeWhile (hit p)).length

/-- Where the first call starts that does not find everything it looks at, or comes to the end of the
list. -/
def lastStart : Nat := m * (min (leading p l) (l.length - 1) / m)

/-- Where the calls end, with each element that is found once: nothing is found at all; or that call comes
to the end of the list; or what it finds are the elements at its beginning, and from the next one on the
end is less than a page away. -/
def Pageable : Prop :=
  l ≠ [] ∧
    (((∀ x ∈ l, hit p x = false) ∧ ∀ x ∈ l.take m, (p x).isSome = true) ∨
      ((∀ x ∈ l, (p x).isSome = true) ∧
        (l.length ≤ lastStart p m l + m ∨
          (lastStart p m l < leading p l ∧ l.length ≤ leading p l + m ∧
            ∀ x ∈ (l.drop (leading p l)).take (lastStart p m l + m - leading p l), hit p x = false))))

end Page

variable {p : α → Option Bool}

theorem isSome_of_hit {x : α} (h : hit p x = true) : (p x).isSome = true := by
  rw [hit, beq_iff_eq] at h
  rw [h]
  rfl

theorem page_eq_some_iff : page p m l c = some (w, c') ↔
    c < l.length ∧ (∀ x ∈ window m l c, (p x).isSome = true) ∧ w = (window m l c).filter (hit p) ∧
      c' = if l.length ≤ c + m then 0 else c + w.length := by
  unfold page
  split_ifs with h
  all_goals grind

theorem page_eq_none_iff :
    page p m l c = none ↔ (l.drop c ≠ [] → ∃ x ∈ (l.drop c).take m, p x = none) := by
  unfold page window
  rw [ite_eq_right_iff]
  simp only [reduceCtorEq, imp_false, not_and, not_forall, Option.isSome_iff_ne_none, ne_eq, not_not,
    List.drop_eq_nil_iff, not_le, exists_prop]

theorem page_length_le (h : page p m l c = some (w, c')) : w.length ≤ m := by
  rw [(page_eq_some_iff.mp h).2.2.1]
  exact (List.length_filter_le _ _).trans (List.length_take_le _ _)

theorem page_of_le (hlt : c < l.length) (hend : l.length ≤ c + m) (hsome : ∀ x ∈ l.drop c, (p x).isSome = true) :
    page p m l c = some ((l.drop c).filter (hit p), 0) := by
  have hwindow : window m l c = l.drop c := List.take_of_length_le (by rw [List.length_drop]; omega)
  rw [page_eq_some_iff, hwindow, if_pos hend]
  exact ⟨hlt, hsome, rfl, rfl⟩

theorem Loop.mem_page (h : Loop (page p m l) c out) {x : α} (hx : x ∈ out) : x ∈ l ∧ hit p x = true := by
  have hpage : ∀ {c c' w}, page p m l c = some (w, c') → x ∈ w → x ∈ l ∧ hit p x = true := by
    intro c c' w hpage hw
    rw [(page_eq_some_iff.mp hpage).2.2.1, List.mem_filter] at hw
    exact ⟨List.mem_of_mem_drop (List.mem_of_mem_take hw.1), hw.2⟩
  induction h with
  | last h => exact hpage h hx
  | more h _ _ ih =>
      rcases List.mem_append.mp hx with hx | hx
      · exact hpage h hx
      · exact ih hx

theorem take_leading : l.take (leading p l) = l.takeWhile (hit p) := by
  have h : l = l.takeWhile (hit p) ++ l.dropWhile (hit p) := List.takeWhile_append_dropWhile.symm
  exact (congrArg (List.take (leading p l)) h).trans (List.take_left' rfl)

theorem drop_leading : l.drop (leading p l) = l.dropWhile (hit p) := by
  have h : l = l.takeWhile (hit p) ++ l.dropWhile (hit p) := List.takeWhile_append_dropWhile.symm
  exact (congrArg (List.drop (leading p l)) h).trans (List.drop_left' rfl)

theorem hit_of_mem_take (hj : j ≤ leading p l) {x : α} (hx : x ∈ l.take j) : hit p x = true := by
  have hmem : x ∈ l.take (leading p l) := (List.take_sublist_take_left hj).subset hx
  rw [take_leading] at hmem
  exact List.mem_takeWhile_imp hmem

theorem le_leading (hj : j ≤ l.length) (h : ∀ x ∈ l.take j, hit p x = true) : j ≤ leading p l := by
  have hlen : (l.take j).length = j := by rw [List.length_take, Nat.min_eq_left hj]
  have happend : (l.take j ++ l.drop j).takeWhile (hit p) = l.take j ++ (l.drop j).takeWhile (hit p) :=
    List.takeWhile_append_of_pos h
  rw [List.take_append_drop] at happend
  rw [leading, happend, List.length_append, hlen]
  exact Nat.le_add_right _ _

theorem filter_eq_nil_of_miss (h : ∀ x ∈ l, hit p x = false) : l.filter (hit p) = [] := by
  rw [List.filter_eq_nil_iff]
  intro x hx
  rw [h x hx]
  exact Bool.false_ne_true

/-- The first element that is not found. -/
theorem exists_miss (h : leading p l < l.length) :
    ∃ x rest, l.drop (leading p l) = x :: rest ∧ hit p x = false := by
  have hne : l.drop (leading p l) ≠ [] := by
    rw [Ne, List.drop_eq_nil_iff]
    omega
  obtain ⟨x, rest, hdrop⟩ := List.exists_cons_of_ne_nil hne
  refine ⟨x, rest, hdrop, ?_⟩
  have hhead := List.head?_dropWhile_not (hit p) l
  rw [← drop_leading, hdrop] at hhead
  exact hhead

/-! ### The calls -/

/-- Everything is found on the first pages, and the cursor keeps up with them. -/
theorem loop_full_iff (hm : 0 < m) (k : Nat) (hk : k * m ≤ leading p l) (hlt : k * m < l.length)
    (out : List α) : Loop (page p m l) 0 out ↔
      ∃ out', out = l.take (k * m) ++ out' ∧ Loop (page p m l) (k * m) out' := by
  induction k generalizing out with
  | zero => simp
  | succ k ih =>
      rw [Nat.succ_mul] at hk hlt ⊢
      have hall : ∀ x ∈ window m l (k * m), hit p x = true := by
        intro x hx
        refine hit_of_mem_take hk ?_
        rw [List.take_add]
        exact List.mem_append_right _ hx
      have hlen : (window m l (k * m)).length = m := by
        rw [window, List.length_take, List.length_drop]
        omega
      have hpage : page p m l (k * m) = some (window m l (k * m), k * m + m) := by
        rw [page_eq_some_iff, List.filter_eq_self.mpr hall, hlen, if_neg (by omega)]
        exact ⟨by omega, fun x hx => isSome_of_hit (hall x hx), rfl, rfl⟩
      have htake : l.take (k * m + m) = l.take (k * m) ++ window m l (k * m) := List.take_add
      rw [ih (by omega) (by omega), htake]
      constructor
      · rintro ⟨out', rfl, h⟩
        obtain ⟨out'', rfl, h'⟩ := h.of_ne_zero hpage (by omega)
        exact ⟨out'', (List.append_assoc _ _ _).symm, h'⟩
      · rintro ⟨out', rfl, h⟩
        exact ⟨window m l (k * m) ++ out', List.append_assoc _ _ _, .more hpage (by omega) h⟩

/-- A page that is not the last, and of which something is found. If nothing is returned twice, then what is
found are the first elements of the page: the next call would look at the others again. -/
theorem found_first (hpage : page p m l c = some (w, c + w.length)) (hlt : c + m < l.length)
    (hnext : Loop (page p m l) (c + w.length) out) (hnodup : (w ++ out).Nodup) :
    (∀ x ∈ (l.drop c).take w.length, hit p x = true) ∧
      ∀ x ∈ (l.drop (c + w.length)).take (m - w.length), hit p x = false := by
  obtain ⟨_, _, hw, _⟩ := page_eq_some_iff.mp hpage
  have hle : w.length ≤ m := page_length_le hpage
  have hsplit : window m l c =
      (l.drop c).take w.length ++ (l.drop (c + w.length)).take (m - w.length) := by
    rw [window, ← List.drop_drop, ← List.take_add, Nat.add_sub_cancel' hle]
  have hmiss : ∀ x ∈ (l.drop (c + w.length)).take (m - w.length), hit p x = false := by
    intro x hx
    by_contra hfound
    rw [Bool.not_eq_false] at hfound
    have hfirst : x ∈ w := by
      rw [hw, List.mem_filter, hsplit]
      exact ⟨List.mem_append_right _ hx, hfound⟩
    obtain ⟨w', c', hpage', hfront⟩ := hnext.exists_call
    have hagain : x ∈ w' := by
      rw [(page_eq_some_iff.mp hpage').2.2.1, List.mem_filter]
      exact ⟨(List.take_sublist_take_left (Nat.sub_le m _)).subset hx, hfound⟩
    exact (List.disjoint_of_nodup_append hnodup) hfirst (hfront.subset hagain)
  refine ⟨?_, hmiss⟩
  have hcount : (((l.drop c).take w.length).filter (hit p)).length = ((l.drop c).take w.length).length := by
    have hnone : ((l.drop (c + w.length)).take (m - w.length)).filter (hit p) = [] := filter_eq_nil_of_miss hmiss
    have hfilter : w = ((l.drop c).take w.length).filter (hit p) := by
      nth_rewrite 1 [hw]
      rw [hsplit, List.filter_append, hnone, List.append_nil]
    rw [← hfilter, List.length_take, List.length_drop]
    omega
  exact List.length_filter_eq_length_iff.mp hcount

/-- The list has each element that is found once. -/
def Finds (p : α → Option Bool) (l out : List α) : Prop :=
  out.Nodup ∧ ∀ x, x ∈ out ↔ x ∈ l ∧ hit p x = true

theorem finds_filter (hl : l.Nodup) : Finds p l (l.filter (hit p)) := ⟨hl.filter _, fun _ => List.mem_filter⟩

theorem lastStart_le : lastStart p m l ≤ leading p l :=
  (Nat.mul_div_le _ _).trans (Nat.min_le_left _ _)

theorem lastStart_lt (hne : l ≠ []) : lastStart p m l < l.length := by
  have hpos : 0 < l.length := List.length_pos_of_ne_nil hne
  have hle : lastStart p m l ≤ l.length - 1 := (Nat.mul_div_le _ _).trans (Nat.min_le_right _ _)
  omega

theorem leading_lt (hm : 0 < m) (h : lastStart p m l + m < l.length) : leading p l < lastStart p m l + m := by
  have hlt : min (leading p l) (l.length - 1) < lastStart p m l + m := by
    have hdiv := Nat.lt_mul_div_succ (min (leading p l) (l.length - 1)) hm
    rwa [Nat.mul_add, Nat.mul_one] at hdiv
  omega

theorem loop_lastStart_iff (hm : 0 < m) (hne : l ≠ []) (out : List α) : Loop (page p m l) 0 out ↔
    ∃ out', out = l.take (lastStart p m l) ++ out' ∧ Loop (page p m l) (lastStart p m l) out' := by
  have hcomm : lastStart p m l = min (leading p l) (l.length - 1) / m * m := Nat.mul_comm _ _
  have hle : lastStart p m l ≤ leading p l := lastStart_le
  have hlt : lastStart p m l < l.length := lastStart_lt hne
  rw [hcomm] at hle hlt ⊢
  exact loop_full_iff hm _ hle hlt out

theorem take_append_filter (hj : j ≤ leading p l) : l.take j ++ (l.drop j).filter (hit p) = l.filter (hit p) := by
  have htake : (l.take j).filter (hit p) = l.take j := List.filter_eq_self.mpr fun _ => hit_of_mem_take hj
  calc l.take j ++ (l.drop j).filter (hit p) = (l.take j ++ l.drop j).filter (hit p) := by
        rw [List.filter_append, htake]
    _ = l.filter (hit p) := by rw [List.take_append_drop]

/-- From a cursor less than a page from the end. -/
theorem loop_end (hlt : j < l.length) (hend : l.length ≤ j + m)
    (hsome : ∀ x ∈ l, (p x).isSome = true) : Loop (page p m l) j ((l.drop j).filter (hit p)) :=
  .last (page_of_le hlt hend fun x hx => hsome x (List.mem_of_mem_drop hx))

/-- A page on which only its first elements are found. -/
theorem page_first (hle : c ≤ leading p l) (hlt : leading p l < c + m) (hend : c + m < l.length)
    (hsome : ∀ x ∈ l, (p x).isSome = true)
    (hmiss : ∀ x ∈ (l.drop (leading p l)).take (c + m - leading p l), hit p x = false) :
    page p m l c = some ((l.drop c).take (leading p l - c), leading p l) := by
  have hz : c + (leading p l - c) = leading p l := Nat.add_sub_cancel' hle
  have hsplit : window m l c = (l.drop c).take (leading p l - c) ++
      (l.drop (leading p l)).take (c + m - leading p l) := by
    have hdrop : l.drop (leading p l) = (l.drop c).drop (leading p l - c) := by rw [List.drop_drop, hz]
    rw [window, hdrop, ← List.take_add]
    congr 1
    omega
  have hfound : ∀ x ∈ (l.drop c).take (leading p l - c), hit p x = true := by
    intro x hx
    refine hit_of_mem_take hz.le ?_
    rw [List.take_add]
    exact List.mem_append_right _ hx
  have hnone : ((l.drop (leading p l)).take (c + m - leading p l)).filter (hit p) = [] :=
    filter_eq_nil_of_miss hmiss
  refine page_eq_some_iff.mpr ⟨by omega, ?_, ?_, ?_⟩
  · intro x hx
    exact hsome x (List.mem_of_mem_drop (List.mem_of_mem_take hx))
  · rw [hsplit, List.filter_append, hnone, List.append_nil, List.filter_eq_self.mpr hfound]
  · rw [if_neg (by omega), List.length_take, List.length_drop]
    omega

theorem loop_of_end (hm : 0 < m) (hne : l ≠ []) (hend : l.length ≤ lastStart p m l + m)
    (hsome : ∀ x ∈ l, (p x).isSome = true) : Loop (page p m l) 0 (l.filter (hit p)) := by
  rw [loop_lastStart_iff hm hne]
  exact ⟨_, (take_append_filter lastStart_le).symm, loop_end (lastStart_lt hne) hend hsome⟩

theorem Pageable.loop (hm : 0 < m) (h : Pageable p m l) : Loop (page p m l) 0 (l.filter (hit p)) := by
  obtain ⟨hne, ⟨hnone, hsome⟩ | ⟨hsome, hend | ⟨hlt, hend, hmiss⟩⟩⟩ := h
  · rw [filter_eq_nil_of_miss hnone]
    refine .last (page_eq_some_iff.mpr ⟨List.length_pos_of_ne_nil hne, hsome, ?_, (ite_self 0).symm⟩)
    exact (filter_eq_nil_of_miss fun x hx => hnone x (List.mem_of_mem_take hx)).symm
  · exact loop_of_end hm hne hend hsome
  · by_cases hlast : l.length ≤ lastStart p m l + m
    · exact loop_of_end hm hne hlast hsome
    · have hz : lastStart p m l + (leading p l - lastStart p m l) = leading p l := Nat.add_sub_cancel' hlt.le
      have hz' : leading p l < lastStart p m l + m := leading_lt hm (by omega)
      have hpage := page_first hlt.le hz' (by omega) hsome hmiss
      rw [loop_lastStart_iff hm hne]
      refine ⟨_, ?_, .more hpage (by omega) (loop_end (by omega) hend hsome)⟩
      rw [← List.append_assoc, ← List.take_add, hz, take_append_filter le_rfl]

/-- The element at a position that is not the end is on the page that starts there. -/
theorem exists_mem_window (h : j < l.length) : ∃ x, ∀ k, 0 < k → x ∈ (l.drop j).take k := by
  refine ⟨l.get ⟨j, h⟩, fun k hk => ?_⟩
  obtain ⟨k, rfl⟩ := Nat.exists_eq_succ_of_ne_zero hk.ne'
  rw [List.drop_eq_getElem_cons h, List.take_succ_cons]
  exact List.mem_cons_self

/-- The page on which the first element is not found is the last one. -/
theorem length_le_of_loop (hloop : Loop (page p m l) (leading p l) out) (hnodup : out.Nodup)
    (hpos : leading p l ≠ 0) : l.length ≤ leading p l + m := by
  obtain ⟨w, c', hpage, _⟩ := hloop.exists_call
  obtain ⟨hlt, _, _, hc'⟩ := page_eq_some_iff.mp hpage
  by_contra hend
  rw [if_neg hend] at hc'
  subst hc'
  by_cases hzero : w = []
  · subst hzero
    exact not_loop_of_stuck hpage hpos hloop
  · obtain ⟨out', rfl, hnext⟩ := hloop.of_ne_zero hpage (by omega)
    obtain ⟨hfound, _⟩ := found_first hpage (by omega) hnext hnodup
    obtain ⟨x, rest, hdrop, hmiss⟩ := exists_miss hlt
    obtain ⟨k, hk⟩ := Nat.exists_eq_succ_of_ne_zero (mt List.eq_nil_of_length_eq_zero hzero)
    rw [hdrop, hk, List.take_succ_cons] at hfound
    rw [hfound x List.mem_cons_self] at hmiss
    cases hmiss

/-- A page before the last one, on which something is found, is followed by the one that starts at the first
element that is not found. -/
theorem leading_eq (hpage : page p m l c = some (w, c + w.length)) (hle : c ≤ leading p l)
    (hz : leading p l < c + m) (hlt : c + m < l.length) (hnext : Loop (page p m l) (c + w.length) out)
    (hnodup : (w ++ out).Nodup) : leading p l = c + w.length := by
  obtain ⟨hfound, hmiss⟩ := found_first hpage hlt hnext hnodup
  have hw : w.length ≤ m := page_length_le hpage
  apply Nat.le_antisymm
  · by_contra hgt
    obtain ⟨x, hx⟩ := exists_mem_window (l := l) (j := c + w.length) (by omega)
    have hin : x ∈ l.take (c + w.length + (leading p l - (c + w.length))) := by
      rw [List.take_add]
      exact List.mem_append_right _ (hx _ (by omega))
    have hhit := hit_of_mem_take (p := p) (by omega) hin
    rw [hmiss x (hx _ (by omega))] at hhit
    cases hhit
  · refine le_leading (by omega) ?_
    intro x hx
    rw [List.take_add] at hx
    rcases List.mem_append.mp hx with hx | hx
    · exact hit_of_mem_take hle hx
    · exact hfound x hx

/-- Where a page reaches the end, and all in front of it is found, everything has a result. -/
theorem isSome_of_window (hj : j ≤ leading p l) (hend : l.length ≤ j + m)
    (hwindow : ∀ x ∈ window m l j, (p x).isSome = true) : ∀ x ∈ l, (p x).isSome = true := by
  intro x hx
  rw [window, List.take_of_length_le (by rw [List.length_drop]; omega)] at hwindow
  rw [← List.take_append_drop j l] at hx
  rcases List.mem_append.mp hx with hx | hx
  · exact isSome_of_hit (hit_of_mem_take hj hx)
  · exact hwindow x hx

theorem pageable_of_loop (hm : 0 < m) (hloop : Loop (page p m l) 0 out) (hfinds : Finds p l out) :
    Pageable p m l := by
  obtain ⟨hnodup, hmem⟩ := hfinds
  obtain ⟨w₀, c₀, hpage₀, _⟩ := hloop.exists_call
  have hne : l ≠ [] := List.ne_nil_of_length_pos (Nat.zero_lt_of_lt (page_eq_some_iff.mp hpage₀).1)
  refine ⟨hne, ?_⟩
  obtain ⟨out', rfl, hloop'⟩ := (loop_lastStart_iff hm hne out).mp hloop
  obtain ⟨w, c', hpage, _⟩ := hloop'.exists_call
  obtain ⟨hlt, hwindow, hw, hc'⟩ := page_eq_some_iff.mp hpage
  have hle : lastStart p m l ≤ leading p l := lastStart_le
  by_cases hend : l.length ≤ lastStart p m l + m
  · exact .inr ⟨isSome_of_window hle hend hwindow, .inl hend⟩
  rw [if_neg hend] at hc'
  subst hc'
  by_cases hzero : w = []
  · subst hzero
    by_cases hstart : lastStart p m l = 0
    · rw [hstart] at hpage hloop' hwindow hmem
      rw [hloop'.of_zero hpage] at hmem
      refine .inl ⟨?_, hwindow⟩
      intro x hx
      by_contra hhit
      exact List.not_mem_nil ((hmem x).mpr ⟨hx, Bool.eq_true_of_not_eq_false hhit⟩)
    · exact absurd hloop' (not_loop_of_stuck hpage hstart)
  · have hpos : 0 < w.length := List.length_pos_of_ne_nil hzero
    obtain ⟨out'', rfl, hnext⟩ := hloop'.of_ne_zero hpage (by omega)
    have hnodup' : (w ++ out'').Nodup := hnodup.of_append_right
    have hmiss := (found_first hpage (by omega) hnext hnodup').2
    have hz : leading p l = lastStart p m l + w.length :=
      leading_eq hpage hle (leading_lt hm (by omega)) (by omega) hnext hnodup'
    rw [← hz] at hnext hmiss
    have hend' : l.length ≤ leading p l + m := length_le_of_loop hnext hnodup'.of_append_right (by omega)
    obtain ⟨w', c', hpage', _⟩ := hnext.exists_call
    have hwindow' := (page_eq_some_iff.mp hpage').2.1
    refine .inr ⟨isSome_of_window le_rfl hend' hwindow', .inr ⟨by omega, hend', ?_⟩⟩
    rwa [show lastStart p m l + m - leading p l = m - w.length by omega]

/-- **The calls end and find everything once** in a list that is pageable, and in no other. -/
theorem loop_iff_pageable (hm : 0 < m) (hl : l.Nodup) :
    (∃ out, Loop (page p m l) 0 out ∧ Finds p l out) ↔ Pageable p m l := by
  constructor
  · rintro ⟨out, hloop, hfinds⟩
    exact pageable_of_loop hm hloop hfinds
  · intro h
    exact ⟨l.filter (hit p), h.loop hm, finds_filter hl⟩

end Paging
