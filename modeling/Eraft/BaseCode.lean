import Mathlib.Tactic

/-! Codes that end by themselves. The bytes of one value are never the beginning of those of another one
with something behind it, so that a stream of them is taken apart in one way only. -/

namespace Code

variable {α β : Type*}

/-- The code words of the values that satisfy `p` end by themselves. -/
def Delimited (p : α → Prop) (enc : α → List β) : Prop :=
  ∀ a b, p a → p b → ∀ x y, enc a ++ x = enc b ++ y → a = b ∧ x = y

/-- A text without the separator is found in front of the first one. -/
theorem append_sep_inj {sep : β} {a b x y : List β} (ha : sep ∉ a) (hb : sep ∉ b)
    (h : a ++ sep :: x = b ++ sep :: y) : a = b ∧ x = y := by
  induction a generalizing b with
  | nil =>
      cases b with
      | nil => exact ⟨rfl, (List.cons.inj h).2⟩
      | cons c b => exact absurd ((List.cons.inj h).1 ▸ List.mem_cons_self) hb
  | cons c a ih =>
      cases b with
      | nil => exact absurd ((List.cons.inj h).1 ▸ List.mem_cons_self) ha
      | cons d b =>
          obtain ⟨rfl, hrest⟩ := List.cons.inj h
          obtain ⟨rfl, hxy⟩ := ih (List.not_mem_of_not_mem_cons ha) (List.not_mem_of_not_mem_cons hb) hrest
          exact ⟨rfl, hxy⟩

variable {p : α → Prop} {enc : α → List β} {l l' : List α}

/-- As many values from the one stream as from the other. -/
theorem Delimited.flatMap (h : Delimited p enc) (hl : ∀ a ∈ l, p a) (hl' : ∀ a ∈ l', p a)
    (hlen : l.length = l'.length) {x y : List β} (heq : l.flatMap enc ++ x = l'.flatMap enc ++ y) :
    l = l' ∧ x = y := by
  induction l generalizing l' with
  | nil =>
      obtain rfl := List.length_eq_zero_iff.mp hlen.symm
      exact ⟨rfl, heq⟩
  | cons a l ih =>
      obtain ⟨b, l', rfl⟩ := List.exists_cons_of_length_eq_add_one hlen.symm
      rw [List.forall_mem_cons] at hl hl'
      rw [List.flatMap_cons, List.flatMap_cons, List.append_assoc, List.append_assoc] at heq
      obtain ⟨rfl, hrest⟩ := h a b hl.1 hl'.1 _ _ heq
      obtain ⟨rfl, hxy⟩ := ih hl.2 hl'.2 (Nat.succ.inj hlen) hrest
      exact ⟨rfl, hxy⟩

/-- **A stream that begins with complete values begins with no others.** -/
theorem Delimited.isPrefix (h : Delimited p enc) (hne : ∀ a, p a → enc a ≠ [])
    (hl : ∀ a ∈ l, p a) (hl' : ∀ a ∈ l', p a) (hpre : l.flatMap enc <+: l'.flatMap enc) : l <+: l' := by
  induction l generalizing l' with
  | nil => exact List.nil_prefix
  | cons a l ih =>
      rw [List.forall_mem_cons] at hl
      cases l' with
      | nil =>
          rw [List.flatMap_nil, List.prefix_nil, List.flatMap_cons] at hpre
          exact absurd (List.append_eq_nil_iff.mp hpre).1 (hne a hl.1)
      | cons b l' =>
          rw [List.forall_mem_cons] at hl'
          obtain ⟨x, hx⟩ := hpre
          rw [List.flatMap_cons, List.flatMap_cons, List.append_assoc] at hx
          obtain ⟨rfl, hrest⟩ := h a b hl.1 hl'.1 _ _ hx
          exact List.cons_prefix_cons.mpr ⟨rfl, ih hl.2 hl'.2 ⟨x, hrest⟩⟩

end Code
