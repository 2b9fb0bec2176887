import Eraft.NodeLog
import Eraft.BaseRetry

/-! The search for the index at which a leader's log `L` and a follower's log `F` meet, as the leader's
`next` and the follower's rejections make it. A probe at `p` is an append with the previous index `p`.
A rejection tells the term at `p` in `F`; the leader goes two entries down, or, if this is the term of
its own last entry but one, all the way back to that entry. -/

open TermLog Retry

namespace Eraft.Repair

/-- The term of the entry with index `i`, and 0 in front of the log. -/
def termAt (l : List Entry) (i : Nat) : Nat := lastTerm Entry.term (l.take i)

/-- One probe: it is accepted, or the next one is at another index. Where `F` has a term that is not
below the last one of `L`, the leader reads a variable it has not set. -/
def probe (L F : List Entry) (p : Nat) : Option (Nat ⊕ Unit) :=
  if F.length < p then some (.inl F.length)
  else if p = 0 ∨ termAt F p = termAt L p then some (.inr ())
  else if p = 1 then some (.inl 1)
  else if termAt F p = 0 then some (.inl (p - 2))
  else if termAt L L.length ≤ termAt F p then none
  else if termAt F p = termAt L (L.length - 1) then some (.inl (L.length - 1))
  else some (.inl (p - 2))

section

variable (L F : List Entry)

/-- Both logs have an entry with index `q`, of different terms. -/
def Conflict (q : Nat) : Prop := 0 < q ∧ q ≤ F.length ∧ termAt F q ≠ termAt L q

/-- The rejection of a probe at `q` takes the leader two entries down. -/
def Clear (q : Nat) : Prop :=
  2 ≤ q ∧ (termAt F q = 0 ∨
    (termAt F q < termAt L L.length ∧ termAt F q ≠ termAt L (L.length - 1)))

/-- The rejection of a probe at `q` takes the leader to its last entry but one. -/
def Jumps (q : Nat) : Prop :=
  2 ≤ q ∧ termAt F q ≠ 0 ∧ termAt F q < termAt L L.length ∧ termAt F q = termAt L (L.length - 1)

/-- On the way down from `p` in steps of two, every conflict above `q` is cleared. -/
def Descends (p q : Nat) : Prop :=
  ∀ r ≤ p, q < r → r % 2 = p % 2 → Conflict L F r → Clear L F r

/-- The search that starts at `p` comes to an end: at once, or after one jump. -/
def Repairable (p : Nat) : Prop :=
  Descends L F p 0 ∨ ((∃ q ≤ p, q % 2 = p % 2 ∧ Conflict L F q ∧ Jumps L F q ∧ Descends L F p q) ∧
    Descends L F (min (L.length - 1) F.length) 0)

end

variable {L F : List Entry} {p q : Nat}

instance (q : Nat) : Decidable (Conflict L F q) := inferInstanceAs (Decidable (_ ∧ _))

instance (q : Nat) : Decidable (Clear L F q) := inferInstanceAs (Decidable (_ ∧ _))

instance (q : Nat) : Decidable (Jumps L F q) := inferInstanceAs (Decidable (_ ∧ _))

instance (p q : Nat) : Decidable (Descends L F p q) := by
  unfold Descends
  infer_instance

instance (p : Nat) : Decidable (Repairable L F p) := by
  unfold Repairable
  infer_instance

/-- The outcome of every probe. -/
theorem probe_cases (L F : List Entry) (p : Nat) :
    (F.length < p ∧ probe L F p = some (.inl F.length)) ∨
    (p ≤ F.length ∧ ¬Conflict L F p ∧ probe L F p = some (.inr ())) ∨
    (Conflict L F p ∧ Clear L F p ∧ probe L F p = some (.inl (p - 2))) ∨
    (Conflict L F p ∧ Jumps L F p ∧ probe L F p = some (.inl (L.length - 1))) ∨
    (Conflict L F p ∧ ¬Clear L F p ∧ ¬Jumps L F p ∧
      (probe L F p = none ∨ probe L F p = some (.inl p))) := by
  unfold Conflict Clear Jumps probe
  split_ifs with hbeyond hagree hone hzero hlate hjump
  · exact .inl ⟨hbeyond, rfl⟩
  · refine .inr (.inl ⟨Nat.le_of_not_lt hbeyond, fun hconf => ?_, rfl⟩)
    omega
  · subst hone
    refine .inr (.inr (.inr (.inr ⟨?_, by omega, by omega, .inr rfl⟩)))
    omega
  · refine .inr (.inr (.inl ⟨?_, ?_, rfl⟩)) <;> omega
  · refine .inr (.inr (.inr (.inr ⟨?_, ?_, ?_, .inl rfl⟩))) <;> omega
  · refine .inr (.inr (.inr (.inl ⟨?_, ?_, rfl⟩))) <;> omega
  · refine .inr (.inr (.inl ⟨?_, ?_, rfl⟩)) <;> omega

/-- Below an index at which the logs agree they agree everywhere. -/
theorem Conflict.mono (h : Conflict L F q) (hmatch : Matching Entry.term F L) (hqp : q ≤ p)
    (hpL : p ≤ L.length) (hpF : p ≤ F.length) : Conflict L F p := by
  obtain ⟨hpos, _, hne⟩ := h
  refine ⟨by omega, hpF, fun hagree => hne ?_⟩
  have htake := hmatch p (by omega) hpF hpL hagree
  have hq : ∀ l : List Entry, l.take q = (l.take p).take q := fun l => by
    rw [List.take_take, Nat.min_eq_left hqp]
  rw [termAt, termAt, hq F, hq L, htake]

theorem Jumps.not_clear (h : Jumps L F q) : ¬Clear L F q := by
  unfold Jumps at h
  unfold Clear
  omega

/-- A search that meets only cleared conflicts ends where it meets none, or goes on from `q`. -/
theorem Descends.ends (h : Descends L F p q) (hqp : q ≤ p) (hparity : q % 2 = p % 2)
    (hpF : p ≤ F.length) (hend : Ends (probe L F) q ()) : Ends (probe L F) p () := by
  induction p using Nat.strong_induction_on with
  | _ p ih =>
      rcases Nat.eq_or_lt_of_le hqp with rfl | hlt
      · exact hend
      · rcases probe_cases L F p with ⟨hbeyond, _⟩ | ⟨_, _, haccept⟩ | ⟨_, _, hdown⟩ | hbad | hbad
        · omega
        · exact .done haccept
        · refine .again hdown (ih (p - 2) (by omega) ?_ (by omega) (by omega) (by omega))
          intro r hr hqr hpar hconf
          exact h r (by omega) hqr (by omega) hconf
        · exact absurd (h p le_rfl hlt rfl hbad.1) hbad.2.1.not_clear
        · exact absurd (h p le_rfl hlt rfl hbad.1) hbad.2.1

theorem Descends.settles (h : Descends L F p 0) (hpF : p ≤ F.length) : Ends (probe L F) p () := by
  have hdesc : Descends L F p (p % 2) := fun r hr hlt => h r hr (by omega)
  refine hdesc.ends (Nat.mod_le p 2) (Nat.mod_mod p 2) hpF ?_
  -- a conflict at index 1 is never cleared, and the front of the log is no conflict
  have hnone : ¬Conflict L F (p % 2) := fun hconf => by
    obtain ⟨htwo, _⟩ := h _ (Nat.mod_le p 2) hconf.1 (Nat.mod_mod p 2) hconf
    omega
  have hle := Nat.mod_le p 2
  rcases probe_cases L F (p % 2) with ⟨hbeyond, _⟩ | ⟨_, _, haccept⟩ | hbad | hbad | hbad
  · omega
  · exact .done haccept
  · exact absurd hbad.1 hnone
  · exact absurd hbad.1 hnone
  · exact absurd hbad.1 hnone

/-- A probe beyond the end of `F` leads to its end. -/
theorem ends_of_min (h : Ends (probe L F) (min p F.length) ()) : Ends (probe L F) p () := by
  rcases Nat.lt_or_ge F.length p with hlt | hge
  · rw [Nat.min_eq_right hlt.le] at h
    refine .again ?_ h
    rw [probe, if_pos hlt]
  · rwa [Nat.min_eq_left hge] at h

theorem Repairable.settles (h : Repairable L F p) (hpF : p ≤ F.length) : Ends (probe L F) p () := by
  rcases h with h | ⟨⟨q, hqp, hparity, hconf, hjumps, hdesc⟩, h⟩
  · exact h.settles hpF
  · refine hdesc.ends hqp hparity hpF ?_
    have hback := h.settles (Nat.min_le_right _ _)
    rcases probe_cases L F q with ⟨hbeyond, _⟩ | ⟨_, hnone, _⟩ | ⟨_, hclear, _⟩ | ⟨_, _, hjump⟩ | hbad
    · omega
    · exact absurd hconf hnone
    · exact absurd hclear hjumps.not_clear
    · exact .again hjump (ends_of_min hback)
    · exact absurd hjumps hbad.2.2.1

/-- Where a probe is cleared, the search is repairable if it is from two entries down. -/
theorem Repairable.of_clear (hclear : Clear L F p) (h : Repairable L F (p - 2)) : Repairable L F p := by
  have htwo := hclear.1
  have hdesc : ∀ {q}, Descends L F (p - 2) q → Descends L F p q := by
    intro q h r hr hlt hparity hconf
    rcases Nat.eq_or_lt_of_le hr with rfl | hrp
    · exact hclear
    · exact h r (by omega) hlt (by omega) hconf
  rcases h with h | ⟨⟨q, hqp, hparity, hconf, hjumps, h⟩, hback⟩
  · exact .inl (hdesc h)
  · exact .inr ⟨⟨q, by omega, by omega, hconf, hjumps, hdesc h⟩, hback⟩

/-- A search that ends is a repairable one. -/
theorem Repairable.of_ends (hmatch : Matching Entry.term F L) {u : Unit}
    (hend : Ends (probe L F) p u) (hpL : p ≤ L.length) : Repairable L F (min p F.length) := by
  induction hend with
  | @done p _ haccept =>
      rcases probe_cases L F p with ⟨_, hprobe⟩ | ⟨hpF, hnone, _⟩ | ⟨_, _, hprobe⟩ | ⟨_, _, hprobe⟩ |
        ⟨_, _, _, hprobe | hprobe⟩
      case inr.inl =>
        rw [Nat.min_eq_left hpF]
        exact .inl fun r hr _ _ hconf => absurd (hconf.mono hmatch hr hpL hpF) hnone
      all_goals cases hprobe.symm.trans haccept
  | @again p _ _ hnext _ ih =>
      rcases probe_cases L F p with ⟨hbeyond, hprobe⟩ | ⟨_, _, hprobe⟩ | ⟨hconf, hclear, hprobe⟩ |
        ⟨hconf, hjumps, hprobe⟩ | ⟨_, _, _, hprobe | hprobe⟩
      all_goals cases hprobe.symm.trans hnext
      · rw [Nat.min_eq_right hbeyond.le]
        have hmin := ih (by omega)
        rwa [Nat.min_self] at hmin
      · have hpF := hconf.2.1
        rw [Nat.min_eq_left hpF]
        have hmin := ih (by omega)
        rw [Nat.min_eq_left (by omega)] at hmin
        exact hmin.of_clear hclear
      · rw [Nat.min_eq_left hconf.2.1]
        have hback : Descends L F (min (L.length - 1) F.length) 0 := by
          rcases ih (Nat.sub_le _ _) with h | ⟨_, h⟩ <;> exact h
        exact .inr ⟨⟨p, le_rfl, rfl, hconf, hjumps, fun r hr hlt => by omega⟩, hback⟩
      · exact ih hpL

/-- **The search ends exactly for repairable logs.** -/
theorem ends_probe_iff (hmatch : Matching Entry.term F L) (hpL : p ≤ L.length) :
    Ends (probe L F) p () ↔ Repairable L F (min p F.length) := by
  refine ⟨fun hend => .of_ends hmatch hend hpL, fun h => ends_of_min ?_⟩
  exact h.settles (Nat.min_le_right _ _)

end Eraft.Repair
