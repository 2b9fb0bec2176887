import Eraft.NodeSend

/-! The state in which the constructor leaves a node. -/

open Std

namespace Eraft.RaftContext

/-- A node as the constructor leaves it. -/
def Built (s : RaftContext) : Prop :=
  ∃ c rand transferElapsed pendingConfIndex, new c rand transferElapsed pendingConfIndex = some s

/-- What the constructor makes of a configuration. -/
structure Initial (c : Config) (s : RaftContext) : Prop where
  valid : c.validate = true
  id : s.id = c.id
  term : s.term = c.storage.hardState.term
  vote : s.vote = c.storage.hardState.vote
  state : s.state = .stateFollower
  lead : s.lead = NONE
  msgs : s.msgs = []
  raftLog : ∃ l applied, RaftLog.new c.storage c.storage.hardState.commit = some l ∧
    s.raftLog = { l with applied := applied }
  progress : ∀ (k : Nat) p, s.prs[k]? = some p → ∃ pr, p = some pr

/-- A loop that inserts non-null pointers leaves only such behind. -/
theorem foldl_insert_isSome (f : Nat → Progress) (keys : List Nat)
    (prs : ExtTreeMap Nat (Option Progress)) (hprs : ∀ (k : Nat) p, prs[k]? = some p → ∃ pr, p = some pr)
    (k : Nat) (p : Option Progress)
    (h : (keys.foldl (fun prs peer => prs.insert peer (some (f peer))) prs)[k]? = some p) :
    ∃ pr, p = some pr := by
  induction keys generalizing prs with
  | nil => exact hprs k p h
  | cons key keys ih =>
      refine ih _ ?_ h
      intro k' p' hp'
      rw [ExtTreeMap.getElem?_insert] at hp'
      split_ifs at hp' with hk
      · cases hp'
        exact ⟨_, rfl⟩
      · exact hprs k' p' hp'

theorem new_spec {c : Config} {rand te pc : Nat} {s : RaftContext} (h : new c rand te pc = some s) :
    Initial c s := by
  unfold new at h
  by_cases hvalid : c.validate = true
  · rw [if_pos hvalid] at h
    simp only [MemoryStorage.initialState, Option.bind_eq_bind, Option.bind_eq_some_iff] at h
    obtain ⟨l, hl, h⟩ := h
    cases h
    refine ⟨hvalid, rfl, rfl, rfl, rfl, rfl, rfl, ?_, ?_⟩
    · refine ⟨l, if 0 < c.applied then c.applied else l.applied, hl, ?_⟩
      split_ifs <;> rfl
    · intro k p hp
      refine foldl_insert_isSome _ _ ∅ ?_ k p hp
      intro k' p' hp'
      rw [ExtTreeMap.getElem?_empty] at hp'
      cases hp'
  · rw [if_neg hvalid] at h
    cases h

/-- At a first start the log is as its constructor leaves it. -/
theorem new_raftLog {c : Config} {rand te pc : Nat} {s : RaftContext} (h : new c rand te pc = some s)
    (happlied : c.applied = 0) : RaftLog.new c.storage c.storage.hardState.commit = some s.raftLog := by
  unfold new at h
  rw [if_pos (new_spec h).valid] at h
  obtain ⟨l, hl, h⟩ := Option.bind_eq_some_iff.mp h
  cases h
  rw [happlied, if_neg (Nat.lt_irrefl 0)]
  exact hl

theorem Initial.id_ne {c : Config} {s : RaftContext} (h : Initial c s) : s.id ≠ NONE := by
  have hvalid := h.valid
  simp only [Config.validate, Bool.and_eq_true, decide_eq_true_eq] at hvalid
  rw [h.id]
  exact hvalid.1.1

end Eraft.RaftContext
