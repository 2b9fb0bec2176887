import Eraft.NodeSnapshot
import Eraft.NodeStable

/-! The commit index across `Step`. It is assigned in five places. `LeaderCommit`, the shortcuts of a
cluster of one and `HandleSnapshot` only raise it; `HandleAppendEntries` caps the leader's commit index
by the end of the message, a sum that may wrap around, and the cap may lie below the follower's own
commit index. -/

open Std

namespace Eraft.RaftContext

variable {s s' : RaftContext} {m : Message} {rand : Nat}

/-- The commit index has not gone back, and nothing beyond it is applied. -/
def CommitKept (s s' : RaftContext) : Prop :=
  s.raftLog.commited ≤ s'.raftLog.commited ∧ s'.raftLog.applied ≤ s'.raftLog.commited

/-- What is applied is committed, and what is committed is in the log. A node that is alone commits what
it appends at once; the index of its next entry is still a 64-bit number. -/
structure CommitInside (s : RaftContext) : Prop where
  applied : s.raftLog.applied ≤ s.raftLog.commited
  commited : s.raftLog.commited ≤ s.raftLog.lastIndex
  alone : s.prs.size = 1 → s.raftLog.lastIndex + 1 < 2 ^ 64

/-- An acceptable append of a leader that has committed more, which ends in front of the commit index;
the end is computed modulo `2 ^ 64`. -/
structure Lowers (s : RaftContext) (m : Message) : Prop where
  msgType : m.msgType = .msgAppend
  acceptable : Acceptable s m
  ahead : s.raftLog.commited < m.commit
  short : u64Add m.index m.entries.length < s.raftLog.commited

theorem current_observeTerm : Current (s.observeTerm m) m ↔ Current s m := by
  rcases observeTerm_cases s m with ⟨_, hsame⟩ | ⟨hlt, hterm, _⟩
  · rw [hsame]
  · unfold Current
    rw [hterm]
    omega

theorem acceptable_observeTerm : Acceptable (s.observeTerm m) m ↔ Acceptable s m := by
  constructor <;> intro h
  · have hreach := h.reach
    have hagrees := h.agrees
    rw [observeTerm_raftLog] at hreach hagrees
    exact ⟨current_observeTerm.mp h.current, hreach, hagrees⟩
  · refine ⟨current_observeTerm.mpr h.current, ?_, ?_⟩ <;> rw [observeTerm_raftLog]
    · exact h.reach
    · exact h.agrees

theorem Lowers.commited_lt (h : Lowers s m) (hs' : s.step m rand = some s') :
    s'.raftLog.commited < s.raftLog.commited := by
  have hlog : ((s.observeTerm m).fallback m).raftLog = s.raftLog :=
    fallback_raftLog.trans (observeTerm_raftLog s m)
  have hacc : Acceptable ((s.observeTerm m).fallback m) m := by
    obtain ⟨hcurrent, hreach, hagrees⟩ := acceptable_observeTerm.mpr h.acceptable
    refine ⟨?_, ?_, ?_⟩
    · unfold Current
      rw [fallback_term]
      exact hcurrent
    · rw [fallback_raftLog]
      exact hreach
    · rw [fallback_raftLog]
      exact hagrees
  rw [step_msgAppend h.msgType, hacc.handleAppendEntries] at hs'
  obtain ⟨l, hl, hs'⟩ := Option.bind_eq_some_iff.mp hs'
  cases hs'
  have hcommit : l.commited = s.raftLog.commited := (appendLoop_sameBase hl).2.trans (by rw [← hlog]; rfl)
  show (followCommit l m).commited < s.raftLog.commited
  rw [followCommit, if_pos (hcommit ▸ h.ahead)]
  exact (Nat.min_le_right _ _).trans_lt h.short

/-- The end of the log does not go back with a proposal. -/
theorem lastIndex_le_proposeLoop (s : RaftContext) (entries : List Entry) :
    s.raftLog.lastIndex ≤ (proposeLoop s.raftLog.lastIndex entries s).raftLog.lastIndex := by
  obtain ⟨_, added, hcore, _, hadded⟩ := proposeLoop_spec s.raftLog.lastIndex entries s
  rw [hcore.raftLog]
  cases hlast : added.getLast? with
  | none =>
      rw [List.getLast?_eq_none_iff.mp hlast, List.append_nil]
  | some e =>
      have hindex := (hadded e (List.mem_of_getLast? hlast)).2
      have hend : (s.raftLog.entries ++ added).getLast? = some e := by
        rw [List.getLast?_append, hlast]
        rfl
      unfold RaftLog.lastIndex at hindex ⊢
      simp only [hend, hindex]
      exact Nat.le_succ _

/-- Every other assignment raises the commit index. -/
theorem CoreStep.commited_le (h : CoreStep s m s') (hsnap : m.msgType ≠ .msgSnapshot)
    (hcommit : s.raftLog.commited ≤ s.raftLog.lastIndex) (hnot : ¬Lowers s m) :
    s.raftLog.commited ≤ s'.raftLog.commited := by
  cases h with
  | same h | grant _ _ _ h | record _ _ _ h | nack _ _ _ _ _ _ _ h | ack _ _ _ _ _ _ h
  | phantom _ _ _ h | campaign _ _ _ h | lose _ _ _ _ _ h => exact (congrArg RaftLog.commited h.raftLog).ge
  | follow _ _ h =>
      rw [h.raftLog]
      exact (congrArg RaftLog.commited fallback_raftLog).ge
  | append hacc h =>
      obtain ⟨l, hl, hs'⟩ := hacc.merged
      have hsame := (appendLoop_sameBase hl).2
      rw [hs', followCommit]
      split_ifs with hahead
      · refine Nat.le_min.mpr ⟨(hsame ▸ hahead).le, Nat.le_of_not_lt fun hshort => hnot ?_⟩
        exact ⟨hacc.msgType, ⟨hacc.current, hacc.reach, hacc.agrees⟩, hsame ▸ hahead, hshort⟩
      · exact hsame.ge
  | alone _ _ _ h | win _ _ _ _ h =>
      rw [h.raftLog]
      simp only [elected]
      split_ifs
      · exact hcommit.trans (Nat.le_succ _)
      · exact le_rfl
  | propose _ _ h =>
      have hlast := lastIndex_le_proposeLoop s m.entries
      obtain ⟨_, added, hcore, _⟩ := proposeLoop_spec s.raftLog.lastIndex m.entries s
      rw [h.raftLog]
      simp only [proposed]
      split_ifs
      · exact hcommit.trans hlast
      · exact (congrArg RaftLog.commited hcore.raftLog).ge
  | commit _ _ _ _ _ _ hraise h =>
      rw [h.raftLog]
      exact hraise.above.le
  | snapshot hm => exact absurd hm hsnap

theorem handleSnapshot_commitKept (happlied : s.raftLog.applied ≤ s.raftLog.commited) :
    CommitKept s (s.handleSnapshot m) := by
  by_cases hahead : s.raftLog.commited < m.snapshot.metadata.index
  · unfold CommitKept
    rw [(takenIn_handleSnapshot hahead).raftLog]
    exact ⟨hahead.le, le_rfl⟩
  · rw [handleSnapshot]
    dsimp only
    rw [if_pos (Nat.le_of_not_lt hahead)]
    exact ⟨le_rfl, happlied⟩

/-- **The commit index goes back** exactly with an acceptable append that ends in front of it. -/
theorem step_commitKept_iff (hinside : CommitInside s) (h : s.step m rand = some s') :
    CommitKept s s' ↔ ¬Lowers s m := by
  obtain ⟨happlied, hcommit, _⟩ := hinside
  constructor
  · intro hkept hlowers
    exact absurd hkept.1 (Nat.not_le.mpr (hlowers.commited_lt h))
  · intro hnot
    by_cases hsnap : m.msgType = .msgSnapshot
    · cases Option.some.inj ((step_snapshot hsnap rand).symm.trans h)
      have hkept : CommitKept (s.observeTerm m) ((s.observeTerm m).handleSnapshot m) :=
        handleSnapshot_commitKept (by rw [observeTerm_raftLog]; exact happlied)
      rwa [CommitKept, observeTerm_raftLog] at hkept
    · rcases step_outcome h with ⟨hcore, _⟩ | ⟨rfl, _⟩
      · have hnot' : ¬Lowers (s.observeTerm m) m := by
          rintro ⟨hm, hacc, hahead, hshort⟩
          rw [observeTerm_raftLog] at hahead hshort
          exact hnot ⟨hm, acceptable_observeTerm.mp hacc, hahead, hshort⟩
        have hle := hcore.commited_le hsnap (by rw [observeTerm_raftLog]; exact hcommit) hnot'
        have hsame := (hcore.sameBase hsnap).applied
        rw [observeTerm_raftLog] at hle hsame
        exact ⟨hle, by rw [hsame]; exact happlied.trans hle⟩
      · exact ⟨le_rfl, happlied⟩

/-- A follower that has applied its three entries. -/
def appliedFollower : RaftContext :=
  { compactedFollower with
      raftLog := { storage := .new, pendingSnapshot := {}, commited := 3, applied := 3, stabled := 0
                   firstIndex := 1
                   entries := [{ term := 1, index := 1 }, { term := 1, index := 2 }, { term := 1, index := 3 }] } }

/-- The entry behind `index`, from a leader that has committed 5 entries. -/
def oneEntry (index : Nat) : Message :=
  { msgType := .msgAppend, fromId := 2, term := 1, logTerm := 1, index := index, commit := 5
    entries := [{ term := 1, index := index + 1 }] }

theorem appliedFollower_inside : CommitInside appliedFollower := ⟨by decide, by decide, by decide⟩

theorem step_commitKept_next : ∃ s', appliedFollower.step (oneEntry 3) 0 = some s' ∧
    CommitKept appliedFollower s' := by
  have hrun : (appliedFollower.step (oneEntry 3) 0).isSome = true := by decide +kernel
  obtain ⟨s', hs'⟩ := Option.isSome_iff_exists.mp hrun
  refine ⟨s', hs', (step_commitKept_iff appliedFollower_inside hs').mpr fun h => ?_⟩
  exact absurd h.short (by decide)

/-- The second entry, sent again, takes the commit index back to 2. -/
theorem not_step_commitKept : CommitInside appliedFollower ∧
    ∃ s', appliedFollower.step (oneEntry 1) 0 = some s' ∧ s'.raftLog.commited = 2 ∧
      s'.raftLog.applied = 3 ∧ ¬CommitKept appliedFollower s' := by
  have hrun : (appliedFollower.step (oneEntry 1) 0).map (fun s' => (s'.raftLog.commited, s'.raftLog.applied)) =
      some (2, 3) := by decide +kernel
  obtain ⟨s', hs', hpair⟩ := Option.map_eq_some_iff.mp hrun
  obtain ⟨hcommit, happlied⟩ := Prod.mk.inj hpair
  refine ⟨appliedFollower_inside, s', hs', hcommit, happlied, fun h => ?_⟩
  have hback := h.1
  rw [hcommit] at hback
  exact absurd hback (by decide)

end Eraft.RaftContext
