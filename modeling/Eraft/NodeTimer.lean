import Eraft.NodeOutcome

/-! The members of a node that neither its log nor its peers have a part in: the election timer and
`pendingConfIndex_`. Sending and committing leave them alone; hearing from a leader, and granting a
vote, restart the timer; a campaign draws a new timeout and leaves what has elapsed; a proposal
writes `pendingConfIndex_`. -/

open Std

namespace Eraft.RaftContext

/-- The election timer and the pending configuration change. -/
structure Aside where
  electionTimeout : Nat
  electionElapsed : Nat
  randomElectionTimeout : Nat
  pendingConfIndex : Nat

def aside (s : RaftContext) : Aside where
  electionTimeout := s.electionTimeout
  electionElapsed := s.electionElapsed
  randomElectionTimeout := s.randomElectionTimeout
  pendingConfIndex := s.pendingConfIndex

/-- A new timeout has been drawn. -/
def Aside.redrawn (a : Aside) (rand : Nat) : Aside :=
  { a with randomElectionTimeout := u64Add a.electionTimeout (randIntn a.electionTimeout rand) }

/-- The timer has been restarted. -/
def Aside.restarted (a : Aside) (rand : Nat) : Aside := { a.redrawn rand with electionElapsed := 0 }

variable {s s' : RaftContext} {m : Message} {peer rand : Nat} {es : List Entry}

theorem bcastAppend_aside (h : s.bcastAppend = some s') : s'.aside = s.aside := by
  obtain ⟨ms, rfl, _⟩ := bcastAppend_spec h
  rfl

theorem sendAppend_aside (h : s.sendAppend peer = some s') : s'.aside = s.aside := by
  obtain ⟨_, _, _, rfl⟩ := sendAppend_spec h
  rfl

theorem commitAlone_aside (h : s.commitAlone = some s') : s'.aside = s.aside := by
  rcases commitAlone_spec h with ⟨_, rfl⟩ | ⟨_, _, _, rfl⟩ <;> rfl

theorem becomeLeader_aside (h : s.becomeLeader = some s') : s'.aside = s.aside := by
  unfold becomeLeader at h
  split_ifs at h
  obtain ⟨t, hsend, h⟩ := Option.bind_eq_some_iff.mp h
  have hsent := bcastAppend_aside hsend
  exact (commitAlone_aside h).trans hsent

theorem handleRequestVoteResponse_aside (h : s.handleRequestVoteResponse m = some s') : s'.aside = s.aside := by
  unfold handleRequestVoteResponse at h
  dsimp only at h
  split_ifs at h
  · cases h
    rfl
  · exact (becomeLeader_aside h).trans rfl
  · cases h
    rfl
  · cases h
    rfl

theorem acceptAppend_aside (h : s.acceptAppend m = some s') : s'.aside = s.aside := by
  obtain ⟨l, _, h⟩ := Option.bind_eq_some_iff.mp h
  cases h
  rfl

theorem rejectAppend_aside {logTerm : Nat} (h : s.rejectAppend m logTerm = some s') : s'.aside = s.aside := by
  unfold rejectAppend at h
  dsimp only at h
  split_ifs at h
  cases h
  rfl

theorem handleSnapshot_aside : (s.handleSnapshot m).aside = s.aside := by
  unfold handleSnapshot
  dsimp only
  split_ifs <;> rfl

theorem leaderCommit_aside (h : s.leaderCommit = some s') : s'.aside = s.aside := by
  rcases leaderCommit_spec h with rfl | ⟨_, _, _, rfl, _⟩ <;> rfl

theorem handleAppendEntriesResponse_aside (h : s.handleAppendEntriesResponse m = some s') :
    s'.aside = s.aside := by
  unfold handleAppendEntriesResponse at h
  split_ifs at h
  · cases h
    rfl
  · cases h
    rfl
  · simp only [Option.bind_eq_bind, Option.bind_eq_some_iff] at h
    obtain ⟨index, _, pr, _, h⟩ := h
    exact (sendAppend_aside h).trans rfl
  · obtain ⟨pr, _, h⟩ := Option.bind_eq_some_iff.mp h
    dsimp only at h
    split_ifs at h
    · obtain ⟨t, ht, h⟩ := Option.bind_eq_some_iff.mp h
      have hcommit := leaderCommit_aside ht
      split_ifs at h <;> cases h <;> exact hcommit.trans rfl
    · cases h
      rfl

theorem handleTransferLeader_aside (h : s.handleTransferLeader m = some s') : s'.aside = s.aside := by
  unfold handleTransferLeader at h
  split_ifs at h
  · cases h
    rfl
  · cases h
    rfl
  · cases hpr : s.progress m.fromId <;> rw [hpr] at h <;> dsimp only at h
    · cases h
      rfl
    · split_ifs at h
      · cases h
        rfl
      · exact (sendAppend_aside h).trans rfl

theorem bcastHeartbeat_aside : s.bcastHeartbeat.aside = s.aside := by
  obtain ⟨ms, hms, _⟩ := bcastHeartbeat_spec s
  rw [hms]
  rfl

theorem observeTerm_aside (s : RaftContext) (m : Message) : (s.observeTerm m).aside = s.aside := by
  unfold observeTerm
  split_ifs <;> rfl

theorem doElection_aside (h : s.doElection rand = some s') : s'.aside = s.aside.redrawn rand := by
  rcases doElection_cases h with ⟨_, h⟩ | ⟨t, found, ms, _, _, rfl, _⟩
  · exact (becomeLeader_aside h).trans rfl
  · rfl

/-- The timer runs on, or has been restarted. -/
def Listens (s : RaftContext) (rand : Nat) (s' : RaftContext) : Prop :=
  s'.aside = s.aside ∨ s'.aside = s.aside.restarted rand

theorem handleRequestVote_listens (h : s.handleRequestVote m rand = some s') : s.Listens rand s' := by
  unfold handleRequestVote at h
  split_ifs at h
  · cases h
    exact .inl rfl
  · cases h
    exact .inl rfl
  · simp only [Option.bind_eq_bind, Option.bind_eq_some_iff] at h
    obtain ⟨resPair, _, h⟩ := h
    split_ifs at h
    · cases h
      exact .inl rfl
    · cases h
      exact .inr rfl

theorem handleAppendEntries_listens (h : s.handleAppendEntries m rand = some s') : s.Listens rand s' := by
  unfold handleAppendEntries at h
  dsimp only at h
  split_ifs at h
  · cases h
    exact .inl rfl
  · cases h
    exact .inr rfl
  · obtain ⟨resPair, _, h⟩ := Option.bind_eq_some_iff.mp h
    split_ifs at h
    · exact .inr (rejectAppend_aside h)
    · exact .inr (acceptAppend_aside h)
  · exact .inr (acceptAppend_aside h)

theorem handleHeartbeat_listens : s.Listens rand (s.handleHeartbeat m rand) := by
  unfold handleHeartbeat
  split_ifs
  · exact .inl rfl
  · exact .inr rfl

theorem Listens.of_aside {t : RaftContext} (h : t.Listens rand s') (ht : t.aside = s.aside) :
    s.Listens rand s' := by
  unfold Listens at h
  rw [ht] at h
  exact h

theorem proposeLoop_aside (n : Nat) (es : List Entry) (s : RaftContext) :
    ∃ k, (proposeLoop n es s).aside = { s.aside with pendingConfIndex := k } := by
  induction es generalizing s with
  | nil => exact ⟨s.pendingConfIndex, rfl⟩
  | cons e rest ih =>
      unfold proposeLoop
      dsimp only
      split_ifs
      · exact ih _
      · exact ih _
      · exact ih _

theorem appendEntries_aside (h : s.appendEntries es = some s') :
    s'.aside = (proposeLoop s.raftLog.lastIndex es s).aside := by
  unfold appendEntries at h
  extract_lets t lastIndex at h
  obtain ⟨_, _, h⟩ := Option.bind_eq_some_iff.mp h
  obtain ⟨t', hsend, h⟩ := Option.bind_eq_some_iff.mp h
  have hsent := bcastAppend_aside hsend
  exact (commitAlone_aside h).trans hsent

/-- The message makes the node campaign. -/
def Campaigns (s : RaftContext) (m : Message) : Prop :=
  (m.msgType = .msgHup ∧ (s.observeTerm m).state ≠ .stateLeader) ∨
    (m.msgType = .msgTimeoutNow ∧ s.prs.contains s.id = true ∧ (s.observeTerm m).state = .stateFollower)

/-- What a message can do to the timer and the pending change. -/
inductive AsideStep (s : RaftContext) (m : Message) (rand : Nat) (s' : RaftContext) : Prop
  | listens (h : s.Listens rand s')
  | campaign (hm : s.Campaigns m) (h : s'.aside = s.aside.redrawn rand)
  | propose {k : Nat} (hm : m.msgType = .msgPropose) (hstate : (s.observeTerm m).state = .stateLeader)
      (h : s'.aside = { s.aside with pendingConfIndex := k })

theorem stepFollower_aside (h : s.stepFollower m rand = some s') : s.Listens rand s' ∨
    ((m.msgType = .msgHup ∨ m.msgType = .msgTimeoutNow) ∧ s'.aside = s.aside.redrawn rand) := by
  unfold stepFollower at h
  split at h
  case h_1 hm => exact .inr ⟨.inl hm, doElection_aside h⟩
  case h_12 hm => exact .inr ⟨.inr hm, doElection_aside h⟩
  case h_4 => exact .inl (handleAppendEntries_listens h)
  case h_6 => exact .inl (handleRequestVote_listens h)
  all_goals
    left
    cases h
  case h_8 => exact .inl handleSnapshot_aside
  case h_9 => exact handleHeartbeat_listens
  case h_11 => split_ifs <;> exact .inl rfl
  all_goals exact .inl rfl

theorem stepCandidate_aside (h : s.stepCandidate m rand = some s') : s.Listens rand s' ∨
    (m.msgType = .msgHup ∧ s'.aside = s.aside.redrawn rand) := by
  have hfall : (if m.term = s.term then s.becomeFollower m.term m.fromId else s).aside = s.aside := by
    split_ifs <;> rfl
  unfold stepCandidate at h
  split at h
  case h_1 hm => exact .inr ⟨hm, doElection_aside h⟩
  case h_4 => exact .inl ((handleAppendEntries_listens h).of_aside hfall)
  case h_6 => exact .inl (handleRequestVote_listens h)
  case h_7 => exact .inl (.inl (handleRequestVoteResponse_aside h))
  all_goals
    left
    cases h
  case h_8 => exact .inl handleSnapshot_aside
  case h_9 => exact handleHeartbeat_listens.of_aside hfall
  case h_11 => split_ifs <;> exact .inl rfl
  all_goals exact .inl rfl

theorem stepLeader_aside (h : s.stepLeader m rand = some s') : s.Listens rand s' ∨
    (m.msgType = .msgPropose ∧ ∃ k, s'.aside = { s.aside with pendingConfIndex := k }) := by
  unfold stepLeader at h
  split at h
  case h_3 hm =>
    split_ifs at h
    · obtain ⟨k, hk⟩ := proposeLoop_aside s.raftLog.lastIndex m.entries s
      exact .inr ⟨hm, k, (appendEntries_aside h).trans hk⟩
    · cases h
      exact .inl (.inl rfl)
  case h_4 => exact .inl (handleAppendEntries_listens h)
  case h_5 => exact .inl (.inl (handleAppendEntriesResponse_aside h))
  case h_6 => exact .inl (handleRequestVote_listens h)
  case h_10 => exact .inl (.inl (sendAppend_aside h))
  case h_11 => exact .inl (.inl (handleTransferLeader_aside h))
  all_goals
    left
    cases h
  case h_2 => exact .inl bcastHeartbeat_aside
  case h_8 => exact .inl handleSnapshot_aside
  case h_9 => exact handleHeartbeat_listens
  all_goals exact .inl rfl

/-- **What a message does to the timer and the pending change.** -/
theorem step_aside (h : s.step m rand = some s') : AsideStep s m rand s' := by
  have hobs := observeTerm_aside s m
  by_cases hnow : m.msgType = .msgTimeoutNow → s.prs.contains s.id = true
  · cases hstate : (s.observeTerm m).state with
    | stateFollower =>
        rw [step_follower hnow hstate] at h
        rcases stepFollower_aside h with hlisten | ⟨hm | hm, hdraw⟩
        · exact .listens (hlisten.of_aside hobs)
        · exact .campaign (.inl ⟨hm, by rw [hstate]; decide⟩) (hobs ▸ hdraw)
        · exact .campaign (.inr ⟨hm, hnow hm, hstate⟩) (hobs ▸ hdraw)
    | stateCandidate =>
        rw [step_candidate hnow hstate] at h
        rcases stepCandidate_aside h with hlisten | ⟨hm, hdraw⟩
        · exact .listens (hlisten.of_aside hobs)
        · exact .campaign (.inl ⟨hm, by rw [hstate]; decide⟩) (hobs ▸ hdraw)
    | stateLeader =>
        rw [step_leader hnow hstate] at h
        rcases stepLeader_aside h with hlisten | ⟨hm, k, hset⟩
        · exact .listens (hlisten.of_aside hobs)
        · exact .propose hm hstate (hobs ▸ hset)
  · -- a removed node drops the request to campaign
    obtain ⟨hm, hout⟩ := Classical.not_imp.mp hnow
    rw [step, if_pos ⟨Bool.eq_false_iff.mpr hout, hm⟩] at h
    cases h
    exact .listens (.inl rfl)

/-- A campaign by a message is `DoElection`. -/
theorem Campaigns.step_eq (h : s.Campaigns m) (rand : Nat) :
    s.step m rand = (s.observeTerm m).doElection rand := by
  rcases h with ⟨hm, hstate⟩ | ⟨hm, hin, hstate⟩
  · have hnow : m.msgType = .msgTimeoutNow → s.prs.contains s.id = true := fun h => by cases hm.symm.trans h
    cases hrole : (s.observeTerm m).state with
    | stateFollower => rw [step_follower hnow hrole, stepFollower, hm]
    | stateCandidate => rw [step_candidate hnow hrole, stepCandidate, hm]
    | stateLeader => exact absurd hrole hstate
  · rw [step_follower (fun _ => hin) hstate, stepFollower, hm]

end Eraft.RaftContext
