import Eraft.NodeOutcome
import Eraft.BaseRun

/-! The part of a node's state that elections are about: its term, its vote, its role, the votes it
has collected and the leader it follows. Over any sequence of calls a node casts at most one vote in
a term, as long as no candidate falls back to follower in its own term. -/

open Std Runs

namespace Eraft.RaftContext

variable {s s' : RaftContext} {m x : Message} {rand : Nat}

/-- The two states agree in what elections are about. -/
structure SameRole (s s' : RaftContext) : Prop where
  id : s'.id = s.id := by rfl
  term : s'.term = s.term := by rfl
  vote : s'.vote = s.vote := by rfl
  state : s'.state = s.state := by rfl
  votes : s'.votes = s.votes := by rfl
  lead : s'.lead = s.lead := by rfl

theorem SameCore.role (h : SameCore s s') : SameRole s s' :=
  ⟨h.id, h.term, h.vote, h.state, h.votes, h.lead⟩

/-- The candidate whose votes have been recorded has lost: more than half of its peers refused. -/
def Loses (s : RaftContext) : Prop :=
  s.grantCount ≤ s.voteThreshold ∧ (s.voteThreshold : Int) < s.voteCount - s.grantCount

instance (s : RaftContext) : Decidable s.Loses := inferInstanceAs (Decidable (_ ∧ _))

/-- What a message can do to the role of the node that handles it. -/
inductive RoleStep (s : RaftContext) (m : Message) (s' : RaftContext) : Prop
  | keep (h : SameRole s s')
  | follow (hm : m.msgType = .msgHeartbeat ∨ m.msgType = .msgAppend) (hcur : Current s m)
      (h : SameRole { s.fallback m with lead := m.fromId } s')
  | campaign (hstate : s.state ≠ .stateLeader) (h : SameRole s.becomeCandidate s')
  | alone (hstate : s.state ≠ .stateLeader) (hsize : s.prs.size = 1)
      (h : SameRole s.becomeCandidate.leaderState s')
  | grant (hm : m.msgType = .msgRequestVote) (hvote : s.vote = NONE ∨ s.vote = m.fromId)
      (hcur : Current s m) (h : SameRole { s with vote := m.fromId } s')
  | record (hm : m.msgType = .msgRequestVoteResponse) (hstate : s.state = .stateCandidate)
      (hcur : Current s m) (h : SameRole (s.recordVote m) s')
  | lose (hm : m.msgType = .msgRequestVoteResponse) (hstate : s.state = .stateCandidate)
      (hcur : Current s m) (hlost : (s.recordVote m).Loses)
      (h : SameRole ((s.recordVote m).becomeFollower s.term NONE) s')
  | win (hm : m.msgType = .msgRequestVoteResponse) (hstate : s.state = .stateCandidate)
      (hcur : Current s m) (hwin : (s.recordVote m).voteThreshold < (s.recordVote m).grantCount)
      (h : SameRole (s.recordVote m).leaderState s')

theorem CoreStep.role (h : CoreStep s m s') (hsnap : m.msgType ≠ .msgSnapshot) : RoleStep s m s' := by
  cases h with
  | same h => exact .keep h.role
  | follow hm hcur h => exact .follow hm hcur h.role
  | append hacc h =>
      exact .follow (.inr hacc.msgType) hacc.current ⟨h.id, h.term, h.vote, h.state, h.votes, h.lead⟩
  | campaign _ hstate _ h => exact .campaign hstate h.role
  | alone _ hstate hsize h =>
      exact .alone hstate hsize ⟨h.id, h.term, h.vote, h.state, h.votes, h.lead⟩
  | grant hm hvote hcur h => exact .grant hm hvote hcur h.role
  | record hm hstate hcur h => exact .record hm hstate hcur h.role
  | lose hm hstate hcur hwin hlost h => exact .lose hm hstate hcur ⟨hwin, hlost⟩ h.role
  | win hm hstate hcur hwin h =>
      exact .win hm hstate hcur hwin ⟨h.id, h.term, h.vote, h.state, h.votes, h.lead⟩
  | propose _ _ h =>
      obtain ⟨_, _, hloop, _⟩ := proposeLoop_spec s.raftLog.lastIndex m.entries s
      exact .keep ⟨h.id.trans hloop.id, h.term.trans hloop.term, h.vote.trans hloop.vote,
        h.state.trans hloop.state, h.votes.trans hloop.votes, h.lead.trans hloop.lead⟩
  | nack _ _ _ _ _ _ _ h => exact .keep ⟨h.id, h.term, h.vote, h.state, h.votes, h.lead⟩
  | ack _ _ _ _ _ _ h => exact .keep ⟨h.id, h.term, h.vote, h.state, h.votes, h.lead⟩
  | commit _ _ _ _ _ _ _ h => exact .keep ⟨h.id, h.term, h.vote, h.state, h.votes, h.lead⟩
  | phantom _ _ _ h => exact .keep ⟨h.id, h.term, h.vote, h.state, h.votes, h.lead⟩
  | snapshot hm => exact absurd hm hsnap

/-- A step that is not a campaign leaves the term as `Step` has set it. -/
theorem CoreStep.term_eq (h : CoreStep s m s') (hsnap : m.msgType ≠ .msgSnapshot)
    (hquiet : s.state = .stateLeader ∨ (m.msgType ≠ .msgHup ∧ m.msgType ≠ .msgTimeoutNow)) :
    s'.term = s.term := by
  have hcampaign : (m.msgType = .msgHup ∨ m.msgType = .msgTimeoutNow) → s.state ≠ .stateLeader → False := by
    rintro hm hstate
    rcases hquiet with hleader | ⟨hhup, hnow⟩
    · exact hstate hleader
    · exact hm.elim hhup hnow
  cases h with
  | follow _ _ h => exact h.term.trans fallback_term
  | append _ h => exact h.term.trans fallback_term
  | campaign hm hstate _ _ => exact (hcampaign hm hstate).elim
  | alone hm hstate _ _ => exact (hcampaign hm hstate).elim
  | propose _ _ h =>
      obtain ⟨_, _, hloop, _⟩ := proposeLoop_spec s.raftLog.lastIndex m.entries s
      exact h.term.trans hloop.term
  | snapshot hm => exact absurd hm hsnap
  | same h => exact h.term
  | grant _ _ _ h => exact h.term
  | record _ _ _ h => exact h.term
  | lose _ _ _ _ _ h => exact h.term
  | win _ _ _ _ h => exact h.term
  | nack _ _ _ _ _ _ _ h => exact h.term
  | ack _ _ _ _ _ _ h => exact h.term
  | commit _ _ _ _ _ _ _ h => exact h.term
  | phantom _ _ _ h => exact h.term

@[simp] theorem observeTerm_id (s : RaftContext) (m : Message) : (s.observeTerm m).id = s.id := by
  unfold observeTerm
  split_ifs <;> rfl

@[simp] theorem observeTerm_prs (s : RaftContext) (m : Message) : (s.observeTerm m).prs = s.prs := by
  unfold observeTerm
  split_ifs <;> rfl

@[simp] theorem observeTerm_raftLog (s : RaftContext) (m : Message) :
    (s.observeTerm m).raftLog = s.raftLog := by
  unfold observeTerm
  split_ifs <;> rfl

@[simp] theorem observeTerm_msgs (s : RaftContext) (m : Message) : (s.observeTerm m).msgs = s.msgs := by
  unfold observeTerm
  split_ifs <;> rfl

/-- A node that has observed a later term is a follower without a vote. -/
theorem observeTerm_cases (s : RaftContext) (m : Message) :
    (m.term ≤ s.term ∧ s.observeTerm m = s) ∨
      (s.term < m.term ∧ (s.observeTerm m).term = m.term ∧ (s.observeTerm m).vote = NONE ∧
        (s.observeTerm m).state = .stateFollower ∧ (s.observeTerm m).lead = NONE) := by
  unfold observeTerm
  split_ifs with h
  · exact .inr ⟨h, rfl, rfl, rfl, rfl⟩
  · exact .inl ⟨Nat.le_of_not_lt h, rfl⟩

theorem le_observeTerm (s : RaftContext) (m : Message) :
    s.term ≤ (s.observeTerm m).term ∧ m.term ≤ (s.observeTerm m).term := by
  rcases observeTerm_cases s m with ⟨hle, heq⟩ | ⟨hlt, heq, _⟩
  · rw [heq]
    exact ⟨le_rfl, hle⟩
  · rw [heq]
    exact ⟨hlt.le, le_rfl⟩

/-- A message with a term that passes is of the term the node is in when it handles it. -/
theorem Current.term_eq (h : Current (s.observeTerm m) m) (hterm : m.term ≠ NONE) :
    (s.observeTerm m).term = m.term :=
  Nat.le_antisymm (h.resolve_left hterm) (le_observeTerm s m).2

theorem RoleStep.id_eq (h : RoleStep s m s') : s'.id = s.id := by
  cases h with
  | follow _ _ h => exact h.id.trans fallback_id
  | keep h | campaign _ h | alone _ _ h | grant _ _ _ h | record _ _ _ h | lose _ _ _ _ h
  | win _ _ _ _ h => exact h.id

/-- A call never lowers the term. -/
theorem RoleStep.term_le (h : RoleStep s m s') : s.term ≤ s'.term := by
  cases h with
  | follow _ _ h =>
      rw [h.term]
      exact fallback_term.ge
  | campaign _ h | alone _ _ h =>
      rw [h.term]
      exact Nat.le_succ _
  | keep h | grant _ _ _ h | record _ _ _ h | lose _ _ _ _ h | win _ _ _ _ h => exact h.term.ge

/-- A follower keeps its role and its vote while the term stays. -/
theorem RoleStep.follower_keeps (h : RoleStep s m s') (hstate : s.state = .stateFollower)
    (hterm : s'.term = s.term) (hvote : s.vote ≠ NONE) :
    s'.vote = s.vote ∧ s'.state = .stateFollower := by
  have hcand : s.state ≠ .stateCandidate := by rw [hstate]; decide
  cases h with
  | keep h => exact ⟨h.vote, h.state.trans hstate⟩
  | follow _ _ h =>
      rw [fallback_of_ne hcand] at h
      exact ⟨h.vote, h.state.trans hstate⟩
  | campaign _ h | alone _ _ h =>
      rw [h.term] at hterm
      exact absurd hterm (Nat.succ_ne_self _)
  | grant _ hfree _ h =>
      exact ⟨h.vote.trans (hfree.resolve_left hvote).symm, h.state.trans hstate⟩
  | record _ hc | lose _ hc | win _ hc => exact absurd hc hcand

/-- A leader stays one while the term stays. -/
theorem RoleStep.leader_keeps (h : RoleStep s m s') (hstate : s.state = .stateLeader) :
    s'.state = .stateLeader ∧ s'.term = s.term := by
  have hcand : s.state ≠ .stateCandidate := by rw [hstate]; decide
  cases h with
  | follow _ _ h =>
      rw [fallback_of_ne hcand] at h
      exact ⟨h.state.trans hstate, h.term⟩
  | campaign hne _ | alone hne _ _ => exact absurd hstate hne
  | keep h | grant _ _ _ h => exact ⟨h.state.trans hstate, h.term⟩
  | record _ hc | lose _ hc | win _ hc => exact absurd hc hcand

/-- Only an election makes a leader: of a candidate with enough votes, or of a node without peers. -/
theorem RoleStep.elected (h : RoleStep s m s') (hstate : s.state ≠ .stateLeader)
    (hstate' : s'.state = .stateLeader) :
    (s.prs.size = 1 ∧ s'.term = s.term + 1) ∨
      (m.msgType = .msgRequestVoteResponse ∧ s.state = .stateCandidate ∧ Current s m ∧
        (s.recordVote m).voteThreshold < (s.recordVote m).grantCount ∧ s'.term = s.term) := by
  cases h with
  | keep h | grant _ _ _ h => exact absurd (h.state.symm.trans hstate') hstate
  | follow _ _ h => exact absurd (fallback_leader (h.state.symm.trans hstate')) hstate
  | campaign _ h | lose _ _ _ _ h =>
      rw [h.state] at hstate'
      cases hstate'
  | alone _ hsize h => exact .inl ⟨hsize, h.term⟩
  | record _ hc _ h =>
      have hcand : (s.recordVote m).state = .stateCandidate := hc
      exact absurd (h.state.symm.trans hstate') (by rw [hcand]; decide)
  | win hm hc hcur hwin h => exact .inr ⟨hm, hc, hcur, hwin, h.term⟩

/-- Only a candidacy makes a candidate. -/
theorem RoleStep.candidate (h : RoleStep s m s') (hstate' : s'.state = .stateCandidate) :
    (s.state = .stateCandidate ∧ s'.term = s.term) ∨ s'.term = s.term + 1 := by
  cases h with
  | keep h | grant _ _ _ h => exact .inl ⟨h.state.symm.trans hstate', h.term⟩
  | follow _ _ h =>
      have hstate := h.state.symm.trans hstate'
      refine .inl ⟨?_, h.term.trans fallback_term⟩
      dsimp only at hstate
      unfold fallback at hstate
      split_ifs at hstate with hback
      · exact hback.1
      · exact hstate
  | record _ hcand _ h => exact .inl ⟨hcand, h.term⟩
  | campaign _ h => exact .inr h.term
  | alone _ _ h | lose _ _ _ _ h | win _ _ _ _ h =>
      rw [h.state] at hstate'
      cases hstate'

/-- A vote response that grants the vote. -/
def IsGrant (x : Message) : Prop := x.msgType = .msgRequestVoteResponse ∧ x.reject = false

instance (x : Message) : Decidable (IsGrant x) := inferInstanceAs (Decidable (_ ∧ _))

/-- The call that took the node from `s` to `s'` and pushed `ms` cast a vote for `v` in term `t`: it
granted a request, or it was the node's own candidacy. Only `BecomeCandidate` leaves a node in a later
term and not a follower. -/
def Casts (s : RaftContext) (ms : List Message) (s' : RaftContext) (t v : Nat) : Prop :=
  (∃ x ∈ ms, IsGrant x ∧ x.term = t ∧ x.toId = v) ∨
    (s.term < t ∧ s'.term = t ∧ s'.state ≠ .stateFollower ∧ v = s'.id)

/-- Only a vote request is answered with a grant, and the node's vote then names the candidate. -/
theorem Sent.grant_inv (h : Sent s m s' x) (hsnap : m.msgType ≠ .msgSnapshot) (hx : IsGrant x) :
    m.msgType = .msgRequestVote ∧ Current s m ∧ (s.vote = NONE ∨ s.vote = m.fromId) ∧
      SameCore { s with vote := m.fromId } s' ∧ NotAhead s m ∧
      x.fromId = s'.id ∧ x.toId = m.fromId ∧ x.term = s'.term := by
  have hother : ∀ {ty : MessageType}, x.msgType = ty → ty ≠ .msgRequestVoteResponse → False :=
    fun hty hne => hne (hty.symm.trans hx.1)
  cases h with
  | grant hm hcur hx' hvote hcore hlog =>
      subst hx'
      exact ⟨hm, hcur, hvote, hcore, hlog, rfl, rfl, rfl⟩
  | refuse hx' =>
      subst hx'
      cases hx.2
  | append hx' => exact (hother hx'.msgType (by decide)).elim
  | transfer hm hx' =>
      subst hx'
      exact (hother hm (by decide)).elim
  | confChange hm hx' =>
      subst hx'
      exact (hother hm (by decide)).elim
  | snapshot hm => exact absurd hm hsnap
  | heartbeat hx' | requestVote hx' | heartbeatResponse hx' | timeoutNow hx' | stale hx' =>
      subst hx'
      cases hx.1
  | accept _ hx' | beyond _ _ _ _ hx' | conflict _ _ _ _ _ _ _ _ hx' =>
      subst hx'
      cases hx.1

/-- Only a leader sends appends, and it sends its own log. -/
theorem Sent.append_inv (h : Sent s m s' x)
    (hm : m.msgType ≠ .msgSnapshot ∧ m.msgType ≠ .msgEntryConfChange) (hx : x.msgType = .msgAppend) :
    AppendOf s' x ∧ s'.state = .stateLeader := by
  cases h with
  | append hx' hstate => exact ⟨hx', hstate⟩
  | transfer hm' hx' =>
      subst hx'
      exact absurd (hm'.symm.trans hx) (by decide)
  | confChange hm' => exact absurd hm' hm.2
  | snapshot hm' => exact absurd hm' hm.1
  | heartbeat hx' | requestVote hx' | heartbeatResponse hx' | timeoutNow hx' | stale hx' | refuse hx' =>
      subst hx'
      cases hx
  | grant _ _ hx' | accept _ hx' | beyond _ _ _ _ hx' | conflict _ _ _ _ _ _ _ _ hx' =>
      subst hx'
      cases hx

/-- Only an accepted append is acknowledged, with the last index of the log it leaves. -/
theorem Sent.ack_inv (h : Sent s m s' x)
    (hm : m.msgType ≠ .msgSnapshot ∧ m.msgType ≠ .msgEntryConfChange)
    (hx : x.msgType = .msgAppendResponse) (hreject : x.reject = false) :
    Accepts s m s' ∧ s'.term = s.term ∧ x.fromId = s'.id ∧ x.toId = m.fromId ∧ x.term = s'.term ∧
      x.index = s'.raftLog.lastIndex := by
  cases h with
  | accept hacc hx' hcore =>
      subst hx'
      exact ⟨hacc, hcore.term.trans fallback_term, rfl, rfl, rfl, rfl⟩
  | append hx' => exact absurd (hx'.msgType.symm.trans hx) (by decide)
  | transfer hm' hx' =>
      subst hx'
      exact absurd (hm'.symm.trans hx) (by decide)
  | confChange hm' => exact absurd hm' hm.2
  | snapshot hm' => exact absurd hm' hm.1
  | heartbeat hx' | requestVote hx' | heartbeatResponse hx' | timeoutNow hx' | refuse hx' =>
      subst hx'
      cases hx
  | grant _ _ hx' =>
      subst hx'
      cases hx
  | stale hx' | beyond _ _ _ _ hx' | conflict _ _ _ _ _ _ _ _ hx' =>
      subst hx'
      cases hreject

/-- A vote request describes the log of the candidate that sends it. -/
theorem Sent.request_inv (h : Sent s m s' x)
    (hm : m.msgType ≠ .msgSnapshot ∧ m.msgType ≠ .msgEntryConfChange)
    (hx : x.msgType = .msgRequestVote) :
    x.fromId = s'.id ∧ x.term = s'.term ∧ x.index = s'.raftLog.lastIndex ∧
      ∃ found, s'.raftLog.term s'.raftLog.lastIndex = some (x.logTerm, found) := by
  cases h with
  | requestVote hx' _ _ _ hlog =>
      subst hx'
      exact ⟨rfl, rfl, rfl, _, hlog⟩
  | append hx' => exact absurd (hx'.msgType.symm.trans hx) (by decide)
  | transfer hm' hx' =>
      subst hx'
      exact absurd (hm'.symm.trans hx) (by decide)
  | confChange hm' => exact absurd hm' hm.2
  | snapshot hm' => exact absurd hm' hm.1
  | heartbeat hx' | heartbeatResponse hx' | timeoutNow hx' | refuse hx' | stale hx' =>
      subst hx'
      cases hx
  | grant _ _ hx' | accept _ hx' | beyond _ _ _ _ hx' | conflict _ _ _ _ _ _ _ _ hx' =>
      subst hx'
      cases hx

end Eraft.RaftContext
