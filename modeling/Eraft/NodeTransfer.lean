import Eraft.NodePrompt
import Eraft.NodeVote

/-! A leadership transfer. `HandleTransferLeader` notes the peer in `leadTransferee_` and, if the peer has
the whole log, sends it `MsgTimeoutNow`; otherwise the acknowledgement that completes the log does. The
transfer is dropped when a later term is seen, and by `TickTransfer` after two election timeouts. No other
function has a part in it. -/

open Std Runs

namespace Eraft.RaftContext

/-- What a transfer consists of. -/
structure Transfer where
  timeout : Nat
  transferee : Nat
  elapsed : Nat
  handovers : List Message

/-- The messages that ask a peer to campaign at once. -/
def handovers (ms : List Message) : List Message := ms.filter fun x => x.msgType = .msgTimeoutNow

def transfer (s : RaftContext) : Transfer where
  timeout := s.electionTimeout
  transferee := s.leadTransferee
  elapsed := s.transferElapsed
  handovers := handovers s.msgs

/-- The peer is asked to campaign. -/
def Transfer.handTo (t : Transfer) (id peer : Nat) : Transfer :=
  { t with handovers := t.handovers ++ [{ msgType := .msgTimeoutNow, fromId := id, toId := peer }] }

/-- No transfer is pending any more. -/
def Transfer.dropped (t : Transfer) : Transfer := { t with transferee := NONE }

/-- A tick while a transfer is pending. -/
def Transfer.ticked (t : Transfer) : Transfer :=
  if t.timeout * 2 % 2 ^ 64 ≤ t.elapsed + 1 then { t with elapsed := 0, transferee := NONE }
  else { t with elapsed := t.elapsed + 1 }

variable {s s' : RaftContext} {m x : Message} {ms : List Message} {peer rand : Nat} {es : List Entry}

theorem mem_handovers : x ∈ handovers ms ↔ x ∈ ms ∧ x.msgType = .msgTimeoutNow := by
  rw [handovers, List.mem_filter, decide_eq_true_iff]

/-! ### What has no part in it -/

theorem transfer_pushAll (s : RaftContext) (hms : ∀ x ∈ ms, x.msgType ≠ .msgTimeoutNow) :
    (s.pushAll ms).transfer = s.transfer := by
  have hnil : handovers ms = [] := List.filter_eq_nil_iff.mpr fun x hx => by simpa using hms x hx
  show { s.transfer with handovers := handovers (s.msgs ++ ms) } = s.transfer
  rw [handovers, List.filter_append, ← handovers, ← handovers, hnil, List.append_nil]
  rfl

theorem transfer_push (s : RaftContext) (hx : x.msgType ≠ .msgTimeoutNow) :
    (s.push x).transfer = s.transfer := by
  have hms : ∀ y ∈ [x], y.msgType ≠ .msgTimeoutNow := List.forall_mem_singleton.mpr hx
  exact transfer_pushAll s hms

theorem transfer_sendTimeoutNow (s : RaftContext) (peer : Nat) :
    (s.sendTimeoutNow peer).transfer = s.transfer.handTo s.id peer := by
  have hsent : handovers (s.sendTimeoutNow peer).msgs = handovers s.msgs ++
      [{ msgType := .msgTimeoutNow, fromId := s.id, toId := peer }] := List.filter_append _ _
  rw [transfer, hsent]
  rfl

theorem sendRequestVoteResponse_transfer (s : RaftContext) (peer : Nat) (reject : Bool) :
    (s.sendRequestVoteResponse peer reject).transfer = s.transfer := transfer_push s nofun

theorem sendAppendResponse_transfer (s : RaftContext) (peer : Nat) (reject : Bool) (term index : Nat) :
    (s.sendAppendResponse peer reject term index).transfer = s.transfer := transfer_push s nofun

theorem sendHeartbeatResponse_transfer (s : RaftContext) (peer : Nat) (reject : Bool) :
    (s.sendHeartbeatResponse peer reject).transfer = s.transfer := transfer_push s nofun

theorem AppendOf.not_timeoutNow {t : RaftContext} (h : AppendOf t x) : x.msgType ≠ .msgTimeoutNow := by
  rw [h.msgType]
  decide

theorem bcastAppend_transfer (h : s.bcastAppend = some s') : s'.transfer = s.transfer := by
  obtain ⟨ms, rfl, hms⟩ := bcastAppend_spec h
  exact transfer_pushAll s fun x hx => (hms x hx).1.not_timeoutNow

theorem sendAppend_transfer (h : s.sendAppend peer = some s') : s'.transfer = s.transfer := by
  obtain ⟨x, hx, _, rfl⟩ := sendAppend_spec h
  exact transfer_push s hx.not_timeoutNow

theorem bcastHeartbeat_transfer : s.bcastHeartbeat.transfer = s.transfer := by
  obtain ⟨ms, hbeat, hms⟩ := bcastHeartbeat_spec s
  rw [hbeat]
  refine transfer_pushAll s fun x hx => ?_
  obtain ⟨peer, rfl, _⟩ := hms x hx
  exact nofun

theorem commitAlone_transfer (h : s.commitAlone = some s') : s'.transfer = s.transfer := by
  rcases commitAlone_spec h with ⟨_, rfl⟩ | ⟨_, _, _, rfl⟩ <;> rfl

theorem becomeLeader_transfer (h : s.becomeLeader = some s') : s'.transfer = s.transfer := by
  unfold becomeLeader at h
  split_ifs at h
  obtain ⟨t, hsend, h⟩ := Option.bind_eq_some_iff.mp h
  have hsent := bcastAppend_transfer hsend
  exact (commitAlone_transfer h).trans hsent

theorem doElection_transfer (h : s.doElection rand = some s') : s'.transfer = s.transfer := by
  rcases doElection_cases h with ⟨_, h⟩ | ⟨t, found, ms, _, _, rfl, hms⟩
  · exact (becomeLeader_transfer h).trans rfl
  · refine (transfer_pushAll _ fun x hx => ?_).trans rfl
    obtain ⟨peer, rfl, _⟩ := hms x hx
    exact nofun

theorem handleRequestVote_transfer (h : s.handleRequestVote m rand = some s') :
    s'.transfer = s.transfer := by
  unfold handleRequestVote at h
  split_ifs at h
  · cases h
    exact sendRequestVoteResponse_transfer _ _ _
  · cases h
    exact sendRequestVoteResponse_transfer _ _ _
  · simp only [Option.bind_eq_bind, Option.bind_eq_some_iff] at h
    obtain ⟨resPair, _, h⟩ := h
    split_ifs at h
    · cases h
      exact sendRequestVoteResponse_transfer _ _ _
    · cases h
      exact (sendRequestVoteResponse_transfer _ _ _).trans rfl

theorem handleRequestVoteResponse_transfer (h : s.handleRequestVoteResponse m = some s') :
    s'.transfer = s.transfer := by
  unfold handleRequestVoteResponse at h
  dsimp only at h
  split_ifs at h
  · cases h
    rfl
  · exact (becomeLeader_transfer h).trans rfl
  · cases h
    rfl
  · cases h
    rfl

theorem acceptAppend_transfer (h : s.acceptAppend m = some s') : s'.transfer = s.transfer := by
  obtain ⟨l, _, h⟩ := Option.bind_eq_some_iff.mp h
  cases h
  exact (sendAppendResponse_transfer _ _ _ _ _).trans rfl

theorem rejectAppend_transfer {logTerm : Nat} (h : s.rejectAppend m logTerm = some s') :
    s'.transfer = s.transfer := by
  unfold rejectAppend at h
  dsimp only at h
  split_ifs at h
  cases h
  exact sendAppendResponse_transfer _ _ _ _ _

theorem handleAppendEntries_transfer (h : s.handleAppendEntries m rand = some s') :
    s'.transfer = s.transfer := by
  unfold handleAppendEntries at h
  dsimp only at h
  split_ifs at h
  · cases h
    exact sendAppendResponse_transfer _ _ _ _ _
  · cases h
    exact (sendAppendResponse_transfer _ _ _ _ _).trans rfl
  · obtain ⟨resPair, _, h⟩ := Option.bind_eq_some_iff.mp h
    split_ifs at h
    · exact (rejectAppend_transfer h).trans rfl
    · exact (acceptAppend_transfer h).trans rfl
  · exact (acceptAppend_transfer h).trans rfl

theorem handleHeartbeat_transfer : (s.handleHeartbeat m rand).transfer = s.transfer := by
  unfold handleHeartbeat
  split_ifs
  · exact sendHeartbeatResponse_transfer _ _ _
  · exact (sendHeartbeatResponse_transfer _ _ _).trans rfl

theorem handleSnapshot_transfer : (s.handleSnapshot m).transfer = s.transfer := by
  unfold handleSnapshot
  dsimp only
  split_ifs
  · exact sendAppendResponse_transfer _ _ _ _ _
  · exact (sendAppendResponse_transfer _ _ _ _ _).trans rfl

theorem forward_transfer (hm : m.msgType = .msgTransferLeader) :
    (if s.lead ≠ NONE then s.push { m with toId := s.lead } else s).transfer = s.transfer := by
  split_ifs
  · exact transfer_push s (x := { m with toId := s.lead }) (by show m.msgType ≠ _; rw [hm]; decide)
  · rfl

theorem leaderCommit_transfer (h : s.leaderCommit = some s') : s'.transfer = s.transfer := by
  rcases leaderCommit_spec h with rfl | ⟨_, ms, _, rfl, hms⟩
  · rfl
  · exact (transfer_pushAll _ fun x hx => (hms x hx).1.not_timeoutNow).trans rfl

theorem proposeLoop_transfer (n : Nat) (es : List Entry) (s : RaftContext) :
    (proposeLoop n es s).transfer = s.transfer := by
  induction es generalizing s with
  | nil => rfl
  | cons e rest ih =>
      unfold proposeLoop
      dsimp only
      split_ifs
      · exact ih _
      · exact ih _
      · exact ih _

theorem appendEntries_transfer (h : s.appendEntries es = some s') : s'.transfer = s.transfer := by
  unfold appendEntries at h
  extract_lets t lastIndex at h
  obtain ⟨_, _, h⟩ := Option.bind_eq_some_iff.mp h
  obtain ⟨t', hsend, h⟩ := Option.bind_eq_some_iff.mp h
  have hsent := bcastAppend_transfer hsend
  exact (commitAlone_transfer h).trans (hsent.trans (proposeLoop_transfer _ es s))

/-! ### What has -/

/-- What a message can do to the transfer of a node, in the state in which the handler of its role runs. -/
inductive TransferStep (s : RaftContext) (m : Message) (s' : RaftContext) : Prop
  | same (h : s'.transfer = s.transfer)
  /-- A new request, for a peer that may have the whole log already. -/
  | request {pr : Progress} (hm : m.msgType = .msgTransferLeader) (hstate : s.state = .stateLeader)
      (hother : m.fromId ≠ s.id) (hpr : s.progress m.fromId = some pr) (hcore : SameCore s s')
      (h : s'.transfer = if pr.matchIdx = s.raftLog.lastIndex then
          { s.transfer with transferee := m.fromId, elapsed := 0 }.handTo s.id m.fromId
        else { s.transfer with transferee := m.fromId, elapsed := 0 })
  /-- The acknowledgement that completes the log of the transferee. -/
  | finish (hm : m.msgType = .msgAppendResponse) (hstate : s.state = .stateLeader)
      (hfrom : m.fromId = s.leadTransferee) (hlt : s.matchOf m.fromId < s.raftLog.lastIndex)
      (hmatch : s'.matchOf m.fromId = s.raftLog.lastIndex)
      (hlast : s'.raftLog.lastIndex = s.raftLog.lastIndex) (hstate' : s'.state = .stateLeader)
      (h : s'.transfer = (s.transfer.handTo s.id m.fromId).dropped)

theorem handleTransferLeader_transfer (hm : m.msgType = .msgTransferLeader)
    (hstate : s.state = .stateLeader) (h : s.handleTransferLeader m = some s') : TransferStep s m s' := by
  unfold handleTransferLeader at h
  split_ifs at h with hself hpending
  · cases h
    exact .same rfl
  · cases h
    exact .same rfl
  · cases hpr : s.progress m.fromId with
    | none =>
        rw [hpr] at h
        cases h
        exact .same rfl
    | some pr =>
        rw [hpr] at h
        dsimp only at h
        split_ifs at h with hmatch
        · cases h
          refine .request hm hstate hself hpr {} ?_
          rw [if_pos hmatch]
          exact transfer_sendTimeoutNow _ _
        · obtain ⟨x, hx, _, rfl⟩ := sendAppend_spec h
          refine .request hm hstate hself hpr {} ?_
          rw [if_neg hmatch]
          exact transfer_push _ hx.not_timeoutNow

theorem handleAppendEntriesResponse_transfer (hm : m.msgType = .msgAppendResponse)
    (hstate : s.state = .stateLeader) (h : s.handleAppendEntriesResponse m = some s') :
    TransferStep s m s' := by
  unfold handleAppendEntriesResponse at h
  split_ifs at h
  · cases h
    exact .same rfl
  · cases h
    exact .same rfl
  · simp only [Option.bind_eq_bind, Option.bind_eq_some_iff] at h
    obtain ⟨_, _, pr, _, h⟩ := h
    exact .same ((sendAppend_transfer h).trans rfl)
  · simp only [Option.bind_eq_bind, Option.bind_eq_some_iff] at h
    obtain ⟨pr, hpr, h⟩ := h
    split_ifs at h with hlt
    swap
    · cases h
      exact .same rfl
    obtain ⟨t, hcommit, h⟩ := Option.bind_eq_some_iff.mp h
    have htransfer : t.transfer = s.transfer := (leaderCommit_transfer hcommit).trans rfl
    obtain ⟨hprs, _, _, hsame⟩ := leaderCommit_core hcommit
    have hsame : t.raftLog.lastIndex = s.raftLog.lastIndex := hsame
    have hid : t.id = s.id ∧ t.state = s.state := by
      rcases leaderCommit_spec hcommit with rfl | ⟨_, _, _, rfl, _⟩ <;> exact ⟨rfl, rfl⟩
    split_ifs at h with hlast <;> cases h
    · have hindex := hlast.2.trans hsame
      refine .finish hm hstate (hlast.1.trans (congrArg Transfer.transferee htransfer)) ?_ ?_ hsame
        (hid.2.trans hstate) ?_
      · rw [matchOf_of_progress hpr, ← hindex]
        exact hlt
      · refine (matchOf_of_prs (s := s.setProgress m.fromId ⟨m.index, m.index + 1⟩) hprs _).trans ?_
        rw [matchOf_setProgress, if_pos rfl]
        exact hindex
      · rw [← htransfer, ← hid.1]
        exact congrArg Transfer.dropped (transfer_sendTimeoutNow t m.fromId)
    · exact .same htransfer

theorem stepFollower_transfer (h : s.stepFollower m rand = some s') : s'.transfer = s.transfer := by
  unfold stepFollower at h
  split at h
  case h_1 | h_12 => exact doElection_transfer h
  case h_4 => exact handleAppendEntries_transfer h
  case h_6 => exact handleRequestVote_transfer h
  all_goals cases h
  case h_8 => exact handleSnapshot_transfer
  case h_9 => exact handleHeartbeat_transfer
  case h_11 hm => exact forward_transfer hm
  case h_13 hm => exact transfer_push s (by rw [hm]; decide)
  all_goals rfl

theorem stepCandidate_transfer (h : s.stepCandidate m rand = some s') : s'.transfer = s.transfer := by
  have hfall : (if m.term = s.term then s.becomeFollower m.term m.fromId else s).transfer = s.transfer := by
    split_ifs <;> rfl
  unfold stepCandidate at h
  split at h
  case h_1 => exact doElection_transfer h
  case h_4 => exact (handleAppendEntries_transfer h).trans hfall
  case h_6 => exact handleRequestVote_transfer h
  case h_7 => exact handleRequestVoteResponse_transfer h
  all_goals cases h
  case h_8 => exact handleSnapshot_transfer
  case h_9 => exact handleHeartbeat_transfer.trans hfall
  case h_11 hm => exact forward_transfer hm
  case h_13 hm => exact transfer_push s (by rw [hm]; decide)
  all_goals rfl

theorem stepLeader_transfer (hstate : s.state = .stateLeader) (h : s.stepLeader m rand = some s') :
    TransferStep s m s' := by
  unfold stepLeader at h
  split at h
  case h_3 =>
    split_ifs at h
    · exact .same (appendEntries_transfer h)
    · cases h
      exact .same rfl
  case h_4 => exact .same (handleAppendEntries_transfer h)
  case h_5 hm => exact handleAppendEntriesResponse_transfer hm hstate h
  case h_6 => exact .same (handleRequestVote_transfer h)
  case h_10 => exact .same (sendAppend_transfer h)
  case h_11 hm => exact handleTransferLeader_transfer hm hstate h
  all_goals cases h
  case h_2 => exact .same bcastHeartbeat_transfer
  case h_8 => exact .same handleSnapshot_transfer
  case h_9 => exact .same handleHeartbeat_transfer
  all_goals exact .same rfl

theorem observeTerm_transfer (s : RaftContext) (m : Message) :
    (s.observeTerm m).transfer = if s.term < m.term then s.transfer.dropped else s.transfer := by
  unfold observeTerm
  split_ifs <;> rfl

/-- **What a message does to the transfer of a node.** -/
theorem step_transfer (h : s.step m rand = some s') :
    TransferStep (s.observeTerm m) m s' ∨ s' = s := by
  by_cases hnow : m.msgType = .msgTimeoutNow → s.prs.contains s.id = true
  · left
    cases hstate : (s.observeTerm m).state with
    | stateFollower =>
        rw [step_follower hnow hstate] at h
        exact .same (stepFollower_transfer h)
    | stateCandidate =>
        rw [step_candidate hnow hstate] at h
        exact .same (stepCandidate_transfer h)
    | stateLeader =>
        rw [step_leader hnow hstate] at h
        exact stepLeader_transfer hstate h
  · right
    obtain ⟨hm, hout⟩ := Classical.not_imp.mp hnow
    rw [step, if_pos ⟨Bool.eq_false_iff.mpr hout, hm⟩] at h
    exact (Option.some.inj h).symm

theorem step_transfer_local {ty : MessageType} (hty : ty = .msgHup ∨ ty = .msgBeat)
    (h : s.step { msgType := ty } rand = some s') : s'.transfer = s.transfer := by
  rcases step_transfer h with hstep | rfl
  · rw [observeTerm_none rfl] at hstep
    cases hstep with
    | same h => exact h
    | request hm _ _ _ _ _ => rcases hty with rfl | rfl <;> cases hm
    | finish hm _ _ _ _ _ _ _ => rcases hty with rfl | rfl <;> cases hm
  · rfl

theorem tickTransfer_transfer (s : RaftContext) : s.tickTransfer.transfer = s.transfer.ticked :=
  apply_ite transfer _ _ _

/-- **What a tick does to it.** -/
theorem tick_transfer (h : s.tick rand = some s') :
    s'.transfer = if s.state = .stateLeader ∧ s.leadTransferee ≠ NONE then s.transfer.ticked
      else s.transfer := by
  have helection : s.tickElection rand = some s' → s'.transfer = s.transfer := by
    intro h
    unfold tickElection at h
    dsimp only at h
    split_ifs at h
    · exact (step_transfer_local (.inl rfl) h).trans rfl
    · cases h
      rfl
  have hheartbeat : ∀ {t : RaftContext}, t.tickHeartbeat rand = some s' → s'.transfer = t.transfer := by
    intro t h
    unfold tickHeartbeat at h
    dsimp only at h
    split_ifs at h
    · exact (step_transfer_local (.inr rfl) h).trans rfl
    · cases h
      rfl
  unfold tick at h
  cases hstate : s.state <;> rw [hstate] at h <;> dsimp only at h
  · rw [if_neg fun h => nomatch h.1]
    exact helection h
  · rw [if_neg fun h => nomatch h.1]
    exact helection h
  · by_cases hpending : s.leadTransferee ≠ NONE
    · rw [if_pos hpending] at h
      rw [if_pos ⟨rfl, hpending⟩]
      exact (hheartbeat h).trans (tickTransfer_transfer s)
    · rw [if_neg hpending] at h
      rw [if_neg fun h => hpending h.2]
      exact hheartbeat h

/-- The leader `s` asks the sender of `m`, which has its whole log, to campaign. -/
structure HandsOver (s : RaftContext) (m : Message) (s' : RaftContext) (x : Message) : Prop where
  msgType : m.msgType = .msgTransferLeader ∨ m.msgType = .msgAppendResponse
  leader : s.state = .stateLeader
  leads : s'.state = .stateLeader
  message : x = { msgType := .msgTimeoutNow, fromId := s.id, toId := m.fromId }
  caughtUp : s'.matchOf m.fromId = s'.raftLog.lastIndex
  behind : m.fromId = s.id → s.matchOf m.fromId < s.raftLog.lastIndex

theorem mem_handTo {T : Transfer} {id : Nat} (hnone : T.handovers = [])
    (hx : x ∈ (T.handTo id peer).handovers) :
    x = { msgType := .msgTimeoutNow, fromId := id, toId := peer } := by
  unfold Transfer.handTo at hx
  rw [hnone] at hx
  exact List.mem_singleton.mp hx

theorem TransferStep.handsOver (h : TransferStep s m s') (hnone : s.transfer.handovers = [])
    (hx : x ∈ s'.transfer.handovers) : HandsOver s m s' x := by
  cases h with
  | same h =>
      rw [h, hnone] at hx
      cases hx
  | request hm hstate hother hpr hcore h =>
      split_ifs at h with hmatch
      · rw [h] at hx
        refine ⟨.inl hm, hstate, hcore.state.trans hstate, mem_handTo
          (T := { s.transfer with transferee := m.fromId, elapsed := 0 }) hnone hx, ?_,
          fun hself => absurd hself hother⟩
        rw [matchOf_of_prs hcore.prs, matchOf_of_progress hpr, hcore.raftLog, hmatch]
      · rw [h] at hx
        have hx : x ∈ s.transfer.handovers := hx
        rw [hnone] at hx
        cases hx
  | finish hm hstate _ hlt hmatch hlast hstate' h =>
      rw [h] at hx
      exact ⟨.inr hm, hstate, hstate', mem_handTo hnone hx, hmatch.trans hlast.symm, fun _ => hlt⟩

/-- **Only a peer that has the whole log is asked to campaign.** -/
theorem call_handsOver {c : Call} (hcall : s.call rand c = some s') (hidle : s.msgs = [])
    (hx : x ∈ s'.msgs) (hty : x.msgType = .msgTimeoutNow) :
    ∃ m, c = .step m ∧ HandsOver s m s' x := by
  have hnone : s.transfer.handovers = [] := by
    show handovers s.msgs = []
    rw [hidle]
    rfl
  have hmem : x ∈ s'.transfer.handovers := mem_handovers.mpr ⟨hx, hty⟩
  cases c with
  | tick =>
      have htransfer : s'.transfer.handovers = s.transfer.handovers := by
        rw [tick_transfer hcall]
        unfold Transfer.ticked
        split_ifs <;> rfl
      rw [htransfer, hnone] at hmem
      cases hmem
  | step m =>
      rcases step_transfer hcall with hstep | rfl
      · have hands : HandsOver (s.observeTerm m) m s' x := by
          refine hstep.handsOver ?_ hmem
          rw [observeTerm_transfer]
          split_ifs <;> exact hnone
        -- the node would have given the lead up at a later term
        rcases observeTerm_cases s m with ⟨_, hobs⟩ | ⟨_, _, _, hfollower, _⟩
        · exact ⟨m, rfl, hobs ▸ hands⟩
        · exact absurd (hfollower.symm.trans hands.leader) (by decide)
      · rw [hnone] at hmem
        cases hmem

/-! ### Runs -/

/-- A transfer is pending only at a leader, and for less than two election timeouts. -/
structure InTime (s : RaftContext) : Prop where
  timeout : 0 < s.electionTimeout
  leader : s.leadTransferee ≠ NONE → s.state = .stateLeader
  elapsed : s.leadTransferee ≠ NONE → s.transferElapsed < s.electionTimeout * 2

/-- The call is a request to move the leadership. -/
def IsRequest : Call → Prop
  | .tick => False
  | .step m => m.msgType = .msgTransferLeader

instance : DecidablePred IsRequest
  | .tick => inferInstanceAs (Decidable False)
  | .step m => inferInstanceAs (Decidable (m.msgType = .msgTransferLeader))

/-- How a call moves the clock of a pending transfer on. -/
structure Clocked (s : RaftContext) (c : Call) (s' : RaftContext) : Prop where
  timeout : s'.electionTimeout = s.electionTimeout
  before : ¬IsRequest c → s'.leadTransferee ≠ NONE → s.leadTransferee ≠ NONE
  elapsed : ¬IsRequest c → s'.leadTransferee ≠ NONE →
    s'.transferElapsed = s.transferElapsed + if c = .tick then 1 else 0

theorem transfer_fields {T : Transfer} (h : s'.transfer = T) : s'.electionTimeout = T.timeout ∧
    s'.leadTransferee = T.transferee ∧ s'.transferElapsed = T.elapsed := by
  cases h
  exact ⟨rfl, rfl, rfl⟩

/-- No transfer is pending after the call. -/
theorem InTime.over (h : InTime s) (c : Call) (htimeout : s'.electionTimeout = s.electionTimeout)
    (hnone : s'.leadTransferee = NONE) : InTime s' ∧ Clocked s c s' :=
  ⟨⟨htimeout ▸ h.timeout, fun hne => absurd hnone hne, fun hne => absurd hnone hne⟩,
    htimeout, fun _ hne => absurd hnone hne, fun _ hne => absurd hnone hne⟩

/-- The call leaves the transfer as it is. -/
theorem InTime.same (h : InTime s) (m : Message) (htransfer : s'.transfer = s.transfer)
    (hstate : s.state = .stateLeader → s'.state = .stateLeader) : InTime s' ∧ Clocked s (.step m) s' := by
  obtain ⟨htimeout, hpeer, helapsed⟩ := transfer_fields htransfer
  have hkept : s'.leadTransferee ≠ NONE → s.leadTransferee ≠ NONE := fun hne hnone =>
    hne (hpeer.trans hnone)
  refine ⟨⟨htimeout ▸ h.timeout, fun hne => hstate (h.leader (hkept hne)), fun hne => ?_⟩, htimeout,
    fun _ => hkept, fun _ _ => helapsed⟩
  rw [htimeout, helapsed]
  exact h.elapsed (hkept hne)

theorem InTime.tick (h : InTime s) (hcall : s.tick rand = some s')
    (hstate : s.state = .stateLeader → s'.state = .stateLeader) : InTime s' ∧ Clocked s .tick s' := by
  have htransfer := tick_transfer hcall
  split_ifs at htransfer with hpending
  · unfold Transfer.ticked at htransfer
    split_ifs at htransfer with hover
    · obtain ⟨htimeout, hpeer, _⟩ := transfer_fields htransfer
      exact h.over .tick htimeout hpeer
    · obtain ⟨htimeout, _, helapsed⟩ := transfer_fields htransfer
      refine ⟨⟨htimeout ▸ h.timeout, fun _ => hstate hpending.1, fun _ => ?_⟩, htimeout,
        fun _ _ => hpending.2, fun _ _ => helapsed⟩
      rw [htimeout, helapsed]
      exact (Nat.lt_of_not_le hover).trans_le (Nat.mod_le _ _)
  · obtain ⟨htimeout, hpeer, _⟩ := transfer_fields htransfer
    refine h.over .tick htimeout (hpeer.trans ?_)
    by_contra hne
    exact hpending ⟨h.leader hne, hne⟩

theorem InTime.step (h : InTime s) (hcall : s.step m rand = some s')
    (hstate : (s.observeTerm m).state = .stateLeader → s'.state = .stateLeader) :
    InTime s' ∧ Clocked s (.step m) s' := by
  have hlater : ∀ {T : Transfer}, s'.transfer = T → T.transferee = NONE → T.timeout = s.electionTimeout →
      InTime s' ∧ Clocked s (.step m) s' := by
    intro T htransfer hnone htimeout
    obtain ⟨htimeout', hpeer, _⟩ := transfer_fields htransfer
    exact h.over _ (htimeout'.trans htimeout) (hpeer.trans hnone)
  have hobs := observeTerm_transfer s m
  rcases step_transfer hcall with hstep | rfl
  swap
  · exact h.same m rfl fun hleader => hleader
  have htimeout : (s.observeTerm m).transfer.timeout = s.electionTimeout := by
    rw [hobs]
    split_ifs <;> rfl
  cases hstep with
  | same htransfer =>
      rw [hobs] at htransfer
      split_ifs at htransfer with hterm
      · exact hlater htransfer rfl rfl
      · rw [observeTerm_of_le (Nat.le_of_not_lt hterm)] at hstate
        exact h.same m htransfer hstate
  | request hm hleader _ _ _ htransfer =>
      have hfields : s'.electionTimeout = s.electionTimeout ∧ s'.transferElapsed = 0 := by
        split_ifs at htransfer <;> obtain ⟨htimeout', _, helapsed⟩ := transfer_fields htransfer <;>
          exact ⟨htimeout'.trans htimeout, helapsed⟩
      have hasked : IsRequest (.step m) := hm
      refine ⟨⟨hfields.1 ▸ h.timeout, fun _ => hstate hleader, fun _ => ?_⟩, hfields.1,
        fun hnot => absurd hasked hnot, fun hnot => absurd hasked hnot⟩
      have hpos := h.timeout
      omega
  | finish _ _ _ _ _ _ _ htransfer => exact hlater htransfer rfl htimeout

/-- **Every call keeps a transfer in time.** -/
theorem InTime.call {c : Call} (h : InTime s) (hadm : Admissible c) (hcall : s.call rand c = some s') :
    InTime s' ∧ Clocked s c s' := by
  cases c with
  | tick =>
      obtain ⟨m, hm, hcore, _⟩ := call_outcome hcall
      cases hm with
      | hup | beat =>
          have hrole := hcore.role (by decide)
          rw [observeTerm_none rfl] at hrole
          exact h.tick hcall fun hleader => (hrole.leader_keeps hleader).1
  | step m =>
      rcases step_outcome hcall with ⟨hcore, _⟩ | ⟨rfl, _⟩
      · exact h.step hcall fun hleader => ((hcore.role hadm.1).leader_keeps hleader).1
      · exact h.same m rfl fun hleader => hleader

end Eraft.RaftContext
