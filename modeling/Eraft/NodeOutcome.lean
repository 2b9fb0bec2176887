import Eraft.NodeSend

/-! One inversion of `Step`: what a call can do to a node, and which messages it can push. Every
invariant of the development is derived from `call_outcome`; nothing else takes `Step` apart. -/

open Std

namespace Eraft.RaftContext

/-- The two states agree in everything but timers, transfer bookkeeping and pushed messages. -/
structure SameCore (s s' : RaftContext) : Prop where
  id : s'.id = s.id := by rfl
  prs : s'.prs = s.prs := by rfl
  term : s'.term = s.term := by rfl
  vote : s'.vote = s.vote := by rfl
  state : s'.state = s.state := by rfl
  votes : s'.votes = s.votes := by rfl
  raftLog : s'.raftLog = s.raftLog := by rfl
  lead : s'.lead = s.lead := by rfl

theorem SameCore.refl (s : RaftContext) : SameCore s s := {}

theorem SameCore.trans {s t u : RaftContext} (h : SameCore s t) (h' : SameCore t u) : SameCore s u :=
  ⟨h'.id.trans h.id, h'.prs.trans h.prs, h'.term.trans h.term, h'.vote.trans h.vote,
    h'.state.trans h.state, h'.votes.trans h.votes, h'.raftLog.trans h.raftLog, h'.lead.trans h.lead⟩

theorem SameCore.pushAll (s : RaftContext) (ms : List Message) : SameCore s (s.pushAll ms) := {}

/-- A candidate that hears from a leader of its own term follows it. -/
def fallback (s : RaftContext) (m : Message) : RaftContext :=
  if s.state = .stateCandidate ∧ m.term = s.term then s.becomeFollower m.term m.fromId else s

/-- The log with the commit index an accepted append leads to. -/
def followCommit (l : RaftLog) (m : Message) : RaftLog :=
  if l.commited < m.commit then { l with commited := min m.commit (u64Add m.index m.entries.length) }
  else l

/-- The message is not of an earlier term. A message without a term always passes. -/
def Current (s : RaftContext) (m : Message) : Prop := m.term = NONE ∨ s.term ≤ m.term

/-- An append that passes the checks of `HandleAppendEntries`, and the log it leaves. -/
structure Accepts (s : RaftContext) (m : Message) (s' : RaftContext) : Prop where
  msgType : m.msgType = .msgAppend
  current : Current s m
  reach : m.index ≤ s.raftLog.lastIndex
  agrees : s.raftLog.firstIndex ≤ m.index → ∃ found, s.raftLog.term m.index = some (m.logTerm, found)
  merged : ∃ l, appendLoop m.entries m.entries 0 s.raftLog = some l ∧ s'.raftLog = followCommit l m

/-- A leader after its first appends; alone in its cluster it commits at once. -/
def elected (s : RaftContext) : RaftContext :=
  { s.leaderState with raftLog := { s.leaderState.raftLog with
      commited := if s.prs.size = 1 then s.raftLog.lastIndex + 1 else s.raftLog.commited } }

/-- A leader after a proposal. -/
def proposed (s : RaftContext) (entries : List Entry) : RaftContext :=
  let t := proposeLoop s.raftLog.lastIndex entries s
  let t := t.setProgress t.id { matchIdx := t.raftLog.lastIndex, next := t.raftLog.lastIndex + 1 }
  { t with raftLog := { t.raftLog with
      commited := if t.prs.size = 1 then t.raftLog.lastIndex else t.raftLog.commited } }

/-- The position in the sorted match vector that `LeaderCommit` reads. -/
def commitThresh (s : RaftContext) : Nat :=
  if s.prs.size % 2 = 0 ∧ s.pendingConfIndex = NONE then u64Sub (s.prs.size / 2) 1
  else s.prs.size / 2

/-- `LeaderCommit` raises the commit index to `n`. -/
structure Raises (s : RaftContext) (n : Nat) : Prop where
  stat : ∃ matched, s.prs.toList.mapM (fun peer => peer.2.map Progress.matchIdx) = some matched ∧
    (matched.insertionSort (· ≤ ·))[s.commitThresh]? = some n
  above : s.raftLog.commited < n
  ownTerm : ∃ found, s.raftLog.term n = some (s.term, found)

/-- What a message can do to the node that handles it. `s` is the state in which the handler of the
role runs, after `Step` has looked at the term. -/
inductive CoreStep (s : RaftContext) (m : Message) (s' : RaftContext) : Prop
  | same (h : SameCore s s')
  | follow (hm : m.msgType = .msgHeartbeat ∨ m.msgType = .msgAppend) (hcur : Current s m)
      (h : SameCore { s.fallback m with lead := m.fromId } s')
  | append (hacc : Accepts s m s')
      (h : SameCore { s.fallback m with lead := m.fromId, raftLog := s'.raftLog } s')
  | campaign (hm : m.msgType = .msgHup ∨ m.msgType = .msgTimeoutNow)
      (hstate : s.state ≠ .stateLeader) (hsize : s.prs.size ≠ 1) (h : SameCore s.becomeCandidate s')
  | alone (hm : m.msgType = .msgHup ∨ m.msgType = .msgTimeoutNow) (hstate : s.state ≠ .stateLeader)
      (hsize : s.prs.size = 1) (h : SameCore s.becomeCandidate.elected s')
  | grant (hm : m.msgType = .msgRequestVote) (hvote : s.vote = NONE ∨ s.vote = m.fromId)
      (hcur : Current s m) (h : SameCore { s with vote := m.fromId } s')
  | record (hm : m.msgType = .msgRequestVoteResponse) (hstate : s.state = .stateCandidate)
      (hcur : Current s m) (h : SameCore (s.recordVote m) s')
  | lose (hm : m.msgType = .msgRequestVoteResponse) (hstate : s.state = .stateCandidate)
      (hcur : Current s m) (hwin : (s.recordVote m).grantCount ≤ (s.recordVote m).voteThreshold)
      (hlost : ((s.recordVote m).voteThreshold : Int) <
        (s.recordVote m).voteCount - (s.recordVote m).grantCount)
      (h : SameCore ((s.recordVote m).becomeFollower s.term NONE) s')
  | win (hm : m.msgType = .msgRequestVoteResponse) (hstate : s.state = .stateCandidate)
      (hcur : Current s m) (hwin : (s.recordVote m).voteThreshold < (s.recordVote m).grantCount)
      (h : SameCore (s.recordVote m).elected s')
  | propose (hm : m.msgType = .msgPropose) (hstate : s.state = .stateLeader)
      (h : SameCore (s.proposed m.entries) s')
  | nack {pr : Progress} {index : Nat} (hm : m.msgType = .msgAppendResponse)
      (hstate : s.state = .stateLeader) (hcur : Current s m) (hreject : m.reject = true)
      (hindex : m.index ≠ NONE) (hhint : s.rejectHint m = some index)
      (hpr : s.progress m.fromId = some pr)
      (h : SameCore (s.setProgress m.fromId { pr with next := index }) s')
  | ack {pr : Progress} (hm : m.msgType = .msgAppendResponse) (hstate : s.state = .stateLeader)
      (hcur : Current s m) (hreject : m.reject = false) (hpr : s.progress m.fromId = some pr)
      (hlt : pr.matchIdx < m.index)
      (h : SameCore (s.setProgress m.fromId { matchIdx := m.index, next := m.index + 1 }) s')
  | commit {pr : Progress} {n : Nat} (hm : m.msgType = .msgAppendResponse)
      (hstate : s.state = .stateLeader) (hcur : Current s m) (hreject : m.reject = false)
      (hpr : s.progress m.fromId = some pr) (hlt : pr.matchIdx < m.index)
      (hraise : Raises (s.setProgress m.fromId { matchIdx := m.index, next := m.index + 1 }) n)
      (h : SameCore { s.setProgress m.fromId { matchIdx := m.index, next := m.index + 1 } with
        raftLog := { s.raftLog with commited := n } } s')
  | phantom (hm : m.msgType = .msgTransferLeader) (hstate : s.state = .stateLeader)
      (hnone : s.progress m.fromId = none) (h : SameCore { s with prs := s.prs.insert m.fromId none } s')
  | snapshot (hm : m.msgType = .msgSnapshot)

/-- The log of the state is no more up to date than the vote request says the candidate's is. -/
def NotAhead (s : RaftContext) (m : Message) : Prop :=
  ∃ t found, s.raftLog.term s.raftLog.lastIndex = some (t, found) ∧
    ¬(m.logTerm < t ∨ (t = m.logTerm ∧ m.index < s.raftLog.lastIndex))

/-- A message `x` that handling `m` in the state `s` can push; `s'` is the state the handler leaves,
which every message describes. -/
inductive Sent (s : RaftContext) (m : Message) (s' : RaftContext) (x : Message) : Prop
  | append (hx : AppendOf s' x) (hstate : s'.state = .stateLeader)
      (hto : x.toId ≠ s'.id ∨ x.toId = m.fromId)
  | heartbeat {peer : Nat} (hx : x = s'.heartbeatMsg peer) (hstate : s'.state = .stateLeader)
  | requestVote {peer t : Nat} {found : Bool}
      (hx : x = { msgType := .msgRequestVote, fromId := s'.id, toId := peer, term := s'.term,
                  logTerm := t, index := s'.raftLog.lastIndex })
      (hstate : s'.state = .stateCandidate) (hto : peer ≠ s'.id) (hterm : s.term < s'.term)
      (hlog : s'.raftLog.term s'.raftLog.lastIndex = some (t, found))
  | grant (hm : m.msgType = .msgRequestVote) (hcur : Current s m)
      (hx : x = { msgType := .msgRequestVoteResponse, fromId := s'.id, toId := m.fromId,
                  term := s'.term, reject := false })
      (hvote : s.vote = NONE ∨ s.vote = m.fromId) (h : SameCore { s with vote := m.fromId } s')
      (hlog : NotAhead s m)
  | refuse (hx : x = { msgType := .msgRequestVoteResponse, fromId := s'.id, toId := m.fromId,
                       term := s'.term, reject := true })
  | accept (hacc : Accepts s m s')
      (hx : x = { msgType := .msgAppendResponse, fromId := s'.id, toId := m.fromId, term := s'.term,
                  reject := false, logTerm := NONE, index := s'.raftLog.lastIndex })
      (h : SameCore { s.fallback m with lead := m.fromId, raftLog := s'.raftLog } s')
  | stale (hx : x = { msgType := .msgAppendResponse, fromId := s'.id, toId := m.fromId,
                      term := s'.term, reject := true, logTerm := NONE, index := NONE })
  | beyond (hm : m.msgType = .msgAppend) (hcur : Current s m) (hlog : s'.raftLog = s.raftLog)
      (hindex : s.raftLog.lastIndex < m.index)
      (hx : x = { msgType := .msgAppendResponse, fromId := s'.id, toId := m.fromId, term := s'.term,
                  reject := true, logTerm := NONE, index := s.raftLog.lastIndex + 1 })
  | conflict {t index : Nat} {found : Bool} (hm : m.msgType = .msgAppend) (hcur : Current s m)
      (hlog : s'.raftLog = s.raftLog) (hindex : m.index ≤ s.raftLog.lastIndex)
      (hfirst : s.raftLog.firstIndex ≤ m.index)
      (hterm : s.raftLog.term m.index = some (t, found)) (hne : t ≠ m.logTerm)
      (hsearch : index = (lastIdx (fun e => e.term == t)
        (s.raftLog.entries.take (s.raftLog.toSliceIndex (m.index + 1)))).getD 0)
      (hx : x = { msgType := .msgAppendResponse, fromId := s'.id, toId := m.fromId, term := s'.term,
                  reject := true, logTerm := t, index := index })
  | heartbeatResponse {reject : Bool}
      (hx : x = { msgType := .msgHeartbeatResponse, fromId := s'.id, toId := m.fromId,
                  term := s'.term, reject := reject })
  | timeoutNow (hx : x = { msgType := .msgTimeoutNow, fromId := s'.id, toId := m.fromId })
      (hstate : s'.state = .stateLeader)
  | transfer (hm : m.msgType = .msgTransferLeader) (hx : x = { m with toId := s'.lead })
  | confChange (hm : m.msgType = .msgEntryConfChange) (hx : x = m)
  | snapshot (hm : m.msgType = .msgSnapshot)

/-- The outcome of handling `m` in the state `s`. -/
def Outcome (s : RaftContext) (m : Message) (s' : RaftContext) : Prop :=
  CoreStep s m s' ∧ ∃ ms, s'.msgs = s.msgs ++ ms ∧ ∀ x ∈ ms, Sent s m s' x

variable {s s' : RaftContext} {m : Message} {rand : Nat}

theorem Outcome.one {x : Message} (hcore : CoreStep s m s') (hmsgs : s'.msgs = s.msgs ++ [x])
    (hx : Sent s m s' x) : Outcome s m s' :=
  ⟨hcore, [x], hmsgs, fun y hy => by rw [List.mem_singleton.mp hy]; exact hx⟩

theorem Outcome.quiet (hcore : CoreStep s m s') (hmsgs : s'.msgs = s.msgs) : Outcome s m s' :=
  ⟨hcore, [], by rw [hmsgs, List.append_nil], by simp⟩

theorem Outcome.unchanged (s : RaftContext) (m : Message) : Outcome s m s :=
  .quiet (.same (.refl s)) rfl

/-! ### What an outcome does not depend on

An outcome is about the core of the state that is left. The messages that are pushed afterwards or taken
out of it, and the timers, do not matter. -/

section Congr

variable {t : RaftContext} {x : Message} (hsame : SameCore s' t)

include hsame

theorem AppendOf.congr (h : AppendOf s' x) : AppendOf t x := by
  obtain ⟨pr, hpr, hindex⟩ := h.progress
  refine ⟨h.msgType, h.fromId.trans hsame.id.symm, h.term.trans hsame.term.symm, ?_, ⟨pr, ?_, hindex⟩, ?_, ?_⟩
  · rw [hsame.raftLog, h.commit]
  · rw [RaftContext.progress, hsame.prs]
    exact hpr
  · rw [hsame.raftLog, h.logTerm]
  · rw [hsame.raftLog]
    exact h.entries

theorem Accepts.congr (h : Accepts s m s') : Accepts s m t := by
  obtain ⟨l, hloop, hmerged⟩ := h.merged
  exact ⟨h.msgType, h.current, h.reach, h.agrees, l, hloop, hsame.raftLog.trans hmerged⟩

/-- The state that an accepted append leaves, said of one with the same core. -/
theorem SameCore.accepted {lead : Nat} (h : SameCore { s with lead := lead, raftLog := s'.raftLog } s') :
    SameCore { s with lead := lead, raftLog := t.raftLog } t := by
  rw [hsame.raftLog]
  exact h.trans hsame

theorem CoreStep.congr (h : CoreStep s m s') : CoreStep s m t := by
  cases h with
  | same h => exact .same (h.trans hsame)
  | follow hm hcur h => exact .follow hm hcur (h.trans hsame)
  | append hacc h => exact .append (hacc.congr hsame) (hsame.accepted h)
  | campaign hm hstate hsize h => exact .campaign hm hstate hsize (h.trans hsame)
  | alone hm hstate hsize h => exact .alone hm hstate hsize (h.trans hsame)
  | grant hm hvote hcur h => exact .grant hm hvote hcur (h.trans hsame)
  | record hm hstate hcur h => exact .record hm hstate hcur (h.trans hsame)
  | lose hm hstate hcur hwin hlost h => exact .lose hm hstate hcur hwin hlost (h.trans hsame)
  | win hm hstate hcur hwin h => exact .win hm hstate hcur hwin (h.trans hsame)
  | propose hm hstate h => exact .propose hm hstate (h.trans hsame)
  | nack hm hstate hcur hreject hindex hhint hpr h =>
      exact .nack hm hstate hcur hreject hindex hhint hpr (h.trans hsame)
  | ack hm hstate hcur hreject hpr hlt h => exact .ack hm hstate hcur hreject hpr hlt (h.trans hsame)
  | commit hm hstate hcur hreject hpr hlt hraise h =>
      exact .commit hm hstate hcur hreject hpr hlt hraise (h.trans hsame)
  | phantom hm hstate hnone h => exact .phantom hm hstate hnone (h.trans hsame)
  | snapshot hm => exact .snapshot hm

theorem Sent.congr (h : Sent s m s' x) : Sent s m t x := by
  have hstate' := hsame.state
  cases h with
  | append hx hstate hto =>
      exact .append (hx.congr hsame) (hstate'.trans hstate) (hto.imp_left fun hne => hsame.id.symm ▸ hne)
  | heartbeat hx hstate =>
      rw [heartbeatMsg, ← hsame.id, ← hsame.term] at hx
      exact .heartbeat hx (hstate'.trans hstate)
  | requestVote hx hstate hto hterm hlog =>
      rw [← hsame.id, ← hsame.term, ← hsame.raftLog] at hx
      rw [← hsame.id] at hto
      rw [← hsame.term] at hterm
      rw [← hsame.raftLog] at hlog
      exact .requestVote hx (hstate'.trans hstate) hto hterm hlog
  | grant hm hcur hx hvote h hlog =>
      refine .grant hm hcur (hx.trans ?_) hvote (h.trans hsame) hlog
      rw [hsame.id, hsame.term]
  | refuse hx => exact .refuse (by rw [hsame.id, hsame.term]; exact hx)
  | accept hacc hx h =>
      refine .accept (hacc.congr hsame) (hx.trans ?_) (hsame.accepted h)
      rw [hsame.id, hsame.term, hsame.raftLog]
  | stale hx => exact .stale (by rw [hsame.id, hsame.term]; exact hx)
  | beyond hm hcur hlog hindex hx =>
      exact .beyond hm hcur (hsame.raftLog.trans hlog) hindex (by rw [hsame.id, hsame.term]; exact hx)
  | conflict hm hcur hlog hindex hfirst hterm hne hsearch hx =>
      exact .conflict hm hcur (hsame.raftLog.trans hlog) hindex hfirst hterm hne hsearch
        (by rw [hsame.id, hsame.term]; exact hx)
  | heartbeatResponse hx => exact .heartbeatResponse (by rw [hsame.id, hsame.term]; exact hx)
  | timeoutNow hx hstate =>
      exact .timeoutNow (by rw [hsame.id]; exact hx) (hstate'.trans hstate)
  | transfer hm hx => exact .transfer hm (by rw [hsame.lead]; exact hx)
  | confChange hm hx => exact .confChange hm hx
  | snapshot hm => exact .snapshot hm

/-- One more message. -/
theorem Outcome.push {y : Message} (h : Outcome s m s') (hmsgs : t.msgs = s'.msgs ++ [y])
    (hy : Sent s m t y) : Outcome s m t := by
  obtain ⟨hcore, ms, hms, hsent⟩ := h
  refine ⟨hcore.congr hsame, ms ++ [y], by rw [hmsgs, hms, List.append_assoc], fun x hx => ?_⟩
  rcases List.mem_append.mp hx with hx | hx
  · exact (hsent x hx).congr hsame
  · rw [List.mem_singleton.mp hx]
    exact hy

end Congr

/-! ### The handlers -/

theorem commitAlone_spec (h : s.commitAlone = some s') :
    (s.prs.size ≠ 1 ∧ s' = s) ∨ (s.prs.size = 1 ∧ ∃ pr, s.progress s.id = some pr ∧
      s' = { s with raftLog := { s.raftLog with commited := pr.matchIdx } }) := by
  unfold commitAlone at h
  split_ifs at h with hsize
  · obtain ⟨pr, hpr, h⟩ := Option.bind_eq_some_iff.mp h
    cases h
    exact .inr ⟨hsize, pr, hpr, rfl⟩
  · cases h
    exact .inl ⟨hsize, rfl⟩

/-- The last two lines of `BecomeLeader` and of `AppendEntries`. The appends describe the state they
leave: alone in its cluster, where its commit index still changes, a node sends none. -/
theorem bcastAppend_commitAlone_spec {k : Nat}
    (hmatch : ∀ pr, s.progress s.id = some pr → pr.matchIdx = k)
    (h : (s.bcastAppend >>= commitAlone) = some s') :
    SameCore { s with raftLog := { s.raftLog with
        commited := if s.prs.size = 1 then k else s.raftLog.commited } } s' ∧
      ∃ ms, s'.msgs = s.msgs ++ ms ∧ ∀ x ∈ ms, AppendOf s' x ∧ x.toId ≠ s'.id := by
  obtain ⟨s₁, hsend, h⟩ := Option.bind_eq_some_iff.mp h
  obtain ⟨ms, rfl, hms⟩ := bcastAppend_spec hsend
  rcases commitAlone_spec h with ⟨hsize, rfl⟩ | ⟨hsize, pr, hpr, rfl⟩
  · have hsize' : s.prs.size ≠ 1 := hsize
    refine ⟨{ raftLog := ?_ }, ms, rfl, ?_⟩
    · simp only [if_neg hsize']
      rfl
    · intro x hx
      exact ⟨(hms x hx).1.pushAll ms, (hms x hx).2⟩
  · have hsize' : s.prs.size = 1 := hsize
    have hpr' : s.progress s.id = some pr := hpr
    -- the only peer is the node itself, so no append was sent
    have hnil : ∀ x ∈ ms, False := by
      intro x hx
      obtain ⟨happ, hto⟩ := hms x hx
      obtain ⟨pr', hx', _⟩ := happ.progress
      have hcard : s.peers.card = 1 := by rw [card_peers, hsize']
      exact hto (Finset.card_le_one.mp hcard.le _ (mem_peers_of_progress hx') _
        (mem_peers_of_progress hpr'))
    refine ⟨{ raftLog := ?_ }, ms, rfl, fun x hx => (hnil x hx).elim⟩
    simp only [if_pos hsize', ← hmatch pr hpr']
    rfl

theorem becomeLeader_spec (h : s.becomeLeader = some s') :
    SameCore s.elected s' ∧ ∃ ms, s'.msgs = s.msgs ++ ms ∧
      ∀ x ∈ ms, AppendOf s' x ∧ x.toId ≠ s'.id := by
  unfold becomeLeader at h
  split_ifs at h with hall
  have hprs : s.leaderState.prs.size = s.prs.size := by
    simp only [leaderState, leaderPrs, ExtTreeMap.size_map]
  have hmatch : ∀ pr, s.leaderState.progress s.leaderState.id = some pr →
      pr.matchIdx = s.raftLog.lastIndex + 1 := by
    intro pr hpr
    rw [progress_leaderState, Option.map_eq_some_iff] at hpr
    obtain ⟨_, _, hpr⟩ := hpr
    rw [← hpr, if_pos (show s.leaderState.id = s.id from rfl)]
  obtain ⟨hcore, hmsgs⟩ := bcastAppend_commitAlone_spec hmatch h
  rw [hprs] at hcore
  exact ⟨hcore, hmsgs⟩

/-- A proposal adds entries of the leader's term, all with the index after the log, and leaves the
rest of the node alone. -/
theorem proposeLoop_spec (n : Nat) (entries : List Entry) (s : RaftContext) :
    (proposeLoop n entries s).msgs = s.msgs ∧
      ∃ added, SameCore { s with raftLog := { s.raftLog with entries := s.raftLog.entries ++ added } }
          (proposeLoop n entries s) ∧
        added.length ≤ entries.length ∧ ∀ e ∈ added, e.term = s.term ∧ e.index = n + 1 := by
  induction entries generalizing s with
  | nil =>
      refine ⟨rfl, [], ?_, le_rfl, by simp⟩
      rw [List.append_nil]
      exact .refl s
  | cons e rest ih =>
      -- the entry is appended, unless it is a second pending configuration change
      have hadd : ∀ pending : Nat,
          let entry : Entry := { e with term := s.term, index := n + 0 + 1 }
          let s₁ : RaftContext := { s with pendingConfIndex := pending, raftLog :=
            { s.raftLog with entries := s.raftLog.entries ++ [entry] } }
          (proposeLoop n rest s₁).msgs = s.msgs ∧
            ∃ added, SameCore { s with raftLog := { s.raftLog with
                  entries := s.raftLog.entries ++ added } } (proposeLoop n rest s₁) ∧
              added.length ≤ (e :: rest).length ∧ ∀ e ∈ added, e.term = s.term ∧ e.index = n + 1 := by
        intro pending entry s₁
        obtain ⟨hmsgs, added, hcore, hlen, hadded⟩ := ih s₁
        refine ⟨hmsgs, entry :: added, ⟨hcore.id, hcore.prs, hcore.term, hcore.vote, hcore.state,
          hcore.votes, ?_, hcore.lead⟩, Nat.succ_le_succ hlen, ?_⟩
        · rw [hcore.raftLog, List.append_cons]
        · intro x hx
          rcases List.mem_cons.mp hx with rfl | hx
          · exact ⟨rfl, rfl⟩
          · exact hadded x hx
      unfold proposeLoop
      dsimp only
      split_ifs
      · obtain ⟨hmsgs, added, hcore, hlen, hadded⟩ := ih s
        exact ⟨hmsgs, added, hcore, Nat.le_succ_of_le hlen, hadded⟩
      · exact hadd _
      · exact hadd _

theorem appendEntries_spec {entries : List Entry} (h : s.appendEntries entries = some s') :
    SameCore (s.proposed entries) s' ∧ ∃ ms, s'.msgs = s.msgs ++ ms ∧
      ∀ x ∈ ms, AppendOf s' x ∧ x.toId ≠ s'.id := by
  unfold appendEntries at h
  extract_lets t lastIndex at h
  obtain ⟨_, _, h⟩ := Option.bind_eq_some_iff.mp h
  have hmatch : ∀ pr, (t.setProgress t.id { matchIdx := lastIndex, next := lastIndex + 1 }).progress
      t.id = some pr → pr.matchIdx = lastIndex := by
    intro pr hpr
    rw [progress_setProgress, if_pos rfl] at hpr
    cases hpr
    rfl
  obtain ⟨hcore, ms, hmsgs, hms⟩ := bcastAppend_commitAlone_spec hmatch h
  refine ⟨hcore, ms, ?_, hms⟩
  rw [hmsgs]
  exact congrArg (· ++ ms) (proposeLoop_spec _ entries s).1

/-- **What a campaign does.** A node that is alone leads at once; else it asks every other peer. -/
theorem doElection_cases (h : s.doElection rand = some s') :
    (s.prs.size = 1 ∧
      (redraw { s.becomeCandidate with heartbeatElapsed := 0 } rand).becomeLeader = some s') ∨
    ∃ t found ms, s.prs.size ≠ 1 ∧ s.raftLog.term s.raftLog.lastIndex = some (t, found) ∧
      s' = (redraw { s.becomeCandidate with heartbeatElapsed := 0 } rand).pushAll ms ∧
      ∀ x ∈ ms, ∃ peer,
        x = { msgType := .msgRequestVote, fromId := s.id, toId := peer, term := s.term + 1,
              logTerm := t, index := s.raftLog.lastIndex } ∧ peer ≠ s.id := by
  unfold doElection at h
  dsimp only at h
  split_ifs at h with hsize
  · exact .inl ⟨hsize, h⟩
  · simp only [Option.bind_eq_bind, Option.bind_eq_some_iff] at h
    obtain ⟨⟨t, found⟩, hterm, h⟩ := h
    obtain ⟨ms, hfold, hms⟩ := foldl_send
      (s := redraw { s.becomeCandidate with heartbeatElapsed := 0 } rand)
      (fun s' peer => s'.sendRequestVote peer s.raftLog.lastIndex t)
      (fun peer => { msgType := .msgRequestVote, fromId := s.id, toId := peer, term := s.term + 1,
                     logTerm := t, index := s.raftLog.lastIndex })
      (fun ms peer => by simp [sendRequestVote, push, pushAll, redraw, becomeCandidate])
      s.prs.keys [] (by simp)
    rw [pushAll_nil] at hfold
    exact .inr ⟨t, found, ms, hsize, hterm, (Option.some.inj h).symm.trans hfold, hms⟩

theorem doElection_spec (hm : m.msgType = .msgHup ∨ m.msgType = .msgTimeoutNow)
    (hstate : s.state ≠ .stateLeader) (h : s.doElection rand = some s') : Outcome s m s' := by
  rcases doElection_cases h with ⟨hsize, h⟩ | ⟨t, found, ms, hsize, hterm, rfl, hms⟩
  · obtain ⟨hcore, ms, hmsgs, hms⟩ := becomeLeader_spec h
    exact ⟨.alone hm hstate hsize ⟨hcore.id, hcore.prs, hcore.term, hcore.vote, hcore.state,
      hcore.votes, hcore.raftLog, hcore.lead⟩, ms, hmsgs, fun x hx =>
        .append (hms x hx).1 hcore.state (.inl (hms x hx).2)⟩
  · refine ⟨.campaign hm hstate hsize {}, ms, rfl, ?_⟩
    intro x hx
    obtain ⟨peer, rfl, hne⟩ := hms x hx
    exact .requestVote rfl rfl hne (Nat.lt_succ_self _) hterm

theorem current_of_not {t : Nat} (h : ¬(m.term ≠ NONE ∧ m.term < t)) : m.term = NONE ∨ t ≤ m.term := by
  by_cases hnone : m.term = NONE
  · exact .inl hnone
  · exact .inr (Nat.le_of_not_lt fun hlt => h ⟨hnone, hlt⟩)

theorem handleRequestVote_spec (hm : m.msgType = .msgRequestVote)
    (h : s.handleRequestVote m rand = some s') : Outcome s m s' := by
  have hrefuse : Outcome s m (s.sendRequestVoteResponse m.fromId true) :=
    .one (.same {}) rfl (.refuse rfl)
  unfold handleRequestVote at h
  split_ifs at h with hstale hvoted
  · cases h
    exact hrefuse
  · cases h
    exact hrefuse
  · have hcur := current_of_not hstale
    have hvote : s.vote = NONE ∨ s.vote = m.fromId := by
      by_cases hnone : s.vote = NONE
      · exact .inl hnone
      · exact .inr (by_contra fun hne => hvoted ⟨hnone, hne⟩)
    simp only [Option.bind_eq_bind, Option.bind_eq_some_iff] at h
    obtain ⟨⟨t, found⟩, hterm, h⟩ := h
    split_ifs at h with hahead
    · cases h
      exact hrefuse
    · cases h
      have hcore : SameCore { s with vote := m.fromId }
          ((redraw { s with vote := m.fromId, electionElapsed := 0 } rand).sendRequestVoteResponse
            m.fromId false) := {}
      exact .one (.grant hm hvote hcur hcore) rfl
        (.grant hm hcur rfl hvote hcore ⟨t, found, hterm, hahead⟩)

theorem handleRequestVoteResponse_spec (hm : m.msgType = .msgRequestVoteResponse)
    (hstate : s.state = .stateCandidate) (h : s.handleRequestVoteResponse m = some s') :
    Outcome s m s' := by
  unfold handleRequestVoteResponse at h
  dsimp only at h
  split_ifs at h with hstale hwin hlost
  · cases h
    exact .unchanged s m
  · obtain ⟨hcore, ms, hmsgs, hms⟩ := becomeLeader_spec h
    exact ⟨.win hm hstate (current_of_not hstale) hwin hcore, ms, hmsgs, fun x hx =>
      .append (hms x hx).1 hcore.state (.inl (hms x hx).2)⟩
  · cases h
    exact .quiet (.lose hm hstate (current_of_not hstale) (Nat.le_of_not_lt hwin) hlost (.refl _)) rfl
  · cases h
    exact .quiet (.record hm hstate (current_of_not hstale) (.refl _)) rfl

theorem fallback_of_ne (hstate : s.state ≠ .stateCandidate) : s.fallback m = s :=
  if_neg fun h => hstate h.1

theorem fallback_leader (h : (s.fallback m).state = .stateLeader) : s.state = .stateLeader := by
  unfold fallback at h
  split_ifs at h
  · cases h
  · exact h

@[simp] theorem fallback_raftLog : (s.fallback m).raftLog = s.raftLog := by
  unfold fallback
  split_ifs <;> rfl

@[simp] theorem fallback_id : (s.fallback m).id = s.id := by
  unfold fallback
  split_ifs <;> rfl

@[simp] theorem fallback_prs : (s.fallback m).prs = s.prs := by
  unfold fallback
  split_ifs <;> rfl

@[simp] theorem fallback_msgs : (s.fallback m).msgs = s.msgs := by
  unfold fallback
  split_ifs <;> rfl

@[simp] theorem fallback_term : (s.fallback m).term = s.term := by
  unfold fallback
  split_ifs with h
  · exact h.2
  · rfl

/-- The append is taken over in `b`, which differs from `s` in the timers and `lead_` only. -/
theorem acceptAppend_spec {b : RaftContext} (hm : m.msgType = .msgAppend) (hcur : Current s m)
    (hcore : SameCore { s.fallback m with lead := m.fromId } b) (hmsgs : b.msgs = s.msgs)
    (hreach : m.index ≤ s.raftLog.lastIndex)
    (hagrees : s.raftLog.firstIndex ≤ m.index →
      ∃ found, s.raftLog.term m.index = some (m.logTerm, found))
    (h : b.acceptAppend m = some s') : Outcome s m s' := by
  have hlog : b.raftLog = s.raftLog := hcore.raftLog.trans fallback_raftLog
  unfold acceptAppend at h
  simp only [Option.bind_eq_bind, Option.bind_eq_some_iff, hlog] at h
  obtain ⟨l, hl, h⟩ := h
  cases h
  have hacc : Accepts s m (RaftContext.sendAppendResponse { b with raftLog := followCommit l m }
      m.fromId false NONE (followCommit l m).lastIndex) :=
    ⟨hm, hcur, hreach, hagrees, l, hl, rfl⟩
  have hcore' : SameCore { s.fallback m with lead := m.fromId, raftLog := followCommit l m }
      (RaftContext.sendAppendResponse { b with raftLog := followCommit l m }
        m.fromId false NONE (followCommit l m).lastIndex) :=
    ⟨hcore.id, hcore.prs, hcore.term, hcore.vote, hcore.state, hcore.votes, rfl, hcore.lead⟩
  exact .one (.append hacc hcore') (by simp [sendAppendResponse, push, hmsgs]) (.accept hacc rfl hcore')

theorem handleAppendEntries_spec (hm : m.msgType = .msgAppend)
    (h : (s.fallback m).handleAppendEntries m rand = some s') : Outcome s m s' := by
  unfold handleAppendEntries at h
  by_cases hstale : m.term ≠ NONE ∧ m.term < (s.fallback m).term
  · rw [if_pos hstale] at h
    have hfall : s.fallback m = s :=
      if_neg fun hc => Nat.lt_irrefl s.term (by simpa [hc.2] using hstale.2)
    rw [hfall] at h
    cases h
    exact .one (.same {}) rfl (.stale rfl)
  rw [if_neg hstale] at h
  rw [fallback_term] at hstale
  have hcur := current_of_not hstale
  -- the state in which the checks are made: only the timers and `lead_` have changed
  extract_lets src b lastIndex at h
  have hcore : SameCore { s.fallback m with lead := m.fromId } b :=
    {}
  have hlog : b.raftLog = s.raftLog := hcore.raftLog.trans fallback_raftLog
  have hmsgs : b.msgs = s.msgs := fallback_msgs
  have hlast : lastIndex = s.raftLog.lastIndex := congrArg RaftLog.lastIndex hlog
  clear_value lastIndex b src
  subst hlast
  have hreject : ∀ {t index : Nat}, Sent s m (b.sendAppendResponse m.fromId true t index)
      { msgType := .msgAppendResponse, fromId := b.id, toId := m.fromId, term := b.term,
        reject := true, logTerm := t, index := index } →
      Outcome s m (b.sendAppendResponse m.fromId true t index) := fun hsent =>
    .one (.follow (.inr hm) hcur ⟨hcore.id, hcore.prs, hcore.term, hcore.vote, hcore.state,
      hcore.votes, hcore.raftLog, hcore.lead⟩) (by simp [sendAppendResponse, push, hmsgs]) hsent
  rw [hlog] at h
  split_ifs at h with hbeyond hfirst
  · cases h
    exact hreject (.beyond hm hcur hlog hbeyond rfl)
  · simp only [Option.bind_eq_bind, Option.bind_eq_some_iff] at h
    obtain ⟨⟨t, found⟩, hterm, h⟩ := h
    dsimp only at h
    split_ifs at h with hne
    · unfold rejectAppend at h
      dsimp only at h
      rw [hlog] at h
      split_ifs at h
      cases h
      exact hreject (.conflict hm hcur hlog (Nat.le_of_not_lt hbeyond) hfirst hterm hne rfl rfl)
    · exact acceptAppend_spec hm hcur hcore hmsgs (Nat.le_of_not_lt hbeyond)
        (fun _ => ⟨found, by rw [hterm, not_not.mp hne]⟩) h
  · exact acceptAppend_spec hm hcur hcore hmsgs (Nat.le_of_not_lt hbeyond)
      (fun hle => absurd hle hfirst) h

theorem handleHeartbeat_spec (s : RaftContext) (rand : Nat) (hm : m.msgType = .msgHeartbeat) :
    Outcome s m ((s.fallback m).handleHeartbeat m rand) := by
  unfold handleHeartbeat
  split_ifs with hstale
  · have hfall : s.fallback m = s :=
      if_neg fun hc => Nat.lt_irrefl s.term (by simpa [hc.2] using hstale.2)
    rw [hfall]
    exact .one (.same {}) rfl (.heartbeatResponse rfl)
  · rw [fallback_term] at hstale
    exact .one (.follow (.inl hm) (current_of_not hstale) {})
      (congrArg (· ++ _) fallback_msgs) (.heartbeatResponse rfl)

theorem leaderCommit_spec (h : s.leaderCommit = some s') :
    s' = s ∨ ∃ n ms, Raises s n ∧
      s' = ({ s with raftLog := { s.raftLog with commited := n } } : RaftContext).pushAll ms ∧
      ∀ x ∈ ms, AppendOf { s with raftLog := { s.raftLog with commited := n } } x ∧ x.toId ≠ s.id := by
  unfold leaderCommit at h
  simp only [Option.bind_eq_bind, Option.bind_eq_some_iff] at h
  obtain ⟨matched, hmatched, n, hn, h⟩ := h
  split_ifs at h with habove
  · obtain ⟨⟨t, found⟩, hterm, h⟩ := Option.bind_eq_some_iff.mp h
    dsimp only at h
    split_ifs at h with howns
    · obtain ⟨ms, hs', hms⟩ := bcastAppend_spec h
      exact .inr ⟨n, ms, ⟨⟨matched, hmatched, hn⟩, habove, found, by rw [hterm, howns]⟩, hs', hms⟩
    · cases h
      exact .inl rfl
  · cases h
    exact .inl rfl

theorem handleAppendEntriesResponse_spec (hm : m.msgType = .msgAppendResponse)
    (hstate : s.state = .stateLeader) (h : s.handleAppendEntriesResponse m = some s') :
    Outcome s m s' := by
  unfold handleAppendEntriesResponse at h
  split_ifs at h with hstale hreject hnone
  · cases h
    exact .unchanged s m
  · cases h
    exact .unchanged s m
  · simp only [Option.bind_eq_bind, Option.bind_eq_some_iff] at h
    obtain ⟨index, hhint, pr, hpr, h⟩ := h
    obtain ⟨x, hx, hto, rfl⟩ := sendAppend_spec h
    exact .one (.nack hm hstate (current_of_not hstale) hreject hnone hhint hpr (.pushAll _ _)) rfl
      (.append (hx.pushAll _) hstate (.inr hto))
  · simp only [Option.bind_eq_bind, Option.bind_eq_some_iff] at h
    obtain ⟨pr, hpr, h⟩ := h
    have hreject' : m.reject = false := by simpa using hreject
    have hcur := current_of_not hstale
    split_ifs at h with hlt
    swap
    · cases h
      exact .unchanged s m
    obtain ⟨s₁, hcommit, h⟩ := Option.bind_eq_some_iff.mp h
    have hout : Outcome s m s₁ ∧ s₁.state = .stateLeader := by
      rcases leaderCommit_spec hcommit with rfl | ⟨n, ms, hraise, rfl, hms⟩
      · exact ⟨.quiet (.ack hm hstate hcur hreject' hpr hlt (.refl _)) rfl, hstate⟩
      · refine ⟨⟨.commit hm hstate hcur hreject' hpr hlt hraise {}, ms, rfl, fun x hx => ?_⟩, hstate⟩
        exact .append ((hms x hx).1.pushAll ms) hstate (.inl (hms x hx).2)
    -- a leadership transfer may end with one more message
    split_ifs at h <;> cases h
    · exact hout.1.push {} rfl (.timeoutNow rfl hout.2)
    · exact hout.1

theorem handleTransferLeader_spec (hm : m.msgType = .msgTransferLeader)
    (hstate : s.state = .stateLeader) (h : s.handleTransferLeader m = some s') : Outcome s m s' := by
  unfold handleTransferLeader at h
  split_ifs at h
  · cases h
    exact .unchanged s m
  · cases h
    exact .unchanged s m
  · cases hpr : s.progress m.fromId with
    | none =>
        rw [hpr] at h
        cases h
        exact .quiet (.phantom hm hstate hpr (.refl _)) rfl
    | some pr =>
        rw [hpr] at h
        dsimp only at h
        split_ifs at h
        · cases h
          exact .one (.same {}) rfl (.timeoutNow rfl hstate)
        · obtain ⟨x, hx, hto, rfl⟩ := sendAppend_spec h
          exact .one (.same {}) rfl
            (.append (hx.pushAll _) hstate (.inr hto))

theorem handleSnapshot_spec (hm : m.msgType = .msgSnapshot) : Outcome s m (s.handleSnapshot m) := by
  have hmsgs : ∃ ms, (s.handleSnapshot m).msgs = s.msgs ++ ms := by
    unfold handleSnapshot
    dsimp only
    split_ifs
    · exact ⟨_, rfl⟩
    · exact ⟨_, rfl⟩
  obtain ⟨ms, hms⟩ := hmsgs
  exact ⟨.snapshot hm, ms, hms, fun x _ => .snapshot hm⟩

/-- `MsgTransferLeader` at a node that does not lead. -/
theorem forward_spec (hm : m.msgType = .msgTransferLeader) :
    Outcome s m (if s.lead ≠ NONE then s.push { m with toId := s.lead } else s) := by
  split_ifs
  · exact .one (.same (.pushAll s _)) rfl (.transfer hm rfl)
  · exact .unchanged s m

/-! ### Step and Tick -/

theorem stepFollower_spec (hstate : s.state = .stateFollower) (h : s.stepFollower m rand = some s') :
    Outcome s m s' := by
  have hleader : s.state ≠ .stateLeader := by rw [hstate]; decide
  have hfall : s.fallback m = s := fallback_of_ne (by rw [hstate]; decide)
  unfold stepFollower at h
  cases hm : m.msgType <;> rw [hm] at h <;> dsimp only at h
  case msgHup => exact doElection_spec (.inl hm) hleader h
  case msgTimeoutNow => exact doElection_spec (.inr hm) hleader h
  case msgAppend => exact handleAppendEntries_spec hm (hfall.symm ▸ h)
  case msgRequestVote => exact handleRequestVote_spec hm h
  case msgSnapshot =>
    cases h
    exact handleSnapshot_spec hm
  case msgHeartbeat =>
    cases h
    have hout := handleHeartbeat_spec s rand hm
    rwa [hfall] at hout
  case msgTransferLeader =>
    rw [← hm] at h
    cases h
    exact forward_spec hm
  case msgEntryConfChange =>
    cases h
    exact .one (.same {}) rfl (.confChange hm rfl)
  all_goals
    cases h
    exact .unchanged s m

theorem stepCandidate_spec (hstate : s.state = .stateCandidate)
    (h : s.stepCandidate m rand = some s') : Outcome s m s' := by
  have hleader : s.state ≠ .stateLeader := by rw [hstate]; decide
  have hfall : (if m.term = s.term then s.becomeFollower m.term m.fromId else s) = s.fallback m := by
    simp only [fallback, hstate, true_and]
  unfold stepCandidate at h
  rw [hfall] at h
  cases hm : m.msgType <;> rw [hm] at h <;> dsimp only at h
  case msgHup => exact doElection_spec (.inl hm) hleader h
  case msgAppend => exact handleAppendEntries_spec hm h
  case msgRequestVote => exact handleRequestVote_spec hm h
  case msgRequestVoteResponse => exact handleRequestVoteResponse_spec hm hstate h
  case msgSnapshot =>
    cases h
    exact handleSnapshot_spec hm
  case msgHeartbeat =>
    cases h
    exact handleHeartbeat_spec s rand hm
  case msgTransferLeader =>
    rw [← hm] at h
    cases h
    exact forward_spec hm
  case msgEntryConfChange =>
    cases h
    exact .one (.same {}) rfl (.confChange hm rfl)
  all_goals
    cases h
    exact .unchanged s m

theorem stepLeader_spec (hstate : s.state = .stateLeader) (h : s.stepLeader m rand = some s') :
    Outcome s m s' := by
  have hfall : s.fallback m = s := fallback_of_ne (by rw [hstate]; decide)
  unfold stepLeader at h
  cases hm : m.msgType <;> rw [hm] at h <;> dsimp only at h
  case msgBeat =>
    obtain ⟨ms, hbeat, hms⟩ := bcastHeartbeat_spec s
    rw [hbeat] at h
    cases h
    refine ⟨.same (.pushAll s ms), ms, rfl, fun x hx => ?_⟩
    obtain ⟨peer, hx, _⟩ := hms x hx
    exact .heartbeat hx hstate
  case msgPropose =>
    split_ifs at h
    · obtain ⟨hcore, ms, hmsgs, hms⟩ := appendEntries_spec h
      have hlead : s'.state = .stateLeader :=
        hcore.state.trans ((proposeLoop_spec _ m.entries s).2.choose_spec.1.state.trans hstate)
      exact ⟨.propose hm hstate hcore, ms, hmsgs, fun x hx =>
        .append (hms x hx).1 hlead (.inl (hms x hx).2)⟩
    · cases h
      exact .unchanged s m
  case msgAppend => exact handleAppendEntries_spec hm (hfall.symm ▸ h)
  case msgAppendResponse => exact handleAppendEntriesResponse_spec hm hstate h
  case msgRequestVote => exact handleRequestVote_spec hm h
  case msgSnapshot =>
    cases h
    exact handleSnapshot_spec hm
  case msgHeartbeat =>
    cases h
    have hout := handleHeartbeat_spec s rand hm
    rwa [hfall] at hout
  case msgHeartbeatResponse =>
    obtain ⟨x, hx, hto, rfl⟩ := sendAppend_spec h
    exact .one (.same (.pushAll s [x])) rfl (.append (hx.pushAll _) hstate (.inr hto))
  case msgTransferLeader => exact handleTransferLeader_spec hm hstate h
  all_goals
    cases h
    exact .unchanged s m

/-- **What one `Step` does.** It first observes the term of the message and then acts as `Outcome`
says; a node outside its own `prs_` ignores `MsgTimeoutNow` before that. -/
theorem step_outcome (h : s.step m rand = some s') :
    Outcome (s.observeTerm m) m s' ∨ (s' = s ∧ m.msgType = .msgTimeoutNow) := by
  unfold step at h
  split_ifs at h with hremoved
  · cases h
    exact .inr ⟨rfl, hremoved.2⟩
  · left
    dsimp only at h
    cases hstate : (s.observeTerm m).state <;> rw [hstate] at h <;> dsimp only at h
    · exact stepFollower_spec hstate h
    · exact stepCandidate_spec hstate h
    · exact stepLeader_spec hstate h

/-- The message that a call has the node handle. -/
inductive Handled : Call → Message → Prop
  | hup : Handled .tick { msgType := .msgHup }
  | beat : Handled .tick { msgType := .msgBeat }
  | step (m : Message) : Handled (.step m) m
  /-- A node outside its own `prs_` does not even look at the term of `MsgTimeoutNow`. -/
  | ignored (m : Message) (hm : m.msgType = .msgTimeoutNow) : Handled (.step m) { m with term := NONE }

theorem observeTerm_of_le (hterm : m.term ≤ s.term) : s.observeTerm m = s := if_neg (Nat.not_lt.mpr hterm)

theorem observeTerm_none (hm : m.term = NONE) : s.observeTerm m = s :=
  observeTerm_of_le (by rw [hm]; exact Nat.zero_le _)

/-! `Step` hands every message to the function of the role, a `MsgTimeoutNow` at a removed node apart. -/

theorem step_follower (hm : m.msgType = .msgTimeoutNow → s.prs.contains s.id = true)
    (hstate : (s.observeTerm m).state = .stateFollower) (rand : Nat) :
    s.step m rand = (s.observeTerm m).stepFollower m rand := by
  unfold step
  rw [if_neg fun h => Bool.noConfusion ((hm h.2).symm.trans h.1)]
  dsimp only
  rw [hstate]

theorem step_candidate (hm : m.msgType = .msgTimeoutNow → s.prs.contains s.id = true)
    (hstate : (s.observeTerm m).state = .stateCandidate) (rand : Nat) :
    s.step m rand = (s.observeTerm m).stepCandidate m rand := by
  unfold step
  rw [if_neg fun h => Bool.noConfusion ((hm h.2).symm.trans h.1)]
  dsimp only
  rw [hstate]

theorem step_leader (hm : m.msgType = .msgTimeoutNow → s.prs.contains s.id = true)
    (hstate : (s.observeTerm m).state = .stateLeader) (rand : Nat) :
    s.step m rand = (s.observeTerm m).stepLeader m rand := by
  unfold step
  rw [if_neg fun h => Bool.noConfusion ((hm h.2).symm.trans h.1)]
  dsimp only
  rw [hstate]

/-- Every role hands a `MsgSnapshot` to `HandleSnapshot`. -/
theorem step_snapshot (hm : m.msgType = .msgSnapshot) (rand : Nat) :
    s.step m rand = some ((s.observeTerm m).handleSnapshot m) := by
  unfold step
  rw [if_neg (by rw [hm]; exact fun h => nomatch h.2)]
  dsimp only
  cases (s.observeTerm m).state
  · simp only [stepFollower, hm]
  · simp only [stepCandidate, hm]
  · simp only [stepLeader, hm]

/-- The state with other timers. -/
def retime (s : RaftContext) (heartbeatElapsed electionElapsed transferElapsed leadTransferee : Nat) :
    RaftContext :=
  { s with heartbeatElapsed := heartbeatElapsed, electionElapsed := electionElapsed,
           transferElapsed := transferElapsed, leadTransferee := leadTransferee }

/-- `Tick` changes timers before it has the node handle a message; the outcome does not depend on
them. -/
theorem Outcome.of_retime {i j k n : Nat} (hm : m.msgType = .msgHup ∨ m.msgType = .msgBeat)
    (h : Outcome (s.retime i j k n) m s') : Outcome s m s' := by
  obtain ⟨hstep, ms, hpushed, hsent⟩ := h
  have hlocal : ∀ {ty : MessageType}, m.msgType = ty → ty ≠ .msgHup → ty ≠ .msgBeat → False := by
    intro ty hty hhup hbeat
    rcases hm with hm | hm
    · exact hhup (hty.symm.trans hm)
    · exact hbeat (hty.symm.trans hm)
  refine ⟨?_, ms, hpushed, fun x hx => ?_⟩
  · cases hstep with
    | same h =>
        exact .same ⟨h.id, h.prs, h.term, h.vote, h.state, h.votes, h.raftLog, h.lead⟩
    | campaign hm' hleader hsize h =>
        exact .campaign hm' hleader hsize
          ⟨h.id, h.prs, h.term, h.vote, h.state, h.votes, h.raftLog, h.lead⟩
    | alone hm' hleader hsize h =>
        exact .alone hm' hleader hsize
          ⟨h.id, h.prs, h.term, h.vote, h.state, h.votes, h.raftLog, h.lead⟩
    | follow hm' => rcases hm' with hm' | hm' <;> exact (hlocal hm' (by decide) (by decide)).elim
    | append hacc => exact (hlocal hacc.msgType (by decide) (by decide)).elim
    | grant hm' => exact (hlocal hm' (by decide) (by decide)).elim
    | record hm' => exact (hlocal hm' (by decide) (by decide)).elim
    | lose hm' => exact (hlocal hm' (by decide) (by decide)).elim
    | win hm' => exact (hlocal hm' (by decide) (by decide)).elim
    | propose hm' => exact (hlocal hm' (by decide) (by decide)).elim
    | nack hm' => exact (hlocal hm' (by decide) (by decide)).elim
    | ack hm' => exact (hlocal hm' (by decide) (by decide)).elim
    | commit hm' => exact (hlocal hm' (by decide) (by decide)).elim
    | phantom hm' => exact (hlocal hm' (by decide) (by decide)).elim
    | snapshot hm' => exact (hlocal hm' (by decide) (by decide)).elim
  · cases hsent x hx with
    | append hx hlead hto => exact .append hx hlead hto
    | heartbeat hx hlead => exact .heartbeat hx hlead
    | requestVote hx hcand hto hlt hlast => exact .requestVote hx hcand hto hlt hlast
    | grant hm' => exact (hlocal hm' (by decide) (by decide)).elim
    | refuse hx => exact .refuse hx
    | accept hacc => exact (hlocal hacc.msgType (by decide) (by decide)).elim
    | stale hx => exact .stale hx
    | beyond hm' => exact (hlocal hm' (by decide) (by decide)).elim
    | conflict hm' => exact (hlocal hm' (by decide) (by decide)).elim
    | heartbeatResponse hx => exact .heartbeatResponse hx
    | timeoutNow hx hlead => exact .timeoutNow hx hlead
    | transfer hm' => exact (hlocal hm' (by decide) (by decide)).elim
    | confChange hm' => exact (hlocal hm' (by decide) (by decide)).elim
    | snapshot hm' => exact (hlocal hm' (by decide) (by decide)).elim

/-- A timer that has run out makes the node handle its message. -/
theorem timer_outcome {ty : MessageType} (hty : ty = .msgHup ∨ ty = .msgBeat) (i j k n : Nat)
    (h : (s.retime i j k n).step { msgType := ty } rand = some s') : Outcome s { msgType := ty } s' := by
  refine .of_retime hty (i := i) (j := j) (k := k) (n := n) ?_
  rcases step_outcome h with hout | ⟨rfl, _⟩
  · rwa [observeTerm_none rfl] at hout
  · exact .unchanged _ _

theorem tickElection_outcome (h : s.tickElection rand = some s') :
    Outcome s { msgType := .msgHup } s' := by
  unfold tickElection at h
  dsimp only at h
  split_ifs at h
  · exact timer_outcome (.inl rfl) s.heartbeatElapsed 0 s.transferElapsed s.leadTransferee h
  · cases h
    exact .of_retime (i := s.heartbeatElapsed) (j := s.electionElapsed + 1) (k := s.transferElapsed)
      (n := s.leadTransferee) (.inl rfl) (.unchanged _ _)

theorem tickHeartbeat_outcome (h : s.tickHeartbeat rand = some s') :
    Outcome s { msgType := .msgBeat } s' := by
  unfold tickHeartbeat at h
  dsimp only at h
  split_ifs at h
  · exact timer_outcome (.inr rfl) 0 s.electionElapsed s.transferElapsed s.leadTransferee h
  · cases h
    exact .of_retime (i := s.heartbeatElapsed + 1) (j := s.electionElapsed) (k := s.transferElapsed)
      (n := s.leadTransferee) (.inr rfl) (.unchanged _ _)

theorem tickTransfer_eq (s : RaftContext) : ∃ k n,
    s.tickTransfer = s.retime s.heartbeatElapsed s.electionElapsed k n := by
  unfold tickTransfer
  dsimp only
  split_ifs
  · exact ⟨0, NONE, rfl⟩
  · exact ⟨s.transferElapsed + 1, s.leadTransferee, rfl⟩

/-- **What one call does.** The node handles one message, after it has observed its term. -/
theorem call_outcome {c : Call} (h : s.call rand c = some s') :
    ∃ m, Handled c m ∧ Outcome (s.observeTerm m) m s' := by
  cases c with
  | step m =>
      rcases step_outcome h with hout | ⟨rfl, hm⟩
      · exact ⟨m, .step m, hout⟩
      · refine ⟨_, .ignored m hm, ?_⟩
        rw [observeTerm_none rfl]
        exact .unchanged _ _
  | tick =>
      have h : s.tick rand = some s' := h
      unfold tick at h
      cases hstate : s.state <;> rw [hstate] at h <;> dsimp only at h
      · exact ⟨_, .hup, by rw [observeTerm_none rfl]; exact tickElection_outcome h⟩
      · exact ⟨_, .hup, by rw [observeTerm_none rfl]; exact tickElection_outcome h⟩
      · refine ⟨_, .beat, ?_⟩
        rw [observeTerm_none rfl]
        split_ifs at h
        · obtain ⟨k, n, htick⟩ := tickTransfer_eq s
          rw [htick] at h
          exact .of_retime (.inr rfl) (tickHeartbeat_outcome h)
        · exact tickHeartbeat_outcome h

end Eraft.RaftContext
