import Eraft.NodeStable
import Eraft.NodeTimer

/-! Who writes `pendingConfIndex_`. Of all messages only a proposal does: no election, no accepted append
and no change of term touches it, so that it still says what the node itself has proposed when the
log has long been another one. A leader whose `pendingConfIndex_` does describe its log takes one
configuration change at a time for as long as it leads. -/

open Std

namespace Eraft.RaftContext

variable {s s' : RaftContext} {m : Message} {rand : Nat}

/-- **Only a proposal writes `pendingConfIndex_`**, and only on a leader. -/
theorem step_pending (h : s.step m rand = some s')
    (hm : (s.observeTerm m).state = .stateLeader → m.msgType ≠ .msgPropose) :
    s'.pendingConfIndex = s.pendingConfIndex := by
  cases step_aside h with
  | listens h => rcases h with h | h <;> exact congrArg Aside.pendingConfIndex h
  | campaign _ h => exact congrArg Aside.pendingConfIndex h
  | propose hprop hstate _ => exact absurd hprop (hm hstate)

end Eraft.RaftContext

namespace Eraft

/-- The entry changes the configuration. -/
def Entry.isConf (e : Entry) : Bool := e.entryType == .entryConfChange

namespace RaftLog

variable {l : RaftLog}

/-- The configuration changes behind `applied_`. -/
def unapplied (l : RaftLog) : List Entry := l.entries.filter fun e => e.isConf && decide (l.applied < e.index)

theorem unapplied_eq (h : Contiguous l.entries) :
    l.unapplied = (l.entries.drop l.applied).filter Entry.isConf := by
  have hfront : (l.entries.take l.applied).filter
      (fun e => e.isConf && decide (l.applied < e.index)) = [] := by
    rw [List.filter_eq_nil_iff]
    intro e he
    obtain ⟨i, hi⟩ := List.mem_iff_getElem?.mp he
    have hlt := (List.getElem?_eq_some_iff.mp hi).1
    rw [List.length_take] at hlt
    rw [h.take _ i e hi, decide_eq_false (by omega), Bool.and_false]
    exact Bool.false_ne_true
  have hback : (l.entries.drop l.applied).filter
      (fun e => e.isConf && decide (l.applied < e.index)) = (l.entries.drop l.applied).filter Entry.isConf := by
    refine List.filter_congr fun e he => ?_
    obtain ⟨i, hi⟩ := List.mem_iff_getElem?.mp he
    rw [List.getElem?_drop] at hi
    rw [h _ e hi, decide_eq_true (by omega), Bool.and_true]
  unfold unapplied
  nth_rewrite 1 [← List.take_append_drop l.applied l.entries]
  rw [List.filter_append, hfront, hback, List.nil_append]

end RaftLog

namespace RaftContext

open RaftLog

variable {s s' t : RaftContext} {m : Message} {rand : Nat} {e : Entry}

/-- `pendingConfIndex_` tells whether the log holds a configuration change that is not applied yet, of
which there is at most one. The log holds all that was applied. -/
structure Tracked (s : RaftContext) : Prop where
  applied : s.raftLog.applied ≤ s.raftLog.entries.length
  one : s.raftLog.unapplied.length ≤ 1
  pending : s.pendingConfIndex ≠ NONE ↔ s.raftLog.unapplied ≠ []

instance (s : RaftContext) : Decidable s.Tracked :=
  decidable_of_iff (_ ∧ _ ∧ _) ⟨fun h => ⟨h.1, h.2.1, h.2.2⟩, fun h => ⟨h.applied, h.one, h.pending⟩⟩

theorem Tracked.of_entries (h : s.Tracked) (hentries : s'.raftLog.entries = s.raftLog.entries)
    (happlied : s'.raftLog.applied = s.raftLog.applied)
    (hpending : s'.pendingConfIndex = s.pendingConfIndex) : s'.Tracked := by
  have hun : s'.raftLog.unapplied = s.raftLog.unapplied := by rw [unapplied, hentries, happlied, unapplied]
  refine ⟨?_, ?_, ?_⟩
  · rw [hentries, happlied]
    exact h.applied
  · rw [hun]
    exact h.one
  · rw [hun, hpending]
    exact h.pending

/-- An entry is added: no configuration change, or one that is then recorded. -/
theorem Tracked.concat (h : s.Tracked) (hlog : s.raftLog.FromOne)
    (hentries : s'.raftLog.entries = s.raftLog.entries ++ [e])
    (happlied : s'.raftLog.applied = s.raftLog.applied) (hindex : e.index = s.raftLog.lastIndex + 1)
    (hpending : (e.isConf = false ∧ s'.pendingConfIndex = s.pendingConfIndex) ∨
      (s.pendingConfIndex = NONE ∧ e.isConf = true ∧ s'.pendingConfIndex ≠ NONE)) : s'.Tracked := by
  have hun : s'.raftLog.unapplied = s.raftLog.unapplied ++ [e].filter Entry.isConf := by
    have hcont : Contiguous s'.raftLog.entries := by
      rw [hentries]
      exact hlog.contiguous.concat (hindex.trans (by rw [hlog.lastIndex_eq]))
    rw [unapplied_eq hcont, unapplied_eq hlog.contiguous, hentries, happlied,
      List.drop_append_of_le_length h.applied, List.filter_append]
  have hlen : s'.raftLog.applied ≤ s'.raftLog.entries.length := by
    rw [hentries, happlied, List.length_append]
    exact h.applied.trans (Nat.le_add_right _ _)
  rcases hpending with ⟨hconf, hsame⟩ | ⟨hnone, hconf, hset⟩
  · rw [List.filter_cons_of_neg (by rw [hconf]; exact Bool.false_ne_true), List.filter_nil,
      List.append_nil] at hun
    refine ⟨hlen, ?_, ?_⟩
    · rw [hun]
      exact h.one
    · rw [hun, hsame]
      exact h.pending
  · have hnil : s.raftLog.unapplied = [] := by
      by_contra hne
      exact h.pending.mpr hne hnone
    rw [hnil, List.filter_cons_of_pos hconf, List.filter_nil, List.nil_append] at hun
    refine ⟨hlen, ?_, ?_⟩
    · rw [hun]
      rfl
    · rw [hun]
      exact iff_of_true hset (List.cons_ne_nil _ _)

/-- The proposal as it is appended. -/
def numbered (s : RaftContext) (e : Entry) : Entry :=
  { e with term := s.term, index := s.raftLog.lastIndex + 1 }

/-- What a proposal of one entry does to a leader: a configuration change is dropped if another one is
recorded as pending, and else recorded itself. -/
inductive Takes (s : RaftContext) (e : Entry) (s' : RaftContext) : Prop
  | drop (hconf : e.isConf = true) (hpending : s.pendingConfIndex ≠ NONE)
      (hentries : s'.raftLog.entries = s.raftLog.entries)
      (hsame : s'.pendingConfIndex = s.pendingConfIndex)
  | record (hconf : e.isConf = true) (hpending : s.pendingConfIndex = NONE)
      (hentries : s'.raftLog.entries = s.raftLog.entries ++ [s.numbered e])
      (hset : s'.pendingConfIndex = s.raftLog.lastIndex + 1)
  | plain (hconf : e.isConf = false)
      (hentries : s'.raftLog.entries = s.raftLog.entries ++ [s.numbered e])
      (hsame : s'.pendingConfIndex = s.pendingConfIndex)

theorem proposeLoop_takes (s : RaftContext) (e : Entry) :
    s.Takes e (proposeLoop s.raftLog.lastIndex [e] s) := by
  unfold proposeLoop
  dsimp only
  split_ifs with hconf hpending
  · exact .drop (beq_iff_eq.mpr hconf) hpending rfl rfl
  · exact .record (beq_iff_eq.mpr hconf) (not_not.mp hpending) rfl rfl
  · exact .plain (beq_eq_false_iff_ne.mpr hconf) rfl rfl

theorem Takes.of_eq (h : s.Takes e t) (hentries : s'.raftLog.entries = t.raftLog.entries)
    (hpending : s'.pendingConfIndex = t.pendingConfIndex) : s.Takes e s' := by
  cases h with
  | drop hconf hpend hent hsame => exact .drop hconf hpend (hentries.trans hent) (hpending.trans hsame)
  | record hconf hpend hent hset => exact .record hconf hpend (hentries.trans hent) (hpending.trans hset)
  | plain hconf hent hsame => exact .plain hconf (hentries.trans hent) (hpending.trans hsame)

theorem appendEntries_takes (h : s.appendEntries [e] = some s') : s.Takes e s' := by
  refine (proposeLoop_takes s e).of_eq ?_ ?_
  · rw [(appendEntries_spec h).1.raftLog]
    rfl
  · exact congrArg Aside.pendingConfIndex (appendEntries_aside h)

theorem Takes.tracked (h : s.Takes e s') (hs : s.Tracked) (hlog : s.raftLog.FromOne)
    (happlied : s'.raftLog.applied = s.raftLog.applied) : s'.Tracked := by
  cases h with
  | drop hconf hpend hent hsame => exact hs.of_entries hent happlied hsame
  | record hconf hpend hent hset =>
      exact hs.concat hlog hent happlied rfl (.inr ⟨hpend, hconf, by rw [hset]; exact Nat.succ_ne_zero _⟩)
  | plain hconf hent hsame => exact hs.concat hlog hent happlied rfl (.inl ⟨hconf, hsame⟩)

/-- The message makes the node the leader: alone in its cluster it wins at once, and a candidate with the
vote that makes a majority. -/
def Wins (s : RaftContext) (m : Message) : Prop :=
  ((m.msgType = .msgHup ∨ m.msgType = .msgTimeoutNow) ∧ s.state ≠ .stateLeader ∧ s.prs.size = 1) ∨
    (m.msgType = .msgRequestVoteResponse ∧ s.state = .stateCandidate ∧ Current s m ∧
      (s.recordVote m).voteThreshold < (s.recordVote m).grantCount)

/-- How a node comes to lead after a message: it led before, and its log is the same unless it has
accepted an append; or it has won, and has added the entry of a new leader. -/
theorem CoreStep.leads (h : CoreStep s m s') (hlead : s'.state = .stateLeader)
    (hsnap : m.msgType ≠ .msgSnapshot) (hprop : s.state = .stateLeader → m.msgType ≠ .msgPropose) :
    (s.state = .stateLeader ∧ (Accepts s m s' ∨ s'.raftLog.entries = s.raftLog.entries)) ∨
      (Wins s m ∧ ∃ e, e.isConf = false ∧ e.index = s.raftLog.lastIndex + 1 ∧
        s'.raftLog.entries = s.raftLog.entries ++ [e]) := by
  have hkeep : ∀ {t : RaftContext}, SameCore t s' → (t.state = .stateLeader → s.state = .stateLeader) →
      t.raftLog.entries = s.raftLog.entries →
      s.state = .stateLeader ∧ (Accepts s m s' ∨ s'.raftLog.entries = s.raftLog.entries) :=
    fun h hstate hentries =>
      ⟨hstate (h.state.symm.trans hlead), .inr ((congrArg RaftLog.entries h.raftLog).trans hentries)⟩
  cases h with
  | same h | grant _ _ _ h | nack _ _ _ _ _ _ _ h | ack _ _ _ _ _ _ h | commit _ _ _ _ _ _ _ h
  | phantom _ _ _ h => exact .inl (hkeep h (fun hstate => hstate) rfl)
  | follow _ _ h => exact .inl (hkeep h fallback_leader (congrArg RaftLog.entries fallback_raftLog))
  | append hacc h => exact .inl ⟨fallback_leader (h.state.symm.trans hlead), .inl hacc⟩
  | campaign _ _ _ h => cases h.state.symm.trans hlead
  | record _ hstate _ h => cases hstate.symm.trans (h.state.symm.trans hlead)
  | lose _ _ _ _ _ h => cases h.state.symm.trans hlead
  | alone hm hstate hsize h =>
      exact .inr ⟨.inl ⟨hm, hstate, hsize⟩, s.becomeCandidate.noopEntry, rfl, rfl,
        congrArg RaftLog.entries h.raftLog⟩
  | win hm hstate hcur hwin h =>
      exact .inr ⟨.inr ⟨hm, hstate, hcur, hwin⟩, (s.recordVote m).noopEntry, rfl, rfl,
        congrArg RaftLog.entries h.raftLog⟩
  | propose hm hstate => exact absurd hm (hprop hstate)
  | snapshot hm => exact absurd hm hsnap

theorem observeTerm_leader (h : (s.observeTerm m).state = .stateLeader) : s.observeTerm m = s := by
  rcases observeTerm_cases s m with ⟨_, hsame⟩ | ⟨_, _, _, hstate, _⟩
  · exact hsame
  · cases hstate.symm.trans h

theorem step_propose (hstate : (s.observeTerm m).state = .stateLeader) (hm : m.msgType = .msgPropose) :
    s.step m rand = if s.leadTransferee = NONE then s.appendEntries m.entries else some s := by
  rw [step_leader (fun hout => by cases hm.symm.trans hout) hstate, observeTerm_leader hstate]
  unfold stepLeader
  rw [hm]

/-- The condition under which a leader goes on taking one configuration change at a time: what makes it
the leader finds a `pendingConfIndex_` that describes the log, and no append changes the log of a
leader. -/
def Tracks (s : RaftContext) : Call → Prop
  | .tick => s.state ≠ .stateLeader → s.prs.size = 1 →
      s.randomElectionTimeout ≤ s.electionElapsed + 1 → s.Tracked
  | .step m => (Wins (s.observeTerm m) m → s.Tracked) ∧
      (m.msgType = .msgAppend → Current (s.observeTerm m) m → (s.observeTerm m).state ≠ .stateLeader)

theorem Tracked.step (h : s.state = .stateLeader → s.Tracked) (hlog : s.raftLog.FromOne)
    (hm : Regular m) (hok : s.Tracks (.step m)) (hstep : s.step m rand = some s')
    (hlead : s'.state = .stateLeader) : s'.Tracked := by
  rcases step_outcome hstep with ⟨hcore, _⟩ | ⟨rfl, _⟩
  case inr => exact h hlead
  have happlied := (hcore.sameBase hm.noSnapshot).applied
  rw [observeTerm_raftLog] at happlied
  by_cases hprop : (s.observeTerm m).state = .stateLeader ∧ m.msgType = .msgPropose
  · obtain ⟨hstate, hty⟩ := hprop
    have hs : s.Tracked := h (observeTerm_leader hstate ▸ hstate)
    obtain ⟨e, he⟩ := List.length_eq_one_iff.mp (hm.propose hty)
    rw [step_propose hstate hty, he] at hstep
    split_ifs at hstep
    · exact (appendEntries_takes hstep).tracked hs hlog happlied
    · cases hstep
      exact hs
  · have hnot : (s.observeTerm m).state = .stateLeader → m.msgType ≠ .msgPropose :=
      fun hstate hty => hprop ⟨hstate, hty⟩
    have hpending := step_pending hstep hnot
    rcases hcore.leads hlead hm.noSnapshot hnot with
      ⟨hstate, hacc | hentries⟩ | ⟨hwin, e, hconf, hindex, hentries⟩
    · exact absurd hstate (hok.2 hacc.msgType hacc.current)
    · rw [observeTerm_raftLog] at hentries
      exact (h (observeTerm_leader hstate ▸ hstate)).of_entries hentries happlied hpending
    · rw [observeTerm_raftLog] at hentries hindex
      exact (hok.1 hwin).concat hlog hentries happlied hindex (.inl ⟨hconf, hpending⟩)

theorem Tracked.timer {ty : MessageType} (hty : ty = .msgHup ∨ ty = .msgBeat) (i j k n : Nat)
    (h : s.state = .stateLeader → s.Tracked) (hlog : s.raftLog.FromOne)
    (hwin : ty = .msgHup → s.state ≠ .stateLeader → s.prs.size = 1 → s.Tracked)
    (hstep : (s.retime i j k n).step { msgType := ty } rand = some s')
    (hlead : s'.state = .stateLeader) : s'.Tracked := by
  have hretime : s.Tracked → (s.retime i j k n).Tracked := fun hs => hs.of_entries rfl rfl rfl
  have hregular : Regular { msgType := ty } := by
    rcases hty with rfl | rfl <;> exact ⟨nofun, nofun, nofun⟩
  refine Tracked.step (fun hstate => hretime (h hstate)) hlog hregular ⟨fun hwins => hretime ?_, ?_⟩
    hstep hlead
  · rw [observeTerm_none rfl] at hwins
    rcases hwins with ⟨hhup | hout, hstate, hsize⟩ | ⟨hvote, _⟩
    · exact hwin hhup hstate hsize
    · rcases hty with rfl | rfl <;> cases hout
    · rcases hty with rfl | rfl <;> cases hvote
  · intro happend
    rcases hty with rfl | rfl <;> cases happend

theorem Tracked.tick (h : s.state = .stateLeader → s.Tracked) (hlog : s.raftLog.FromOne)
    (hok : s.Tracks .tick) (htick : s.tick rand = some s') (hlead : s'.state = .stateLeader) :
    s'.Tracked := by
  have helection : s.state ≠ .stateLeader → s.tickElection rand = some s' → s'.Tracked := by
    intro hstate htick
    unfold tickElection at htick
    dsimp only at htick
    split_ifs at htick with htimer
    · exact Tracked.timer (.inl rfl) s.heartbeatElapsed 0 s.transferElapsed s.leadTransferee h hlog
        (fun _ _ hsize => hok hstate hsize htimer) htick hlead
    · cases htick
      exact absurd hlead hstate
  have hheartbeat : ∀ k n, s.state = .stateLeader →
      (s.retime s.heartbeatElapsed s.electionElapsed k n).tickHeartbeat rand = some s' → s'.Tracked := by
    intro k n hstate htick
    unfold tickHeartbeat at htick
    dsimp only at htick
    split_ifs at htick
    · exact Tracked.timer (.inr rfl) 0 s.electionElapsed k n h hlog nofun htick hlead
    · cases htick
      exact (h hstate).of_entries rfl rfl rfl
  unfold RaftContext.tick at htick
  cases hstate : s.state <;> rw [hstate] at htick <;> dsimp only at htick
  · exact helection (by rw [hstate]; nofun) htick
  · exact helection (by rw [hstate]; nofun) htick
  · split_ifs at htick
    · obtain ⟨k, n, hk⟩ := tickTransfer_eq s
      rw [hk] at htick
      exact hheartbeat k n hstate htick
    · exact hheartbeat s.transferElapsed s.leadTransferee hstate htick

/-- **A leader's `pendingConfIndex_` goes on describing its log.** -/
theorem Tracked.call {c : Call} (h : s.state = .stateLeader → s.Tracked) (hlog : s.raftLog.FromOne)
    (hm : ∀ m, c = .step m → Regular m) (hok : s.Tracks c) (hcall : s.call rand c = some s')
    (hlead : s'.state = .stateLeader) : s'.Tracked := by
  cases c with
  | tick => exact Tracked.tick h hlog hok hcall hlead
  | step m => exact Tracked.step h hlog (hm m rfl) hok hcall hlead

end RaftContext

end Eraft
