import Eraft.NodeAppend

/-! Snapshots, and messages of an old term. `HandleSnapshot` is the only handler that does not compare the
term of its message with the term of the node. It installs a snapshot in memory alone: where the log
ends is still read from the storage, and peers are added but never removed. -/

open Std

namespace Eraft.RaftContext

variable {s s' : RaftContext} {m : Message} {rand : Nat}

/-- The messages that nodes send to each other about terms, votes and logs. -/
def peerTypes : List MessageType :=
  [.msgAppend, .msgAppendResponse, .msgRequestVote, .msgRequestVoteResponse, .msgSnapshot, .msgHeartbeat,
   .msgHeartbeatResponse]

/-- Nothing but the messages to be sent has changed. -/
def Silent (s s' : RaftContext) : Prop := ∃ ms, s' = s.pushAll ms

theorem Silent.refl (s : RaftContext) : Silent s s := ⟨[], (pushAll_nil s).symm⟩

theorem Silent.push (s : RaftContext) (x : Message) : Silent s (s.push x) := ⟨[x], rfl⟩

section Stale

variable (hstale : m.term ≠ NONE ∧ m.term < s.term)
include hstale

theorem handleAppendEntries_stale (rand : Nat) : ∃ t, s.handleAppendEntries m rand = some t ∧ Silent s t := by
  rw [handleAppendEntries, if_pos hstale]
  exact ⟨_, rfl, .push s _⟩

theorem handleRequestVote_stale (rand : Nat) : ∃ t, s.handleRequestVote m rand = some t ∧ Silent s t := by
  rw [handleRequestVote, if_pos hstale]
  exact ⟨_, rfl, .push s _⟩

theorem handleHeartbeat_stale (rand : Nat) : Silent s (s.handleHeartbeat m rand) := by
  rw [handleHeartbeat, if_pos hstale]
  exact .push s _

end Stale

/-- A snapshot is not compared with the term, but with the commit index. -/
theorem handleSnapshot_old (h : m.snapshot.metadata.index ≤ s.raftLog.commited) :
    Silent s (s.handleSnapshot m) := by
  rw [handleSnapshot]
  dsimp only
  rw [if_pos h]
  exact .push s _

/-- Every other handler does no more than answer a message of an old term. The answer to a heartbeat
response is an append. -/
theorem step_stale (hstale : m.term ≠ NONE ∧ m.term < s.term) (htype : m.msgType ∈ peerTypes)
    (hsnap : m.msgType = .msgSnapshot → m.snapshot.metadata.index ≤ s.raftLog.commited) (rand : Nat) :
    (∃ s', s.step m rand = some s' ∧ Silent s s') ∨
      s.state = .stateLeader ∧ m.msgType = .msgHeartbeatResponse ∧
        s.step m rand = s.sendAppend m.fromId := by
  have hsame : s.observeTerm m = s := observeTerm_of_le hstale.2.le
  have hother : ¬m.term = s.term := by omega
  have happend := handleAppendEntries_stale hstale rand
  have hvote := handleRequestVote_stale hstale rand
  have hbeat := handleHeartbeat_stale hstale rand
  simp only [peerTypes, List.mem_cons, List.not_mem_nil, or_false] at htype
  unfold step
  rw [if_neg (by rcases htype with hm | hm | hm | hm | hm | hm | hm <;> simp [hm]), hsame]
  cases hstate : s.state with
  | stateFollower =>
      left
      rcases htype with hm | hm | hm | hm | hm | hm | hm <;> simp only [hstate, stepFollower, hm]
      · exact happend
      · exact ⟨s, rfl, .refl s⟩
      · exact hvote
      · exact ⟨s, rfl, .refl s⟩
      · exact ⟨_, rfl, handleSnapshot_old (hsnap hm)⟩
      · exact ⟨_, rfl, hbeat⟩
      · exact ⟨s, rfl, .refl s⟩
  | stateCandidate =>
      left
      rcases htype with hm | hm | hm | hm | hm | hm | hm <;>
        simp only [hstate, stepCandidate, hm, if_neg hother]
      · exact happend
      · exact ⟨s, rfl, .refl s⟩
      · exact hvote
      · rw [handleRequestVoteResponse, if_pos hstale]
        exact ⟨s, rfl, .refl s⟩
      · exact ⟨_, rfl, handleSnapshot_old (hsnap hm)⟩
      · exact ⟨_, rfl, hbeat⟩
      · exact ⟨s, rfl, .refl s⟩
  | stateLeader =>
      rcases htype with hm | hm | hm | hm | hm | hm | hm <;> simp only [hstate, stepLeader, hm]
      · exact .inl happend
      · rw [handleAppendEntriesResponse, if_pos hstale]
        exact .inl ⟨s, rfl, .refl s⟩
      · exact .inl hvote
      · exact .inl ⟨s, rfl, .refl s⟩
      · exact .inl ⟨_, rfl, handleSnapshot_old (hsnap hm)⟩
      · exact .inl ⟨_, rfl, hbeat⟩
      · exact .inr ⟨trivial, trivial, trivial⟩

/-- **Messages of an old term are inert**, with the exception of snapshots that are ahead of the commit
index. The only step with an undefined result is the append that answers a heartbeat response. -/
theorem stale_silent_iff (htype : m.msgType ∈ peerTypes) (hpos : 0 < m.term) (hterm : m.term < s.term)
    (rand : Nat) :
    (s.step m rand = none →
      s.state = .stateLeader ∧ m.msgType = .msgHeartbeatResponse ∧ s.sendAppend m.fromId = none) ∧
    ((∀ s', s.step m rand = some s' → Silent s s') ↔
      ¬(m.msgType = .msgSnapshot ∧ s.raftLog.commited < m.snapshot.metadata.index)) := by
  have hstale : m.term ≠ NONE ∧ m.term < s.term := ⟨Nat.pos_iff_ne_zero.mp hpos, hterm⟩
  by_cases hsnap : m.msgType = .msgSnapshot ∧ s.raftLog.commited < m.snapshot.metadata.index
  · obtain ⟨hm, hahead⟩ := hsnap
    have hstep : s.step m rand = some (s.handleSnapshot m) := by
      rw [step_snapshot hm, observeTerm_of_le hterm.le]
    refine ⟨fun hnone => ?_, fun hall => ?_, fun hnot => absurd ⟨hm, hahead⟩ hnot⟩
    · rw [hstep] at hnone
      exact absurd hnone (Option.some_ne_none _)
    · obtain ⟨ms, hms⟩ := hall _ hstep
      have hcommit := congrArg (fun t : RaftContext => t.raftLog.commited) hms
      rw [handleSnapshot] at hcommit
      dsimp only at hcommit
      rw [if_neg (Nat.not_le.mpr hahead)] at hcommit
      exact absurd hahead (Nat.not_lt.mpr (Nat.le_of_eq hcommit))
  · have hbehind : m.msgType = .msgSnapshot → m.snapshot.metadata.index ≤ s.raftLog.commited :=
      fun hm => Nat.le_of_not_lt fun hahead => hsnap ⟨hm, hahead⟩
    rcases step_stale hstale htype hbehind rand with ⟨t, hstep, hsilent⟩ | ⟨hstate, hm, hstep⟩
    · refine ⟨fun hnone => absurd (hstep.symm.trans hnone) (Option.some_ne_none t), fun _ => hsnap, ?_⟩
      intro _ s' h
      rw [hstep] at h
      cases h
      exact hsilent
    · refine ⟨fun hnone => ⟨hstate, hm, hstep.symm.trans hnone⟩, fun _ => hsnap, ?_⟩
      intro _ s' h
      obtain ⟨x, _, _, rfl⟩ := sendAppend_spec (hstep.symm.trans h)
      exact .push s x

/-- A follower of term 2 that has committed nothing. -/
def secondTermFollower : RaftContext :=
  { prs := .ofList ([(1, some {}), (2, some {})] : List (Nat × Option Progress))
    id := 1, term := 2, vote := 2, state := .stateFollower, votes := ∅
    raftLog := { storage := .new, pendingSnapshot := {}, commited := 0, applied := 0, stabled := 0
                 firstIndex := 1, entries := [{ term := 2, index := 1 }] }
    lead := 2, msgs := [], heartbeatTimeout := 1, electionTimeout := 10
    randomElectionTimeout := 10, heartbeatElapsed := 0, electionElapsed := 0, transferElapsed := 0
    leadTransferee := NONE, pendingConfIndex := NONE }

theorem stale_silent_heartbeat : ∃ s',
    secondTermFollower.step { msgType := .msgHeartbeat, fromId := 2, term := 1 } 0 = some s' ∧
      Silent secondTermFollower s' := by
  have hstep :
      (secondTermFollower.step { msgType := .msgHeartbeat, fromId := 2, term := 1 } 0).isSome = true := by
    decide +kernel
  obtain ⟨s', hs'⟩ := Option.isSome_iff_exists.mp hstep
  exact ⟨s', hs', (stale_silent_iff (by decide) (by decide) (by decide) 0).2.mpr (by decide) s' hs'⟩

/-- A snapshot of term 1, of index 5. -/
def firstTermSnapshot : Message :=
  { msgType := .msgSnapshot, fromId := 2, term := 1
    snapshot := { metadata := { confState := { nodes := [1, 2] }, index := 5, term := 1 } } }

/-- It makes the follower of term 2 forget its vote and its log. -/
theorem not_stale_silent : ∃ s', secondTermFollower.step firstTermSnapshot 0 = some s' ∧
    s'.term = 2 ∧ s'.vote = NONE ∧ s'.raftLog.entries = [] ∧ ¬Silent secondTermFollower s' := by
  refine ⟨_, step_snapshot rfl 0, by decide +kernel, by decide +kernel, by decide +kernel, ?_⟩
  rintro ⟨ms, hms⟩
  have hvote : NONE = 2 := congrArg RaftContext.vote hms
  exact absurd hvote (by decide)

/-- What is left of the node when the snapshot of `m` has replaced its log and its peers. -/
structure Installed (s : RaftContext) (m : Message) (s' : RaftContext) : Prop where
  entries : s'.raftLog.entries = []
  firstIndex : s'.raftLog.firstIndex = m.snapshot.metadata.index + 1
  applied : s'.raftLog.applied = m.snapshot.metadata.index
  commited : s'.raftLog.commited = m.snapshot.metadata.index
  stabled : s'.raftLog.stabled = m.snapshot.metadata.index
  lastIndex : s'.raftLog.lastIndex = m.snapshot.metadata.index
  peers : s'.peers = m.snapshot.metadata.confState.nodes.toFinset
  answer : ∃ x, s'.msgs = s.msgs ++ [x] ∧ x.msgType = .msgAppendResponse ∧
    x.index = m.snapshot.metadata.index ∧ x.reject = false
  accepts : ∀ m' rand, m'.msgType = .msgAppend → m'.term = s'.term →
    m'.index = m.snapshot.metadata.index → m'.logTerm = m.snapshot.metadata.term →
    ∃ s'' x, s'.step m' rand = some s'' ∧ s''.msgs = s'.msgs ++ [x] ∧
      x.msgType = .msgAppendResponse ∧ x.reject = false

/-- The peers of a node that takes a snapshot in: the old ones stay. -/
theorem peers_handleSnapshot (h : s.raftLog.commited < m.snapshot.metadata.index) :
    (s.handleSnapshot m).peers = s.peers ∪ m.snapshot.metadata.confState.nodes.toFinset := by
  ext id
  rw [mem_peers, handleSnapshot]
  dsimp only
  rw [if_neg (Nat.not_le.mpr h), Finset.mem_union, mem_peers, List.mem_toFinset, or_comm]
  exact mem_foldl_insert (fun _ => some {}) _ s.prs id

/-- A log that ends in front of its first index takes any entries. -/
theorem exists_appendLoop {ents rest : List Entry} {count : Nat} {l : RaftLog}
    (hlast : l.lastIndex < l.firstIndex) : ∃ l', appendLoop ents rest count l = some l' := by
  induction rest with
  | nil => exact ⟨l, rfl⟩
  | cons e rest ih =>
      unfold appendLoop
      split_ifs with hfirst hin
      · exact ih
      · omega
      · exact ⟨_, rfl⟩

/-- The node that takes a snapshot in follows its sender. The log ends where the storage does. -/
structure TakenIn (s : RaftContext) (m : Message) (s' : RaftContext) : Prop where
  state : s'.state = .stateFollower
  term : s'.term = max s.term m.term
  raftLog : s'.raftLog = { s.raftLog with
    entries := [], firstIndex := m.snapshot.metadata.index + 1, applied := m.snapshot.metadata.index
    commited := m.snapshot.metadata.index, stabled := m.snapshot.metadata.index
    pendingSnapshot := m.snapshot }
  msgs : ∃ x, s'.msgs = s.msgs ++ [x] ∧ x.msgType = .msgAppendResponse ∧
    x.index = s.raftLog.storage.lastIndex ∧ x.reject = false

theorem takenIn_handleSnapshot (h : s.raftLog.commited < m.snapshot.metadata.index) :
    TakenIn s m (s.handleSnapshot m) := by
  rw [handleSnapshot]
  dsimp only
  rw [if_neg (Nat.not_le.mpr h)]
  exact ⟨rfl, rfl, rfl, _, rfl, rfl, rfl, rfl⟩

/-- If the log ends in front of its first index, an append at its end is accepted. -/
theorem TakenIn.accepts (h : TakenIn s m s') (hlast : s'.raftLog.lastIndex = m.snapshot.metadata.index)
    {m' : Message} (htype : m'.msgType = .msgAppend) (hterm : m'.term = s'.term)
    (hindex : m'.index = m.snapshot.metadata.index) (rand : Nat) : ∃ s'' x, s'.step m' rand = some s'' ∧
      s''.msgs = s'.msgs ++ [x] ∧ x.msgType = .msgAppendResponse ∧ x.reject = false := by
  have hfirst : s'.raftLog.firstIndex = m.snapshot.metadata.index + 1 := by rw [h.raftLog]
  have haccept : Acceptable s' m' := ⟨.inr hterm.ge, by omega, fun hle => by omega⟩
  obtain ⟨l, hl⟩ := @exists_appendLoop m'.entries m'.entries 0 s'.raftLog (by omega)
  have hl' : appendLoop m'.entries m'.entries 0 (s'.heard m' rand).raftLog = some l := hl
  have hstep : s'.step m' rand = s'.handleAppendEntries m' rand := by
    rw [step_msgAppend htype, observeTerm_of_le hterm.le, fallback_of_ne (by rw [h.state]; decide)]
  rw [hstep, haccept.handleAppendEntries, acceptAppend_eq hl']
  exact ⟨_, _, rfl, rfl, rfl, rfl⟩

/-- **A snapshot replaces the log and the membership** exactly if the storage ends where the snapshot
does and the snapshot names all the peers there were. -/
theorem handleSnapshot_installed_iff (hahead : s.raftLog.commited < m.snapshot.metadata.index) :
    Installed s m (s.handleSnapshot m) ↔ s.raftLog.storage.lastIndex = m.snapshot.metadata.index ∧
      ∀ id ∈ s.peers, id ∈ m.snapshot.metadata.confState.nodes := by
  have htaken := takenIn_handleSnapshot hahead
  have hlast : (s.handleSnapshot m).raftLog.lastIndex = s.raftLog.storage.lastIndex := by
    rw [htaken.raftLog]
    rfl
  have hpeers := peers_handleSnapshot hahead
  constructor
  · intro h
    refine ⟨hlast.symm.trans h.lastIndex, fun id hid => ?_⟩
    have hmem : id ∈ (s.handleSnapshot m).peers := by
      rw [hpeers]
      exact Finset.mem_union_left _ hid
    rw [h.peers] at hmem
    exact List.mem_toFinset.mp hmem
  · rintro ⟨hstorage, hnodes⟩
    have hend := hlast.trans hstorage
    obtain ⟨x, hmsgs, htype, hindex, hreject⟩ := htaken.msgs
    refine ⟨by rw [htaken.raftLog], by rw [htaken.raftLog], by rw [htaken.raftLog], by rw [htaken.raftLog],
      by rw [htaken.raftLog], hend, ?_, ⟨x, hmsgs, htype, hindex.trans hstorage, hreject⟩, ?_⟩
    · rw [hpeers, Finset.union_eq_right]
      exact fun id hid => List.mem_toFinset.mpr (hnodes id hid)
    · exact fun m' rand htype hterm hindex _ => htaken.accepts hend htype hterm hindex rand

/-- The same follower with its entry in the storage. -/
def storedFollower : RaftContext :=
  { secondTermFollower with
    raftLog := { secondTermFollower.raftLog with
                 storage := { ents := [{}, { term := 2, index := 1 }], entsPos := List.cons_ne_nil _ _ } } }

/-- A snapshot of index `index` of term 2, of the peers 1 and 2. -/
def secondTermSnapshot (index : Nat) : Message :=
  { msgType := .msgSnapshot, fromId := 2, term := 2
    snapshot := { metadata := { confState := { nodes := [1, 2] }, index := index, term := 2 } } }

theorem handleSnapshot_installed_stored :
    Installed storedFollower (secondTermSnapshot 1) (storedFollower.handleSnapshot (secondTermSnapshot 1)) :=
  (handleSnapshot_installed_iff (by decide)).mpr ⟨by decide +kernel, by decide +kernel⟩

/-- With an empty storage the log ends at 0 after the snapshot, and the append that follows the snapshot
is refused. -/
theorem not_handleSnapshot_installed : ∃ s',
    secondTermFollower.step (secondTermSnapshot 5) 0 = some s' ∧ s'.raftLog.commited = 5 ∧
      s'.raftLog.lastIndex = 0 ∧ s'.msgs.map (·.index) = [0] ∧
      (∃ s'', s'.step { msgType := .msgAppend, fromId := 2, term := 2, index := 5, logTerm := 2
                        entries := [{ term := 2, index := 6 }] } 0 = some s'' ∧
        s''.msgs.map (·.reject) = [false, true]) ∧
      ¬Installed secondTermFollower (secondTermSnapshot 5) s' := by
  refine ⟨_, step_snapshot rfl 0, by decide +kernel, by decide +kernel, by decide +kernel, ?_, ?_⟩
  · exact Option.map_eq_some_iff.mp (by decide +kernel)
  · intro h
    exact absurd h.lastIndex (by decide +kernel)

end Eraft.RaftContext
