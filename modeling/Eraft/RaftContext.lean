import Eraft.RaftLog
import Mathlib.Data.List.Sort

/-! `RaftContext` (`raftcore/src/raft.cc`): the state of one Raft node and every function that moves
it. A function that can reach undefined behaviour (a vector read outside its bounds, a null
`Progress`, a local that was never assigned) returns an `Option`, with `none` for that outcome. The
`bool` results of the handlers are read by no caller and are left out, and so is logging.
`std::map` is `ExtTreeMap`, which is also ordered by key; a null pointer in `prs_` is the value
`none`. -/

open Std

namespace Eraft

inductive NodeState where
  | stateFollower
  | stateCandidate
  | stateLeader
  deriving DecidableEq, Repr

/-- The leader's record of a peer. The field `match` is `matchIdx` here. -/
structure Progress where
  matchIdx : Nat := 0
  next : Nat := 0
  deriving DecidableEq, Repr

structure Config where
  id : Nat
  peers : List Nat
  electionTick : Nat
  heartbeatTick : Nat
  storage : MemoryStorage
  applied : Nat := 0

/-- `Config::Validate`; the storage is a value here and cannot be null. -/
def Config.validate (c : Config) : Bool :=
  c.id ≠ 0 && 0 < c.heartbeatTick && c.heartbeatTick < c.electionTick

structure RaftContext where
  prs : ExtTreeMap Nat (Option Progress)
  id : Nat
  term : Nat
  vote : Nat
  state : NodeState
  votes : ExtTreeMap Nat Bool
  raftLog : RaftLog
  lead : Nat
  msgs : List Message
  heartbeatTimeout : Nat
  electionTimeout : Nat
  randomElectionTimeout : Nat
  heartbeatElapsed : Nat
  electionElapsed : Nat
  transferElapsed : Nat
  leadTransferee : Nat
  pendingConfIndex : Nat

/-- `RandIntn`: a draw from `[0, n)`. The draw is an argument `rand` of every function that makes
one; a call of `Step` or `Tick` makes at most one. -/
def randIntn (n rand : Nat) : Nat := rand % n

/-- A draw from a timeout of at most half the range does not overflow when the timeout is added. -/
theorem u64Add_randIntn {n : Nat} (hpos : 0 < n) (hn : n ≤ 2 ^ 63) (rand : Nat) :
    u64Add n (randIntn n rand) = n + randIntn n rand := by
  have hdraw : randIntn n rand < n := Nat.mod_lt _ hpos
  exact u64Add_of_lt (by omega)

/-- The position the loop `for (i..) if (p(entries[i])) idx = i;` leaves in `idx`, if any. -/
def lastIdx (p : Entry → Bool) (entries : List Entry) : Option Nat :=
  entries.zipIdx.foldl (fun idx x => if p x.1 then some x.2 else idx) none

namespace RaftContext

/-- `RaftContext::RaftContext`. The constructor sets neither `transferElapsed_` nor
`pendingConfIndex_`: their first values are arguments. -/
def new (c : Config) (rand transferElapsed pendingConfIndex : Nat) : Option RaftContext :=
  if c.validate then do
    let (hardSt, confSt) := c.storage.initialState
    let raftLog ← RaftLog.new c.storage hardSt.commit
    let peers := if c.peers.length = 0 then confSt.nodes else c.peers
    let lastIndex := raftLog.lastIndex
    let prs := peers.foldl (fun prs peer => prs.insert peer (some
      (if peer = c.id then { next := lastIndex + 1, matchIdx := lastIndex }
        else { next := lastIndex + 1 }))) ∅
    return { prs := prs, id := c.id, term := hardSt.term, vote := hardSt.vote,
             state := .stateFollower, votes := ∅,
             raftLog := if 0 < c.applied then { raftLog with applied := c.applied } else raftLog,
             lead := NONE, msgs := [], heartbeatTimeout := c.heartbeatTick,
             electionTimeout := c.electionTick,
             randomElectionTimeout := u64Add c.electionTick (randIntn c.electionTick rand),
             heartbeatElapsed := 0, electionElapsed := 0, transferElapsed := transferElapsed,
             leadTransferee := NONE, pendingConfIndex := pendingConfIndex }
  else none

variable (s : RaftContext)

/-- The object behind `prs_[id]`. A missing key is inserted with a null pointer by `operator[]`, and
using a null pointer is undefined. -/
def progress (id : Nat) : Option Progress := s.prs[id]?.join

def setProgress (id : Nat) (pr : Progress) : RaftContext := { s with prs := s.prs.insert id (some pr) }

/-- `msgs_.push_back`. -/
def push (m : Message) : RaftContext := { s with msgs := s.msgs ++ [m] }

/-- A new election timeout is drawn. -/
def redraw (rand : Nat) : RaftContext :=
  { s with randomElectionTimeout := u64Add s.electionTimeout (randIntn s.electionTimeout rand) }

def sendAppend (peer : Nat) : Option RaftContext := do
  let pr ← s.progress peer
  let prevIndex := u64Sub pr.next 1
  let resPair ← s.raftLog.term prevIndex
  if resPair.2 = false then
    let entries ← s.raftLog.storage.entries (prevIndex + 1) (prevIndex + 2)
    match entries with
    | [] => return s
    | ent :: _ =>
        return s.push { msgType := .msgAppend, fromId := s.id, toId := peer, term := s.term,
                        commit := s.raftLog.commited, logTerm := ent.term, index := prevIndex,
                        entries := entries }
  else
    return s.push { msgType := .msgAppend, fromId := s.id, toId := peer, term := s.term,
                    commit := s.raftLog.commited, logTerm := resPair.1, index := prevIndex,
                    entries := s.raftLog.entries.drop (s.raftLog.toSliceIndex (prevIndex + 1)) }

def sendAppendResponse (peer : Nat) (reject : Bool) (term index : Nat) : RaftContext :=
  s.push { msgType := .msgAppendResponse, fromId := s.id, toId := peer, term := s.term,
           reject := reject, logTerm := term, index := index }

def sendHeartbeat (peer : Nat) : RaftContext :=
  s.push { msgType := .msgHeartbeat, fromId := s.id, toId := peer, term := s.term }

def sendHeartbeatResponse (peer : Nat) (reject : Bool) : RaftContext :=
  s.push { msgType := .msgHeartbeatResponse, fromId := s.id, toId := peer, term := s.term,
           reject := reject }

def sendRequestVote (peer index term : Nat) : RaftContext :=
  s.push { msgType := .msgRequestVote, fromId := s.id, toId := peer, term := s.term,
           logTerm := term, index := index }

def sendRequestVoteResponse (peer : Nat) (reject : Bool) : RaftContext :=
  s.push { msgType := .msgRequestVoteResponse, fromId := s.id, toId := peer, term := s.term,
           reject := reject }

/-- `SendTimeoutNow` sets no term. -/
def sendTimeoutNow (peer : Nat) : RaftContext :=
  s.push { msgType := .msgTimeoutNow, fromId := s.id, toId := peer }

def bcastHeartbeat : RaftContext :=
  s.prs.keys.foldl (fun s peer => if peer = s.id then s else s.sendHeartbeat peer) s

def bcastAppend : Option RaftContext :=
  s.prs.keys.foldlM (fun s peer => if peer = s.id then some s else s.sendAppend peer) s

def becomeFollower (term lead : Nat) : RaftContext :=
  { s with state := .stateFollower, lead := lead, term := term, vote := NONE }

def becomeCandidate : RaftContext :=
  { s with state := .stateCandidate, lead := NONE, term := s.term + 1, vote := s.id,
           votes := (∅ : ExtTreeMap Nat Bool).insert s.id true }

/-- The progress map `BecomeLeader` leaves: `next` is reset for every peer, `match` only for the
node itself. -/
def leaderPrs (lastIndex : Nat) : ExtTreeMap Nat (Option Progress) :=
  s.prs.map fun peer p => p.map fun pr =>
    if peer = s.id then { next := lastIndex + 2, matchIdx := lastIndex + 1 }
    else { pr with next := lastIndex + 1 }

/-- The entry without data that a new leader appends. -/
def noopEntry : Entry := { term := s.term, index := s.raftLog.lastIndex + 1 }

/-- The commit shortcut of a cluster of one. -/
def commitAlone : Option RaftContext :=
  if s.prs.size = 1 then do
    let pr ← s.progress s.id
    return { s with raftLog := { s.raftLog with commited := pr.matchIdx } }
  else some s

/-- The state in which a new leader sends its first appends. -/
def leaderState : RaftContext :=
  { s with state := .stateLeader, lead := s.id, heartbeatElapsed := 0,
           prs := s.leaderPrs s.raftLog.lastIndex,
           raftLog := { s.raftLog with entries := s.raftLog.entries ++ [s.noopEntry] } }

/-- `BecomeLeader`. Its first loop uses the `Progress` of every peer. -/
def becomeLeader : Option RaftContext :=
  if s.prs.toList.all (fun peer => peer.2.isSome) then do
    let s ← s.leaderState.bcastAppend
    s.commitAlone
  else none

def doElection (rand : Nat) : Option RaftContext :=
  let s := redraw { s.becomeCandidate with heartbeatElapsed := 0 } rand
  if s.prs.size = 1 then s.becomeLeader
  else do
    let lastIndex := s.raftLog.lastIndex
    let resPair ← s.raftLog.term lastIndex
    return s.prs.keys.foldl
      (fun s peer => if peer = s.id then s else s.sendRequestVote peer lastIndex resPair.1) s

def handleRequestVote (m : Message) (rand : Nat) : Option RaftContext :=
  if m.term ≠ NONE ∧ m.term < s.term then some (s.sendRequestVoteResponse m.fromId true)
  else if s.vote ≠ NONE ∧ s.vote ≠ m.fromId then some (s.sendRequestVoteResponse m.fromId true)
  else do
    let lastIndex := s.raftLog.lastIndex
    let resPair ← s.raftLog.term lastIndex
    if m.logTerm < resPair.1 ∨ (resPair.1 = m.logTerm ∧ m.index < lastIndex) then
      return s.sendRequestVoteResponse m.fromId true
    else
      return (redraw { s with vote := m.fromId, electionElapsed := 0 } rand).sendRequestVoteResponse
        m.fromId false

/-- The tally of `HandleRequestVoteResponse`: three `uint8_t` counters, of the granted votes, of all
votes and of half the peers. -/
def grantCount : Nat := s.votes.toList.countP (fun vote => vote.2) % 2 ^ 8

def voteCount : Nat := s.votes.size % 2 ^ 8

def voteThreshold : Nat := s.prs.size / 2 % 2 ^ 8

def recordVote (m : Message) : RaftContext := { s with votes := s.votes.insert m.fromId (!m.reject) }

def handleRequestVoteResponse (m : Message) : Option RaftContext :=
  if m.term ≠ NONE ∧ m.term < s.term then some s
  else
    let s := s.recordVote m
    if s.voteThreshold < s.grantCount then s.becomeLeader
    else if (s.voteThreshold : Int) < s.voteCount - s.grantCount then
      some (s.becomeFollower s.term NONE)
    else some s

/-- The loop of `HandleAppendEntries` over the entries of the message: `rest` is what is left of
`ents`, and `count` the number of entries already dealt with. Entries below `firstIndex_` are
skipped without counting them. -/
def appendLoop (ents : List Entry) : List Entry → Nat → RaftLog → Option RaftLog
  | [], _, l => some l
  | e :: rest, count, l =>
      if e.index < l.firstIndex then appendLoop ents rest count l
      else if e.index ≤ l.lastIndex then do
        let resPair ← l.term e.index
        if resPair.1 ≠ e.term then
          let idx := l.toSliceIndex e.index
          if idx < l.entries.length then
            appendLoop ents rest (count + 1)
              { l with entries := l.entries.take idx ++ [e],
                       stabled := min l.stabled (u64Sub e.index 1) }
          else none
        else appendLoop ents rest (count + 1) l
      else some { l with entries := l.entries ++ ents.drop count }

/-- What an accepted append does: the entries are merged, the commit index follows the leader's, and
the answer carries the last index of the log. -/
def acceptAppend (m : Message) : Option RaftContext := do
  let l ← appendLoop m.entries m.entries 0 s.raftLog
  let l := if l.commited < m.commit then
      { l with commited := min m.commit (u64Add m.index m.entries.length) } else l
  return { s with raftLog := l }.sendAppendResponse m.fromId false NONE l.lastIndex

/-- The answer to an append whose `logTerm` differs from the term `logTerm` found at its index: the
search loop runs over the entries up to that index. -/
def rejectAppend (m : Message) (logTerm : Nat) : Option RaftContext :=
  let n := s.raftLog.toSliceIndex (m.index + 1)
  if n ≤ s.raftLog.entries.length then
    let index := (lastIdx (fun e => e.term == logTerm) (s.raftLog.entries.take n)).getD 0
    some (s.sendAppendResponse m.fromId true logTerm index)
  else none

def handleAppendEntries (m : Message) (rand : Nat) : Option RaftContext :=
  if m.term ≠ NONE ∧ m.term < s.term then some (s.sendAppendResponse m.fromId true NONE NONE)
  else
    let s := { redraw { s with electionElapsed := 0 } rand with lead := m.fromId }
    let lastIndex := s.raftLog.lastIndex
    if lastIndex < m.index then some (s.sendAppendResponse m.fromId true NONE (lastIndex + 1))
    else if s.raftLog.firstIndex ≤ m.index then do
      let resPair ← s.raftLog.term m.index
      if resPair.1 ≠ m.logTerm then s.rejectAppend m resPair.1 else s.acceptAppend m
    else s.acceptAppend m

/-- `LeaderCommit`. The member it reads as `pendingConfIndex` is `pendingConfIndex_`. -/
def leaderCommit : Option RaftContext := do
  let matched ← s.prs.toList.mapM fun peer => peer.2.map Progress.matchIdx
  let thresh := if s.prs.size % 2 = 0 ∧ s.pendingConfIndex = NONE then u64Sub (s.prs.size / 2) 1
    else s.prs.size / 2
  let n ← (matched.insertionSort (· ≤ ·))[thresh]?
  if s.raftLog.commited < n then
    let resPair ← s.raftLog.term n
    if resPair.1 = s.term then
      bcastAppend { s with raftLog := { s.raftLog with commited := n } }
    else return s
  else return s

/-- The `next` a rejection leads to: its own index, or the entry index of the last entry of a later
term than the hint, when the entry before that one has the hint's term. The loop leaves `fIndex`
unassigned when there is no such entry, and the source reads it all the same. -/
def rejectHint (m : Message) : Option Nat :=
  if m.logTerm ≠ NONE then do
    let fIndex ← lastIdx (fun e => m.logTerm < e.term) s.raftLog.entries
    if 0 < fIndex then
      let e ← s.raftLog.entries[fIndex - 1]?
      return if e.term = m.logTerm then s.raftLog.toEntryIndex fIndex else m.index
    else return m.index
  else some m.index

def handleAppendEntriesResponse (m : Message) : Option RaftContext :=
  if m.term ≠ NONE ∧ m.term < s.term then some s
  else if m.reject then
    if m.index = NONE then some s
    else do
      let index ← s.rejectHint m
      let pr ← s.progress m.fromId
      (s.setProgress m.fromId { pr with next := index }).sendAppend m.fromId
  else do
    let pr ← s.progress m.fromId
    if pr.matchIdx < m.index then
      let s ← (s.setProgress m.fromId { matchIdx := m.index, next := m.index + 1 }).leaderCommit
      if m.fromId = s.leadTransferee ∧ m.index = s.raftLog.lastIndex then
        return { s.sendTimeoutNow m.fromId with leadTransferee := NONE }
      else return s
    else return s

def handleHeartbeat (m : Message) (rand : Nat) : RaftContext :=
  if m.term ≠ NONE ∧ m.term < s.term then s.sendHeartbeatResponse m.fromId true
  else (redraw { s with lead := m.fromId, electionElapsed := 0 } rand).sendHeartbeatResponse
    m.fromId false

/-- The loop of `AppendEntries`. Its counter `i` is never incremented, so that every entry gets the
index after the log the proposal found. -/
def proposeLoop (lastIndex : Nat) : List Entry → RaftContext → RaftContext
  | [], s => s
  | e :: rest, s =>
      let entry := { e with term := s.term, index := lastIndex + 0 + 1 }
      if entry.entryType = .entryConfChange then
        if s.pendingConfIndex ≠ NONE then proposeLoop lastIndex rest s
        else proposeLoop lastIndex rest
          { s with pendingConfIndex := entry.index,
                   raftLog := { s.raftLog with entries := s.raftLog.entries ++ [entry] } }
      else proposeLoop lastIndex rest
        { s with raftLog := { s.raftLog with entries := s.raftLog.entries ++ [entry] } }

def appendEntries (entries : List Entry) : Option RaftContext := do
  let s := proposeLoop s.raftLog.lastIndex entries s
  let _ ← s.progress s.id
  let lastIndex := s.raftLog.lastIndex
  let s ← (s.setProgress s.id { matchIdx := lastIndex, next := lastIndex + 1 }).bcastAppend
  s.commitAlone

/-- `HandleSnapshot`. -/
def handleSnapshot (m : Message) : RaftContext :=
  let meta' := m.snapshot.metadata
  if meta'.index ≤ s.raftLog.commited then
    s.sendAppendResponse m.fromId false NONE s.raftLog.commited
  else
    let s := s.becomeFollower (max s.term m.term) m.fromId
    let l := { s.raftLog with entries := [], firstIndex := meta'.index + 1, applied := meta'.index,
                              commited := meta'.index, stabled := meta'.index,
                              pendingSnapshot := m.snapshot }
    let prs := meta'.confState.nodes.foldl (fun prs peer => prs.insert peer (some {})) s.prs
    { s with raftLog := l, prs := prs }.sendAppendResponse m.fromId false NONE l.lastIndex

/-- `HandleTransferLeader`. Looking an unknown sender up inserts a null pointer under its id. -/
def handleTransferLeader (m : Message) : Option RaftContext :=
  if m.fromId = s.id then some s
  else if s.leadTransferee ≠ NONE ∧ s.leadTransferee = m.fromId then some s
  else
    match s.progress m.fromId with
    | none => some { s with prs := s.prs.insert m.fromId none }
    | some pr =>
        let s := { s with leadTransferee := m.fromId, transferElapsed := 0 }
        if pr.matchIdx = s.raftLog.lastIndex then some (s.sendTimeoutNow m.fromId)
        else s.sendAppend m.fromId

def stepFollower (m : Message) (rand : Nat) : Option RaftContext :=
  match m.msgType with
  | .msgHup => s.doElection rand
  | .msgBeat => some s
  | .msgPropose => some s
  | .msgAppend => s.handleAppendEntries m rand
  | .msgAppendResponse => some s
  | .msgRequestVote => s.handleRequestVote m rand
  | .msgRequestVoteResponse => some s
  | .msgSnapshot => some (s.handleSnapshot m)
  | .msgHeartbeat => some (s.handleHeartbeat m rand)
  | .msgHeartbeatResponse => some s
  | .msgTransferLeader => some (if s.lead ≠ NONE then s.push { m with toId := s.lead } else s)
  | .msgTimeoutNow => s.doElection rand
  | .msgEntryConfChange => some (s.push m)

def stepCandidate (m : Message) (rand : Nat) : Option RaftContext :=
  match m.msgType with
  | .msgHup => s.doElection rand
  | .msgBeat => some s
  | .msgPropose => some s
  | .msgAppend =>
      (if m.term = s.term then s.becomeFollower m.term m.fromId else s).handleAppendEntries m rand
  | .msgAppendResponse => some s
  | .msgRequestVote => s.handleRequestVote m rand
  | .msgRequestVoteResponse => s.handleRequestVoteResponse m
  | .msgSnapshot => some (s.handleSnapshot m)
  | .msgHeartbeat =>
      some ((if m.term = s.term then s.becomeFollower m.term m.fromId else s).handleHeartbeat m rand)
  | .msgHeartbeatResponse => some s
  | .msgTransferLeader => some (if s.lead ≠ NONE then s.push { m with toId := s.lead } else s)
  | .msgTimeoutNow => some s
  | .msgEntryConfChange => some (s.push m)

def stepLeader (m : Message) (rand : Nat) : Option RaftContext :=
  match m.msgType with
  | .msgHup => some s
  | .msgBeat => some s.bcastHeartbeat
  | .msgPropose => if s.leadTransferee = NONE then s.appendEntries m.entries else some s
  | .msgAppend => s.handleAppendEntries m rand
  | .msgAppendResponse => s.handleAppendEntriesResponse m
  | .msgRequestVote => s.handleRequestVote m rand
  | .msgRequestVoteResponse => some s
  | .msgSnapshot => some (s.handleSnapshot m)
  | .msgHeartbeat => some (s.handleHeartbeat m rand)
  | .msgHeartbeatResponse => s.sendAppend m.fromId
  | .msgTransferLeader => s.handleTransferLeader m
  | .msgTimeoutNow => some s
  | .msgEntryConfChange => some s

/-- What `Step` does first with a message of a later term. -/
def observeTerm (m : Message) : RaftContext :=
  if s.term < m.term then { s with leadTransferee := NONE }.becomeFollower m.term NONE else s

def step (m : Message) (rand : Nat) : Option RaftContext :=
  if s.prs.contains s.id = false ∧ m.msgType = .msgTimeoutNow then some s
  else
    let s := s.observeTerm m
    match s.state with
    | .stateFollower => s.stepFollower m rand
    | .stateCandidate => s.stepCandidate m rand
    | .stateLeader => s.stepLeader m rand

def tickElection (rand : Nat) : Option RaftContext :=
  let s := { s with electionElapsed := s.electionElapsed + 1 }
  if s.randomElectionTimeout ≤ s.electionElapsed then
    step { s with electionElapsed := 0 } { msgType := .msgHup } rand
  else some s

def tickHeartbeat (rand : Nat) : Option RaftContext :=
  let s := { s with heartbeatElapsed := s.heartbeatElapsed + 1 }
  if s.heartbeatTimeout ≤ s.heartbeatElapsed then
    step { s with heartbeatElapsed := 0 } { msgType := .msgBeat } rand
  else some s

def tickTransfer : RaftContext :=
  let s := { s with transferElapsed := s.transferElapsed + 1 }
  if s.electionTimeout * 2 % 2 ^ 64 ≤ s.transferElapsed then
    { s with transferElapsed := 0, leadTransferee := NONE }
  else s

def tick (rand : Nat) : Option RaftContext :=
  match s.state with
  | .stateFollower => s.tickElection rand
  | .stateCandidate => s.tickElection rand
  | .stateLeader => (if s.leadTransferee ≠ NONE then s.tickTransfer else s).tickHeartbeat rand

/-- `AddNode`. A new peer starts with `next` at 6. -/
def addNode (id : Nat) : RaftContext :=
  let s := match s.progress id with
    | none => s.setProgress id { next := 6 }
    | some _ => s
  { s with pendingConfIndex := NONE }

/-- `RemoveNode`. Looking an unknown id up inserts a null pointer under it. -/
def removeNode (id : Nat) : Option RaftContext := do
  let s ← match s.progress id with
    | none => some { s with prs := s.prs.insert id none }
    | some _ =>
        let s := { s with prs := s.prs.erase id }
        if s.state = .stateLeader then s.leaderCommit else some s
  return { s with pendingConfIndex := NONE }

/-- `RaftContext::HardState`. -/
def hardState : HardState := { term := s.term, vote := s.vote, commit := s.raftLog.commited }

/-- `ReadMessage`: the messages pushed so far are handed out and forgotten. -/
def readMessage : List Message × RaftContext := (s.msgs, { s with msgs := [] })

end RaftContext

/-- A call of the application on a node. -/
inductive Call where
  | tick
  | step (m : Message)
  deriving DecidableEq

/-- The message that is handed to the node. -/
def Call.message? : Call → Option Message
  | .tick => none
  | .step m => some m

theorem Call.message?_eq_some {k : Call} {m : Message} : k.message? = some m ↔ k = .step m := by
  cases k with
  | tick => exact iff_of_false nofun nofun
  | step m' => rw [message?, Option.some.injEq, Call.step.injEq]

def RaftContext.call (s : RaftContext) (rand : Nat) : Call → Option RaftContext
  | .tick => s.tick rand
  | .step m => s.step m rand

end Eraft
