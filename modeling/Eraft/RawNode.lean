import Eraft.RaftContext

/-! `RawNode` (`raftcore/src/raw_node.cc`): the interface through which an application drives a Raft
node. It asks for a `DReady`, saves, applies and sends what is in it, and calls `Advance` with it. The
soft state is recorded by the constructor and read nowhere, so that it is left out. -/

open Std

namespace Eraft

/-- What an application has to do before the next `Advance`. -/
structure DReady where
  hardSt : HardState := {}
  entries : List Entry := []
  snapshot : Snapshot := {}
  committedEntries : List Entry := []
  messages : List Message := []
  deriving DecidableEq, Repr

structure RawNode where
  raft : RaftContext
  prevHardSt : HardState

namespace RawNode

/-- `RawNode::RawNode`; the arguments are those of `RaftContext.new`. -/
def new (c : Config) (rand transferElapsed pendingConfIndex : Nat) : Option RawNode := do
  let raft ← RaftContext.new c rand transferElapsed pendingConfIndex
  return { raft := raft, prevHardSt := raft.hardState }

variable (n : RawNode)

def tick (rand : Nat) : Option RawNode := do
  return { n with raft := ← n.raft.tick rand }

def step (m : Message) (rand : Nat) : Option RawNode := do
  return { n with raft := ← n.raft.step m rand }

def campaign (rand : Nat) : Option RawNode := n.step { msgType := .msgHup } rand

/-- A proposal of one entry. `Propose`, `ProposeConfChange` and `ProposeSplitRegion` differ in its type. -/
def proposeEntry (entryType : EntryType) (data : Bytes) (rand : Nat) : Option RawNode :=
  n.step { msgType := .msgPropose, entries := [{ entryType := entryType, data := data }] } rand

/-- `ProposeConfChange`; `data` is the serialized change. -/
def proposeConfChange (data : Bytes) (rand : Nat) : Option RawNode :=
  n.proposeEntry .entryConfChange data rand

/-- `ApplyConfChange`. For the id 0 the ids of the peers are stored into a field of the result that
has no elements yet, which is undefined; for every other id the result is left empty. -/
def applyConfChange (cc : ConfChange) : Option (ConfState × RawNode) :=
  if cc.nodeId = NONE ∧ 0 < n.raft.prs.size then none
  else
    match cc.changeType with
    | .addNode => some ({}, { n with raft := n.raft.addNode cc.nodeId })
    | .removeNode => do
        let raft ← n.raft.removeNode cc.nodeId
        return ({}, { n with raft := raft })

/-- `EReady`. The parts of it that report the soft and the hard state are commented out in the source,
and of a snapshot that was handed out only the data is cleared. -/
def eReady : Option (DReady × RawNode) := do
  let l := n.raft.raftLog
  let entries ← l.unstableEntries
  let committedEntries ← l.nextEnts
  let rd : DReady := { entries := entries, committedEntries := committedEntries, messages := n.raft.msgs }
  if isEmptySnap l.pendingSnapshot then
    return (rd, { n with raft := { n.raft with msgs := [] } })
  else
    let l' := { l with pendingSnapshot := { l.pendingSnapshot with data := [] } }
    return ({ rd with snapshot := l.pendingSnapshot },
      { n with raft := { n.raft with msgs := [], raftLog := l' } })

/-- `HasReady`. -/
def hasReady : Option Bool :=
  if isEmptyHardState n.raft.hardState = false ∧ n.raft.hardState ≠ n.prevHardSt then some true
  else do
    let entries ← n.raft.raftLog.unstableEntries
    if 0 < entries.length then return true
    else
      let committedEntries ← n.raft.raftLog.nextEnts
      return 0 < committedEntries.length || 0 < n.raft.msgs.length ||
        !isEmptySnap n.raft.raftLog.pendingSnapshot

/-- The log after `Advance` has read a `DReady`, before it is compacted. -/
def advanceLog (l : RaftLog) (rd : DReady) : RaftLog :=
  { l with stabled := (rd.entries.getLast?.map Entry.index).getD l.stabled
           applied := (rd.committedEntries.getLast?.map Entry.index).getD l.applied }

/-- `Advance`. -/
def advance (rd : DReady) : Option RawNode := do
  let l ← (advanceLog n.raft.raftLog rd).maybeCompact
  return { raft := { n.raft with raftLog := l }
           prevHardSt := if isEmptyHardState rd.hardSt then n.prevHardSt else rd.hardSt }

end RawNode

end Eraft
