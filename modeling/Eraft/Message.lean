import Mathlib.Tactic

/-! The protobuf records of `protocol/proto/eraftpb.proto` that the Raft core reads and writes. Every
unsigned 64-bit field is a natural number. Differences of such fields go through `u64Sub`; sums of two
of them, the end of an append and an election timeout, go through `u64Add`. A term or an index that is
incremented stays a natural number: it leaves the range only behind the term or the index `2 ^ 64 - 1`.
The `proto3` default of a field is the default of the structure field. -/

namespace Eraft

/-- `NONE` of `raft.h`: the absent node id, term or index. -/
def NONE : Nat := 0

/-- Subtraction of unsigned 64-bit integers: it wraps where the result would be negative. -/
def u64Sub (a b : Nat) : Nat := if b ≤ a then a - b else a + 2 ^ 64 - b

theorem u64Sub_of_le {a b : Nat} (h : b ≤ a) : u64Sub a b = a - b := if_pos h

/-- Addition of unsigned 64-bit integers. -/
def u64Add (a b : Nat) : Nat := (a + b) % 2 ^ 64

theorem u64Add_of_lt {a b : Nat} (h : a + b < 2 ^ 64) : u64Add a b = a + b := Nat.mod_eq_of_lt h

theorem u64Add_le (a b : Nat) : u64Add a b ≤ a + b := Nat.mod_le _ _

/-- The `bytes` fields of the protocol. -/
abbrev Bytes := List UInt8

inductive EntryType where
  | entryNormal
  | entryConfChange
  | entrySplitRegion
  deriving DecidableEq, Repr

structure Entry where
  entryType : EntryType := .entryNormal
  term : Nat := 0
  index : Nat := 0
  data : Bytes := []
  deriving DecidableEq, Repr

structure ConfState where
  nodes : List Nat := []
  deriving DecidableEq, Repr

structure SnapshotMetadata where
  confState : ConfState := {}
  index : Nat := 0
  term : Nat := 0
  deriving DecidableEq, Repr

structure Snapshot where
  data : Bytes := []
  metadata : SnapshotMetadata := {}
  deriving DecidableEq, Repr

/-- `IsEmptySnap` of `util.h`. -/
def isEmptySnap (sp : Snapshot) : Bool := sp.metadata.index == 0

inductive MessageType where
  | msgHup
  | msgBeat
  | msgPropose
  | msgAppend
  | msgAppendResponse
  | msgRequestVote
  | msgRequestVoteResponse
  | msgSnapshot
  | msgHeartbeat
  | msgHeartbeatResponse
  | msgTransferLeader
  | msgTimeoutNow
  | msgEntryConfChange
  deriving DecidableEq, Repr

/-- A message. The fields `from` and `to` of the protocol are `fromId` and `toId` here. -/
structure Message where
  msgType : MessageType := .msgHup
  toId : Nat := 0
  fromId : Nat := 0
  term : Nat := 0
  logTerm : Nat := 0
  index : Nat := 0
  entries : List Entry := []
  commit : Nat := 0
  snapshot : Snapshot := {}
  reject : Bool := false
  deriving DecidableEq, Repr

structure HardState where
  term : Nat := 0
  vote : Nat := 0
  commit : Nat := 0
  deriving DecidableEq, Repr

/-- `IsEmptyHardState` of `util.h`; its `IsHardStateEqual` is equality here. -/
def isEmptyHardState (st : HardState) : Bool := st.vote == 0 && st.term == 0 && st.commit == 0

inductive ConfChangeType where
  | addNode
  | removeNode
  deriving DecidableEq, Repr

/-- A configuration change. Its context is the application's own and read nowhere. -/
structure ConfChange where
  changeType : ConfChangeType := .addNode
  nodeId : Nat := 0
  deriving DecidableEq, Repr

end Eraft
