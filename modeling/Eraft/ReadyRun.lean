import Eraft.RawNode
import Eraft.NodeStable
import Eraft.NodeStart
import Eraft.BaseRun

/-! An application that drives one node: it makes calls, and in between runs cycles in which it takes a
`DReady`, saves its entries and hands it back to `Advance`. What the application does with the entries
is a parameter, since some applications keep the storage up to date and others do not. -/

open Std Runs

namespace Eraft

/-- What an application does next. The label of a cycle holds what it has read. -/
inductive Act where
  | call (c : Call) (rand : Nat)
  | ready (rd : DReady)

/-- What the application reads. -/
def Act.read : Act → Option DReady
  | .ready rd => some rd
  | .call _ _ => none

namespace RawNode

/-- How an application saves what it has read. -/
abbrev Save := MemoryStorage → DReady → MemoryStorage

/-- The storage of the node is not written. -/
def unsaved : Save := fun st _ => st

/-- `storage.Append(rd.entries)`. -/
def saved : Save := fun st rd => (st.append rd.entries).1

variable (n : RawNode)

def call (rand : Nat) : Call → Option RawNode
  | .tick => n.tick rand
  | .step m => n.step m rand

/-- The node over another storage. -/
def withStorage (st : MemoryStorage) : RawNode :=
  { n with raft := { n.raft with raftLog := { n.raft.raftLog with storage := st } } }

/-- `rd = EReady(); …; Advance(rd)`. -/
def cycle (save : Save) : Option (DReady × RawNode) := do
  let (rd, n) ← n.eReady
  let n ← (n.withStorage (save n.raft.raftLog.storage rd)).advance rd
  return (rd, n)

/-- The transitions of a node whose application does only what `ok` allows. -/
def Next (save : Save) (ok : RawNode → Act → Prop) (n : RawNode) (a : Act) (n' : RawNode) : Prop :=
  ok n a ∧ match a with
    | .call c rand => n.call rand c = some n'
    | .ready rd => n.cycle save = some (rd, n')

/-- The node that an application builds from a configuration. -/
def Starts (config : Config → Prop) (n : RawNode) : Prop :=
  ∃ c rand transferElapsed pendingConfIndex, config c ∧
    new c rand transferElapsed pendingConfIndex = some n

/-- A node on any configuration. -/
def anyStart : Config → Prop := fun _ => True

variable {n} {n' : RawNode} {save : Save} {rd : DReady} {c : Call} {rand : Nat}

theorem call_spec (h : n.call rand c = some n') :
    n.raft.call rand c = some n'.raft ∧ n'.prevHardSt = n.prevHardSt := by
  cases c with
  | tick =>
      obtain ⟨raft, hraft, h⟩ := Option.bind_eq_some_iff.mp h
      cases h
      exact ⟨hraft, rfl⟩
  | step m =>
      obtain ⟨raft, hraft, h⟩ := Option.bind_eq_some_iff.mp h
      cases h
      exact ⟨hraft, rfl⟩

/-- What a snapshot is after it was handed out. -/
def handedOut (sp : Snapshot) : Snapshot := if isEmptySnap sp then sp else { sp with data := [] }

theorem isEmptySnap_handedOut (sp : Snapshot) : isEmptySnap (handedOut sp) = isEmptySnap sp := by
  unfold handedOut
  split_ifs <;> rfl

/-- The log that a cycle leaves, before it is compacted. -/
def cycledLog (save : Save) (l : RaftLog) (rd : DReady) : RaftLog :=
  advanceLog { l with storage := save l.storage rd, pendingSnapshot := handedOut l.pendingSnapshot } rd

/-- What one cycle reads and leaves. -/
structure Cycled (save : Save) (n : RawNode) (rd : DReady) (n' : RawNode) : Prop where
  entries : n.raft.raftLog.unstableEntries = some rd.entries
  committedEntries : n.raft.raftLog.nextEnts = some rd.committedEntries
  messages : rd.messages = n.raft.msgs
  snapshot : rd.snapshot =
    if isEmptySnap n.raft.raftLog.pendingSnapshot then {} else n.raft.raftLog.pendingSnapshot
  hardSt : rd.hardSt = {}
  raft : ∃ l, (cycledLog save n.raft.raftLog rd).maybeCompact = some l ∧
    n'.raft = { n.raft with msgs := [], raftLog := l }
  prevHardSt : n'.prevHardSt = n.prevHardSt

/-- **A cycle reads the node and clears its messages.** -/
theorem cycle_eq_some : n.cycle save = some (rd, n') ↔ Cycled save n rd n' := by
  constructor
  · intro h
    unfold cycle eReady advance at h
    simp only [Option.bind_eq_bind, Option.bind_eq_some_iff] at h
    obtain ⟨⟨rd', n₁⟩, ⟨entries, hentries, committed, hcommitted, hread⟩, n₂, ⟨l, hl, hn₂⟩, h⟩ := h
    cases h
    cases hn₂
    by_cases hsnap : isEmptySnap n.raft.raftLog.pendingSnapshot = true
    · rw [if_pos hsnap] at hread
      cases hread
      refine ⟨hentries, hcommitted, rfl, (if_pos hsnap).symm, rfl, ⟨l, ?_, rfl⟩, rfl⟩
      rw [← hl, cycledLog, handedOut, if_pos hsnap]
      rfl
    · rw [if_neg hsnap] at hread
      cases hread
      refine ⟨hentries, hcommitted, rfl, (if_neg hsnap).symm, rfl, ⟨l, ?_, rfl⟩, rfl⟩
      rw [← hl, cycledLog, handedOut, if_neg hsnap]
      rfl
  · rintro ⟨hentries, hcommitted, hmsgs, hsnapshot, hhard, ⟨l, hl, hraft⟩, hprev⟩
    obtain ⟨hardSt, entries, snapshot, committed, msgs⟩ := rd
    obtain ⟨raft, prev⟩ := n'
    dsimp only at hmsgs hsnapshot hhard hraft hprev
    unfold cycle eReady advance
    simp only [Option.bind_eq_bind, hentries, hcommitted, Option.bind_some]
    by_cases hsnap : isEmptySnap n.raft.raftLog.pendingSnapshot = true
    · rw [if_pos hsnap] at hsnapshot
      rw [cycledLog, handedOut, if_pos hsnap] at hl
      subst hmsgs hsnapshot hhard hraft hprev
      simp only [if_pos hsnap, Option.pure_def, Option.bind_some, withStorage]
      rw [hl]
      rfl
    · rw [if_neg hsnap] at hsnapshot
      rw [cycledLog, handedOut, if_neg hsnap] at hl
      subst hmsgs hsnapshot hhard hraft hprev
      simp only [if_neg hsnap, Option.pure_def, Option.bind_some, withStorage]
      rw [hl]
      rfl

/-- A cycle is defined if the slices and the compaction it makes are. -/
theorem cycle_isSome {entries committed : List Entry}
    (hentries : n.raft.raftLog.unstableEntries = some entries)
    (hcommitted : n.raft.raftLog.nextEnts = some committed)
    (hcompact : ∀ rd : DReady, rd.entries = entries →
      ∃ l, (cycledLog save n.raft.raftLog rd).maybeCompact = some l) :
    (n.cycle save).isSome = true := by
  let rd : DReady :=
    { entries := entries, committedEntries := committed, messages := n.raft.msgs
      snapshot :=
        if isEmptySnap n.raft.raftLog.pendingSnapshot then {} else n.raft.raftLog.pendingSnapshot }
  obtain ⟨l, hl⟩ := hcompact rd rfl
  let n' : RawNode := { n with raft := { n.raft with msgs := [], raftLog := l } }
  have hcycle : n.cycle save = some (rd, n') :=
    cycle_eq_some.mpr ⟨hentries, hcommitted, rfl, rfl, rfl, ⟨l, hl, rfl⟩, rfl⟩
  rw [hcycle]
  rfl

end RawNode

namespace RaftLog

variable {l : RaftLog}

theorem unstableEntries_of_le (hlo : l.firstIndex ≤ l.stabled + 1)
    (hhi : l.stabled + 1 ≤ l.firstIndex + l.entries.length) :
    l.unstableEntries = some (l.entries.drop (l.stabled + 1 - l.firstIndex)) := by
  have hle : l.stabled + 1 - l.firstIndex ≤ l.entries.length := by omega
  unfold unstableEntries
  dsimp only
  rw [offsetBehind, u64Sub_of_le hlo, if_pos hle]
  split_ifs with hpos
  · rfl
  · rw [List.length_pos_iff, not_not] at hpos
    rw [hpos, List.drop_nil]

theorem nextEnts_of_le (hlo : l.firstIndex ≤ l.applied + 1) (hmid : l.applied ≤ l.commited)
    (hhi : l.commited + 1 ≤ l.firstIndex + l.entries.length) :
    l.nextEnts = some ((l.entries.take (l.commited + 1 - l.firstIndex)).drop
      (l.applied + 1 - l.firstIndex)) := by
  have hle : l.applied + 1 - l.firstIndex ≤ l.commited + 1 - l.firstIndex ∧
      l.commited + 1 - l.firstIndex ≤ l.entries.length := by omega
  unfold nextEnts
  dsimp only
  rw [offsetBehind, offsetBehind, u64Sub_of_le hlo, u64Sub_of_le (by omega), if_pos hle]
  split_ifs with hpos
  · rfl
  · rw [List.length_pos_iff, not_not] at hpos
    rw [hpos, List.take_nil, List.drop_nil]

theorem unstableEntries_of_one (h : l.firstIndex = 1) (hst : l.stabled ≤ l.entries.length) :
    l.unstableEntries = some (l.entries.drop l.stabled) := by
  rw [unstableEntries_of_le (by omega) (by omega), h, Nat.add_sub_cancel]

theorem nextEnts_of_one (h : l.firstIndex = 1) (hap : l.applied ≤ l.commited)
    (hco : l.commited ≤ l.entries.length) :
    l.nextEnts = some ((l.entries.take l.commited).drop l.applied) := by
  rw [nextEnts_of_le (by omega) hap (by omega), h, Nat.add_sub_cancel, Nat.add_sub_cancel]

/-- A storage that was never compacted keeps the whole log in memory. -/
theorem maybeCompact_of_one (h : l.firstIndex = 1) (hst : l.storage.dummy.index = 0) :
    l.maybeCompact = some l := by
  unfold maybeCompact
  dsimp only
  rw [if_neg (by rw [h, MemoryStorage.firstIndex, hst]; omega)]

/-- `Advance` goes on behind the last entry that was read. The entries have the indices from `f` on,
and were read behind the index `d`. -/
theorem last_drop_index_succ {es : List Entry} {f k d : Nat}
    (h : ∀ i e, es[i]? = some e → e.index = f + i) (hk : k ≤ es.length) (hd : d + 1 = f + k) :
    ((es.drop k).getLast?.map Entry.index).getD d + 1 = f + es.length := by
  rw [List.getLast?_drop]
  split_ifs with hend
  · rw [Option.map_none, Option.getD_none, hd, Nat.le_antisymm hk hend]
  · have hpos : es ≠ [] := by
      rintro rfl
      exact hend (Nat.zero_le k)
    have hlast : es[es.length - 1]? = some (es.getLast hpos) := by
      rw [← List.getLast?_eq_getElem?, List.getLast?_eq_getLast_of_ne_nil hpos]
    have hindex := h _ _ hlast
    have := List.length_pos_of_ne_nil hpos
    rw [List.getLast?_eq_getLast_of_ne_nil hpos, Option.map_some, Option.getD_some]
    omega

theorem last_drop_index {es : List Entry} (h : Contiguous es) {k : Nat} (hk : k ≤ es.length) :
    ((es.drop k).getLast?.map Entry.index).getD k = es.length := by
  have hsucc := last_drop_index_succ (fun i e he => (h i e he).trans (Nat.add_comm i 1)) hk
    (Nat.add_comm k 1)
  omega

end RaftLog

namespace RawNode

/-- A cycle on a log from index 1 on drops nothing. -/
theorem cycledLog_maybeCompact {l : RaftLog} (hfirst : l.firstIndex = 1)
    (hst : (save l.storage rd).dummy.index = 0) :
    (cycledLog save l rd).maybeCompact = some (cycledLog save l rd) :=
  RaftLog.maybeCompact_of_one hfirst hst

/-- A script names the calls to make; `none` stands for a cycle. -/
def turn (save : Save) (ok : RawNode → Act → Prop) [∀ n a, Decidable (ok n a)] (n : RawNode) :
    Option Call → Option (Act × RawNode)
  | some c => if ok n (.call c 0) then (n.call 0 c).map (Act.call c 0, ·) else none
  | none => (n.cycle save).bind fun r => if ok n (.ready r.1) then some (.ready r.1, r.2) else none

theorem turn_spec {save : Save} {ok : RawNode → Act → Prop} [∀ n a, Decidable (ok n a)] (n : RawNode)
    (p : Option Call) (a : Act) (n' : RawNode) (h : turn save ok n p = some (a, n')) :
    Next save ok n a n' := by
  cases p with
  | some c =>
      unfold turn at h
      dsimp only at h
      split_ifs at h with hok
      obtain ⟨n₁, hcall, h⟩ := Option.map_eq_some_iff.mp h
      cases h
      exact ⟨hok, hcall⟩
  | none =>
      obtain ⟨r, hr, h⟩ := Option.bind_eq_some_iff.mp h
      split_ifs at h with hok
      cases h
      exact ⟨hok, hr⟩

/-- A test on the latest cycle, if the run ends with one. -/
def lastCycle (test : RawNode → DReady → List (Move RawNode Act) → Bool) :
    List (Move RawNode Act) → Bool
  | ⟨before, .ready rd, _⟩ :: earlier => test before rd earlier
  | _ => false

theorem lastCycle_inv {test : RawNode → DReady → List (Move RawNode Act) → Bool}
    {moves : List (Move RawNode Act)} (h : lastCycle test moves = true) :
    ∃ before rd after earlier, moves = ⟨before, .ready rd, after⟩ :: earlier ∧
      test before rd earlier = true := by
  cases moves with
  | nil => cases h
  | cons move earlier =>
      obtain ⟨before, label, after⟩ := move
      cases label with
      | call => cases h
      | ready rd => exact ⟨before, rd, after, earlier, rfl, h⟩

/-- The run that a script makes of a configuration. -/
theorem exists_script_run {save : Save} {ok : RawNode → Act → Prop} [∀ n a, Decidable (ok n a)]
    {config : Config → Prop} {c : Config} (hc : config c) (script : List (Option Call))
    {test : List (Move RawNode Act) × RawNode → Bool}
    (h : ((new c 0 0 NONE).bind (play (turn save ok) script [])).any test = true) :
    ∃ moves n, Run (Starts config) (Next save ok) moves n ∧ test (moves, n) = true :=
  exists_run_of_play turn_spec _ (fun _ hn => ⟨c, 0, 0, NONE, hc, hn⟩) script h

end RawNode

end Eraft
