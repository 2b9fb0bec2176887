import Eraft.MemoryStorage

/-! `RaftLog` (`raftcore/src/log.cc`): the entries a node holds in memory, on top of its storage.
`entries` starts at log index `firstIndex`. An access `entries_[k]` outside the vector is undefined
behaviour in the source; a function that can make one returns an `Option`, with `none` for it. -/

namespace Eraft

structure RaftLog where
  storage : MemoryStorage
  pendingSnapshot : Snapshot
  commited : Nat
  applied : Nat
  stabled : Nat
  firstIndex : Nat
  entries : List Entry
  deriving DecidableEq

namespace RaftLog

/-- `RaftLog::RaftLog`. The constructor leaves `commited_` unset; the value its only caller stores
there at once is the second argument. -/
def new (st : MemoryStorage) (commited : Nat) : Option RaftLog := do
  let lo := st.firstIndex
  let hi := st.lastIndex
  let entries ← st.entries lo (hi + 1)
  return { storage := st, pendingSnapshot := {}, commited := commited, applied := u64Sub lo 1,
           stabled := hi, firstIndex := lo, entries := entries }

variable (l : RaftLog)

/-- `RaftLog::ToSliceIndex`. The guard `idx < 0` of the source never holds on unsigned values. -/
def toSliceIndex (i : Nat) : Nat := u64Sub i l.firstIndex

def toEntryIndex (i : Nat) : Nat := i + l.firstIndex

/-- `RaftLog::LastIndex`. The snapshot branch is commented out in the source, which leaves the
second argument of both its maxima at 0. -/
def lastIndex : Nat :=
  match l.entries.getLast? with
  | some e => e.index
  | none => l.storage.lastIndex

/-- `RaftLog::Term`. -/
def term (i : Nat) : Option (Nat × Bool) :=
  if 0 < l.entries.length ∧ l.firstIndex ≤ i then
    (l.entries[i - l.firstIndex]?).map fun e => (e.term, true)
  else
    let pair := l.storage.term i
    if pair.2 = false then some (0, false)
    else if pair.1 = 0 ∧ isEmptySnap l.pendingSnapshot = false ∧
        i = l.pendingSnapshot.metadata.index then
      some (l.pendingSnapshot.metadata.index, true)
    else some (pair.1, true)

/-- `RaftLog::MaybeCompact`: entries that the storage has compacted are dropped. Erasing more than
there are is undefined. -/
def maybeCompact : Option RaftLog :=
  let first := l.storage.firstIndex
  if l.firstIndex < first then
    if 0 < l.entries.length then
      if l.toSliceIndex first ≤ l.entries.length then
        some { l with entries := l.entries.drop (l.toSliceIndex first), firstIndex := first }
      else none
    else some { l with firstIndex := first }
  else some l

/-- The distance of `begin() + (i - firstIndex_ + 1)` from the beginning of the vector. -/
def offsetBehind (i : Nat) : Nat := u64Sub (i + 1) l.firstIndex

/-- `RaftLog::UnstableEntries`, the entries behind `stabled_`. The vector is copied between two
iterators: a range that starts behind its end is undefined. -/
def unstableEntries : Option (List Entry) :=
  if 0 < l.entries.length then
    let lo := l.offsetBehind l.stabled
    if lo ≤ l.entries.length then some (l.entries.drop lo) else none
  else some []

/-- `RaftLog::NextEnts`, the entries behind `applied_` up to `commited_`. -/
def nextEnts : Option (List Entry) :=
  if 0 < l.entries.length then
    let lo := l.offsetBehind l.applied
    let hi := l.offsetBehind l.commited
    if lo ≤ hi ∧ hi ≤ l.entries.length then some ((l.entries.take hi).drop lo) else none
  else some []

/-! ### Well-formed logs

The entries carry consecutive indices from `firstIndex` on, and an empty log ends where its storage
does. -/

structure WellFormed : Prop where
  firstPos : 1 ≤ l.firstIndex
  contiguous : ∀ i (h : i < l.entries.length), l.entries[i].index = l.firstIndex + i
  base : l.entries = [] → l.storage.lastIndex + 1 = l.firstIndex

variable {l}

theorem WellFormed.lastIndex_succ (h : l.WellFormed) :
    l.lastIndex + 1 = l.firstIndex + l.entries.length := by
  unfold lastIndex
  cases hlast : l.entries.getLast? with
  | none =>
      have hnil := List.getLast?_eq_none_iff.mp hlast
      rw [hnil, List.length_nil]
      exact h.base hnil
  | some e =>
      rw [List.getLast?_eq_getElem?, List.getElem?_eq_some_iff] at hlast
      obtain ⟨hlt, he⟩ := hlast
      have hindex := h.contiguous _ hlt
      dsimp only
      rw [← he, hindex]
      omega

theorem WellFormed.toSliceIndex_eq {i : Nat} (hi : l.firstIndex ≤ i) :
    l.toSliceIndex i = i - l.firstIndex := u64Sub_of_le hi

/-- A term inside the log is the term of the entry there. -/
theorem WellFormed.term_eq {i : Nat} (hlo : l.firstIndex ≤ i)
    (hlt : i - l.firstIndex < l.entries.length) :
    l.term i = some (l.entries[i - l.firstIndex].term, true) := by
  unfold term
  rw [if_pos ⟨by omega, hlo⟩, List.getElem?_eq_getElem hlt]
  rfl

end RaftLog

end Eraft
