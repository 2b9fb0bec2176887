import Eraft.Message

/-! `MemoryStorage` (`raftcore/src/memory_storage.cc`): the log storage a node is built on. Its vector
always holds a dummy entry in front, whose index is the offset of the stored log. The mutex guards
calls of other threads and is left out. -/

namespace Eraft

/-- The storage. The constructor makes one dummy entry and no operation removes the last entry, so
reading `ents_[0]` is always defined. -/
structure MemoryStorage where
  ents : List Entry
  hardState : HardState := {}
  snapShot : Snapshot := {}
  entsPos : ents ≠ []
  deriving DecidableEq

namespace MemoryStorage

/-- `MemoryStorage::MemoryStorage`. -/
def new : MemoryStorage where
  ents := [{}]
  entsPos := List.cons_ne_nil _ _

variable (ms : MemoryStorage)

/-- `ents_[0]`. -/
def dummy : Entry := ms.ents.head ms.entsPos

def initialState : HardState × ConfState := (ms.hardState, ms.snapShot.metadata.confState)

def lastIndex : Nat := ms.dummy.index + ms.ents.length - 1

def firstIndex : Nat := ms.dummy.index + 1

/-- `MemoryStorage::Entries`, the entries of `[lo, hi)`. The range is copied between two iterators:
a range that is reversed or ends behind the vector is undefined behaviour, here `none`. -/
def entries (lo hi : Nat) : Option (List Entry) :=
  let offset := ms.dummy.index
  if lo ≤ offset then some []
  else if lo ≤ hi ∧ hi - offset ≤ ms.ents.length then
    let ents := (ms.ents.take (hi - offset)).drop (lo - offset)
    if ms.ents.length = 1 ∧ ents.length ≠ 0 then some [] else some ents
  else none

/-- `MemoryStorage::Term`. The answer is always marked as found: below the offset and behind the last
entry it is the term 0. -/
def term (i : Nat) : Nat × Bool :=
  let offset := ms.dummy.index
  if i < offset then (0, true)
  else
    match ms.ents[i - offset]? with
    | some e => (e.term, true)
    | none => (0, true)

/-- `MemoryStorage::Append`. Entries that start in front of the stored log lose one entry, in the place
where the part in front of it ends; there are then at least two of them, so that `entries[0]` is
still defined. A gap behind the stored log leaves the storage as it is. -/
def append (entries : List Entry) : MemoryStorage × Bool :=
  match entries with
  | [] => (ms, false)
  | e :: rest =>
      let first := ms.firstIndex
      let last := e.index + (e :: rest).length - 1
      if last < first then (ms, false)
      else
        let entries := if e.index < first then (e :: rest).eraseIdx (first - e.index - 1)
          else e :: rest
        let offset := u64Sub (entries.headD {}).index ms.dummy.index
        if h : entries = [] then (ms, true)
        else if offset < ms.ents.length then
          ({ ms with ents := ms.ents.take offset ++ entries, entsPos := by simp [h] }, true)
        else if ms.ents.length = offset then
          ({ ms with ents := ms.ents ++ entries, entsPos := by simp [h] }, true)
        else (ms, true)

/-- `MemoryStorage::Snapshot`. -/
def snapshot : Snapshot := ms.snapShot

/-- `MemoryStorage::ApplySnapshot`. The entry for the snapshot goes to the end of the vector. -/
def applySnapshot (snap : Snapshot) : MemoryStorage × Bool :=
  let msIndex := ms.snapShot.metadata.index
  let snapIndex := snap.metadata.index
  if snapIndex ≤ msIndex then (ms, false)
  else
    let entry : Entry := { term := snap.metadata.term, index := snap.metadata.index }
    ({ ms with snapShot := snap, ents := ms.ents ++ [entry], entsPos := by simp }, true)

/-- `MemoryStorage::Compact`. The new vector begins with `newSize_` default entries, to which the loop
adds; its counter starts at a position and is compared with a log index, and reading `ents_` behind
its end is undefined behaviour. -/
def compact (compactIndex : Nat) : Option (MemoryStorage × Bool) :=
  let offset := ms.dummy.index
  if compactIndex ≤ offset then some (ms, false)
  else if h : ms.lastIndex < compactIndex then some (ms, false)
  else
    let i := compactIndex - offset
    let newSize := 1 + ms.ents.length - i
    let ents : List Entry := List.replicate newSize {}
    have hsize : newSize ≠ 0 := by
      have := List.length_pos_iff.mpr ms.entsPos
      unfold lastIndex at h
      omega
    if ms.lastIndex ≤ i ∨ ms.lastIndex ≤ ms.ents.length then
      some ({ ms with ents := ents ++ (ms.ents.take ms.lastIndex).drop i, entsPos := by simp [ents, hsize] }, true)
    else none

theorem term_snd (i : Nat) : (ms.term i).2 = true := by
  unfold term
  dsimp only
  split
  · rfl
  · split <;> rfl

end MemoryStorage

end Eraft
