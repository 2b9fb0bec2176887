import Eraft.ReadyRun
import Eraft.NodeVote
import Eraft.StorageLog

/-! An application that appends `rd.entries` to the storage in every cycle. Between cycles a conflicting
append can cut the log in memory while the storage still holds what was cut; the entries behind
`stabled_` then overwrite it in the next cycle. -/

open Std Runs

namespace Eraft

namespace MemoryStorage

theorem term_zero {ms : MemoryStorage} (h : ms.dummy.index = 0) : ms.term 0 = (ms.dummy.term, true) := by
  unfold term
  dsimp only
  rw [h, if_neg (Nat.lt_irrefl 0), ms.ents_eq]
  rfl

end MemoryStorage

namespace RaftLog

/-- The storage holds the stable part of the log. What it holds behind that part is stale, and the log
goes on there, so that it will be overwritten. -/
structure Mirrors (l : RaftLog) : Prop where
  fromOne : l.FromOne
  dummy : l.storage.dummy.index = 0
  stabled_le : l.stabled ≤ l.entries.length
  stored : l.storage.ents.tail.take l.stabled = l.entries.take l.stabled
  stale : l.stabled < l.storage.ents.tail.length → l.stabled < l.entries.length

variable {l l' : RaftLog}

theorem Mirrors.stabled_le_stored (h : l.Mirrors) : l.stabled ≤ l.storage.ents.tail.length := by
  have hlen := congrArg List.length h.stored
  rw [List.length_take, List.length_take, Nat.min_eq_left h.stabled_le] at hlen
  omega

/-- The stable part can only shrink, and where it does the log goes on. -/
theorem Mirrors.step (h : l.Mirrors) (hfrom : l'.FromOne) (hbase : SameBase l l')
    (hkeep : KeepsStable l l') : l'.Mirrors := by
  refine ⟨hfrom, ?_, hkeep.stabled_le h.stabled_le, ?_, fun hstale => ?_⟩
  · rw [hbase.storage]
    exact h.dummy
  · rw [hbase.storage]
    calc l.storage.ents.tail.take l'.stabled
        = (l.storage.ents.tail.take l.stabled).take l'.stabled := by
          rw [List.take_take, Nat.min_eq_left hkeep.le]
      _ = l.entries.take l'.stabled := by
          rw [h.stored, List.take_take, Nat.min_eq_left hkeep.le]
      _ = l'.entries.take l'.stabled := hkeep.same.symm
  · rw [hbase.storage] at hstale
    rcases hkeep.reach with ⟨hstabled, hlen⟩ | hlt
    · have := h.stale (hstabled ▸ hstale)
      omega
    · exact hlt

/-- Saving the unstable entries brings the storage up to date. -/
theorem Mirrors.append_tail (h : l.Mirrors) :
    (l.storage.append (l.entries.drop l.stabled)).1.ents = l.storage.dummy :: l.entries := by
  have hents := MemoryStorage.ents_eq l.storage
  rcases Nat.lt_or_eq_of_le h.stabled_le with hlt | hend
  · have hhead : (l.entries.drop l.stabled).head? = some l.entries[l.stabled] := by
      rw [List.head?_drop, List.getElem?_eq_getElem hlt]
    have hindex := h.fromOne.contiguous _ _ (List.getElem?_eq_getElem hlt)
    have hhi : l.entries[l.stabled].index ≤ l.storage.lastIndex + 1 := by
      have := h.stabled_le_stored
      rw [hindex, MemoryStorage.lastIndex, h.dummy, hents, List.length_cons]
      omega
    rw [MemoryStorage.append_of_lt hhead (by rw [hindex, h.dummy]; omega) hhi, hindex, h.dummy]
    nth_rewrite 1 [hents]
    rw [Nat.sub_zero, List.take_succ_cons, h.stored, List.cons_append, List.take_append_drop]
  · -- nothing is unstable, and the storage has no stale part either
    have hlen : l.storage.ents.tail.length = l.stabled := by
      have hle := h.stabled_le_stored
      by_contra hne
      have := h.stale (by omega)
      omega
    have hstored := h.stored
    rw [← hlen, List.take_length, hlen, hend, List.take_length] at hstored
    rw [hend, List.drop_length, ← hstored]
    exact hents

/-- The log is stored: it can be rebuilt from the storage. -/
structure StoredIn (l : RaftLog) (st : MemoryStorage) : Prop where
  entries : st.ents.tail = l.entries
  rebuilt : ∀ commited, ∃ l', RaftLog.new st commited = some l' ∧ l'.entries = l.entries ∧
    l'.firstIndex = l.firstIndex ∧ l'.stabled = l.stabled ∧ l'.lastIndex = l.lastIndex

/-- What the constructor makes of a storage whose log starts at index 1. -/
theorem new_of_one {st : MemoryStorage} (hdummy : st.dummy.index = 0) (commited : Nat) :
    RaftLog.new st commited = some
      { storage := st, pendingSnapshot := {}, commited := commited, applied := 0
        stabled := st.ents.tail.length, firstIndex := 1, entries := st.ents.tail } := by
  have hlen : 0 < st.ents.length := List.length_pos_of_ne_nil st.entsPos
  have hfirst : st.firstIndex = 1 := by rw [MemoryStorage.firstIndex, hdummy]
  have hlast : st.lastIndex = st.ents.length - 1 := by
    rw [MemoryStorage.lastIndex, hdummy, Nat.zero_add]
  have hentries : st.entries 1 (st.ents.length - 1 + 1) = some st.ents.tail := by
    unfold MemoryStorage.entries
    dsimp only
    rw [hdummy, if_neg (by omega), if_pos (by omega), if_neg ?_]
    · rw [Nat.sub_zero, Nat.sub_add_cancel hlen, Nat.sub_zero, List.take_length, List.drop_one]
    · rw [List.length_drop, List.length_take]
      omega
  unfold RaftLog.new
  dsimp only
  rw [hfirst, hlast, hentries, List.length_tail]
  rfl

end RaftLog

namespace RawNode

open RaftLog RaftContext

/-- The calls of the application are regular. -/
def RegularAct (_ : RawNode) : Act → Prop
  | .call (.step m) _ => Regular m
  | _ => True

instance : ∀ n a, Decidable (RegularAct n a)
  | _, .call (.step m) _ => inferInstanceAs (Decidable (Regular m))
  | _, .call .tick _ => inferInstanceAs (Decidable True)
  | _, .ready _ => inferInstanceAs (Decidable True)

variable {n n' : RawNode} {rd : DReady} {c : Call} {rand : Nat} {m : Message}

theorem RegularAct.handled (h : RegularAct n (.call c rand)) (hm : Handled c m) : Regular m := by
  refine hm.regular fun m hc => ?_
  subst hc
  exact h

theorem Mirrors.call (h : n.raft.raftLog.Mirrors) (hok : RegularAct n (.call c rand))
    (hcall : n.call rand c = some n') : n'.raft.raftLog.Mirrors := by
  obtain ⟨m, hm, hcore, _⟩ := call_outcome (call_spec hcall).1
  have hregular := hok.handled hm
  rw [← observeTerm_raftLog n.raft m] at h
  exact h.step (hcore.fromOne h.fromOne hregular) (hcore.sameBase hregular.noSnapshot)
    (hcore.keepsStable h.fromOne.firstIndex h.stabled_le hregular)

/-- Saving what a cycle reads leaves the whole log stable and stored. -/
theorem Mirrors.save {l : RaftLog} (h : l.Mirrors) (hentries : rd.entries = l.entries.drop l.stabled) :
    (cycledLog saved l rd).Mirrors ∧ (cycledLog saved l rd).StoredIn (cycledLog saved l rd).storage := by
  have hents : (cycledLog saved l rd).storage.ents = l.storage.dummy :: l.entries := by
    show (l.storage.append rd.entries).1.ents = _
    rw [hentries]
    exact h.append_tail
  have hdummy : (cycledLog saved l rd).storage.dummy = l.storage.dummy := by
    simp only [MemoryStorage.dummy, hents, List.head_cons]
  have hstabled : (cycledLog saved l rd).stabled = l.entries.length := by
    show (rd.entries.getLast?.map Entry.index).getD l.stabled = _
    rw [hentries]
    exact last_drop_index h.fromOne.contiguous h.stabled_le
  have htail : (cycledLog saved l rd).storage.ents.tail = l.entries := by rw [hents, List.tail_cons]
  have hzero := h.fromOne.termZero
  rw [MemoryStorage.term_zero h.dummy] at hzero
  refine ⟨⟨⟨h.fromOne.firstIndex, h.fromOne.contiguous, fun hnil => ?_, ?_, ?_⟩, ?_, ?_, ?_, ?_⟩,
    htail, fun commited => ?_⟩
  · rw [MemoryStorage.lastIndex, hents, hdummy, h.dummy, show l.entries = [] from hnil]
    rfl
  · rw [MemoryStorage.term_zero (hdummy ▸ h.dummy), hdummy]
    exact hzero
  · exact (isEmptySnap_handedOut l.pendingSnapshot).trans h.fromOne.snapshot
  · rw [hdummy]
    exact h.dummy
  · exact hstabled.le
  · rw [htail]
    rfl
  · rw [htail, hstabled]
    exact fun hlt => hlt
  · refine ⟨_, new_of_one (hdummy ▸ h.dummy) commited, htail, h.fromOne.firstIndex.symm, ?_, ?_⟩
    · rw [htail, hstabled]
    · rw [lastIndex, lastIndex]
      dsimp only
      rw [htail]
      rfl

theorem Mirrors.cycle (h : n.raft.raftLog.Mirrors) (hcycle : n.cycle saved = some (rd, n')) :
    n'.raft.raftLog.Mirrors ∧ n'.raft.raftLog.StoredIn n'.raft.raftLog.storage := by
  have hcycled := cycle_eq_some.mp hcycle
  have hentries : rd.entries = n.raft.raftLog.entries.drop n.raft.raftLog.stabled :=
    Option.some.inj
      (hcycled.entries.symm.trans (unstableEntries_of_one h.fromOne.firstIndex h.stabled_le))
  obtain ⟨l, hl, hraft⟩ := hcycled.raft
  obtain ⟨hmirrors, hstored⟩ := Mirrors.save h hentries
  rw [cycledLog_maybeCompact h.fromOne.firstIndex hmirrors.dummy] at hl
  cases hl
  rw [hraft]
  exact ⟨hmirrors, hstored⟩

/-- In a mirrored log the only slice that can be undefined is that of `NextEnts`. -/
theorem Mirrors.cycle_defined (h : n.raft.raftLog.Mirrors)
    (hnext : n.raft.raftLog.nextEnts.isSome = true) : (n.cycle saved).isSome = true := by
  obtain ⟨committed, hcommitted⟩ := Option.isSome_iff_exists.mp hnext
  refine cycle_isSome (unstableEntries_of_one h.fromOne.firstIndex h.stabled_le) hcommitted ?_
  intro rd hrd
  exact ⟨_, cycledLog_maybeCompact h.fromOne.firstIndex (Mirrors.save h hrd).1.dummy⟩

/-- A node on an empty storage. -/
def onEmptyStorage (c : Config) : Prop := c.storage = .new

theorem Starts.mirrors (h : Starts onEmptyStorage n) : n.raft.raftLog.Mirrors := by
  obtain ⟨c, rand, te, pc, hstorage, h⟩ := h
  obtain ⟨raft, hraft, h⟩ := Option.bind_eq_some_iff.mp h
  cases h
  obtain ⟨l, applied, hl, hlog⟩ := (new_spec hraft).raftLog
  rw [show c.storage = .new from hstorage] at hl
  cases hl
  rw [hlog]
  exact ⟨⟨rfl, nofun, fun _ => rfl, rfl, rfl⟩, rfl, le_rfl, rfl, fun hlt => hlt⟩

/-- The runs of a node on an empty storage whose application saves every `rd.entries`. -/
abbrev SavedRun := Run (Starts onEmptyStorage) (Next saved RegularAct)

theorem SavedRun.mirrors {moves : List (Move RawNode Act)} (hrun : SavedRun moves n) :
    n.raft.raftLog.Mirrors := by
  refine Run.induct (I := fun _ n => n.raft.raftLog.Mirrors) (fun n h => h.mirrors) ?_ hrun
  intro _ n a n' _ h hnext
  obtain ⟨hok, hnext⟩ := hnext
  cases a with
  | call c rand => exact Mirrors.call h hok hnext
  | ready rd => exact (Mirrors.cycle h hnext).1

/-- **The storage mirrors the log.** After every cycle of a run the storage holds the entries of the
log, and a log that is built from it is the one in memory. A cycle is defined whenever `NextEnts`
is. -/
theorem stable_storage_mirrors_log {moves : List (Move RawNode Act)} (hrun : SavedRun moves n) :
    (∀ move ∈ moves, ∀ rd, move.label = .ready rd →
      move.after.raft.raftLog.StoredIn move.after.raft.raftLog.storage) ∧
    (n.raft.raftLog.nextEnts.isSome = true → (n.cycle saved).isSome = true) := by
  refine ⟨?_, Mirrors.cycle_defined (SavedRun.mirrors hrun)⟩
  induction hrun with
  | start => exact fun _ hmem => absurd hmem List.not_mem_nil
  | step hrun hnext ih =>
      refine List.forall_mem_cons.mpr ⟨?_, ih⟩
      intro rd hrd
      cases hrd
      exact (Mirrors.cycle (SavedRun.mirrors hrun) hnext.2).2

/-- A follower saves two entries, and later a third one that conflicts with the second. -/
theorem stable_storage_mirrors_log_conflict : ∃ moves n, SavedRun moves n ∧
    n.raft.raftLog.entries.map Entry.term = [1, 2] ∧
    ∀ move ∈ moves, ∀ rd, move.label = .ready rd →
      move.after.raft.raftLog.StoredIn move.after.raft.raftLog.storage := by
  have hplay : ((new firstOfThree 0 0 NONE).bind (play (turn saved RegularAct)
      [some (.step { msgType := .msgAppend, fromId := 2, toId := 1, term := 1
                     entries := [{ term := 1, index := 1 }, { term := 1, index := 2 }] }),
       none,
       some (.step { msgType := .msgAppend, fromId := 3, toId := 1, term := 2, logTerm := 1, index := 1
                     entries := [{ term := 2, index := 2 }] }),
       none] [])).any (fun r => r.2.raft.raftLog.entries.map Entry.term == [1, 2]) = true := by
    decide +kernel
  have hconfig : onEmptyStorage firstOfThree := rfl
  obtain ⟨moves, n, hrun, hp⟩ := exists_script_run hconfig _ hplay
  exact ⟨moves, n, hrun, beq_iff_eq.mp hp, (stable_storage_mirrors_log hrun).1⟩

end RawNode

end Eraft
