import Eraft.ReadyRun
import Eraft.NodeVote

/-! What a cycle hands out of a received snapshot. `EReady` clears the data of the pending snapshot but
not its metadata, by which `IsEmptySnap` judges, so that the snapshot is handed out again, without its
data, in every later cycle until a newer one is accepted. -/

open Std Runs

namespace Eraft

namespace RaftContext

variable {s s' : RaftContext} {m : Message} {rand : Nat}

theorem handleSnapshot_pendingSnapshot (s : RaftContext) (m : Message) :
    (s.handleSnapshot m).raftLog.pendingSnapshot =
      if s.raftLog.commited < m.snapshot.metadata.index then m.snapshot
      else s.raftLog.pendingSnapshot := by
  unfold handleSnapshot
  dsimp only
  by_cases hle : m.snapshot.metadata.index ≤ s.raftLog.commited
  · rw [if_pos hle, if_neg (Nat.not_lt.mpr hle)]
    rfl
  · rw [if_neg hle, if_pos (Nat.lt_of_not_le hle)]
    rfl

end RaftContext

namespace RawNode

open RaftLog RaftContext

/-- The snapshot that the node accepts in a call. -/
def accepted (n : RawNode) : Act → Option Snapshot
  | .call (.step m) _ =>
      if m.msgType = .msgSnapshot ∧ n.raft.raftLog.commited < m.snapshot.metadata.index then
        some m.snapshot
      else none
  | _ => none

/-- The snapshot that was accepted last since the latest cycle. -/
def due : List (Move RawNode Act) → Option Snapshot
  | [] => none
  | move :: moves => match move.label with
      | .ready _ => none
      | .call _ _ => (accepted move.before move.label).or (due moves)

/-- In every cycle `rd.snapshot` is the snapshot that is due, and empty if none is. -/
def HandsOutOnce : List (Move RawNode Act) → Prop
  | [] => True
  | move :: moves => HandsOutOnce moves ∧ ∀ rd, move.label = .ready rd → match due moves with
      | some sp => rd.snapshot = sp
      | none => isEmptySnap rd.snapshot = true

/-- No cycle follows one that has handed out a snapshot, unless a newer one was accepted in between. -/
def NoneRepeated : List (Move RawNode Act) → Prop
  | [] => True
  | move :: moves => NoneRepeated moves ∧ ∀ rd, move.label = .ready rd → due moves = none →
      ∀ earlier ∈ moves, accepted earlier.before earlier.label = none

variable {n n' : RawNode} {rd : DReady} {c : Call} {rand : Nat} {moves : List (Move RawNode Act)}
  {config : Config → Prop} {ok : RawNode → Act → Prop} {save : Save}

theorem call_pendingSnapshot (h : n.call rand c = some n') :
    n'.raft.raftLog.pendingSnapshot =
      (accepted n (.call c rand)).getD n.raft.raftLog.pendingSnapshot := by
  obtain ⟨hcall, _⟩ := call_spec h
  by_cases hsnap : ∃ m, c = .step m ∧ m.msgType = .msgSnapshot
  · obtain ⟨m, rfl, hm⟩ := hsnap
    have hinstall := Option.some.inj ((step_snapshot hm rand).symm.trans hcall)
    rw [← hinstall, handleSnapshot_pendingSnapshot, observeTerm_raftLog]
    dsimp only [accepted]
    by_cases hlt : n.raft.raftLog.commited < m.snapshot.metadata.index
    · rw [if_pos hlt, if_pos ⟨hm, hlt⟩, Option.getD_some]
    · rw [if_neg hlt, if_neg fun h => hlt h.2, Option.getD_none]
  · obtain ⟨m, hm, hcore, _⟩ := call_outcome hcall
    have hnone : accepted n (.call c rand) = none := by
      cases c with
      | tick => rfl
      | step m' => exact if_neg fun h => hsnap ⟨m', rfl, h.1⟩
    have hne : m.msgType ≠ .msgSnapshot := by
      cases hm with
      | hup => decide
      | beat => decide
      | step => exact fun h => hsnap ⟨m, rfl, h⟩
      | ignored m' hty => exact fun h => nomatch hty.symm.trans h
    rw [hnone, Option.getD_none, (hcore.sameBase hne).pendingSnapshot, observeTerm_raftLog]

theorem accepted_not_empty {a : Act} {sp : Snapshot} (h : accepted n a = some sp) :
    isEmptySnap sp = false := by
  unfold accepted at h
  split at h
  · split_ifs at h with hlt
    cases h
    simp only [isEmptySnap, beq_eq_false_iff_ne]
    omega
  · cases h

theorem maybeCompact_pendingSnapshot {l l' : RaftLog} (h : l.maybeCompact = some l') :
    l'.pendingSnapshot = l.pendingSnapshot := by
  unfold maybeCompact at h
  dsimp only at h
  split_ifs at h <;> cases h <;> rfl

/-- The pending snapshot is the one that is due, and was accepted at some time. -/
structure Handing (moves : List (Move RawNode Act)) (n : RawNode) : Prop where
  due : ∀ sp, due moves = some sp →
    n.raft.raftLog.pendingSnapshot = sp ∧ isEmptySnap sp = false
  never : isEmptySnap n.raft.raftLog.pendingSnapshot = true ↔
    ∀ move ∈ moves, accepted move.before move.label = none

theorem Handing.call (h : Handing moves n) (hcall : n.call rand c = some n') :
    Handing (⟨n, .call c rand, n'⟩ :: moves) n' := by
  have hpending := call_pendingSnapshot hcall
  cases hacc : accepted n (.call c rand) with
  | none =>
      rw [hacc, Option.getD_none] at hpending
      refine ⟨fun sp hsp => ?_, ?_⟩
      · have hdue : (accepted n (.call c rand)).or (RawNode.due moves) = some sp := hsp
        rw [hacc, Option.none_or] at hdue
        rw [hpending]
        exact h.due sp hdue
      · rw [hpending, h.never, List.forall_mem_cons]
        exact (and_iff_right hacc).symm
  | some sp =>
      rw [hacc, Option.getD_some] at hpending
      have hne := accepted_not_empty hacc
      refine ⟨fun sp' hsp' => ?_, ?_⟩
      · have hdue : (accepted n (.call c rand)).or (RawNode.due moves) = some sp' := hsp'
        rw [hacc, Option.some_or] at hdue
        cases hdue
        exact ⟨hpending, hne⟩
      · rw [hpending, hne, List.forall_mem_cons]
        refine iff_of_false Bool.false_ne_true fun hnone => ?_
        cases hacc.symm.trans hnone.1

theorem Handing.cycle (h : Handing moves n) (hcycle : n.cycle save = some (rd, n')) :
    Handing (⟨n, .ready rd, n'⟩ :: moves) n' := by
  obtain ⟨l, hl, hraft⟩ := (cycle_eq_some.mp hcycle).raft
  refine ⟨nofun, ?_⟩
  rw [hraft]
  show isEmptySnap l.pendingSnapshot = true ↔ _
  rw [maybeCompact_pendingSnapshot hl, List.forall_mem_cons]
  show isEmptySnap (handedOut n.raft.raftLog.pendingSnapshot) = true ↔ _
  rw [isEmptySnap_handedOut, h.never]
  exact (and_iff_right rfl).symm

theorem run_handing (hrun : Run (Starts config) (Next save ok) moves n) : Handing moves n := by
  refine Run.induct (I := Handing) ?_ ?_ hrun
  · rintro n ⟨c, rand, te, pc, _, h⟩
    obtain ⟨raft, hraft, h⟩ := Option.bind_eq_some_iff.mp h
    cases h
    obtain ⟨l, applied, hl, hlog⟩ := (new_spec hraft).raftLog
    refine ⟨nofun, iff_of_true ?_ fun _ hmem => absurd hmem List.not_mem_nil⟩
    rw [hlog]
    obtain ⟨entries, _, hl⟩ := Option.bind_eq_some_iff.mp hl
    cases hl
    rfl
  · intro moves n a n' _ h hnext
    cases a with
    | call c rand => exact h.call hnext.2
    | ready rd => exact h.cycle hnext.2

/-- **An accepted snapshot is handed out once**, with all its data, and no other one is, just as long
as no cycle follows the one that has handed it out before a newer snapshot is accepted. -/
theorem snapshot_handed_out_once_iff (hrun : Run (Starts anyStart) (Next unsaved fun _ _ => True) moves n) :
    HandsOutOnce moves ↔ NoneRepeated moves := by
  induction hrun with
  | start => exact Iff.rfl
  | @step moves n n' a hrun hnext ih =>
      have h := run_handing hrun
      refine and_congr ih (forall_congr' fun rd => imp_congr_right fun hlabel => ?_)
      cases hlabel
      have hsnapshot := (cycle_eq_some.mp hnext.2).snapshot
      cases hdue : due moves with
      | some sp =>
          obtain ⟨hpending, hne⟩ := h.due sp hdue
          refine iff_of_true ?_ nofun
          show rd.snapshot = sp
          rw [hsnapshot, hpending, if_neg (by rw [hne]; exact Bool.false_ne_true)]
      | none =>
          show isEmptySnap rd.snapshot = true ↔ _
          rw [← h.never, hsnapshot]
          split_ifs with hempty
          · exact iff_of_true rfl fun _ => hempty
          · exact iff_of_false hempty fun hnone => hempty (hnone rfl)

theorem noneRepeated_of_calls (h : ∀ move ∈ moves, move.label.read = none) : NoneRepeated moves := by
  induction moves with
  | nil => exact trivial
  | cons move moves ih =>
      obtain ⟨hcall, hcalls⟩ := List.forall_mem_cons.mp h
      refine ⟨ih hcalls, fun rd hlabel => ?_⟩
      rw [hlabel] at hcall
      cases hcall

/-- A snapshot of the state machine up to index 5. -/
def snapshotFive : Message :=
  { msgType := .msgSnapshot, fromId := 2, toId := 1, term := 1
    snapshot := { data := [7], metadata := { confState := { nodes := [1, 2, 3] }, index := 5, term := 1 } } }

/-- A snapshot arrives, and the next cycle hands it out. -/
theorem snapshot_handed_out_once_iff_first : ∃ moves n,
    Run (Starts anyStart) (Next unsaved fun _ _ => True) moves n ∧ HandsOutOnce moves ∧
    ∃ move ∈ moves, ∃ rd, move.label = .ready rd ∧ rd.snapshot = snapshotFive.snapshot := by
  have hplay : ((new firstOfThree 0 0 NONE).bind (play (turn unsaved fun _ _ => True)
      [some (.step snapshotFive), none] [])).any (fun r => lastCycle (fun _ rd earlier =>
        rd.snapshot == snapshotFive.snapshot && ((due earlier).isSome && earlier.all fun move =>
          move.label.read.isNone)) r.1) = true := by
    decide +kernel
  have hconfig : anyStart firstOfThree := trivial
  obtain ⟨moves, n, hrun, hp⟩ := exists_script_run hconfig _ hplay
  have honce := snapshot_handed_out_once_iff hrun
  obtain ⟨before, rd, after, earlier, rfl, hp⟩ := lastCycle_inv hp
  obtain ⟨hsnapshot, hp⟩ := Bool.and_eq_true_iff.mp hp
  obtain ⟨hdue, hcalls⟩ := Bool.and_eq_true_iff.mp hp
  refine ⟨_, n, hrun, honce.mpr ⟨noneRepeated_of_calls fun move hmove => ?_, fun _ _ hnone => ?_⟩,
    _, List.mem_cons_self, rd, rfl, beq_iff_eq.mp hsnapshot⟩
  · exact Option.isNone_iff_eq_none.mp (List.all_eq_true.mp hcalls move hmove)
  · rw [hnone] at hdue
    cases hdue

/-- The cycle after that hands it out again, without its data. -/
theorem not_snapshot_handed_out_once_twice : ∃ moves n,
    Run (Starts anyStart) (Next unsaved fun _ _ => True) moves n ∧ ¬HandsOutOnce moves := by
  have hplay : ((new firstOfThree 0 0 NONE).bind (play (turn unsaved fun _ _ => True)
      [some (.step snapshotFive), none, none] [])).any (fun r => lastCycle (fun _ rd earlier =>
        due earlier == none && (isEmptySnap rd.snapshot == false && rd.snapshot.data == [])) r.1) = true := by
    decide +kernel
  have hconfig : anyStart firstOfThree := trivial
  obtain ⟨moves, n, hrun, hp⟩ := exists_script_run hconfig _ hplay
  obtain ⟨before, rd, after, earlier, rfl, hp⟩ := lastCycle_inv hp
  obtain ⟨hdue, hp⟩ := Bool.and_eq_true_iff.mp hp
  obtain ⟨hne, _⟩ := Bool.and_eq_true_iff.mp hp
  refine ⟨_, n, hrun, fun h => ?_⟩
  have hempty := h.2 rd rfl
  rw [beq_iff_eq.mp hdue] at hempty
  cases (beq_iff_eq.mp hne).symm.trans hempty

end RawNode

end Eraft
