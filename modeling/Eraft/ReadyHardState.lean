import Eraft.ReadyRun
import Eraft.NodeVote

/-! What a cycle reports of the hard state. `EReady` leaves `rd.hardSt` empty, so that `Advance` never
replaces the hard state the constructor has recorded: `HasReady` goes on comparing with that one. -/

open Std Runs

namespace Eraft

theorem isEmptyHardState_iff {st : HardState} : isEmptyHardState st = true ↔ st = {} := by
  obtain ⟨term, vote, commit⟩ := st
  simp only [isEmptyHardState, Bool.and_eq_true, beq_iff_eq, HardState.mk.injEq]
  tauto

namespace RaftLog

/-- The entries have consecutive indices from `firstIndex_` on, and `applied_`, `commited_` and
`stabled_` lie between the index in front of them and their last one. -/
structure InOrder (l : RaftLog) : Prop where
  contiguous : l.entries.map Entry.index = List.range' l.firstIndex l.entries.length
  stored : l.storage.firstIndex ≤ l.firstIndex
  applied : l.firstIndex ≤ l.applied + 1
  commited : l.applied ≤ l.commited
  commited_le : l.commited + 1 ≤ l.firstIndex + l.entries.length
  stabled : l.firstIndex ≤ l.stabled + 1
  stabled_le : l.stabled + 1 ≤ l.firstIndex + l.entries.length

instance (l : RaftLog) : Decidable l.InOrder :=
  decidable_of_iff (_ ∧ _ ∧ _ ∧ _ ∧ _ ∧ _ ∧ _)
    ⟨fun ⟨h₁, h₂, h₃, h₄, h₅, h₆, h₇⟩ => ⟨h₁, h₂, h₃, h₄, h₅, h₆, h₇⟩,
      fun ⟨h₁, h₂, h₃, h₄, h₅, h₆, h₇⟩ => ⟨h₁, h₂, h₃, h₄, h₅, h₆, h₇⟩⟩

end RaftLog

namespace RawNode

open RaftLog

/-- A hard state that differs from the recorded one, as `HasReady` tests it. -/
def HardStateUnsaved (n : RawNode) : Prop :=
  isEmptyHardState n.raft.hardState = false ∧ n.raft.hardState ≠ n.prevHardSt

/-- Cycles start on logs in order; calls are arbitrary. -/
def InOrderAct (n : RawNode) : Act → Prop
  | .call _ _ => True
  | .ready _ => n.raft.raftLog.InOrder

instance : ∀ n a, Decidable (InOrderAct n a)
  | _, .call _ _ => inferInstanceAs (Decidable True)
  | n, .ready _ => inferInstanceAs (Decidable n.raft.raftLog.InOrder)

/-- The hard state that was reported last, at first the one the node was built with. -/
def reported : List (Move RawNode Act) → RawNode → HardState
  | [], n => n.raft.hardState
  | move :: moves, _ => match move.label with
      | .ready rd => if isEmptyHardState rd.hardSt then reported moves move.before else rd.hardSt
      | .call _ _ => reported moves move.before

/-- In every cycle a hard state that has not been reported yet is. -/
def Reports : List (Move RawNode Act) → Prop
  | [] => True
  | move :: moves => Reports moves ∧ ∀ rd, move.label = .ready rd →
      move.before.raft.hardState ≠ reported moves move.before → rd.hardSt = move.before.raft.hardState

/-- The two nodes agree in what `HasReady` is about. -/
structure SameView (n n' : RawNode) : Prop where
  hardState : n'.raft.hardState = n.raft.hardState
  raftLog : n'.raft.raftLog = n.raft.raftLog
  msgs : n'.raft.msgs = n.raft.msgs

/-- After every cycle that leaves no snapshot behind, `HasReady` is false, and is still so in the state
`n` if nothing has changed since. -/
def Settles (moves : List (Move RawNode Act)) (n : RawNode) : Prop :=
  ∀ move ∈ moves, ∀ rd, move.label = .ready rd →
    isEmptySnap move.after.raft.raftLog.pendingSnapshot = true →
    move.after.hasReady = some false ∧ (SameView move.after n → n.hasReady = some false)

variable {n n' : RawNode} {rd : DReady} {moves : List (Move RawNode Act)}
  {config : Config → Prop} {ok : RawNode → Act → Prop} {save : Save}

theorem SameView.hasReady_eq (h : SameView n n') (hprev : n'.prevHardSt = n.prevHardSt) :
    n'.hasReady = n.hasReady := by
  unfold hasReady
  rw [h.hardState, h.raftLog, h.msgs, hprev]

/-- The recorded hard state never changes. -/
theorem Next.prevHardSt {a : Act} (h : Next save ok n a n') : n'.prevHardSt = n.prevHardSt := by
  cases a with
  | call c rand => exact (call_spec h.2).2
  | ready rd => exact (cycle_eq_some.mp h.2).prevHardSt

theorem run_prevHardSt (hrun : Run (Starts config) (Next save ok) moves n) :
    reported moves n = n.prevHardSt ∧ ∀ move ∈ moves, move.after.prevHardSt = n.prevHardSt := by
  induction hrun with
  | start h =>
      obtain ⟨c, rand, te, pc, _, h⟩ := h
      obtain ⟨raft, _, h⟩ := Option.bind_eq_some_iff.mp h
      cases h
      exact ⟨rfl, fun _ hmem => absurd hmem List.not_mem_nil⟩
  | @step moves n n' a hrun hnext ih =>
      have hprev := hnext.prevHardSt
      refine ⟨?_, List.forall_mem_cons.mpr ⟨rfl, fun move hmem => (ih.2 move hmem).trans hprev.symm⟩⟩
      rw [hprev, ← ih.1]
      cases a with
      | call c rand => rfl
      | ready rd =>
          have hempty : isEmptyHardState rd.hardSt = true := by
            rw [(cycle_eq_some.mp hnext.2).hardSt]
            rfl
          exact if_pos hempty

/-- On a log in order, `Advance` finds nothing to compact. -/
theorem Cycled.raft_eq (h : Cycled unsaved n rd n')
    (hstored : n.raft.raftLog.storage.firstIndex ≤ n.raft.raftLog.firstIndex) :
    n'.raft = { n.raft with msgs := [], raftLog := cycledLog unsaved n.raft.raftLog rd } := by
  obtain ⟨l, hl, hraft⟩ := h.raft
  have hcompact : (cycledLog unsaved n.raft.raftLog rd).maybeCompact =
      some (cycledLog unsaved n.raft.raftLog rd) := if_neg (Nat.not_lt.mpr hstored)
  rw [hraft, Option.some.inj (hcompact.symm.trans hl)]

/-- A cycle on a log in order reads all of it. -/
theorem Cycled.read_all (h : Cycled unsaved n rd n') (hlog : n.raft.raftLog.InOrder) :
    (cycledLog unsaved n.raft.raftLog rd).stabled + 1 =
        n.raft.raftLog.firstIndex + n.raft.raftLog.entries.length ∧
      (cycledLog unsaved n.raft.raftLog rd).applied = n.raft.raftLog.commited := by
  have hcontiguous := map_index_iff.mp hlog.contiguous
  obtain ⟨_, _, hap, hco, hcole, hst, hstle⟩ := hlog
  have hentries := Option.some.inj (h.entries.symm.trans (unstableEntries_of_le hst hstle))
  have hcommitted := Option.some.inj (h.committedEntries.symm.trans (nextEnts_of_le hap hco hcole))
  refine ⟨?_, ?_⟩
  · show (rd.entries.getLast?.map Entry.index).getD n.raft.raftLog.stabled + 1 = _
    rw [hentries]
    exact last_drop_index_succ hcontiguous (by omega) (by omega)
  · show (rd.committedEntries.getLast?.map Entry.index).getD n.raft.raftLog.applied = _
    have hlen : (n.raft.raftLog.entries.take
        (n.raft.raftLog.commited + 1 - n.raft.raftLog.firstIndex)).length =
        n.raft.raftLog.commited + 1 - n.raft.raftLog.firstIndex := by
      rw [List.length_take]
      omega
    have htake : ∀ i e, (n.raft.raftLog.entries.take
        (n.raft.raftLog.commited + 1 - n.raft.raftLog.firstIndex))[i]? = some e →
        e.index = n.raft.raftLog.firstIndex + i := by
      intro i e he
      rw [List.getElem?_take] at he
      split_ifs at he
      exact hcontiguous i e he
    have hlast := last_drop_index_succ htake (k := n.raft.raftLog.applied + 1 - n.raft.raftLog.firstIndex)
      (d := n.raft.raftLog.applied) (by omega) (by omega)
    rw [← hcommitted, hlen] at hlast
    omega

/-- **A cycle leaves nothing to report**, unless the hard state differs from the recorded one. -/
theorem Cycled.hasReady (h : Cycled unsaved n rd n') (hlog : n.raft.raftLog.InOrder)
    (hquiet : ¬n.HardStateUnsaved) (hsnap : isEmptySnap n'.raft.raftLog.pendingSnapshot = true) :
    n'.hasReady = some false := by
  obtain ⟨hstabled, happlied⟩ := h.read_all hlog
  have hcole := hlog.commited_le
  have hfirst : n.raft.raftLog.firstIndex ≤ n.raft.raftLog.commited + 1 :=
    hlog.applied.trans (Nat.succ_le_succ hlog.commited)
  have hentries : (cycledLog unsaved n.raft.raftLog rd).unstableEntries = some [] := by
    rw [unstableEntries_of_le (hstabled ▸ Nat.le_add_right _ _) hstabled.le, Option.some.injEq,
      List.drop_eq_nil_iff]
    show n.raft.raftLog.entries.length ≤
      (cycledLog unsaved n.raft.raftLog rd).stabled + 1 - n.raft.raftLog.firstIndex
    omega
  have hcommitted : (cycledLog unsaved n.raft.raftLog rd).nextEnts = some [] := by
    rw [nextEnts_of_le (happlied ▸ hfirst) happlied.le hcole, Option.some.injEq, List.drop_eq_nil_iff,
      happlied]
    exact List.length_take_le _ _
  have hraft := h.raft_eq hlog.stored
  have hhard : n'.raft.hardState = n.raft.hardState := by
    rw [hraft]
    rfl
  have hmsgs : n'.raft.msgs = [] := by rw [hraft]
  have hquiet' : ¬(isEmptyHardState n'.raft.hardState = false ∧ n'.raft.hardState ≠ n'.prevHardSt) := by
    rw [hhard, h.prevHardSt]
    exact hquiet
  unfold RawNode.hasReady
  rw [if_neg hquiet', hsnap, hmsgs, hraft, hentries, hcommitted]
  rfl

/-- A cycle reports the empty hard state: it misses exactly one that differs from the recorded one. -/
theorem Cycled.reports_iff (h : Cycled save n rd n') :
    (n.raft.hardState ≠ n.prevHardSt → rd.hardSt = n.raft.hardState) ↔ ¬n.HardStateUnsaved := by
  rw [h.hardSt, HardStateUnsaved, not_and_not_right, ← Bool.not_eq_true, isEmptyHardState_iff]
  constructor
  · intro hreport hne
    by_contra hprev
    exact hne (hreport hprev).symm
  · intro hquiet hprev
    by_contra hne
    exact hprev (hquiet fun hempty => hne hempty.symm)

theorem reports_iff (hrun : Run (Starts config) (Next save ok) moves n) :
    Reports moves ↔ ∀ move ∈ moves, ∀ rd, move.label = .ready rd → ¬move.before.HardStateUnsaved := by
  induction hrun with
  | start => exact iff_of_true trivial fun _ hmem => absurd hmem List.not_mem_nil
  | @step moves n n' a hrun hnext ih =>
      rw [List.forall_mem_cons, ← ih, and_comm]
      refine and_congr_right fun _ => forall_congr' fun rd => ?_
      rw [(run_prevHardSt hrun).1]
      refine imp_congr_right fun hlabel => ?_
      cases hlabel
      exact (cycle_eq_some.mp hnext.2).reports_iff

/-- **`Ready` and the hard state.** A run reports every change of the hard state and settles after each
cycle just if no cycle of it begins with a hard state other than the one the constructor recorded. -/
theorem ready_reports_hardState_iff
    (hrun : Run (Starts anyStart) (Next unsaved InOrderAct) moves n) :
    (Reports moves ∧ Settles moves n) ↔
      ∀ move ∈ moves, ∀ rd, move.label = .ready rd → ¬move.before.HardStateUnsaved := by
  rw [reports_iff hrun]
  refine and_iff_left_of_imp fun hquiet => ?_
  intro move hmem rd hlabel hsnap
  have hnext := hrun.next_of_mem move hmem
  rw [hlabel] at hnext
  have hsettled := (cycle_eq_some.mp hnext.2).hasReady hnext.1 (hquiet move hmem rd hlabel) hsnap
  refine ⟨hsettled, fun hview => ?_⟩
  rw [hview.hasReady_eq ((run_prevHardSt hrun).2 move hmem).symm, hsettled]

/-- The first of three nodes, restarted after it has voted for the second in term 1. -/
def restarted : Config :=
  { RaftContext.firstOfThree with storage := { MemoryStorage.new with hardState := { term := 1, vote := 2 } } }

/-- A follower gets an entry from the leader it has voted for, and saves it. -/
theorem ready_reports_hardState_iff_restarted : ∃ moves n,
    Run (Starts anyStart) (Next unsaved InOrderAct) moves n ∧ n.raft.raftLog.stabled = 1 ∧
    Reports moves ∧ Settles moves n := by
  have hplay : ((new restarted 0 0 NONE).bind (play (turn unsaved InOrderAct)
      [some (.step { msgType := .msgAppend, fromId := 2, toId := 1, term := 1
                     entries := [{ term := 1, index := 1 }] }), none] [])).any
      (fun r => r.2.raft.raftLog.stabled == 1 && r.1.all fun move =>
        isEmptyHardState move.before.raft.hardState || move.before.raft.hardState == move.before.prevHardSt)
      = true := by
    decide +kernel
  have hconfig : anyStart restarted := trivial
  obtain ⟨moves, n, hrun, hp⟩ := exists_script_run hconfig _ hplay
  rw [Bool.and_eq_true, beq_iff_eq, List.all_eq_true] at hp
  refine ⟨moves, n, hrun, hp.1, (ready_reports_hardState_iff hrun).mpr ?_⟩
  intro move hmem rd _ hunsaved
  rcases Bool.or_eq_true_iff.mp (hp.2 move hmem) with hempty | hsame
  · rw [hunsaved.1] at hempty
    cases hempty
  · exact hunsaved.2 (beq_iff_eq.mp hsame)

/-- A campaign changes the term and the vote; the next cycle reports neither, and `HasReady` stays
true after it. -/
theorem not_ready_reports_hardState_campaign : ∃ earlier before rd n,
    Run (Starts anyStart) (Next unsaved InOrderAct) (⟨before, .ready rd, n⟩ :: earlier) n ∧
    before.raft.hardState ≠ reported earlier before ∧ rd.hardSt ≠ before.raft.hardState ∧
    isEmptySnap n.raft.raftLog.pendingSnapshot = true ∧ n.hasReady = some true := by
  have hplay : ((new RaftContext.firstOfThree 0 0 NONE).bind (play (turn unsaved InOrderAct)
      [some (.step { msgType := .msgHup }), none] [])).any (fun r => lastCycle (fun before rd earlier =>
        before.raft.hardState != reported earlier before && (rd.hardSt != before.raft.hardState &&
          (isEmptySnap r.2.raft.raftLog.pendingSnapshot && r.2.hasReady == some true))) r.1) = true := by
    decide +kernel
  have hconfig : anyStart RaftContext.firstOfThree := trivial
  obtain ⟨moves, n, hrun, hp⟩ := exists_script_run hconfig _ hplay
  obtain ⟨before, rd, after, earlier, rfl, hp⟩ := lastCycle_inv hp
  obtain rfl : after = n := hrun.after_eq
  simp only [Bool.and_eq_true, bne_iff_ne, beq_iff_eq] at hp
  exact ⟨earlier, before, rd, after, hrun, hp⟩

end RawNode

end Eraft
