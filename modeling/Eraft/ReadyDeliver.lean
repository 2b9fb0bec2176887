import Eraft.ReadyStable

/-! A follower that is fed by leaders. What the application has read in all cycles together is the
committed part of the log, although later appends may cut the log behind it. -/

open Std Runs TermLog

namespace Eraft

theorem Contiguous.map_index {es : List Entry} (h : Contiguous es) :
    es.map Entry.index = List.range' 1 es.length :=
  map_index_iff.mpr fun i e he => (h i e he).trans (Nat.add_comm i 1)

namespace RaftContext

/-- A message as a leader sends it to a follower with the log `l`: an append has consecutive entries,
announces no commit index behind them and contradicts no committed entry. -/
structure Fitting (l : RaftLog) (m : Message) : Prop where
  msgType : m.msgType = .msgAppend ∨ m.msgType = .msgHeartbeat
  regular : Regular m
  commit : m.msgType = .msgAppend → m.commit ≤ u64Add m.index m.entries.length
  noConflict : m.msgType = .msgAppend → ∀ e ∈ m.entries, ∀ x ∈ l.entries,
    x.index = e.index → e.index ≤ l.commited → x.term = e.term

instance (l : RaftLog) (m : Message) : Decidable (Fitting l m) :=
  decidable_of_iff (_ ∧ _ ∧ _ ∧ _)
    ⟨fun h => ⟨h.1, h.2.1, h.2.2.1, h.2.2.2⟩,
      fun h => ⟨h.msgType, h.regular, h.commit, h.noConflict⟩⟩

variable {s s' : RaftContext} {m : Message}

/-- **An append that contradicts no committed entry keeps the committed part.** -/
theorem Accepts.take_commited (h : Accepts s m s') (hlog : s.raftLog.FromOne)
    (hm : Fitting s.raftLog m) (hco : s.raftLog.commited ≤ s.raftLog.entries.length) :
    s'.raftLog.entries.take s.raftLog.commited = s.raftLog.entries.take s.raftLog.commited := by
  have hreach : m.index ≤ s.raftLog.entries.length := hlog.lastIndex_eq ▸ h.reach
  have hlen : (s.raftLog.entries.take m.index).length = m.index := by
    rw [List.length_take, Nat.min_eq_left hreach]
  -- the entries of the message up to the commit index have the terms the log has there
  have hsplice : (splice Entry.term (s.raftLog.entries.drop m.index) m.entries).take
      (s.raftLog.commited - m.index) =
      (s.raftLog.entries.drop m.index).take (s.raftLog.commited - m.index) := by
    apply take_splice
    · rw [List.length_drop]
      omega
    · intro i hi e he
      have hlt : m.index + i < s.raftLog.entries.length := by omega
      have hindex := hm.regular.index_eq h.msgType i e he
      have hx := hlog.contiguous _ _ (List.getElem?_eq_getElem hlt)
      rw [List.getElem?_drop, List.getElem?_eq_getElem hlt, Option.map_some, Option.some.injEq]
      exact hm.noConflict h.msgType e (List.mem_of_getElem? he) _ (List.getElem_mem hlt)
        (hx.trans hindex.symm) (by omega)
  calc s'.raftLog.entries.take s.raftLog.commited
      = (s.raftLog.entries.take m.index ++
          splice Entry.term (s.raftLog.entries.drop m.index) m.entries).take s.raftLog.commited := by
        rw [h.entries_eq hlog (hm.regular.index_eq h.msgType)]
    _ = (s.raftLog.entries.take m.index ++ s.raftLog.entries.drop m.index).take s.raftLog.commited := by
        rw [List.take_append, List.take_append, hlen, hsplice]
    _ = s.raftLog.entries.take s.raftLog.commited := by rw [List.take_append_drop]

/-- The log reaches at least to the end of an accepted append. -/
theorem Accepts.le_length (h : Accepts s m s') (hlog : s.raftLog.FromOne) (hm : Regular m) :
    m.index + m.entries.length ≤ s'.raftLog.entries.length := by
  have hreach : m.index ≤ s.raftLog.entries.length := hlog.lastIndex_eq ▸ h.reach
  rw [h.entries_eq hlog (hm.index_eq h.msgType), List.length_append, List.length_take, Nat.min_eq_left hreach]
  exact Nat.add_le_add_left (length_le_splice _ _) _

theorem Accepts.commited_eq (h : Accepts s m s') :
    s'.raftLog.commited = if s.raftLog.commited < m.commit then
      min m.commit (u64Add m.index m.entries.length) else s.raftLog.commited := by
  obtain ⟨l, hl, hs'⟩ := h.merged
  rw [hs', followCommit, (appendLoop_sameBase hl).2]
  split_ifs
  · rfl
  · exact (appendLoop_sameBase hl).2

/-- What a follower does with an append or a heartbeat. -/
theorem CoreStep.fed (h : CoreStep s m s') (hm : m.msgType = .msgAppend ∨ m.msgType = .msgHeartbeat)
    (hstate : s.state = .stateFollower) :
    s'.state = .stateFollower ∧ (s'.raftLog = s.raftLog ∨ Accepts s m s') := by
  have hfall : (s.fallback m).state = .stateFollower := by
    rw [fallback_of_ne (by rw [hstate]; decide), hstate]
  have hother : ∀ {ty : MessageType}, m.msgType = ty → ty ≠ .msgAppend → ty ≠ .msgHeartbeat → False :=
    fun hty happ hbeat => hm.elim (fun h => happ (hty.symm.trans h)) fun h => hbeat (hty.symm.trans h)
  cases h with
  | same h => exact ⟨h.state.trans hstate, .inl h.raftLog⟩
  | follow _ _ h => exact ⟨h.state.trans hfall, .inl (h.raftLog.trans fallback_raftLog)⟩
  | append hacc h => exact ⟨h.state.trans hfall, .inr hacc⟩
  | campaign hm' | alone hm' =>
      rcases hm' with hm' | hm' <;> exact (hother hm' (by decide) (by decide)).elim
  | grant hm' | record hm' | lose hm' | win hm' | propose hm' | nack hm' | ack hm' | commit hm'
  | phantom hm' | snapshot hm' => exact (hother hm' (by decide) (by decide)).elim

end RaftContext

namespace RawNode

open RaftLog RaftContext

/-- The application of a follower delivers fitting messages and runs cycles. -/
def FedAct (n : RawNode) : Act → Prop
  | .call (.step m) _ => Fitting n.raft.raftLog m
  | .call .tick _ => False
  | .ready _ => True

instance : ∀ n a, Decidable (FedAct n a)
  | n, .call (.step m) _ => inferInstanceAs (Decidable (Fitting n.raft.raftLog m))
  | _, .call .tick _ => inferInstanceAs (Decidable False)
  | _, .ready _ => inferInstanceAs (Decidable True)

/-- A node on an empty storage that has applied nothing: `Config::applied` is only set at a restart. -/
def freshStart (c : Config) : Prop := c.storage = .new ∧ c.applied = 0

abbrev FedRun := Run (Starts freshStart) (Next unsaved FedAct)

/-- All committed entries that the application has read, in order. -/
def delivered : List (Move RawNode Act) → List Entry
  | [] => []
  | move :: moves => delivered moves ++ match move.label with
      | .ready rd => rd.committedEntries
      | .call _ _ => []

/-- The entries `es` are what the node has delivered so far. -/
structure Feeding (es : List Entry) (n : RawNode) : Prop where
  state : n.raft.state = .stateFollower
  fromOne : n.raft.raftLog.FromOne
  dummy : n.raft.raftLog.storage.dummy.index = 0
  stabled : n.raft.raftLog.stabled ≤ n.raft.raftLog.entries.length
  applied : n.raft.raftLog.applied ≤ n.raft.raftLog.commited
  commited : n.raft.raftLog.commited ≤ n.raft.raftLog.entries.length
  delivered : es = n.raft.raftLog.entries.take n.raft.raftLog.applied

variable {n n' : RawNode} {es : List Entry} {rd : DReady} {c : Call} {rand : Nat} {m : Message}
  {moves : List (Move RawNode Act)}

/-- A message that leaves the committed part alone leaves the delivered one alone. -/
theorem Feeding.step (h : Feeding es n) (hm : Fitting n.raft.raftLog m)
    (hcore : CoreStep (n.raft.observeTerm m) m n'.raft) : Feeding es n' := by
  have hlog : (n.raft.observeTerm m).raftLog = n.raft.raftLog := observeTerm_raftLog _ _
  have hstate : (n.raft.observeTerm m).state = .stateFollower := by
    unfold observeTerm
    split_ifs
    · rfl
    · exact h.state
  obtain ⟨hstate', hcases⟩ := hcore.fed hm.msgType hstate
  have hbase := hcore.sameBase hm.regular.noSnapshot
  have hfrom := hcore.fromOne (hlog ▸ h.fromOne) hm.regular
  rw [hlog] at hbase hcases
  rcases hcases with hsame | hacc
  · refine ⟨hstate', hfrom, ?_, ?_, ?_, ?_, ?_⟩ <;> rw [hsame]
    · exact h.dummy
    · exact h.stabled
    · exact h.applied
    · exact h.commited
    · exact h.delivered
  · have hkeep := hcore.keepsStable (hlog ▸ h.fromOne.firstIndex) (hlog ▸ h.stabled) hm.regular
    have htake := hacc.take_commited (hlog ▸ h.fromOne) (hlog ▸ hm) (hlog ▸ h.commited)
    have hreach := hacc.le_length (hlog ▸ h.fromOne) hm.regular
    have hcommit := hacc.commited_eq
    have hsum := u64Add_le m.index m.entries.length
    rw [hlog] at htake hcommit
    have hco := h.commited
    have hap := h.applied
    have hlen : n.raft.raftLog.commited ≤ n'.raft.raftLog.entries.length := by
      have hlength := congrArg List.length htake
      rw [List.length_take, List.length_take] at hlength
      omega
    refine ⟨hstate', hfrom, ?_, hkeep.stabled_le (hlog ▸ h.stabled), ?_, ?_, ?_⟩
    · rw [hbase.storage]
      exact h.dummy
    · rw [hbase.applied, hcommit]
      split_ifs
      · have := hm.commit hacc.msgType
        omega
      · exact hap
    · rw [hcommit]
      split_ifs
      · omega
      · exact hlen
    · calc es = n.raft.raftLog.entries.take n.raft.raftLog.applied := h.delivered
        _ = (n.raft.raftLog.entries.take n.raft.raftLog.commited).take n.raft.raftLog.applied := by
            rw [List.take_take, Nat.min_eq_left hap]
        _ = n'.raft.raftLog.entries.take n'.raft.raftLog.applied := by
            rw [← htake, List.take_take, Nat.min_eq_left hap, hbase.applied]

theorem Feeding.call (h : Feeding es n) (hok : FedAct n (.call c rand))
    (hcall : n.call rand c = some n') : Feeding es n' := by
  cases c with
  | tick => exact hok.elim
  | step m =>
      have hm : Fitting n.raft.raftLog m := hok
      obtain ⟨m', hm', hcore, _⟩ := call_outcome (call_spec hcall).1
      cases hm' with
      | step => exact h.step hm hcore
      | ignored _ hty => rcases hm.msgType with h | h <;> cases hty.symm.trans h

/-- A cycle delivers the rest of the committed part. -/
theorem Feeding.cycle (h : Feeding es n) (hcycle : n.cycle unsaved = some (rd, n')) :
    Feeding (es ++ rd.committedEntries) n' ∧ n'.raft.raftLog.applied = n'.raft.raftLog.commited := by
  have hcycled := cycle_eq_some.mp hcycle
  have hentries := Option.some.inj
    (hcycled.entries.symm.trans (unstableEntries_of_one h.fromOne.firstIndex h.stabled))
  have hcommitted := Option.some.inj
    (hcycled.committedEntries.symm.trans
      (nextEnts_of_one h.fromOne.firstIndex h.applied h.commited))
  have hlen : (n.raft.raftLog.entries.take n.raft.raftLog.commited).length = n.raft.raftLog.commited := by
    rw [List.length_take, Nat.min_eq_left h.commited]
  obtain ⟨l, hl, hraft⟩ := hcycled.raft
  rw [cycledLog_maybeCompact h.fromOne.firstIndex h.dummy] at hl
  cases hl
  have hstabled : (cycledLog unsaved n.raft.raftLog rd).stabled = n.raft.raftLog.entries.length := by
    show (rd.entries.getLast?.map Entry.index).getD n.raft.raftLog.stabled = _
    rw [hentries]
    exact last_drop_index h.fromOne.contiguous h.stabled
  have happlied : (cycledLog unsaved n.raft.raftLog rd).applied = n.raft.raftLog.commited := by
    show (rd.committedEntries.getLast?.map Entry.index).getD n.raft.raftLog.applied = _
    rw [hcommitted]
    exact (last_drop_index (h.fromOne.contiguous.take _) (hlen.symm ▸ h.applied)).trans hlen
  obtain ⟨raft', prevHardSt'⟩ := n'
  cases hraft
  refine ⟨⟨h.state, ⟨h.fromOne.firstIndex, h.fromOne.contiguous, h.fromOne.empty, h.fromOne.termZero, ?_⟩,
    h.dummy, hstabled.le, happlied.le, h.commited, ?_⟩, happlied⟩
  · exact (isEmptySnap_handedOut n.raft.raftLog.pendingSnapshot).trans h.fromOne.snapshot
  · show es ++ rd.committedEntries = n.raft.raftLog.entries.take (cycledLog unsaved n.raft.raftLog rd).applied
    calc es ++ rd.committedEntries
        = (n.raft.raftLog.entries.take n.raft.raftLog.commited).take n.raft.raftLog.applied ++
            (n.raft.raftLog.entries.take n.raft.raftLog.commited).drop n.raft.raftLog.applied := by
          rw [hcommitted, List.take_take, Nat.min_eq_left h.applied, h.delivered]
      _ = n.raft.raftLog.entries.take (cycledLog unsaved n.raft.raftLog rd).applied := by
          rw [List.take_append_drop, happlied]

theorem Starts.feeding (h : Starts freshStart n) : Feeding [] n := by
  obtain ⟨c, rand, te, pc, ⟨hstorage, happlied⟩, h⟩ := h
  obtain ⟨raft, hraft, h⟩ := Option.bind_eq_some_iff.mp h
  cases h
  have hlog := new_raftLog hraft happlied
  rw [hstorage] at hlog
  refine ⟨(new_spec hraft).state, ?_, ?_, ?_, ?_, ?_, ?_⟩ <;> rw [← Option.some.inj hlog]
  · exact ⟨rfl, nofun, fun _ => rfl, rfl, rfl⟩
  · rfl
  · exact le_rfl
  · exact le_rfl
  · exact le_rfl
  · rfl

theorem FedRun.feeding (hrun : FedRun moves n) : Feeding (delivered moves) n := by
  refine Run.induct (I := fun moves n => Feeding (delivered moves) n) (fun n h => h.feeding) ?_ hrun
  intro moves n a n' _ h hnext
  obtain ⟨hok, hnext⟩ := hnext
  cases a with
  | call c rand =>
      show Feeding (delivered moves ++ []) n'
      rw [List.append_nil]
      exact h.call hok hnext
  | ready rd => exact (h.cycle hnext).1

/-- Everything committed has been delivered, once and in order. -/
structure Delivered (moves : List (Move RawNode Act)) (n : RawNode) : Prop where
  all : delivered moves = n.raft.raftLog.entries.take n.raft.raftLog.commited
  indices : (delivered moves).map Entry.index = List.range' 1 n.raft.raftLog.commited

/-- **A follower delivers each committed entry exactly once, in order.** The slices that a cycle
reads are inside the log in every state, so that the cycle is always defined. -/
theorem committed_entries_delivered_once (hrun : FedRun moves n) :
    (∀ move rd, moves.head? = some move → move.label = .ready rd → Delivered moves n) ∧
    n.raft.raftLog.unstableEntries.isSome = true ∧ n.raft.raftLog.nextEnts.isSome = true ∧
    (n.cycle unsaved).isSome = true := by
  have h := FedRun.feeding hrun
  have hentries := unstableEntries_of_one h.fromOne.firstIndex h.stabled
  have hcommitted := nextEnts_of_one h.fromOne.firstIndex h.applied h.commited
  refine ⟨?_, Option.isSome_iff_exists.mpr ⟨_, hentries⟩, Option.isSome_iff_exists.mpr ⟨_, hcommitted⟩,
    cycle_isSome hentries hcommitted fun rd _ =>
      ⟨_, cycledLog_maybeCompact h.fromOne.firstIndex h.dummy⟩⟩
  intro move rd hhead hlabel
  have happlied : n.raft.raftLog.applied = n.raft.raftLog.commited := by
    cases hrun with
    | start => cases hhead
    | step hrun hnext =>
        cases hhead
        cases hlabel
        exact ((FedRun.feeding hrun).cycle hnext.2).2
  have hall := h.delivered
  rw [happlied] at hall
  refine ⟨hall, ?_⟩
  rw [hall, (h.fromOne.contiguous.take _).map_index, List.length_take, Nat.min_eq_left h.commited]

/-- Two entries arrive, of which one is committed; a conflicting append replaces the other and commits
it too. -/
theorem committed_entries_delivered_once_conflict : ∃ moves n, FedRun moves n ∧
    n.raft.raftLog.commited = 2 ∧ Delivered moves n := by
  have hplay : ((new firstOfThree 0 0 NONE).bind (play (turn unsaved FedAct)
      [some (.step { msgType := .msgAppend, fromId := 2, toId := 1, term := 1, commit := 1
                     entries := [{ term := 1, index := 1 }, { term := 1, index := 2 }] }),
       none,
       some (.step { msgType := .msgAppend, fromId := 3, toId := 1, term := 2, logTerm := 1, index := 1
                     entries := [{ term := 2, index := 2 }], commit := 2 }),
       some (.step { msgType := .msgHeartbeat, fromId := 3, toId := 1, term := 2 }),
       none] [])).any (fun r => r.2.raft.raftLog.commited == 2 && lastCycle (fun _ _ _ => true) r.1) = true := by
    decide +kernel
  have hconfig : freshStart firstOfThree := ⟨rfl, rfl⟩
  obtain ⟨moves, n, hrun, hp⟩ := exists_script_run hconfig _ hplay
  rw [Bool.and_eq_true, beq_iff_eq] at hp
  obtain ⟨hcommited, hcycle⟩ := hp
  obtain ⟨before, rd, after, earlier, rfl, _⟩ := lastCycle_inv hcycle
  exact ⟨_, n, hrun, hcommited, (committed_entries_delivered_once hrun).1 _ rd rfl rfl⟩

end RawNode

end Eraft
