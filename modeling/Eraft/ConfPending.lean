import Eraft.NodePending
import Eraft.ConfNext
import Eraft.ReadyStable

/-! Configuration changes in a cluster whose members change. Every node is driven by an application that
applies the configuration changes it reads, and messages leave a node only through what its
application reads. Nothing is said about who the members are: a node may be built with any peers, and
the data of an entry may decode to any change. -/

open Std Runs

namespace Eraft

namespace RawNode

open RaftLog RaftContext

variable (decode : Bytes → ConfChange)

/-- The application applies the configuration changes among the entries. -/
def applyCommitted : List Entry → RawNode → Option RawNode
  | [], n => some n
  | e :: es, n =>
      if e.isConf then do
        let (_, n) ← n.applyConfChange (decode e.data)
        applyCommitted es n
      else applyCommitted es n

/-- `rd = EReady(); …; Advance(rd)`. In between the application applies what is committed and writes its
storage, which is `st` then. -/
def confCycle (st : MemoryStorage) (n : RawNode) : Option (DReady × RawNode) := do
  let (rd, n) ← n.eReady
  let n ← applyCommitted decode rd.committedEntries (n.withStorage st)
  let n ← n.advance rd
  return (rd, n)

variable {decode} {n n' n'' : RawNode} {rd : DReady} {st : MemoryStorage} {cc : ConfChange}
  {confState : ConfState}

/-- What configuration changes leave alone. A leader may commit more, and says so to its peers. -/
structure Reconfigured (n n' : RawNode) : Prop where
  state : n'.raft.state = n.raft.state
  raftLog : ∃ commited, n'.raft.raftLog = { n.raft.raftLog with commited := commited }
  msgs : ∀ x ∈ n'.raft.msgs, x ∈ n.raft.msgs ∨ ∃ s commited, AppendOf s x ∧
    s.raftLog = { n.raft.raftLog with commited := commited }

theorem Reconfigured.refl (n : RawNode) : Reconfigured n n := ⟨rfl, ⟨_, rfl⟩, fun _ => .inl⟩

theorem Reconfigured.trans (h : Reconfigured n n') (h' : Reconfigured n' n'') : Reconfigured n n'' := by
  obtain ⟨commited, hlog⟩ := h.raftLog
  obtain ⟨commited', hlog'⟩ := h'.raftLog
  refine ⟨h'.state.trans h.state, ⟨commited', by rw [hlog', hlog]⟩, fun x hx => ?_⟩
  rcases h'.msgs x hx with hx | ⟨s, k, hs, hslog⟩
  · exact h.msgs x hx
  · exact .inr ⟨s, k, hs, by rw [hslog, hlog]⟩

theorem applyConfChange_reconfigured (h : n.applyConfChange cc = some (confState, n')) :
    Reconfigured n n' ∧ n'.raft.pendingConfIndex = NONE := by
  have hsame : ∀ {s : RaftContext}, n'.raft = s → s.state = n.raft.state → s.raftLog = n.raft.raftLog →
      s.msgs = n.raft.msgs → Reconfigured n n' := by
    rintro s rfl hstate hlog hmsgs
    exact ⟨hstate, ⟨_, hlog⟩, fun x hx => .inl (hmsgs ▸ hx)⟩
  rcases applyConfChange_spec h with ⟨_, hraft⟩ | ⟨_, hraft⟩
  · obtain ⟨_, hlog, hmsgs⟩ := addNode_core n.raft cc.nodeId
    refine ⟨hsame hraft (addNode_state _ _) hlog hmsgs, ?_⟩
    rw [hraft]
    rfl
  · cases hpr : n.raft.progress cc.nodeId with
    | none =>
        rw [removeNode_of_none hpr] at hraft
        have hraft := (Option.some.inj hraft).symm
        exact ⟨hsame hraft rfl rfl rfl, by rw [hraft]⟩
    | some pr =>
        rw [removeNode_of_some hpr] at hraft
        obtain ⟨s, hs, hraft⟩ := Option.map_eq_some_iff.mp hraft
        refine ⟨?_, by rw [← hraft]⟩
        split_ifs at hs
        · rcases leaderCommit_spec hs with rfl | ⟨k, ms, _, rfl, hms⟩
          · exact hsame hraft.symm rfl rfl rfl
          · refine ⟨by rw [← hraft]; rfl, ⟨k, by rw [← hraft]; rfl⟩, fun x hx => ?_⟩
            rw [← hraft] at hx
            rcases List.mem_append.mp hx with hx | hx
            · exact .inl hx
            · exact .inr ⟨_, k, (hms x hx).1, rfl⟩
        · cases hs
          exact hsame hraft.symm rfl rfl rfl

/-- After any configuration change nothing counts as pending. -/
theorem applyCommitted_reconfigured {es : List Entry} (h : applyCommitted decode es n = some n') :
    Reconfigured n n' ∧
      n'.raft.pendingConfIndex = if es.filter Entry.isConf = [] then n.raft.pendingConfIndex else NONE := by
  induction es generalizing n with
  | nil =>
      cases h
      exact ⟨.refl _, rfl⟩
  | cons e es ih =>
      unfold applyCommitted at h
      split_ifs at h with hconf
      · obtain ⟨⟨confState, n₁⟩, hfirst, h⟩ := Option.bind_eq_some_iff.mp h
        obtain ⟨hn₁, hnone⟩ := applyConfChange_reconfigured hfirst
        obtain ⟨hn', hpending⟩ := ih h
        refine ⟨hn₁.trans hn', ?_⟩
        rw [List.filter_cons_of_pos hconf, if_neg (List.cons_ne_nil _ _), hpending, hnone, ite_self]
      · obtain ⟨hn', hpending⟩ := ih h
        refine ⟨hn', ?_⟩
        rw [List.filter_cons_of_neg hconf, hpending]

/-- What such a cycle reads and leaves, on a log from index 1 on. -/
structure Served (st : MemoryStorage) (n : RawNode) (rd : DReady) (n' : RawNode) : Prop where
  committedEntries : n.raft.raftLog.nextEnts = some rd.committedEntries
  messages : rd.messages = n.raft.msgs
  state : n'.raft.state = n.raft.state
  raftLog : ∃ commited stabled, n'.raft.raftLog =
    { n.raft.raftLog with
      storage := st, pendingSnapshot := handedOut n.raft.raftLog.pendingSnapshot, commited := commited
      stabled := stabled
      applied := (rd.committedEntries.getLast?.map Entry.index).getD n.raft.raftLog.applied }
  pending : n'.raft.pendingConfIndex =
    if rd.committedEntries.filter Entry.isConf = [] then n.raft.pendingConfIndex else NONE
  msgs : ∀ x ∈ n'.raft.msgs, ∃ s commited, AppendOf s x ∧ s.raftLog =
    { n.raft.raftLog with
      storage := st, pendingSnapshot := handedOut n.raft.raftLog.pendingSnapshot, commited := commited }

theorem eReady_spec (h : n.eReady = some (rd, n')) :
    n.raft.raftLog.nextEnts = some rd.committedEntries ∧ rd.messages = n.raft.msgs ∧
      n' = { n with raft := { n.raft with msgs := [], raftLog :=
        { n.raft.raftLog with pendingSnapshot := handedOut n.raft.raftLog.pendingSnapshot } } } := by
  unfold eReady at h
  simp only [Option.bind_eq_bind, Option.bind_eq_some_iff] at h
  obtain ⟨entries, _, committed, hcommitted, h⟩ := h
  unfold handedOut
  split_ifs at h ⊢ <;> cases h <;> exact ⟨hcommitted, rfl, rfl⟩

theorem confCycle_served (hfirst : n.raft.raftLog.firstIndex = 1) (hst : st.dummy.index = 0)
    (h : confCycle decode st n = some (rd, n')) : Served st n rd n' := by
  unfold confCycle at h
  simp only [Option.bind_eq_bind, Option.bind_eq_some_iff] at h
  obtain ⟨⟨rd', n₁⟩, hready, n₂, happly, n₃, hadvance, h⟩ := h
  cases h
  obtain ⟨hcommitted, hmsgs, rfl⟩ := eReady_spec hready
  obtain ⟨hkept, hpending⟩ := applyCommitted_reconfigured happly
  obtain ⟨commited, hlog⟩ := hkept.raftLog
  have hcompact : (advanceLog n₂.raft.raftLog rd').maybeCompact = some (advanceLog n₂.raft.raftLog rd') := by
    refine maybeCompact_of_one ?_ ?_
    · rw [hlog]
      exact hfirst
    · rw [hlog]
      exact hst
  unfold advance at hadvance
  rw [hcompact, hlog] at hadvance
  cases hadvance
  refine ⟨hcommitted, hmsgs, hkept.state, ⟨commited, _, rfl⟩, hpending, fun x hx => ?_⟩
  rcases hkept.msgs x hx with hx | hx
  · exact absurd hx List.not_mem_nil
  · exact hx

end RawNode

/-! ### One node of the cluster -/

namespace RaftLog

variable {l : RaftLog}

theorem nextEnts_inv {es : List Entry} (hfirst : l.firstIndex = 1) (h : l.nextEnts = some es) :
    (l.entries = [] ∧ es = []) ∨ (l.applied ≤ l.commited ∧ l.commited ≤ l.entries.length ∧
      es = (l.entries.take l.commited).drop l.applied) := by
  unfold nextEnts at h
  dsimp only [offsetBehind] at h
  rw [hfirst, u64Sub_of_le (Nat.le_add_left _ _), u64Sub_of_le (Nat.le_add_left _ _), Nat.add_sub_cancel,
    Nat.add_sub_cancel] at h
  split_ifs at h with hpos hbounds
  · exact .inr ⟨hbounds.1, hbounds.2, (Option.some.inj h).symm⟩
  · exact .inl ⟨List.length_eq_zero_iff.mp (Nat.eq_zero_of_not_pos hpos), (Option.some.inj h).symm⟩

/-- The application leaves the storage `st` behind: it does not compact it, and writes no entry that the
log does not have. -/
structure WrittenTo (l : RaftLog) (st : MemoryStorage) : Prop where
  dummy : st.dummy = l.storage.dummy
  empty : l.entries = [] → st.lastIndex = l.storage.lastIndex

end RaftLog

namespace RaftContext

open RaftLog

variable {s s' : RaftContext} {m x : Message} {rand : Nat} {c : Call}

/-- The messages that the nodes of such a cluster handle. -/
structure Ordinary (m : Message) : Prop where
  regular : Regular m
  noConfChange : m.msgType ≠ .msgEntryConfChange

/-- A message that carries no entries, nor asks for any to be taken. -/
def carriesNone : MessageType → Bool
  | .msgAppend | .msgPropose | .msgSnapshot | .msgEntryConfChange => false
  | _ => true

theorem Ordinary.of_type (h : carriesNone m.msgType = true) : Ordinary m := by
  refine ⟨⟨fun hm => ?_, fun hm => ?_, fun hm => ?_⟩, fun hm => ?_⟩ <;>
    · rw [hm] at h
      cases h

theorem Sent.ordinary (h : Sent s m s' x) (hlog : s'.raftLog.FromOne) (hm : Ordinary m) : Ordinary x := by
  cases h with
  | append hx => exact ⟨hx.regular hlog, fun hty => by cases hx.msgType.symm.trans hty⟩
  | heartbeat hx | requestVote hx | grant _ _ hx | refuse hx | accept _ hx | stale hx
  | beyond _ _ _ _ hx | conflict _ _ _ _ _ _ _ _ hx | heartbeatResponse hx | timeoutNow hx =>
      exact .of_type (by rw [hx]; rfl)
  | transfer hm' hx => exact .of_type (by rw [hx, hm']; rfl)
  | confChange hm' => exact absurd hm' hm.noConfChange
  | snapshot hm' => exact absurd hm' hm.regular.noSnapshot

/-- What holds of every node at all times. -/
structure Steady (s : RaftContext) : Prop where
  fromOne : s.raftLog.FromOne
  dummy : s.raftLog.storage.dummy.index = 0
  leads : s.state = .stateLeader → s.Tracked
  sent : ∀ x ∈ s.msgs, Ordinary x

theorem Steady.call (h : Steady s) (hm : ∀ m, c = .step m → Ordinary m) (hok : s.Tracks c)
    (hcall : s.call rand c = some s') : Steady s' := by
  have hregular : ∀ m, c = .step m → Regular m := fun m hc => (hm m hc).regular
  obtain ⟨m, hhandled, hcore, ms, hmsgs, hsent⟩ := call_outcome hcall
  have hm' : Ordinary m := by
    refine ⟨hhandled.regular hregular, ?_⟩
    cases hhandled with
    | hup => exact nofun
    | beat => exact nofun
    | step => exact (hm m rfl).noConfChange
    | ignored m hty => exact fun hconf => by cases hty.symm.trans hconf
  have hbase := hcore.sameBase hm'.regular.noSnapshot
  have hlog : s'.raftLog.FromOne := hcore.fromOne ((observeTerm_raftLog s m).symm ▸ h.fromOne) hm'.regular
  refine ⟨hlog, ?_, fun hlead => Tracked.call h.leads h.fromOne hregular hok hcall hlead, fun x hx => ?_⟩
  · rw [hbase.storage, observeTerm_raftLog]
    exact h.dummy
  · rw [hmsgs, observeTerm_msgs] at hx
    rcases List.mem_append.mp hx with hx | hx
    · exact h.sent x hx
    · exact (hsent x hx).ordinary hlog hm'

end RaftContext

namespace RawNode

open RaftLog RaftContext

variable {n n' : RawNode} {rd : DReady} {st : MemoryStorage}

/-- A cycle moves changes from the unapplied ones to the applied ones, and forgets the pending one if it
is among them. -/
theorem Served.tracked (h : Served st n rd n') (hn : n.raft.Tracked) (hlog : n.raft.raftLog.FromOne) :
    n'.raft.Tracked := by
  obtain ⟨commited, stabled, hl⟩ := h.raftLog
  have hentries : n'.raft.raftLog.entries = n.raft.raftLog.entries := by rw [hl]
  have happlied : n'.raft.raftLog.applied =
      (rd.committedEntries.getLast?.map Entry.index).getD n.raft.raftLog.applied := by rw [hl]
  rcases nextEnts_inv hlog.firstIndex h.committedEntries with ⟨_, hnil⟩ | ⟨hle, hlen, hes⟩
  · refine hn.of_entries hentries ?_ ?_
    · rw [happlied, hnil]
      rfl
    · rw [h.pending, hnil]
      rfl
  · have htake : (n.raft.raftLog.entries.take n.raft.raftLog.commited).length = n.raft.raftLog.commited := by
      rw [List.length_take, Nat.min_eq_left hlen]
    have hreached : n'.raft.raftLog.applied = n.raft.raftLog.commited := by
      rw [happlied, hes, last_drop_index (hlog.contiguous.take _) (by rw [htake]; exact hle), htake]
    have hsplit : n.raft.raftLog.unapplied =
        rd.committedEntries.filter Entry.isConf ++ n'.raft.raftLog.unapplied := by
      rw [unapplied_eq hlog.contiguous, unapplied_eq (hentries ▸ hlog.contiguous), hentries, hreached, hes,
        ← List.filter_append, ← List.drop_append_of_le_length (by rw [htake]; exact hle),
        List.take_append_drop]
    have hone := hn.one
    rw [hsplit, List.length_append] at hone
    refine ⟨?_, by omega, ?_⟩
    · rw [hreached, hentries]
      exact hlen
    · rw [h.pending]
      split_ifs with hnone
      · rw [hn.pending, hsplit, hnone, List.nil_append]
      · have hpos := List.length_pos_of_ne_nil hnone
        have hrest : n'.raft.raftLog.unapplied = [] := List.length_eq_zero_iff.mp (by omega)
        exact iff_of_false (fun hne => hne rfl) (fun hne => hne hrest)

theorem Served.steady (h : Served st n rd n') (hn : n.raft.Steady)
    (hst : n.raft.raftLog.WrittenTo st) : n'.raft.Steady ∧ ∀ x ∈ rd.messages, Ordinary x := by
  have hdummy : st.dummy.index = 0 := by rw [hst.dummy, hn.dummy]
  have hsnap : handedOut n.raft.raftLog.pendingSnapshot = n.raft.raftLog.pendingSnapshot :=
    if_pos hn.fromOne.snapshot
  have hzero : st.term 0 = (0, true) := by
    rw [MemoryStorage.term_zero hdummy, hst.dummy, ← MemoryStorage.term_zero hn.dummy, hn.fromOne.termZero]
  have hlog : ∀ l : RaftLog, l.firstIndex = n.raft.raftLog.firstIndex →
      l.entries = n.raft.raftLog.entries → l.storage = st →
      l.pendingSnapshot = handedOut n.raft.raftLog.pendingSnapshot → l.FromOne := by
    intro l hfirst hentries hstorage hpending
    refine ⟨hfirst.trans hn.fromOne.firstIndex, hentries ▸ hn.fromOne.contiguous, fun hnil => ?_,
      hstorage ▸ hzero, ?_⟩
    · rw [hentries] at hnil
      rw [hstorage, hst.empty hnil, hn.fromOne.empty hnil]
    · rw [hpending, hsnap]
      exact hn.fromOne.snapshot
  obtain ⟨commited, stabled, hl⟩ := h.raftLog
  refine ⟨⟨?_, ?_, fun hlead => h.tracked (hn.leads (h.state.symm.trans hlead)) hn.fromOne, ?_⟩, ?_⟩
  · rw [hl]
    exact hlog _ rfl rfl rfl rfl
  · rw [hl]
    exact hdummy
  · intro x hx
    obtain ⟨s, k, hs, hslog⟩ := h.msgs x hx
    refine ⟨hs.regular ?_, fun hty => by cases hs.msgType.symm.trans hty⟩
    rw [hslog]
    exact hlog _ rfl rfl rfl rfl
  · rw [h.messages]
    exact hn.sent

end RawNode

/-! ### Sending a proposal -/

namespace RaftContext

open RaftLog

variable {s s' : RaftContext} {e : Entry}

theorem NextInside.bcastAppend (h : s.NextInside) (hlog : s.raftLog.FromOne) :
    ∃ s', s.bcastAppend = some s' := by
  -- the state of the loop differs from `s` in the messages only
  have hloop : ∀ (keys : List Nat) (ms : List Message), (∀ p ∈ keys, p ∈ s.peers) → ∃ s',
      keys.foldlM (fun s peer => if peer = s.id then some s else s.sendAppend peer) (s.pushAll ms) =
        some s' := by
    intro keys
    induction keys with
    | nil => exact fun ms _ => ⟨_, rfl⟩
    | cons p keys ih =>
        intro ms hkeys
        obtain ⟨hp, hkeys⟩ := List.forall_mem_cons.mp hkeys
        rw [List.foldlM_cons]
        by_cases hid : p = s.id
        · rw [if_pos (show p = (s.pushAll ms).id from hid)]
          exact ih ms hkeys
        · have hpush : (s.pushAll ms).NextInside := h
          obtain ⟨s₁, hs₁⟩ := Option.isSome_iff_exists.mp (hpush.sendAppend hlog hp)
          obtain ⟨m, _, _, rfl⟩ := sendAppend_spec hs₁
          rw [if_neg (show ¬p = (s.pushAll ms).id from hid), hs₁, pushAll_pushAll]
          exact ih _ hkeys
  have hkeys : ∀ p ∈ s.prs.keys, p ∈ s.peers := by
    intro p hp
    rw [mem_peers]
    exact ExtTreeMap.mem_keys.mp hp
  obtain ⟨s', hs'⟩ := hloop s.prs.keys [] hkeys
  rw [pushAll_nil] at hs'
  exact ⟨s', hs'⟩

/-- A leader that can send to all its peers, itself among them, gets a proposal sent. -/
theorem NextInside.appendEntries (h : s.NextInside) (hid : s.id ∈ s.peers) (hlog : s.raftLog.FromOne) :
    ∃ s', s.appendEntries [e] = some s' := by
  obtain ⟨_, added, hcore, hlen, hadded⟩ := proposeLoop_spec s.raftLog.lastIndex [e] s
  unfold RaftContext.appendEntries
  generalize htaken : proposeLoop s.raftLog.lastIndex [e] s = t at hcore
  have hlog' : t.raftLog.FromOne := by
    rw [hcore.raftLog]
    match added, hlen, hadded with
    | [], _, _ => rw [List.append_nil]; exact hlog
    | [a], _, hadded =>
        exact hlog.concat (((hadded a (List.mem_singleton.mpr rfl)).2).trans (by rw [hlog.lastIndex_eq]))
  have hgrown : s.raftLog.lastIndex ≤ t.raftLog.lastIndex := by
    rw [hlog.lastIndex_eq, hlog'.lastIndex_eq, hcore.raftLog, List.length_append]
    exact Nat.le_add_right _ _
  have hpeers : t.peers = s.peers := by rw [peers, hcore.prs, peers]
  have hprogress : ∀ p, t.progress p = s.progress p := fun p => by rw [progress, hcore.prs, progress]
  have hself : t.id ∈ t.peers := by rw [hcore.id, hpeers]; exact hid
  obtain ⟨pr, hpr, _⟩ := h s.id hid
  have hpr' : t.progress t.id = some pr := by rw [hprogress, hcore.id, hpr]
  dsimp only [Option.bind_eq_bind]
  rw [hpr', Option.bind_some]
  let next : Progress := { matchIdx := t.raftLog.lastIndex, next := t.raftLog.lastIndex + 1 }
  have hset : (t.setProgress t.id next).NextInside := by
    intro p hp
    rw [peers_setProgress next hself, hpeers] at hp
    rw [progress_setProgress]
    split_ifs with hself
    · exact ⟨next, rfl, Nat.le_add_left _ _, le_rfl⟩
    · obtain ⟨pr, hpr, hlo, hhi⟩ := h p hp
      exact ⟨pr, (hprogress p).trans hpr, hlo, hhi.trans (Nat.succ_le_succ hgrown)⟩
  obtain ⟨s₁, hs₁⟩ := hset.bcastAppend hlog'
  rw [hs₁, Option.bind_some]
  obtain ⟨ms, rfl, _⟩ := bcastAppend_spec hs₁
  unfold commitAlone
  split_ifs
  · have hnext : ((t.setProgress t.id next).pushAll ms).progress ((t.setProgress t.id next).pushAll ms).id =
        some next := by
      show (t.setProgress t.id next).progress t.id = some next
      rw [progress_setProgress, if_pos rfl]
    rw [hnext]
    exact ⟨_, rfl⟩
  · exact ⟨_, rfl⟩

end RaftContext

/-! ### The cluster -/

structure ConfCluster where
  nodes : Nat → RawNode
  net : List Message

namespace ConfCluster

open RaftContext RawNode

/-- The message can reach the node `i`: its application makes it, or it was sent to the node. -/
def Arrives (net : List Message) (i : Nat) (m : Message) : Prop :=
  (m.term = NONE ∧ Cluster.fromApplication m.msgType = true ∧
    (m.msgType = .msgPropose → m.entries.length = 1)) ∨ (m ∈ net ∧ m.toId = i)

/-- The transitions of a cluster: a call on a node that satisfies `ok`, or a cycle of its application. -/
def Next (decode : Bytes → ConfChange) (ok : RaftContext → Call → Prop) (c : ConfCluster) (ev : Nat × Act)
    (c' : ConfCluster) : Prop :=
  let n := c.nodes ev.1
  ev.1 ≠ NONE ∧ match ev.2 with
  | .call k rand => ok n.raft k ∧ (∀ m, k = .step m → Arrives c.net ev.1 m) ∧
      ∃ n', n.call rand k = some n' ∧ c' = { c with nodes := Function.update c.nodes ev.1 n' }
  | .ready rd => ∃ st n', n.raft.raftLog.WrittenTo st ∧ n.confCycle decode st = some (rd, n') ∧
      c' = { nodes := Function.update c.nodes ev.1 n', net := c.net ++ rd.messages }

/-- Every node is built on a storage that was never compacted, with no change pending. -/
structure Booted (c : ConfCluster) : Prop where
  nodes : ∀ i, i ≠ NONE → ∃ config rand transferElapsed, config.id = i ∧
    RawNode.new config rand transferElapsed NONE = some (c.nodes i) ∧
    config.storage.dummy.index = 0 ∧ config.storage.dummy.term = 0 ∧ Contiguous config.storage.ents.tail
  net : c.net = []

variable {decode : Bytes → ConfChange} {c c' : ConfCluster} {moves : List (Move ConfCluster (Nat × Act))}

structure Inv (c : ConfCluster) : Prop where
  nodes : ∀ i, i ≠ NONE → (c.nodes i).raft.Steady
  net : ∀ m ∈ c.net, Ordinary m

theorem Booted.inv (h : Booted c) : Inv c := by
  refine ⟨fun i hi => ?_, fun m hm => absurd (h.net ▸ hm) List.not_mem_nil⟩
  obtain ⟨config, rand, te, _, hnew, hindex, hterm, hcont⟩ := h.nodes i hi
  obtain ⟨raft, hraft, hn⟩ := Option.bind_eq_some_iff.mp hnew
  have hinit := new_spec hraft
  have hsame : (c.nodes i).raft = raft := by rw [← Option.some.inj hn]
  obtain ⟨l, applied, hl, hlog⟩ := hinit.raftLog
  rw [RaftLog.new_of_one hindex] at hl
  cases hl
  rw [hsame]
  refine ⟨?_, ?_, fun hlead => ?_, fun x hx => ?_⟩
  · rw [hlog]
    refine ⟨rfl, hcont, fun hnil => ?_, ?_, rfl⟩
    · have hlen : config.storage.ents.tail.length = 0 := List.length_eq_zero_iff.mpr hnil
      rw [List.length_tail] at hlen
      show config.storage.lastIndex = 0
      rw [MemoryStorage.lastIndex, hindex, Nat.zero_add, hlen]
    · show config.storage.term 0 = (0, true)
      rw [MemoryStorage.term_zero hindex, hterm]
  · rw [hlog]
    exact hindex
  · cases hinit.state.symm.trans hlead
  · rw [hinit.msgs] at hx
    exact absurd hx List.not_mem_nil

theorem Arrives.ordinary {net : List Message} {i : Nat} {m : Message} (h : Arrives net i m)
    (hnet : ∀ m ∈ net, Ordinary m) : Ordinary m := by
  rcases h with ⟨_, happ, hone⟩ | ⟨hm, _⟩
  · refine ⟨⟨fun hty => ?_, hone, fun hty => ?_⟩, fun hty => ?_⟩ <;>
      · rw [hty] at happ
        cases happ
  · exact hnet m hm

theorem Inv.next {ev : Nat × Act} (h : Inv c) (hnext : Next decode Tracks c ev c') : Inv c' := by
  obtain ⟨i, a⟩ := ev
  obtain ⟨hi, hnext⟩ := hnext
  have hsteady := h.nodes i hi
  have hupdate : ∀ {n' : RawNode}, n'.raft.Steady →
      ∀ j, j ≠ NONE → (Function.update c.nodes i n' j).raft.Steady := by
    intro n' hn' j hj
    by_cases hij : j = i
    · rw [hij, Function.update_self]
      exact hn'
    · rw [Function.update_of_ne hij]
      exact h.nodes j hj
  cases a with
  | call k rand =>
      obtain ⟨hok, harrives, n', hcall, rfl⟩ := hnext
      exact ⟨hupdate (hsteady.call (fun m hm => (harrives m hm).ordinary h.net) hok (call_spec hcall).1),
        h.net⟩
  | ready rd =>
      obtain ⟨st, n', hst, hcycle, rfl⟩ := hnext
      have hdummy : st.dummy.index = 0 := by rw [hst.dummy, hsteady.dummy]
      have hserved := confCycle_served hsteady.fromOne.firstIndex hdummy hcycle
      obtain ⟨hn', hsent⟩ := hserved.steady hsteady hst
      refine ⟨hupdate hn', fun x hx => ?_⟩
      rcases List.mem_append.mp hx with hx | hx
      · exact h.net x hx
      · exact hsent x hx

/-- The entry that a proposed configuration change is appended as. -/
def confEntry (s : RaftContext) (data : Bytes) : Entry :=
  s.numbered { entryType := .entryConfChange, data := data }

/-- **One configuration change at a time.** A leader appends a proposed configuration change only if its
log holds none that is not applied yet, and it does append it then, unless it is handing over the
leadership or cannot send to a peer. -/
theorem one_change_at_a_time (hrun : Run Booted (Next decode Tracks) moves c) {i : Nat}
    (hi : i ≠ NONE) (hlead : (c.nodes i).raft.state = .stateLeader) (data : Bytes) (rand : Nat) :
    let s := (c.nodes i).raft
    (∀ n', (c.nodes i).proposeConfChange data rand = some n' →
      n'.raft.raftLog.entries ≠ s.raftLog.entries → s.raftLog.unapplied = []) ∧
    (s.leadTransferee = NONE → s.raftLog.unapplied = [] → s.NextInside → s.id ∈ s.peers →
      ∃ n', (c.nodes i).proposeConfChange data rand = some n' ∧
        n'.raft.raftLog.entries = s.raftLog.entries ++ [confEntry s data]) := by
  intro s
  have hinv : Inv c := Run.induct (I := fun _ c => Inv c) (fun _ h => h.inv)
    (fun _ _ _ _ _ h hnext => h.next hnext) hrun
  have hlog := (hinv.nodes i hi).fromOne
  have htracked := (hinv.nodes i hi).leads hlead
  let e : Entry := { entryType := .entryConfChange, data := data }
  have hstep : s.step { msgType := .msgPropose, entries := [e] } rand =
      if s.leadTransferee = NONE then s.appendEntries [e] else some s :=
    step_propose (by rw [observeTerm_none rfl]; exact hlead) rfl
  have hpropose : (c.nodes i).proposeConfChange data rand =
      (if s.leadTransferee = NONE then s.appendEntries [e] else some s).map
        fun raft => { c.nodes i with raft := raft } := by
    rw [← hstep, Option.map_eq_bind]
    rfl
  rw [hpropose]
  constructor
  · intro n' hn' hchanged
    obtain ⟨raft, hraft, rfl⟩ := Option.map_eq_some_iff.mp hn'
    split_ifs at hraft
    · cases appendEntries_takes hraft with
      | drop _ _ hentries => exact absurd hentries hchanged
      | record _ hnone => exact by_contra fun hne => htracked.pending.mpr hne hnone
      | plain hconf => cases hconf
    · cases hraft
      exact absurd rfl hchanged
  · intro htransfer hnone hinside hself
    rw [if_pos htransfer]
    obtain ⟨raft, hraft⟩ := hinside.appendEntries (e := e) hself hlog
    refine ⟨_, by rw [hraft]; rfl, ?_⟩
    cases appendEntries_takes hraft with
    | drop _ hpending => exact absurd hnone (htracked.pending.mp hpending)
    | record _ _ hentries => exact hentries
    | plain hconf => cases hconf

/-- What is to happen next. -/
inductive Turn where
  | hup (node : Nat)
  | change (node : Nat)
  /-- The latest message of this kind. -/
  | deliver (msgType : MessageType) (fromId toId : Nat)
  | ready (node : Nat)

instance (s : RaftContext) (m : Message) : Decidable (Current s m) := inferInstanceAs (Decidable (_ ∨ _))

instance (s : RaftContext) (m : Message) : Decidable (Wins s m) := inferInstanceAs (Decidable (_ ∨ _))

instance : ∀ s k, Decidable (Tracks s k)
  | s, .tick => inferInstanceAs (Decidable (s.state ≠ .stateLeader → s.prs.size = 1 →
      s.randomElectionTimeout ≤ s.electionElapsed + 1 → s.Tracked))
  | s, .step m => inferInstanceAs (Decidable ((Wins (s.observeTerm m) m → s.Tracked) ∧
      (m.msgType = .msgAppend → Current (s.observeTerm m) m → (s.observeTerm m).state ≠ .stateLeader)))

instance (s : RaftContext) : Decidable s.NextInside :=
  decidable_of_iff (∀ p ∈ s.peers, (s.progress p).any (fun pr =>
      decide (1 ≤ pr.next) && decide (pr.next ≤ s.raftLog.lastIndex + 1)) = true)
    (forall₂_congr fun p _ => by
      simp only [Option.any_eq_true, Bool.and_eq_true, decide_eq_true_eq])

/-- The message of a turn, with the node that gets it. -/
def Turn.message (c : ConfCluster) : Turn → Option (Nat × Message)
  | .hup node => some (node, { msgType := .msgHup })
  | .change node => some (node, { msgType := .msgPropose, entries := [{ entryType := .entryConfChange }] })
  | .deliver msgType fromId toId => (c.net.reverse.find? fun m => m.msgType == msgType &&
      (m.fromId == fromId && m.toId == toId)).map fun m => (toId, m)
  | .ready _ => none

instance (net : List Message) (i : Nat) (m : Message) : Decidable (Arrives net i m) :=
  inferInstanceAs (Decidable (_ ∨ _))

/-- The transition a turn stands for; a cycle leaves the storage as it is. -/
def turn (decode : Bytes → ConfChange) (ok : RaftContext → Call → Prop) [∀ s k, Decidable (ok s k)]
    (c : ConfCluster) (p : Turn) : Option ((Nat × Act) × ConfCluster) :=
  match p with
  | .ready i => if i ≠ NONE then
        ((c.nodes i).confCycle decode (c.nodes i).raft.raftLog.storage).map fun r =>
          ((i, .ready r.1), { nodes := Function.update c.nodes i r.2, net := c.net ++ r.1.messages })
      else none
  | p => (p.message c).bind fun r =>
      if r.1 ≠ NONE ∧ ok (c.nodes r.1).raft (.step r.2) ∧ Arrives c.net r.1 r.2 then
        ((c.nodes r.1).call 0 (.step r.2)).map fun n' =>
          ((r.1, .call (.step r.2) 0), { c with nodes := Function.update c.nodes r.1 n' })
      else none

theorem turn_spec {decode : Bytes → ConfChange} {ok : RaftContext → Call → Prop}
    [∀ s k, Decidable (ok s k)] (c : ConfCluster) (p : Turn) (ev : Nat × Act) (c' : ConfCluster)
    (h : turn decode ok c p = some (ev, c')) : Next decode ok c ev c' := by
  have hmessage : ((p.message c).bind fun r =>
      if r.1 ≠ NONE ∧ ok (c.nodes r.1).raft (.step r.2) ∧ Arrives c.net r.1 r.2 then
        ((c.nodes r.1).call 0 (.step r.2)).map fun n' =>
          ((r.1, Act.call (.step r.2) 0), { c with nodes := Function.update c.nodes r.1 n' })
      else none) = some (ev, c') → Next decode ok c ev c' := by
    intro h
    obtain ⟨⟨i, m⟩, _, h⟩ := Option.bind_eq_some_iff.mp h
    split_ifs at h with hok
    obtain ⟨n', hn', h⟩ := Option.map_eq_some_iff.mp h
    cases h
    refine ⟨hok.1, hok.2.1, fun m' hm' => ?_, n', hn', rfl⟩
    cases hm'
    exact hok.2.2
  cases p with
  | ready i =>
      unfold turn at h
      dsimp only at h
      split_ifs at h with hi
      obtain ⟨r, hr, h⟩ := Option.map_eq_some_iff.mp h
      cases h
      exact ⟨hi, _, r.2, ⟨rfl, fun _ => rfl⟩, hr, rfl⟩
  | hup _ => exact hmessage h
  | change _ => exact hmessage h
  | deliver _ _ _ => exact hmessage h

/-- A cluster of nodes that all know the first three. -/
def boot : ConfCluster where
  nodes := booted [1, 2, 3]
  net := []

theorem boot_booted : Booted boot := by
  refine ⟨fun i hi => ⟨Cluster.bootConfig [1, 2, 3] i, 0, 0, rfl, ?_, rfl, rfl, ?_⟩, rfl⟩
  · unfold RawNode.new
    rw [Cluster.bootNode_new _ hi]
    rfl
  · intro k e he
    cases he

theorem exists_turn_run {decode : Bytes → ConfChange} {ok : RaftContext → Call → Prop}
    [∀ s k, Decidable (ok s k)] (plays : List Turn)
    {test : List (Move ConfCluster (Nat × Act)) × ConfCluster → Bool}
    (h : (play (turn decode ok) plays [] boot).any test = true) :
    ∃ moves c, Run Booted (Next decode ok) moves c ∧ test (moves, c) = true :=
  exists_run_of_play turn_spec (some boot) (fun c hc => by cases hc; exact boot_booted) plays h

/-- The first node is elected with the vote of the second. -/
def electFirst : List Turn :=
  [.hup 1, .ready 1, .deliver .msgRequestVote 1 2, .ready 2, .deliver .msgRequestVoteResponse 2 1]

/-- The third node leaves. -/
def leave (_ : Bytes) : ConfChange := ⟨.removeNode, 3⟩

/-- The first node has had one configuration change committed and applied, and takes the next one. -/
theorem one_change_at_a_time_applied : ∃ moves c n', Run Booted (Next leave Tracks) moves c ∧
    (c.nodes 1).raft.prs.keys = [1, 2] ∧ (c.nodes 1).proposeConfChange [] 0 = some n' ∧
    n'.raft.raftLog.entries = (c.nodes 1).raft.raftLog.entries ++ [confEntry (c.nodes 1).raft []] := by
  have hplay : (play (turn leave Tracks) (electFirst ++ [.change 1, .ready 1, .deliver .msgAppend 1 2,
      .ready 2, .deliver .msgAppendResponse 2 1, .ready 1]) [] boot).any (fun r =>
        let s := (r.2.nodes 1).raft
        s.state == .stateLeader && (s.prs.keys == [1, 2] && (s.leadTransferee == NONE &&
          (s.raftLog.unapplied == [] && (decide s.NextInside && decide (s.id ∈ s.peers)))))) = true := by
    decide +kernel
  obtain ⟨moves, c, hrun, hp⟩ := exists_turn_run _ hplay
  simp only [Bool.and_eq_true, beq_iff_eq, decide_eq_true_eq] at hp
  obtain ⟨hlead, hkeys, htransfer, hnone, hinside, hself⟩ := hp
  obtain ⟨n', hn', hentries⟩ :=
    (one_change_at_a_time hrun (by decide) hlead [] 0).2 htransfer hnone hinside hself
  exact ⟨moves, c, n', hrun, hkeys, hn', hentries⟩

/-- The second node, elected with a configuration change in its log that is not applied, takes another
one. -/
theorem not_one_change_at_a_time_inherited : ∃ moves c n', Run Booted (Next leave fun _ _ => True) moves c ∧
    (c.nodes 2).raft.state = .stateLeader ∧ (c.nodes 2).proposeConfChange [] 0 = some n' ∧
    (c.nodes 2).raft.raftLog.unapplied.length = 1 ∧ n'.raft.raftLog.unapplied.length = 2 := by
  have hplay : (play (turn leave fun _ _ => True) (electFirst ++ [.change 1, .ready 1,
      .deliver .msgAppend 1 2, .hup 2, .ready 2, .deliver .msgRequestVote 2 3, .ready 3,
      .deliver .msgRequestVoteResponse 3 2]) [] boot).any (fun r =>
        (r.2.nodes 2).raft.state == .stateLeader &&
          ((r.2.nodes 2).raft.raftLog.unapplied.length == 1 &&
          ((r.2.nodes 2).proposeConfChange [] 0).any fun n' => n'.raft.raftLog.unapplied.length == 2)) =
      true := by
    decide +kernel
  obtain ⟨moves, c, hrun, hp⟩ := exists_turn_run _ hplay
  simp only [Bool.and_eq_true, beq_iff_eq, Option.any_eq_true] at hp
  obtain ⟨hlead, hone, n', hn', htwo⟩ := hp
  exact ⟨moves, c, n', hrun, hlead, hn', hone, htwo⟩

end ConfCluster

end Eraft
