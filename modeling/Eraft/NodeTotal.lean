import Eraft.NodePrompt
import Eraft.NodeStable

/-! When a call returns. `none` stands for undefined behaviour: a vector read outside its bounds, a null
`Progress`, a local that was never assigned. Each function returns if the progress map is complete and `next`
of every peer points into the log or right behind it; the two answers that move `next` and `match` of a peer
have to keep it that way. -/

open Std Quorum TermLog

namespace Eraft.RaftContext

variable {s s' t : RaftContext} {m : Message} {members : Finset Nat} {f rand : Nat}

/-- What the sending functions read: every peer has a progress, and its `next` is in the log or right
behind it. -/
structure Addressable (members : Finset Nat) (s : RaftContext) : Prop where
  complete : Complete members s
  log : s.raftLog.FromOne
  next : ∀ f pr, s.progress f = some pr → 0 < pr.next ∧ pr.next ≤ s.raftLog.entries.length + 1

theorem Addressable.of_core (h : Addressable members s) (hprs : s'.prs = s.prs)
    (hlog : s'.raftLog.FromOne) (hlen : s.raftLog.entries.length ≤ s'.raftLog.entries.length) :
    Addressable members s' := by
  refine ⟨h.complete.of_prs hprs, hlog, fun f pr hpr => ?_⟩
  rw [progress, hprs] at hpr
  obtain ⟨hpos, hle⟩ := h.next f pr hpr
  exact ⟨hpos, by omega⟩

theorem Addressable.pushAll (h : Addressable members s) (ms : List Message) :
    Addressable members (s.pushAll ms) := h.of_core rfl h.log le_rfl

theorem Addressable.setProgress (h : Addressable members s) (hf : f ∈ members) {pr : Progress}
    (hpos : 0 < pr.next) (hle : pr.next ≤ s.raftLog.entries.length + 1) :
    Addressable members (s.setProgress f pr) := by
  refine ⟨h.complete.setProgress hf pr, h.log, fun f' pr' hpr' => ?_⟩
  rw [progress_setProgress] at hpr'
  split_ifs at hpr' with heq
  · cases hpr'
    exact ⟨hpos, hle⟩
  · exact h.next f' pr' hpr'

theorem sendAppend_returns (h : Addressable members s) (hf : f ∈ members) :
    ∃ s', s.sendAppend f = some s' := by
  obtain ⟨pr, hpr⟩ := h.complete.progress f hf
  obtain ⟨hpos, hle⟩ := h.next f pr hpr
  have hprev : u64Sub pr.next 1 ≤ s.raftLog.entries.length := by
    rw [u64Sub_of_le hpos]
    omega
  unfold sendAppend
  rw [hpr, Option.bind_eq_bind, Option.bind_some]
  dsimp only
  rw [h.log.term_eq hprev]
  exact ⟨_, rfl⟩

theorem foldlM_sendAppend_returns (h : Addressable members s) (keys : List Nat)
    (hkeys : ∀ peer ∈ keys, peer ∈ members) :
    ∃ s', keys.foldlM (fun s peer => if peer = s.id then some s else s.sendAppend peer) s = some s' := by
  induction keys generalizing s with
  | nil => exact ⟨s, rfl⟩
  | cons peer keys ih =>
      obtain ⟨hpeer, hkeys⟩ := List.forall_mem_cons.mp hkeys
      rw [List.foldlM_cons]
      split_ifs with hself
      · exact ih h hkeys
      · obtain ⟨t, ht⟩ := sendAppend_returns h hpeer
        obtain ⟨x, _, _, rfl⟩ := sendAppend_spec ht
        rw [ht]
        exact ih (h.pushAll [x]) hkeys

theorem bcastAppend_returns (h : Addressable members s) : ∃ s', s.bcastAppend = some s' := by
  refine foldlM_sendAppend_returns h _ fun peer hpeer => ?_
  rw [← h.complete.peers, peers, List.mem_toFinset]
  exact hpeer

theorem commitAlone_returns (hc : Complete members s) (hself : s.id ∈ members) :
    ∃ s', s.commitAlone = some s' := by
  obtain ⟨pr, hpr⟩ := hc.progress _ hself
  unfold commitAlone
  rw [hpr]
  split_ifs <;> exact ⟨_, rfl⟩

/-! ### Elections -/

theorem Complete.leaderState_addressable (hc : Complete members s) (hlog : s.raftLog.FromOne) :
    Addressable members s.leaderState := by
  refine ⟨hc.leaderState, hlog.concat (by rw [noopEntry, hlog.lastIndex_eq]), fun f pr hpr => ?_⟩
  have hlen : s.leaderState.raftLog.entries.length = s.raftLog.lastIndex + 1 := by
    rw [hlog.lastIndex_eq]
    exact List.length_append
  rw [progress_leaderState] at hpr
  obtain ⟨pr₀, _, rfl⟩ := Option.map_eq_some_iff.mp hpr
  rw [hlen]
  split_ifs
  · exact ⟨Nat.succ_pos _, le_rfl⟩
  · exact ⟨Nat.succ_pos _, Nat.le_succ _⟩

theorem Complete.all_isSome (hc : Complete members s) :
    s.prs.toList.all (fun peer => peer.2.isSome) = true := by
  refine List.all_eq_true.mpr fun peer hpeer => ?_
  have hget := ExtTreeMap.mem_toList_iff_getElem?_eq_some.mp hpeer
  have hmem : peer.1 ∈ members := by
    rw [← hc.peers, mem_peers, ExtTreeMap.mem_iff_isSome_getElem?, hget]
    rfl
  obtain ⟨pr, hpr⟩ := hc.progress _ hmem
  rw [RaftContext.progress, hget] at hpr
  exact Option.isSome_of_eq_some hpr

theorem becomeLeader_returns (hc : Complete members s) (hlog : s.raftLog.FromOne) (hself : s.id ∈ members) :
    ∃ s', s.becomeLeader = some s' := by
  obtain ⟨t, ht⟩ := bcastAppend_returns (hc.leaderState_addressable hlog)
  obtain ⟨ms, rfl, _⟩ := bcastAppend_spec ht
  unfold becomeLeader
  rw [if_pos hc.all_isSome, ht]
  exact commitAlone_returns (hc.leaderState.of_prs rfl) hself

theorem doElection_returns (hc : Complete members s) (hlog : s.raftLog.FromOne) (hself : s.id ∈ members)
    (rand : Nat) : ∃ s', s.doElection rand = some s' := by
  unfold doElection
  dsimp only
  split_ifs
  · exact becomeLeader_returns (hc.of_prs rfl) hlog hself
  · have hterm := hlog.term_eq hlog.lastIndex_eq.le
    change ∃ s', (s.raftLog.term s.raftLog.lastIndex).bind _ = some s'
    rw [hterm]
    exact ⟨_, rfl⟩

theorem handleRequestVote_returns (hlog : s.raftLog.FromOne) (m : Message) (rand : Nat) :
    ∃ s', s.handleRequestVote m rand = some s' := by
  unfold handleRequestVote
  dsimp only
  rw [hlog.term_eq hlog.lastIndex_eq.le, Option.bind_eq_bind, Option.bind_some]
  split_ifs <;> exact ⟨_, rfl⟩

theorem handleRequestVoteResponse_returns (hc : Complete members s) (hlog : s.raftLog.FromOne)
    (hself : s.id ∈ members) (m : Message) : ∃ s', s.handleRequestVoteResponse m = some s' := by
  unfold handleRequestVoteResponse
  dsimp only
  split_ifs
  · exact ⟨_, rfl⟩
  · exact becomeLeader_returns (hc.of_prs rfl) hlog hself
  · exact ⟨_, rfl⟩
  · exact ⟨_, rfl⟩

theorem acceptAppend_returns (hlog : s.raftLog.FromOne) (hreach : m.index ≤ s.raftLog.entries.length)
    (hindex : ∀ i e, m.entries[i]? = some e → e.index = m.index + i + 1) :
    ∃ s', s.acceptAppend m = some s' := by
  have hrest : m.entries = m.entries.drop 0 := List.drop_zero.symm
  obtain ⟨stabled, hloop⟩ := appendLoop_splice hlog hrest hreach hindex
  unfold acceptAppend
  rw [hloop]
  exact ⟨_, rfl⟩

theorem rejectAppend_returns (hlog : s.raftLog.FromOne) (hreach : m.index ≤ s.raftLog.entries.length)
    (logTerm : Nat) : ∃ s', s.rejectAppend m logTerm = some s' := by
  unfold rejectAppend
  rw [hlog.toSliceIndex_succ]
  exact ⟨_, if_pos hreach⟩

theorem handleAppendEntries_returns (hlog : s.raftLog.FromOne)
    (hindex : ∀ i e, m.entries[i]? = some e → e.index = m.index + i + 1) (rand : Nat) :
    ∃ s', s.handleAppendEntries m rand = some s' := by
  unfold handleAppendEntries
  dsimp only
  split_ifs with hstale hbeyond hfirst
  · exact ⟨_, rfl⟩
  · exact ⟨_, rfl⟩
  · have hreach : m.index ≤ s.raftLog.entries.length := hlog.lastIndex_eq ▸ Nat.le_of_not_lt hbeyond
    change ∃ s', (s.raftLog.term m.index).bind _ = some s'
    rw [hlog.term_eq hreach, Option.bind_some]
    split_ifs
    · refine rejectAppend_returns ?_ ?_ _
      · exact hlog
      · exact hreach
    · refine acceptAppend_returns ?_ ?_ hindex
      · exact hlog
      · exact hreach
  · refine acceptAppend_returns ?_ ?_ hindex
    · exact hlog
    · exact hlog.lastIndex_eq ▸ Nat.le_of_not_lt hbeyond

/-! ### The leader -/

theorem commitThresh_lt (hpos : 0 < s.prs.size) : s.commitThresh < s.prs.size := by
  unfold commitThresh
  split_ifs with heven
  · rw [u64Sub_of_le (by omega)]
    omega
  · omega

theorem exists_sortedMatch (hc : Complete members s) {i : Nat} (hi : i < s.prs.size) :
    ∃ n, s.sortedMatch i = some n := by
  have hdefined : ∀ peer ∈ s.prs.toList, ∃ k, peer.2.map Progress.matchIdx = some k := by
    intro peer hpeer
    obtain ⟨pr, hpr⟩ := Option.isSome_iff_exists.mp (List.all_eq_true.mp hc.all_isSome peer hpeer)
    exact ⟨pr.matchIdx, by rw [hpr]; rfl⟩
  obtain ⟨matched, hmatched⟩ := exists_mapM hdefined
  obtain ⟨_, hlen⟩ := card_matchQuorum_eq hmatched 0
  refine ⟨_, sortedMatch_eq_some.mpr ⟨matched, hmatched, List.getElem?_eq_getElem ?_⟩⟩
  rw [List.length_insertionSort, hlen]
  exact hi

theorem leaderCommit_returns (h : Addressable members s) (hne : members.Nonempty)
    (hmatch : ∀ f ∈ members, s.matchOf f ≤ s.raftLog.entries.length) :
    ∃ s', s.leaderCommit = some s' := by
  have hpos : 0 < s.prs.size := by
    rw [h.complete.size_eq]
    exact Finset.card_pos.mpr hne
  obtain ⟨n, hn⟩ := exists_sortedMatch h.complete (commitThresh_lt hpos)
  obtain ⟨f, hf, hle⟩ := sortedMatch_le_matchOf hn
  obtain ⟨matched, hmatched, hstat⟩ := sortedMatch_eq_some.mp hn
  have hterm := h.log.term_eq (hle.trans (hmatch f (h.complete.peers ▸ hf)))
  unfold commitThresh at hstat
  unfold leaderCommit
  rw [hmatched]
  simp only [Option.bind_eq_bind, Option.bind_some]
  rw [hstat]
  simp only [Option.bind_some, hterm]
  split_ifs
  · exact bcastAppend_returns (h.of_core rfl h.log.commit le_rfl)
  · exact ⟨_, rfl⟩
  · exact ⟨_, rfl⟩

/-- What a leader can be answered: an acknowledgement of what is in its log, or a rejection whose index is in
the log or right behind it and whose hint is of an earlier term than the last entry. -/
structure Answerable (s : RaftContext) (m : Message) : Prop where
  ack : m.reject = false → m.index ≤ s.raftLog.entries.length
  nack : m.reject = true → m.index ≠ NONE → m.index ≤ s.raftLog.entries.length + 1 ∧
    (m.logTerm ≠ NONE → m.logTerm < lastTerm Entry.term s.raftLog.entries)

/-- The last entry is of a later term than the hint, so that the search of the leader ends there. -/
theorem lastIdx_of_lt_lastTerm {es : List Entry} {k : Nat} (h : k < lastTerm Entry.term es) :
    ∃ i, lastIdx (fun e => k < e.term) es = some i ∧ es.length = i + 1 := by
  have hne : es ≠ [] := ne_nil_of_lastTerm_pos (Nat.zero_lt_of_lt h)
  obtain ⟨init, e, rfl⟩ := (List.eq_nil_or_concat es).resolve_left hne
  rw [List.concat_eq_append] at h ⊢
  rw [lastTerm_concat] at h
  exact ⟨init.length, by rw [lastIdx_concat, if_pos (decide_eq_true h)], List.length_append⟩

theorem Answerable.rejectHint (h : Answerable s m) (hlog : s.raftLog.FromOne) (hreject : m.reject = true)
    (hnone : m.index ≠ NONE) :
    ∃ index, s.rejectHint m = some index ∧ 0 < index ∧ index ≤ s.raftLog.entries.length + 1 := by
  obtain ⟨hle, hterm⟩ := h.nack hreject hnone
  have hpos : 0 < m.index := Nat.pos_of_ne_zero hnone
  unfold RaftContext.rejectHint
  split_ifs with hhint
  · obtain ⟨fIndex, hfound, hlen⟩ := lastIdx_of_lt_lastTerm (hterm hhint)
    have hentry : s.raftLog.toEntryIndex fIndex = s.raftLog.entries.length := by
      rw [RaftLog.toEntryIndex, hlog.firstIndex, hlen]
    rw [hfound]
    simp only [Option.bind_eq_bind, Option.bind_some]
    split_ifs
    · rw [List.getElem?_eq_getElem (by omega : fIndex - 1 < s.raftLog.entries.length)]
      simp only [Option.bind_some, hentry]
      split_ifs
      · exact ⟨_, rfl, by omega, Nat.le_succ _⟩
      · exact ⟨_, rfl, hpos, hle⟩
    · exact ⟨_, rfl, hpos, hle⟩
  · exact ⟨_, rfl, hpos, hle⟩

theorem handleAppendEntriesResponse_returns (h : Addressable members s) (hfrom : m.fromId ∈ members)
    (hmatch : ∀ f ∈ members, s.matchOf f ≤ s.raftLog.entries.length)
    (hanswer : Current s m → Answerable s m) :
    ∃ s', s.handleAppendEntriesResponse m = some s' := by
  obtain ⟨pr, hpr⟩ := h.complete.progress _ hfrom
  unfold handleAppendEntriesResponse
  split_ifs with hstale hreject hnone
  · exact ⟨_, rfl⟩
  · exact ⟨_, rfl⟩
  · obtain ⟨index, hindex, hpos, hle⟩ := (hanswer (current_of_not hstale)).rejectHint h.log hreject hnone
    rw [hindex, hpr]
    simp only [Option.bind_eq_bind, Option.bind_some]
    exact sendAppend_returns (h.setProgress hfrom hpos hle) hfrom
  · have hle := (hanswer (current_of_not hstale)).ack (by simpa using hreject)
    rw [hpr]
    simp only [Option.bind_eq_bind, Option.bind_some]
    split_ifs
    · have hset : Addressable members (s.setProgress m.fromId { matchIdx := m.index, next := m.index + 1 }) :=
        h.setProgress hfrom (Nat.succ_pos _) (Nat.succ_le_succ hle)
      have hinside : ∀ f ∈ members, (s.setProgress m.fromId ⟨m.index, m.index + 1⟩).matchOf f ≤
          s.raftLog.entries.length := by
        intro f hf
        rw [matchOf_setProgress]
        split_ifs
        · exact hle
        · exact hmatch f hf
      obtain ⟨t, ht⟩ := leaderCommit_returns hset ⟨_, hfrom⟩ hinside
      rw [ht, Option.bind_some]
      split_ifs <;> exact ⟨_, rfl⟩
    · exact ⟨_, rfl⟩

theorem Addressable.proposeLoop (h : Addressable members s) {es : List Entry} (hone : es.length = 1) :
    Addressable members (proposeLoop s.raftLog.lastIndex es s) ∧
      (RaftContext.proposeLoop s.raftLog.lastIndex es s).id = s.id := by
  obtain ⟨_, added, hcore, hlen, hadded⟩ := proposeLoop_spec s.raftLog.lastIndex es s
  refine ⟨h.of_core hcore.prs ?_ ?_, hcore.id⟩
  · rw [hcore.raftLog]
    rcases added with _ | ⟨e, _ | ⟨e', rest⟩⟩
    · rw [List.append_nil]
      exact h.log
    · exact h.log.concat (by rw [(hadded e List.mem_cons_self).2, h.log.lastIndex_eq])
    · rw [hone] at hlen
      simp at hlen
  · rw [hcore.raftLog]
    exact (List.prefix_append _ _).length_le

/-- The progress of the leader itself. -/
theorem Addressable.setOwn (h : Addressable members s) (hself : s.id ∈ members) :
    Addressable members (s.setProgress s.id ⟨s.raftLog.lastIndex, s.raftLog.lastIndex + 1⟩) :=
  h.setProgress hself (Nat.succ_pos _) (by rw [h.log.lastIndex_eq])

theorem appendEntries_returns (h : Addressable members s) (hself : s.id ∈ members) {es : List Entry}
    (hone : es.length = 1) : ∃ s', s.appendEntries es = some s' := by
  obtain ⟨hprop, hid⟩ := h.proposeLoop hone
  unfold appendEntries
  dsimp only
  generalize proposeLoop s.raftLog.lastIndex es s = t at hprop hid ⊢
  rw [← hid] at hself
  obtain ⟨pr, hpr⟩ := hprop.complete.progress _ hself
  obtain ⟨u, hu⟩ := bcastAppend_returns (hprop.setOwn hself)
  obtain ⟨ms, rfl, _⟩ := bcastAppend_spec hu
  rw [hpr]
  simp only [Option.bind_eq_bind, Option.bind_some]
  rw [hu, Option.bind_some]
  exact commitAlone_returns ((hprop.complete.setProgress hself _).of_prs rfl) hself

theorem handleTransferLeader_returns (h : Addressable members s) (hfrom : m.fromId ∈ members) :
    ∃ s', s.handleTransferLeader m = some s' := by
  obtain ⟨pr, hpr⟩ := h.complete.progress _ hfrom
  unfold handleTransferLeader
  rw [hpr]
  dsimp only
  split_ifs
  · exact ⟨_, rfl⟩
  · exact ⟨_, rfl⟩
  · exact ⟨_, rfl⟩
  · exact sendAppend_returns (h.of_core rfl h.log le_rfl) hfrom

/-! ### Calls -/

/-- What a message needs of the node that handles it, after `Step` has looked at the term. -/
structure Processable (members : Finset Nat) (s : RaftContext) (m : Message) : Prop where
  append : m.msgType = .msgAppend → ∀ i e, m.entries[i]? = some e → e.index = m.index + i + 1
  propose : m.msgType = .msgPropose → m.entries.length = 1
  sender : m.msgType = .msgAppendResponse ∨ m.msgType = .msgHeartbeatResponse ∨
    m.msgType = .msgTransferLeader → m.fromId ∈ members
  answer : s.state = .stateLeader → m.msgType = .msgAppendResponse → Current s m → Answerable s m

/-- A node whose calls return; a leader needs more. -/
structure Readable (members : Finset Nat) (s : RaftContext) : Prop where
  complete : Complete members s
  log : s.raftLog.FromOne
  self : s.id ∈ members
  next : s.state = .stateLeader → Addressable members s
  inside : s.state = .stateLeader → ∀ f ∈ members, s.matchOf f ≤ s.raftLog.entries.length

theorem Readable.observe (h : Readable members s) (m : Message) : Readable members (s.observeTerm m) := by
  rcases observeTerm_cases s m with ⟨_, heq⟩ | ⟨_, _, _, hstate, _⟩
  · rw [heq]
    exact h
  · refine ⟨h.complete.of_prs (observeTerm_prs s m), observeTerm_raftLog s m ▸ h.log,
      observeTerm_id s m ▸ h.self, fun hleader => ?_, fun hleader => ?_⟩ <;>
    · rw [hstate] at hleader
      cases hleader

theorem stepFollower_returns (h : Readable members s) (hm : Processable members s m) :
    ∃ s', s.stepFollower m rand = some s' := by
  unfold stepFollower
  split
  case h_1 => exact doElection_returns h.complete h.log h.self rand
  case h_4 hty => exact handleAppendEntries_returns h.log (hm.append hty) rand
  case h_6 => exact handleRequestVote_returns h.log m rand
  case h_12 => exact doElection_returns h.complete h.log h.self rand
  all_goals exact ⟨_, rfl⟩

theorem stepCandidate_returns (h : Readable members s) (hm : Processable members s m) :
    ∃ s', s.stepCandidate m rand = some s' := by
  unfold stepCandidate
  split
  case h_1 => exact doElection_returns h.complete h.log h.self rand
  case h_4 hty =>
    refine handleAppendEntries_returns ?_ (hm.append hty) rand
    split_ifs <;> exact h.log
  case h_6 => exact handleRequestVote_returns h.log m rand
  case h_7 => exact handleRequestVoteResponse_returns h.complete h.log h.self m
  all_goals exact ⟨_, rfl⟩

theorem stepLeader_returns (h : Readable members s) (hstate : s.state = .stateLeader)
    (hm : Processable members s m) : ∃ s', s.stepLeader m rand = some s' := by
  have hnext := h.next hstate
  unfold stepLeader
  split
  case h_3 hty =>
    split_ifs
    · exact appendEntries_returns hnext h.self (hm.propose hty)
    · exact ⟨_, rfl⟩
  case h_4 hty => exact handleAppendEntries_returns h.log (hm.append hty) rand
  case h_5 hty =>
    exact handleAppendEntriesResponse_returns hnext (hm.sender (.inl hty)) (h.inside hstate)
      (hm.answer hstate hty)
  case h_6 => exact handleRequestVote_returns h.log m rand
  case h_10 hty => exact sendAppend_returns hnext (hm.sender (.inr (.inl hty)))
  case h_11 hty => exact handleTransferLeader_returns hnext (hm.sender (.inr (.inr hty)))
  all_goals exact ⟨_, rfl⟩

theorem step_returns (h : Readable members s) (hm : Processable members (s.observeTerm m) m) (rand : Nat) :
    ∃ s', s.step m rand = some s' := by
  have hobs := h.observe m
  unfold step
  split_ifs
  · exact ⟨s, rfl⟩
  · dsimp only
    split
    · exact stepFollower_returns hobs hm
    · exact stepCandidate_returns hobs hm
    · exact stepLeader_returns hobs ‹_› hm

/-- A message of the node's own has nothing to be checked. -/
theorem Processable.local (hm : m.msgType = .msgHup ∨ m.msgType = .msgBeat) : Processable members s m := by
  refine ⟨fun h => ?_, fun h => ?_, fun h => ?_, fun _ h => ?_⟩ <;>
    rcases hm with hm | hm <;> rw [hm] at h <;> simp at h

theorem Readable.congr (h : Readable members s) (hsame : SameCore s s') : Readable members s' := by
  refine ⟨h.complete.of_prs hsame.prs, hsame.raftLog ▸ h.log, hsame.id ▸ h.self, fun hleader => ?_,
    fun hleader f hf => ?_⟩ <;> rw [hsame.state] at hleader
  · exact (h.next hleader).of_core hsame.prs (hsame.raftLog ▸ h.log) (by rw [hsame.raftLog])
  · rw [matchOf_of_prs hsame.prs, hsame.raftLog]
    exact h.inside hleader f hf

theorem tickElection_returns (h : Readable members s) (rand : Nat) : ∃ s', s.tickElection rand = some s' := by
  unfold tickElection
  dsimp only
  split_ifs
  · exact step_returns (h.congr {}) (.local (.inl rfl)) rand
  · exact ⟨_, rfl⟩

theorem tickHeartbeat_returns (h : Readable members s) (rand : Nat) : ∃ s', s.tickHeartbeat rand = some s' := by
  unfold tickHeartbeat
  dsimp only
  split_ifs
  · exact step_returns (h.congr {}) (.local (.inr rfl)) rand
  · exact ⟨_, rfl⟩

theorem tick_returns (h : Readable members s) (rand : Nat) : ∃ s', s.tick rand = some s' := by
  unfold tick
  split
  · exact tickElection_returns h rand
  · exact tickElection_returns h rand
  · have hticked : Readable members (if s.leadTransferee ≠ NONE then s.tickTransfer else s) := by
      obtain ⟨k, n, htransfer⟩ := tickTransfer_eq s
      rw [htransfer]
      split_ifs
      · exact h.congr {}
      · exact h
    exact tickHeartbeat_returns hticked rand

/-- A step of a node that leads after it keeps every `next` in the log, if the answers it gets are in order
and a leader does not lose entries. -/
theorem CoreStep.addressable (h : CoreStep s m s') (hs : Readable members s) (hm : Processable members s m)
    (hsnap : m.msgType ≠ .msgSnapshot) (hstate' : s'.state = .stateLeader) (hlog' : s'.raftLog.FromOne)
    (hgrow : s.state = .stateLeader → s.raftLog.entries.length ≤ s'.raftLog.entries.length) :
    Addressable members s' := by
  have hkeep : s.state = .stateLeader → s'.prs = s.prs → Addressable members s' := fun hstate hprs =>
    (hs.next hstate).of_core hprs hlog' (hgrow hstate)
  have hanswer : s.state = .stateLeader → ∀ pr, Addressable members (s.setProgress m.fromId pr) →
      s'.prs = (s.setProgress m.fromId pr).prs → Addressable members s' := fun hstate pr hset hprs =>
    hset.of_core hprs hlog' (hgrow hstate)
  cases h with
  | same h => exact hkeep (h.state.symm.trans hstate') h.prs
  | follow _ _ h => exact hkeep (fallback_leader (h.state.symm.trans hstate')) (h.prs.trans fallback_prs)
  | append _ h => exact hkeep (fallback_leader (h.state.symm.trans hstate')) (h.prs.trans fallback_prs)
  | campaign _ _ _ h => exact absurd (h.state.symm.trans hstate') nofun
  | alone _ _ _ h =>
      have hcand : Complete members s.becomeCandidate := hs.complete.of_prs rfl
      exact (hcand.leaderState_addressable hs.log).of_core h.prs hlog' (by rw [h.raftLog]; exact le_rfl)
  | grant _ _ _ h => exact hkeep (h.state.symm.trans hstate') h.prs
  | record _ hstate _ h => exact absurd (hstate.symm.trans (h.state.symm.trans hstate')) (by decide)
  | lose _ _ _ _ _ h => exact absurd (h.state.symm.trans hstate') nofun
  | win _ _ _ _ h =>
      have hrec : Complete members (s.recordVote m) := hs.complete.of_prs rfl
      exact (hrec.leaderState_addressable hs.log).of_core h.prs hlog' (by rw [h.raftLog]; exact le_rfl)
  | propose hty hstate h =>
      obtain ⟨hprop, hid⟩ := (hs.next hstate).proposeLoop (hm.propose hty)
      exact (hprop.setOwn (hid ▸ hs.self)).of_core h.prs hlog' (by rw [h.raftLog]; exact le_rfl)
  | nack hty hstate hcur hreject hindex hhint hpr h =>
      obtain ⟨index, hfound, hpos, hle⟩ := (hm.answer hstate hty hcur).rejectHint hs.log hreject hindex
      cases hhint.symm.trans hfound
      exact hanswer hstate _ ((hs.next hstate).setProgress (hm.sender (.inl hty)) hpos hle) h.prs
  | ack hty hstate hcur hreject _ _ h =>
      have hle := (hm.answer hstate hty hcur).ack hreject
      exact hanswer hstate _ ((hs.next hstate).setProgress (hm.sender (.inl hty)) (Nat.succ_pos _)
        (Nat.succ_le_succ hle)) h.prs
  | commit hty hstate hcur hreject _ _ _ h =>
      have hle := (hm.answer hstate hty hcur).ack hreject
      exact hanswer hstate _ ((hs.next hstate).setProgress (hm.sender (.inl hty)) (Nat.succ_pos _)
        (Nat.succ_le_succ hle)) h.prs
  | phantom hty _ hnone _ =>
      obtain ⟨pr, hpr⟩ := hs.complete.progress _ (hm.sender (.inr (.inr hty)))
      cases hnone.symm.trans hpr
  | snapshot hty => exact absurd hty hsnap

end Eraft.RaftContext
