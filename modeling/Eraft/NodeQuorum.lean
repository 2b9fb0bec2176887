import Eraft.NodeOutcome
import Eraft.BaseQuorum

/-! The two quorums of the protocol: the peers whose votes elect a leader, and the peers whose
`match` lets a leader commit. With at most 255 peers the `uint8_t` counters of the vote tally do not
wrap, and a quorum of one kind meets every quorum of the other. -/

open Std Quorum

namespace Eraft.RaftContext

variable {s s' : RaftContext}

/-- The peers that have granted their vote. -/
def voteQuorum (s : RaftContext) : Finset Nat := keysWhere (fun vote => vote.2) s.votes.toList

/-- The peers known to hold the log up to `n`. -/
def matchQuorum (s : RaftContext) (n : Nat) : Finset Nat :=
  keysWhere (fun peer => peer.2.any fun pr => n ≤ pr.matchIdx) s.prs.toList

theorem mem_voteQuorum {v : Nat} : v ∈ s.voteQuorum ↔ s.votes[v]? = some true := by
  simp only [voteQuorum, mem_keysWhere, ExtTreeMap.mem_toList_iff_getElem?_eq_some]
  constructor
  · rintro ⟨b, hget, rfl⟩
    exact hget
  · exact fun hget => ⟨true, hget, rfl⟩

theorem mem_matchQuorum {n peer : Nat} :
    peer ∈ s.matchQuorum n ↔ ∃ pr, s.progress peer = some pr ∧ n ≤ pr.matchIdx := by
  simp only [matchQuorum, mem_keysWhere, ExtTreeMap.mem_toList_iff_getElem?_eq_some,
    Option.any_eq_true, decide_eq_true_eq, progress]
  constructor
  · rintro ⟨p, hget, pr, rfl, hle⟩
    exact ⟨pr, by rw [hget]; rfl, hle⟩
  · rintro ⟨pr, hjoin, hle⟩
    exact ⟨some pr, Option.join_eq_some_iff.mp hjoin, pr, rfl, hle⟩

theorem card_voteQuorum (s : RaftContext) :
    s.voteQuorum.card = s.votes.toList.countP fun vote => vote.2 := by
  refine card_keysWhere ?_
  rw [ExtTreeMap.map_fst_toList_eq_keys]
  exact ExtTreeMap.nodup_keys

theorem card_matchQuorum (s : RaftContext) (n : Nat) : (s.matchQuorum n).card =
    s.prs.toList.countP fun peer => peer.2.any fun pr => n ≤ pr.matchIdx := by
  refine card_keysWhere ?_
  rw [ExtTreeMap.map_fst_toList_eq_keys]
  exact ExtTreeMap.nodup_keys

/-- Who wins an election has the votes of more than half of its peers. -/
theorem lt_card_voteQuorum (hsize : s.prs.size ≤ 255) (hwin : s.voteThreshold < s.grantCount) :
    s.prs.size < 2 * s.voteQuorum.card := by
  have hthresh : s.voteThreshold = s.prs.size / 2 := Nat.mod_eq_of_lt (by omega)
  have hgrants : s.grantCount ≤ s.voteQuorum.card := by
    rw [card_voteQuorum]
    exact Nat.mod_le _ _
  omega

/-- The position `LeaderCommit` reads leaves at least half of the peers at or above it. -/
theorem commitThresh_le (hpos : 0 < s.prs.size) : s.commitThresh ≤ s.prs.size / 2 := by
  unfold commitThresh
  split_ifs with heven
  · rw [u64Sub_of_le (by omega)]
    exact Nat.sub_le _ _
  · exact le_rfl

/-- A commit index is one that at least half of the peers have reached. -/
theorem Raises.size_le {n : Nat} (h : Raises s n) : s.prs.size ≤ 2 * (s.matchQuorum n).card := by
  obtain ⟨⟨matched, hmatched, hn⟩, _, _⟩ := h
  have hcount := length_le_add_countP matched hn
  obtain ⟨hlen, hsame⟩ := countP_mapM hmatched fun x => decide (n ≤ x)
  have hquorum : matched.countP (fun x => decide (n ≤ x)) = (s.matchQuorum n).card := by
    rw [hsame, card_matchQuorum]
    simp only [Option.any_map]
  rw [hlen, hquorum, ExtTreeMap.length_toList] at hcount
  rcases Nat.eq_zero_or_pos s.prs.size with hzero | hpos
  · rw [hzero]
    exact Nat.zero_le _
  · have hthresh := commitThresh_le hpos
    omega

/-- `BecomeLeader` appends an entry, so that its outcome shows that it was called. -/
theorem length_becomeLeader (h : s.becomeLeader = some s') :
    s'.raftLog.entries.length = s.raftLog.entries.length + 1 := by
  rw [(becomeLeader_spec h).1.raftLog]
  exact List.length_append

/-- `HandleRequestVoteResponse` calls `BecomeLeader` only if the tally is won. -/
theorem wins_of_handleRequestVoteResponse {m : Message}
    (h : s.handleRequestVoteResponse m = (s.recordVote m).becomeLeader) :
    (s.recordVote m).voteThreshold < (s.recordVote m).grantCount := by
  unfold handleRequestVoteResponse at h
  dsimp only at h
  by_contra hlost
  have hlen : ∀ t : RaftContext, t.raftLog = s.raftLog → some t ≠ (s.recordVote m).becomeLeader := by
    intro t ht hleader
    have hlen := length_becomeLeader hleader.symm
    rw [ht] at hlen
    exact Nat.succ_ne_self _ hlen.symm
  rw [if_neg hlost] at h
  split_ifs at h with hstale hlose
  · exact hlen s rfl h
  · exact hlen ((s.recordVote m).becomeFollower _ NONE) rfl h
  · exact hlen (s.recordVote m) rfl h

/-- **Election and commit quorums intersect.** When `LeaderCommit` raises the commit index of one
node and `HandleRequestVoteResponse` calls `BecomeLeader` on another node with the same peers, some
peer has reached the new commit index and has granted its vote. -/
theorem commit_vote_quorums_intersect {s s' t : RaftContext} {m : Message}
    (hhi : s.prs.size ≤ 255) (hcommit : s.leaderCommit = some s')
    (hraise : s.raftLog.commited < s'.raftLog.commited) (hpeers : t.peers = s.peers)
    (hvotes : ∀ v ∈ (t.recordVote m).votes, v ∈ t.peers)
    (hlead : t.handleRequestVoteResponse m = (t.recordVote m).becomeLeader) :
    ∃ peer ∈ s.peers, (∃ pr, s.progress peer = some pr ∧ s'.raftLog.commited ≤ pr.matchIdx) ∧
      (t.recordVote m).votes[peer]? = some true := by
  rcases leaderCommit_spec hcommit with rfl | ⟨n, ms, hn, rfl, _⟩
  · exact absurd hraise (Nat.lt_irrefl _)
  have hsize : t.prs.size = s.prs.size := by rw [← card_peers, ← card_peers, hpeers]
  have hmatch := hn.size_le
  have hvote := lt_card_voteQuorum (s := t.recordVote m) (hsize.trans_le hhi)
    (wins_of_handleRequestVoteResponse hlead)
  have hmatchSub : s.matchQuorum n ⊆ s.peers := by
    intro peer hpeer
    obtain ⟨pr, hpr, _⟩ := mem_matchQuorum.mp hpeer
    exact mem_peers_of_progress hpr
  have hvoteSub : (t.recordVote m).voteQuorum ⊆ s.peers := by
    intro peer hpeer
    rw [← hpeers]
    refine hvotes peer ?_
    rw [ExtTreeMap.mem_iff_isSome_getElem?, mem_voteQuorum.mp hpeer]
    rfl
  have hcards : s.peers.card < (s.matchQuorum n).card + (t.recordVote m).voteQuorum.card := by
    have hrecord : (t.recordVote m).prs.size = t.prs.size := rfl
    rw [card_peers]
    omega
  obtain ⟨peer, hpeer⟩ := Finset.inter_nonempty_of_card_lt_card_add_card hmatchSub hvoteSub hcards
  obtain ⟨hreached, hgranted⟩ := Finset.mem_inter.mp hpeer
  exact ⟨peer, hmatchSub hreached, mem_matchQuorum.mp hreached, mem_voteQuorum.mp hgranted⟩

/-- A leader of a cluster of four. Peers 2 and 3 have acknowledged its first entry; it has the votes
of 1 and 3. -/
def leaderOfFour : RaftContext :=
  { prs := .ofList ([(1, some ⟨1, 2⟩), (2, some ⟨1, 2⟩), (3, some ⟨1, 2⟩), (4, some ⟨0, 1⟩)] :
      List (Nat × Option Progress))
    id := 1, term := 1, vote := 1, state := .stateLeader, votes := .ofList [(1, true), (3, true)]
    raftLog := { storage := .new, pendingSnapshot := {}, commited := 0, applied := 0, stabled := 0
                 firstIndex := 1, entries := [{ term := 1, index := 1 }] }
    lead := 1, msgs := [], heartbeatTimeout := 1, electionTimeout := 10
    randomElectionTimeout := 10, heartbeatElapsed := 0, electionElapsed := 0, transferElapsed := 0
    leadTransferee := NONE, pendingConfIndex := NONE }

/-- The vote of peer 4. -/
def fourthVote : Message :=
  { msgType := .msgRequestVoteResponse, fromId := 4, toId := 1, term := 1 }

theorem commit_vote_quorums_intersect_of_four : ∃ s', leaderOfFour.leaderCommit = some s' ∧
    s'.raftLog.commited = 1 ∧ ∃ peer ∈ leaderOfFour.peers,
      (∃ pr, leaderOfFour.progress peer = some pr ∧ s'.raftLog.commited ≤ pr.matchIdx) ∧
      (leaderOfFour.recordVote fourthVote).votes[peer]? = some true := by
  have hrun : leaderOfFour.leaderCommit.any (fun s' => s'.raftLog.commited = 1) = true := by
    decide +kernel
  obtain ⟨s', hs', hone⟩ := (Option.any_eq_true _ _).mp hrun
  rw [decide_eq_true_eq] at hone
  have hvotes : ∀ v ∈ (leaderOfFour.recordVote fourthVote).votes.keys, v ∈ leaderOfFour.peers := by
    decide +kernel
  have hlead : leaderOfFour.handleRequestVoteResponse fourthVote =
      (leaderOfFour.recordVote fourthVote).becomeLeader := by
    rw [handleRequestVoteResponse, if_neg (by decide)]
    exact if_pos (by decide +kernel)
  refine ⟨s', hs', hone, commit_vote_quorums_intersect (m := fourthVote) (by decide +kernel) hs' ?_
    rfl (fun v hv => hvotes v (ExtTreeMap.mem_keys.mpr hv)) hlead⟩
  rw [hone]
  decide

end Eraft.RaftContext
