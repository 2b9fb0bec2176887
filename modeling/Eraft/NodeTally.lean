import Eraft.NodeQuorum

/-! The two counts of a node: the matches that let a leader commit, and the votes that make a candidate
leader. `LeaderCommit` takes the upper of the two middle matches of an even cluster while a
configuration change is pending, which is one peer short of a majority; `HandleRequestVoteResponse`
counts in bytes. -/

open Std Quorum

namespace Eraft.RaftContext

variable {s s' : RaftContext} {m : Message} {n : Nat}

/-- The matches of all peers in ascending order, at one position. -/
def sortedMatch (s : RaftContext) (i : Nat) : Option Nat := do
  let matched ← s.prs.toList.mapM fun peer => peer.2.map Progress.matchIdx
  (matched.insertionSort (· ≤ ·))[i]?

theorem sortedMatch_eq_some {i : Nat} : s.sortedMatch i = some n ↔ ∃ matched,
    s.prs.toList.mapM (fun peer => peer.2.map Progress.matchIdx) = some matched ∧
    (matched.insertionSort (· ≤ ·))[i]? = some n := Option.bind_eq_some_iff

/-- The peers that have reached `n` are counted in the match vector. -/
theorem card_matchQuorum_eq {matched : List Nat}
    (h : s.prs.toList.mapM (fun peer => peer.2.map Progress.matchIdx) = some matched) (n : Nat) :
    (s.matchQuorum n).card = matched.countP (fun x => decide (n ≤ x)) ∧ matched.length = s.prs.size := by
  obtain ⟨hlen, hsame⟩ := countP_mapM h fun x => decide (n ≤ x)
  refine ⟨?_, hlen.trans ExtTreeMap.length_toList⟩
  rw [hsame, card_matchQuorum]
  simp only [Option.any_map]

/-- The upper middle match could be committed: it is ahead of the commit index, in the leader's term. -/
def Committable (s : RaftContext) : Prop :=
  ∃ n, s.sortedMatch (s.prs.size / 2) = some n ∧ s.raftLog.commited < n ∧
    ∃ found, s.raftLog.term n = some (s.term, found)

/-- What keeps `LeaderCommit` from counting half of the peers as a majority. -/
def CountsMajority (s : RaftContext) : Prop :=
  s.prs.size % 2 = 1 ∨ s.pendingConfIndex = NONE ∨
    s.sortedMatch (s.prs.size / 2 - 1) = s.sortedMatch (s.prs.size / 2) ∨ ¬s.Committable

/-- What `LeaderCommit` raises the commit index to. -/
theorem Raises.commited_eq (hn : Raises s n) (h : s.leaderCommit = some s') :
    s'.raftLog.commited = n := by
  rcases leaderCommit_spec h with rfl | ⟨n', ms, hn', rfl, _⟩
  · unfold leaderCommit at h
    obtain ⟨⟨matched, hmatched, hstat⟩, habove, found, hterm⟩ := hn
    unfold commitThresh at hstat
    rw [hmatched] at h
    simp only [Option.bind_eq_bind, Option.bind_some] at h
    rw [hstat] at h
    simp only [Option.bind_some, if_pos habove, hterm, if_true] at h
    obtain ⟨ms, hs', _⟩ := bcastAppend_spec h
    exact congrArg (fun t : RaftContext => t.raftLog.commited) hs'
  · obtain ⟨matched, hmatched, hstat⟩ := hn.stat
    obtain ⟨matched', hmatched', hstat'⟩ := hn'.stat
    cases hmatched.symm.trans hmatched'
    exact Option.some.inj (hstat'.symm.trans hstat)

theorem Raises.sortedMatch (hn : Raises s n) : s.sortedMatch s.commitThresh = some n :=
  sortedMatch_eq_some.mpr hn.stat

theorem size_le_add_card {i : Nat} (h : s.sortedMatch i = some n) :
    s.prs.size ≤ i + (s.matchQuorum n).card := by
  obtain ⟨matched, hmatched, hstat⟩ := sortedMatch_eq_some.mp h
  obtain ⟨hcard, hlen⟩ := card_matchQuorum_eq hmatched n
  rw [hcard, ← hlen]
  exact length_le_add_countP matched hstat

theorem card_add_le_size {i k : Nat} (h : s.sortedMatch i = some k) (hlt : k < n) :
    (s.matchQuorum n).card + (i + 1) ≤ s.prs.size := by
  obtain ⟨matched, hmatched, hstat⟩ := sortedMatch_eq_some.mp h
  obtain ⟨hcard, hlen⟩ := card_matchQuorum_eq hmatched n
  rw [hcard, ← hlen]
  exact countP_add_le_length matched hstat hlt

theorem lt_size_of_sortedMatch {i : Nat} (h : s.sortedMatch i = some n) : i < s.prs.size := by
  obtain ⟨matched, hmatched, hstat⟩ := sortedMatch_eq_some.mp h
  obtain ⟨hlt, _⟩ := List.getElem?_eq_some_iff.mp hstat
  rw [(List.perm_insertionSort (· ≤ ·) matched).length_eq, (card_matchQuorum_eq hmatched n).2] at hlt
  exact hlt

theorem sortedMatch_le {i j : Nat} (hij : i ≤ j) (h : s.sortedMatch j = some n) :
    ∃ k ≤ n, s.sortedMatch i = some k := by
  obtain ⟨matched, hmatched, hstat⟩ := sortedMatch_eq_some.mp h
  obtain ⟨hj, hget⟩ := List.getElem?_eq_some_iff.mp hstat
  refine ⟨_, ?_, sortedMatch_eq_some.mpr ⟨matched, hmatched, List.getElem?_eq_getElem (by omega)⟩⟩
  rw [← hget]
  rcases Nat.lt_or_eq_of_le hij with hlt | rfl
  · exact List.pairwise_iff_getElem.mp (List.pairwise_insertionSort (· ≤ ·) matched) i j (by omega) hj hlt
  · exact le_rfl

theorem commitThresh_of_pending (hpending : s.pendingConfIndex ≠ NONE) :
    s.commitThresh = s.prs.size / 2 := if_neg fun h => hpending h.2

/-- In an even cluster with a pending change, the upper middle match is that of a majority exactly if
the lower one is the same. -/
theorem lt_card_iff_middle (h : s.sortedMatch (s.prs.size / 2) = some n) (heven : s.prs.size % 2 = 0) :
    s.prs.size < 2 * (s.matchQuorum n).card ↔
      s.sortedMatch (s.prs.size / 2 - 1) = s.sortedMatch (s.prs.size / 2) := by
  obtain ⟨k, hk, hlow⟩ := sortedMatch_le (Nat.sub_le _ 1) h
  have hpos := lt_size_of_sortedMatch h
  rw [h, hlow, Option.some.injEq]
  constructor
  · intro hmost
    by_contra hne
    have hless := card_add_le_size hlow (hk.lt_of_ne hne)
    omega
  · rintro rfl
    have hmore := size_le_add_card hlow
    omega

/-- **A commit needs a majority**, except in an even cluster with a pending configuration change whose
two middle matches differ. -/
theorem leaderCommit_majority_iff (h : s.leaderCommit = some s') :
    (s.raftLog.commited < s'.raftLog.commited →
      s.prs.size < 2 * (s.matchQuorum s'.raftLog.commited).card) ↔ s.CountsMajority := by
  constructor
  · -- if the cluster is even and a change is pending, the commit index is the upper middle match
    intro hmajority
    by_contra hnot
    simp only [CountsMajority, not_or, not_not] at hnot
    obtain ⟨heven, hpending, hmiddle, n, hn, habove, hterm⟩ := hnot
    have hraises : Raises s n :=
      ⟨sortedMatch_eq_some.mp (commitThresh_of_pending hpending ▸ hn), habove, hterm⟩
    rw [hraises.commited_eq h] at hmajority
    exact hmiddle ((lt_card_iff_middle hn (by omega)).mp (hmajority habove))
  · intro hcounts hraise
    rcases leaderCommit_spec h with rfl | ⟨n, ms, hraises, rfl, _⟩
    · exact absurd hraise (Nat.lt_irrefl _)
    · show s.prs.size < 2 * (s.matchQuorum n).card
      have hn := hraises.sortedMatch
      have hmore := size_le_add_card hn
      by_cases hpending : s.pendingConfIndex = NONE
      · unfold commitThresh at hmore
        split_ifs at hmore with heven
        · have hpos := lt_size_of_sortedMatch hn
          rw [u64Sub_of_le (by omega)] at hmore
          omega
        · omega
      · rw [commitThresh_of_pending hpending] at hn hmore
        rcases hcounts with hodd | hnone | hmiddle | hcommittable
        · omega
        · exact absurd hnone hpending
        · rcases Nat.mod_two_eq_zero_or_one s.prs.size with heven | hodd
          · exact (lt_card_iff_middle hn heven).mpr hmiddle
          · omega
        · exact absurd ⟨n, hn, hraises.above, hraises.ownTerm⟩ hcommittable

theorem leaderCommit_majority_of_four : ∃ s', leaderOfFour.leaderCommit = some s' ∧
    leaderOfFour.raftLog.commited < s'.raftLog.commited ∧
    leaderOfFour.prs.size < 2 * (leaderOfFour.matchQuorum s'.raftLog.commited).card := by
  have hrun : leaderOfFour.leaderCommit.any (fun s' => decide (0 < s'.raftLog.commited)) = true := by
    decide +kernel
  obtain ⟨s', hs', hraise⟩ := (Option.any_eq_true _ _).mp hrun
  have hraise : leaderOfFour.raftLog.commited < s'.raftLog.commited := of_decide_eq_true hraise
  exact ⟨s', hs', hraise, (leaderCommit_majority_iff hs').mpr (.inr (.inl rfl)) hraise⟩

/-- A leader of a cluster of two whose peer has acknowledged nothing; a change is pending. -/
def leaderOfTwo : RaftContext :=
  { leaderOfFour with
      prs := .ofList ([(1, some ⟨1, 2⟩), (2, some ⟨0, 1⟩)] : List (Nat × Option Progress))
      pendingConfIndex := 1 }

/-- It commits what only itself holds. -/
theorem not_leaderCommit_majority : ∃ s', leaderOfTwo.state = .stateLeader ∧
    leaderOfTwo.leaderCommit = some s' ∧ leaderOfTwo.raftLog.commited < s'.raftLog.commited ∧
    ¬leaderOfTwo.prs.size < 2 * (leaderOfTwo.matchQuorum s'.raftLog.commited).card := by
  have hrun : leaderOfTwo.leaderCommit.any (fun s' => decide (s'.raftLog.commited = 1)) = true := by
    decide +kernel
  obtain ⟨s', hs', hone⟩ := (Option.any_eq_true _ _).mp hrun
  have hone : s'.raftLog.commited = 1 := of_decide_eq_true hone
  refine ⟨s', rfl, hs', ?_⟩
  rw [hone]
  decide +kernel

/-- The votes for the node, and those against it. -/
def grants (s : RaftContext) : Nat := s.votes.toList.countP fun vote => vote.2

def refusals (s : RaftContext) : Nat := s.votes.toList.countP fun vote => !vote.2

/-- A candidate of a cluster of `n`, whose votes are of peers, and the vote of a peer in its term. -/
structure Polled (n : Nat) (s : RaftContext) (m : Message) : Prop where
  state : s.state = .stateCandidate
  size : s.prs.size = n
  votes : ∀ v ∈ s.votes, v ∈ s.prs
  msgType : m.msgType = .msgRequestVoteResponse
  term : m.term = s.term
  fromId : m.fromId ∈ s.prs

/-- The outcome of the vote is what the votes say, counted without a bound. Only `BecomeLeader` can be
undefined. -/
def TallyExact (s : RaftContext) (m : Message) (rand : Nat) : Prop :=
  (s.step m rand = none →
    s.prs.size / 2 < (s.recordVote m).grants ∧ (s.recordVote m).becomeLeader = none) ∧
  ∀ s', s.step m rand = some s' →
    (s'.state = .stateLeader ↔ s.prs.size / 2 < (s.recordVote m).grants) ∧
    (s'.state = .stateFollower ↔ (s.recordVote m).grants ≤ s.prs.size / 2 ∧
      s.prs.size / 2 < (s.recordVote m).refusals) ∧
    (s'.state = .stateCandidate ↔ (s.recordVote m).grants ≤ s.prs.size / 2 ∧
      (s.recordVote m).refusals ≤ s.prs.size / 2)

theorem grants_add_refusals (s : RaftContext) : s.grants + s.refusals = s.votes.size := by
  rw [← ExtTreeMap.length_toList, List.length_eq_countP_add_countP (fun vote => vote.2), grants, refusals]
  simp only [Bool.not_eq_true, Bool.decide_eq_false]

/-- A candidate hands a vote of its own term to the tally, which counts in bytes. -/
theorem Polled.step_eq (h : Polled n s m) (rand : Nat) :
    s.step m rand =
      if n / 2 % 2 ^ 8 < (s.recordVote m).grants % 2 ^ 8 then (s.recordVote m).becomeLeader
      else if n / 2 % 2 ^ 8 + (s.recordVote m).grants % 2 ^ 8 <
          ((s.recordVote m).grants + (s.recordVote m).refusals) % 2 ^ 8 then
        some ((s.recordVote m).becomeFollower s.term NONE)
      else some (s.recordVote m) := by
  have hterm : s.observeTerm m = s := observeTerm_of_le h.term.le
  have hthresh : (s.recordVote m).voteThreshold = n / 2 % 2 ^ 8 := by rw [← h.size]; rfl
  have hgrant : (s.recordVote m).grantCount = (s.recordVote m).grants % 2 ^ 8 := rfl
  have hcount : (s.recordVote m).voteCount =
      ((s.recordVote m).grants + (s.recordVote m).refusals) % 2 ^ 8 := by rw [grants_add_refusals]; rfl
  have hless : ((n / 2 % 2 ^ 8 : Nat) : Int) <
        (((s.recordVote m).grants + (s.recordVote m).refusals) % 2 ^ 8 : Nat) -
          ((s.recordVote m).grants % 2 ^ 8 : Nat) ↔
      n / 2 % 2 ^ 8 + (s.recordVote m).grants % 2 ^ 8 <
        ((s.recordVote m).grants + (s.recordVote m).refusals) % 2 ^ 8 := by omega
  unfold step
  rw [if_neg (by rw [h.msgType]; exact fun hc => nomatch hc.2), hterm]
  dsimp only
  rw [h.state]
  dsimp only
  rw [stepCandidate, h.msgType]
  dsimp only
  rw [handleRequestVoteResponse, if_neg (by rw [h.term]; omega)]
  dsimp only
  rw [hthresh, hgrant, hcount]
  simp only [hless]
  rfl

theorem Polled.size_votes_le (h : Polled n s m) : (s.recordVote m).votes.size ≤ n := by
  have hsub : (s.recordVote m).votes.keys.toFinset ⊆ s.peers := by
    intro v hv
    rw [List.mem_toFinset, ExtTreeMap.mem_keys, recordVote, ExtTreeMap.mem_insert] at hv
    rw [mem_peers]
    rcases hv with hv | hv
    · rw [← LawfulEqCmp.eq_of_compare hv]
      exact h.fromId
    · exact h.votes v hv
  have hle := Finset.card_le_card hsub
  rw [card_peers, h.size, List.toFinset_card_of_nodup ExtTreeMap.nodup_keys, ExtTreeMap.length_keys] at hle
  exact hle

/-- The ids from 1 to `k`, each with the value `v`. -/
def upTo {β : Type} (v : β) : Nat → ExtTreeMap Nat β
  | 0 => ∅
  | k + 1 => (upTo v k).insert (k + 1) v

theorem getElem?_upTo {β : Type} (v : β) (k i : Nat) :
    (upTo v k)[i]? = if 0 < i ∧ i ≤ k then some v else none := by
  induction k with
  | zero =>
      rw [if_neg (by omega)]
      exact ExtTreeMap.getElem?_empty
  | succ k ih =>
      rw [upTo, ExtTreeMap.getElem?_insert, ih]
      simp only [Nat.compare_eq_eq]
      split_ifs <;> first | rfl | omega

theorem mem_upTo {β : Type} {v : β} {k i : Nat} : i ∈ upTo v k ↔ 0 < i ∧ i ≤ k := by
  rw [ExtTreeMap.mem_iff_isSome_getElem?, getElem?_upTo]
  split_ifs with h <;> simp [h]

theorem size_upTo {β : Type} (v : β) (k : Nat) : (upTo v k).size = k := by
  induction k with
  | zero => exact ExtTreeMap.size_empty
  | succ k ih =>
      rw [upTo, ExtTreeMap.size_insert, if_neg, ih]
      rw [← ExtTreeMap.mem_iff_contains, mem_upTo]
      omega

/-- The bytes in which the votes of a cluster of `n` are counted compare as the counts do. -/
def BytesAgree (n grants refusals : Nat) : Prop :=
  (n / 2 % 2 ^ 8 < grants % 2 ^ 8 ↔ n / 2 < grants) ∧
  (grants ≤ n / 2 →
    (n / 2 % 2 ^ 8 + grants % 2 ^ 8 < (grants + refusals) % 2 ^ 8 ↔ n / 2 < refusals))

/-- Either the votes for the node decide and fit a byte, or they do not decide, and all votes fit a byte
or those against the node do not decide either. -/
def FitBytes (n grants refusals : Nat) : Prop :=
  (n / 2 < grants ∧ grants ≤ 255) ∨
    (grants ≤ n / 2 ∧ (grants + refusals ≤ 255 ∨ refusals ≤ n / 2))

/-- While half of the peers fit a byte, a count that has wrapped around is never above the threshold. -/
theorem bytesAgree_iff_fitBytes {grants refusals : Nat} (hn : n ≤ 511) (hvotes : grants + refusals ≤ n) :
    BytesAgree n grants refusals ↔ FitBytes n grants refusals := by
  unfold BytesAgree FitBytes
  omega

theorem BytesAgree.tallyExact (h : Polled n s m)
    (hagree : BytesAgree n (s.recordVote m).grants (s.recordVote m).refusals) (rand : Nat) :
    TallyExact s m rand := by
  obtain ⟨hwon, hlost⟩ := hagree
  unfold TallyExact
  rw [h.step_eq, h.size]
  split_ifs with hwin hlose
  · have hmost := hwon.mp hwin
    refine ⟨fun hnone => ⟨hmost, hnone⟩, fun s' hs' => ?_⟩
    have hstate : s'.state = .stateLeader := (becomeLeader_spec hs').1.state
    rw [hstate]
    simp only [reduceCtorEq, false_iff, true_iff]
    omega
  · have hfew : (s.recordVote m).grants ≤ n / 2 := Nat.le_of_not_lt fun hlt => hwin (hwon.mpr hlt)
    have hmost := (hlost hfew).mp hlose
    refine ⟨fun hnone => hnone.elim, fun s' hs' => ?_⟩
    cases hs'
    simp only [becomeFollower, reduceCtorEq, false_iff, true_iff]
    omega
  · have hfew : (s.recordVote m).grants ≤ n / 2 := Nat.le_of_not_lt fun hlt => hwin (hwon.mpr hlt)
    have hfew' : (s.recordVote m).refusals ≤ n / 2 :=
      Nat.le_of_not_lt fun hlt => hlose ((hlost hfew).mpr hlt)
    refine ⟨fun hnone => hnone.elim, fun s' hs' => ?_⟩
    cases hs'
    have hstate : (s.recordVote m).state = .stateCandidate := h.state
    rw [hstate]
    simp only [reduceCtorEq, false_iff, true_iff]
    omega

theorem Polled.votes_le (h : Polled n s m) :
    (s.recordVote m).grants + (s.recordVote m).refusals ≤ n := by
  rw [grants_add_refusals]
  exact h.size_votes_le

/-- A candidate of a cluster of `n` that has all votes but one of a multiple of 256, and more than half
with it. -/
def beforeWrap (n : Nat) : RaftContext :=
  { leaderOfFour with
      prs := upTo (some {}) n
      state := .stateCandidate
      votes := upTo true (256 * (n / 2 / 256 + 1) - 1) }

/-- The vote that is missing. -/
def wrappingVote (n : Nat) : Message :=
  { msgType := .msgRequestVoteResponse, fromId := 256 * (n / 2 / 256 + 1), toId := 1, term := 1 }

theorem beforeWrap_polled (hn : 256 ≤ n) : Polled n (beforeWrap n) (wrappingVote n) := by
  refine ⟨rfl, size_upTo _ n, fun v hv => ?_, rfl, rfl, ?_⟩
  · have hv := mem_upTo.mp hv
    exact mem_upTo.mpr (by omega)
  · exact mem_upTo.mpr (by show 0 < 256 * _ ∧ 256 * _ ≤ n; omega)

theorem recordVote_beforeWrap (n : Nat) :
    ((beforeWrap n).recordVote (wrappingVote n)).votes = upTo true (256 * (n / 2 / 256 + 1)) := by
  obtain ⟨k, hk⟩ : ∃ k, 256 * (n / 2 / 256 + 1) = k + 1 := ⟨256 * (n / 2 / 256 + 1) - 1, by omega⟩
  show (upTo true (256 * (n / 2 / 256 + 1) - 1)).insert (256 * (n / 2 / 256 + 1)) true = _
  rw [hk]
  rfl

theorem refusals_beforeWrap (n : Nat) : ((beforeWrap n).recordVote (wrappingVote n)).refusals = 0 := by
  refine List.countP_eq_zero.mpr ?_
  rintro ⟨i, b⟩ hmem
  rw [recordVote_beforeWrap, ExtTreeMap.mem_toList_iff_getElem?_eq_some, getElem?_upTo] at hmem
  split_ifs at hmem
  cases hmem
  exact Bool.false_ne_true

/-- With the vote the count of votes for the node is 0, and the candidate stays one. -/
theorem beforeWrap_step (hn : 256 ≤ n) :
    (beforeWrap n).step (wrappingVote n) 0 = some ((beforeWrap n).recordVote (wrappingVote n)) ∧
    n / 2 < ((beforeWrap n).recordVote (wrappingVote n)).grants := by
  have hsum := grants_add_refusals ((beforeWrap n).recordVote (wrappingVote n))
  rw [refusals_beforeWrap, recordVote_beforeWrap, size_upTo, Nat.add_zero] at hsum
  rw [(beforeWrap_polled hn).step_eq, refusals_beforeWrap, hsum, if_neg (by omega), if_neg (by omega)]
  exact ⟨rfl, by omega⟩

/-- All tallies are exact in clusters of up to 255 peers and no others. -/
theorem tallyExact_forall_iff (n : Nat) :
    (∀ s m rand, Polled n s m → TallyExact s m rand) ↔ n ≤ 255 := by
  constructor
  · intro hall
    by_contra hn
    have hpolled := beforeWrap_polled (Nat.lt_of_not_le hn)
    obtain ⟨hstep, hmost⟩ := beforeWrap_step (Nat.lt_of_not_le hn)
    have hwon := ((hall _ _ 0 hpolled).2 _ hstep).1.mpr (by rw [hpolled.size]; exact hmost)
    cases hwon
  · intro hn s m rand h
    have hvotes := h.votes_le
    exact BytesAgree.tallyExact h ((bytesAgree_iff_fitBytes (by omega) hvotes).mpr (by unfold FitBytes; omega))
      rand

end Eraft.RaftContext
