import Eraft.NodeQuorum
import Eraft.LogTerm

/-! Two things a leader is asked to do: to append a proposal to its log, and to handle an answer or a
transfer request of a node that is not among its peers. -/

open Std

namespace Eraft

namespace RaftContext

variable {s s' : RaftContext} {m : Message} {p n rand : Nat} {es : List Entry}

/-- The entries of a proposal that go into the log: configuration changes are dropped while one is
pending. -/
def accepted : Bool → List Entry → List Entry
  | _, [] => []
  | pending, e :: rest =>
      if e.entryType = .entryConfChange then
        if pending then accepted true rest else e :: accepted true rest
      else e :: accepted pending rest

/-- The entries, in a log that ends with index `n`. -/
def numberedFrom (term : Nat) : Nat → List Entry → List Entry
  | _, [] => []
  | n, e :: rest => { e with term := term, index := n + 1 } :: numberedFrom term (n + 1) rest

/-- What `AppendEntries` makes of an entry, whatever its place in the proposal. -/
def stamped (term n : Nat) (e : Entry) : Entry := { e with term := term, index := n + 1 }

theorem map_stamped_eq_numberedFrom {term : Nat} :
    es.map (stamped term n) = numberedFrom term n es ↔ es.length ≤ 1 := by
  match es with
  | [] => exact iff_of_true rfl (Nat.zero_le 1)
  | [e] => exact iff_of_true rfl le_rfl
  | e :: e' :: rest =>
      refine iff_of_false (fun h => ?_) (by rw [List.length_cons, List.length_cons]; omega)
      have hindex := congrArg Entry.index (List.cons.inj (List.cons.inj h).2).1
      change n + 1 = n + 1 + 1 at hindex
      omega

theorem proposeLoop_entries (n : Nat) (es : List Entry) (s : RaftContext) :
    (proposeLoop n es s).raftLog.entries =
      s.raftLog.entries ++ (accepted (s.pendingConfIndex ≠ NONE) es).map (stamped s.term n) := by
  induction es generalizing s with
  | nil => rw [accepted, List.map_nil, List.append_nil, proposeLoop]
  | cons e rest ih =>
      unfold proposeLoop accepted
      dsimp only
      by_cases hconf : e.entryType = .entryConfChange
      · rw [if_pos hconf, if_pos hconf]
        by_cases hpending : s.pendingConfIndex ≠ NONE
        · rw [if_pos hpending, if_pos (decide_eq_true hpending), ih, decide_eq_true hpending]
        · have hset : decide (n + 0 + 1 ≠ NONE) = true := decide_eq_true (Nat.succ_ne_zero _)
          rw [if_neg hpending, if_neg (by rw [decide_eq_true_eq]; exact hpending), ih, hset]
          exact List.append_assoc _ _ _
      · rw [if_neg hconf, if_neg hconf, ih]
        exact List.append_assoc _ _ _

/-- The proposal extends the log: its entries follow the old ones, numbered without gap or repetition,
and the leader has acknowledged them to itself. -/
structure Extended (s : RaftContext) (es : List Entry) (s' : RaftContext) : Prop where
  entries : s'.raftLog.entries = s.raftLog.entries ++ numberedFrom s.term s.raftLog.lastIndex es
  matched : ∃ pr, s'.progress s.id = some pr ∧ pr.matchIdx = s'.raftLog.lastIndex
  lastIndex : s'.raftLog.lastIndex = s.raftLog.lastIndex + es.length

theorem raftLog_term_isSome {l : RaftLog} {i : Nat} :
    (l.term i).isSome ↔ l.entries.length = 0 ∨ i < l.firstIndex + l.entries.length := by
  by_cases hmem : l.InMemory i
  · obtain ⟨hpos, hle⟩ := hmem
    rw [RaftLog.term_inMemory ⟨hpos, hle⟩, Option.isSome_map, Option.isSome_iff_ne_none, Ne,
      List.getElem?_eq_none_iff]
    omega
  · rw [RaftLog.term_not_inMemory hmem]
    refine iff_of_true rfl ?_
    by_contra hnot
    exact hmem ⟨by omega, by omega⟩

theorem sendAppend_isSome : (s.sendAppend p).isSome ↔ ∃ pr, s.progress p = some pr ∧
    (s.raftLog.entries.length = 0 ∨ u64Sub pr.next 1 < s.raftLog.firstIndex + s.raftLog.entries.length) := by
  unfold sendAppend
  cases hpr : s.progress p with
  | none => exact iff_of_false (by simp) (by simp)
  | some pr =>
      rw [Option.bind_eq_bind, Option.bind_some]
      have hterm : (s.raftLog.term (u64Sub pr.next 1)).isSome ↔ _ := raftLog_term_isSome
      cases hfound : s.raftLog.term (u64Sub pr.next 1) with
      | none =>
          rw [hfound] at hterm
          refine iff_of_false (by simp [hfound]) ?_
          rintro ⟨pr', hpr', hin⟩
          cases hpr'
          exact absurd (hterm.mpr hin) (by simp)
      | some pair =>
          obtain ⟨t, found⟩ := pair
          obtain rfl := raftLog_term_snd hfound
          rw [hfound] at hterm
          refine iff_of_true ?_ ⟨pr, rfl, hterm.mp rfl⟩
          dsimp only
          rw [hfound]
          rfl

/-- Appends can be sent to every peer once `n` more entries are in the log: every peer has a progress,
whose `next` does not lie behind them. -/
def CanBroadcast (s : RaftContext) (n : Nat) : Prop :=
  (∃ pr, s.progress s.id = some pr) ∧ ∀ p ∈ s.peers, p ≠ s.id → ∃ pr, s.progress p = some pr ∧
    (s.raftLog.entries.length + n = 0 ∨
      u64Sub pr.next 1 < s.raftLog.firstIndex + (s.raftLog.entries.length + n))

theorem sendAppend_pushAll_isSome (ms : List Message) :
    ((s.pushAll ms).sendAppend p).isSome ↔ (s.sendAppend p).isSome := by
  rw [sendAppend_isSome, sendAppend_isSome]
  rfl

theorem foldlM_sendAppend_isSome (keys : List Nat) (ms : List Message) :
    (keys.foldlM (fun s peer => if peer = s.id then some s else s.sendAppend peer) (s.pushAll ms)).isSome ↔
      ∀ p ∈ keys, p ≠ s.id → (s.sendAppend p).isSome := by
  induction keys generalizing ms with
  | nil => exact iff_of_true rfl (fun p hp => absurd hp List.not_mem_nil)
  | cons p keys ih =>
      rw [List.foldlM_cons, List.forall_mem_cons]
      by_cases hid : p = s.id
      · rw [if_pos (show p = (s.pushAll ms).id from hid), Option.bind_eq_bind, Option.bind_some, ih]
        exact (and_iff_right fun hne => absurd hid hne).symm
      · rw [if_neg (show ¬p = (s.pushAll ms).id from hid), imp_iff_right hid, ← sendAppend_pushAll_isSome ms]
        cases hp : (s.pushAll ms).sendAppend p with
        | none => exact iff_of_false (by simp) fun h => Bool.noConfusion h.1
        | some s₁ =>
            obtain ⟨x, -, -, rfl⟩ := sendAppend_spec hp
            rw [Option.bind_eq_bind, Option.bind_some, pushAll_pushAll, ih]
            exact (and_iff_right rfl).symm

theorem bcastAppend_isSome : s.bcastAppend.isSome ↔ ∀ p ∈ s.peers, p ≠ s.id → (s.sendAppend p).isSome := by
  have h := foldlM_sendAppend_isSome (s := s) s.prs.keys []
  rw [pushAll_nil] at h
  rw [bcastAppend, h]
  refine forall_congr' fun p => ?_
  rw [mem_peers, ExtTreeMap.mem_keys]

theorem commitAlone_isSome {pr : Progress} (h : s.progress s.id = some pr) : s.commitAlone.isSome := by
  unfold commitAlone
  split_ifs
  · rw [h]
    rfl
  · rfl

/-- The last two lines of `AppendEntries`. -/
theorem bcastAppend_commitAlone_isSome {pr : Progress} (h : s.progress s.id = some pr) :
    (s.bcastAppend >>= commitAlone).isSome ↔ s.bcastAppend.isSome := by
  cases hsend : s.bcastAppend with
  | none => exact Iff.rfl
  | some s₁ =>
      obtain ⟨ms, rfl, -⟩ := bcastAppend_spec hsend
      exact iff_of_true (commitAlone_isSome (s := s.pushAll ms) h) rfl

theorem appendEntries_isSome : (s.appendEntries es).isSome ↔
    s.CanBroadcast (accepted (s.pendingConfIndex ≠ NONE) es).length := by
  obtain ⟨-, added, hcore, -⟩ := proposeLoop_spec s.raftLog.lastIndex es s
  have hentries := proposeLoop_entries s.raftLog.lastIndex es s
  unfold appendEntries
  generalize proposeLoop s.raftLog.lastIndex es s = t at hcore hentries
  have hid : t.id = s.id := hcore.id
  have hprogress : ∀ p, t.progress p = s.progress p := fun p => by rw [progress, hcore.prs]; rfl
  have hfirst : t.raftLog.firstIndex = s.raftLog.firstIndex := by rw [hcore.raftLog]
  have hlength : t.raftLog.entries.length =
      s.raftLog.entries.length + (accepted (s.pendingConfIndex ≠ NONE) es).length := by
    rw [hentries, List.length_append, List.length_map]
  unfold CanBroadcast
  dsimp only
  rw [hprogress, hid]
  cases hpr : s.progress s.id with
  | none => exact iff_of_false (by simp) (by simp)
  | some pr =>
      have hpeers : ∀ q, (t.setProgress s.id q).peers = s.peers := by
        intro q
        rw [← hid, peers_setProgress q (mem_peers_of_progress ((hprogress t.id).trans (hid ▸ hpr))), peers,
          hcore.prs]
        rfl
      rw [Option.bind_eq_bind, Option.bind_some, and_iff_right ⟨pr, rfl⟩]
      refine (bcastAppend_commitAlone_isSome (by rw [progress_setProgress]; exact if_pos hid.symm)).trans ?_
      rw [bcastAppend_isSome, hpeers]
      refine forall₂_congr fun p _ => ?_
      change (p ≠ t.id → _) ↔ _
      rw [hid]
      refine imp_congr_right fun hne => ?_
      rw [sendAppend_isSome, progress_setProgress, if_neg hne.symm, hprogress]
      change (∃ pr, _ ∧
        (t.raftLog.entries.length = 0 ∨ _ < t.raftLog.firstIndex + t.raftLog.entries.length)) ↔ _
      rw [hfirst, hlength]

theorem length_numberedFrom (term : Nat) : (numberedFrom term n es).length = es.length := by
  induction es generalizing n with
  | nil => rfl
  | cons e rest ih => rw [numberedFrom, List.length_cons, List.length_cons, ih]

theorem lastIndex_numberedFrom {l l' : RaftLog} {term : Nat} (hstorage : l'.storage = l.storage)
    (hentries : l'.entries = l.entries ++ numberedFrom term l.lastIndex es) (hlen : es.length ≤ 1) :
    l'.lastIndex = l.lastIndex + es.length := by
  match es, hlen with
  | [], _ =>
      rw [numberedFrom, List.append_nil] at hentries
      rw [RaftLog.lastIndex, hentries, hstorage]
      rfl
  | [e], _ =>
      rw [RaftLog.lastIndex, hentries, numberedFrom, numberedFrom, List.getLast?_concat]
      rfl

/-- What a proposal leaves, if it is carried through. -/
theorem appendEntries_extended (h : s.appendEntries es = some s') :
    Extended s (accepted (s.pendingConfIndex ≠ NONE) es) s' ↔
      (accepted (s.pendingConfIndex ≠ NONE) es).length ≤ 1 := by
  obtain ⟨-, added, hcore, -⟩ := proposeLoop_spec s.raftLog.lastIndex es s
  have hloop := proposeLoop_entries s.raftLog.lastIndex es s
  have hcore' := (appendEntries_spec h).1
  have hentries : s'.raftLog.entries = s.raftLog.entries ++
      (accepted (s.pendingConfIndex ≠ NONE) es).map (stamped s.term s.raftLog.lastIndex) := by
    rw [hcore'.raftLog]
    exact hloop
  constructor
  · intro hext
    exact map_stamped_eq_numberedFrom.mp (List.append_cancel_left (hentries.symm.trans hext.entries))
  · intro hlen
    have hnumbered := hentries.trans (congrArg (s.raftLog.entries ++ ·) (map_stamped_eq_numberedFrom.mpr hlen))
    refine ⟨hnumbered, ⟨{ matchIdx := s'.raftLog.lastIndex, next := s'.raftLog.lastIndex + 1 }, ?_, rfl⟩,
      lastIndex_numberedFrom ?_ hnumbered hlen⟩
    · rw [progress, hcore'.prs, hcore'.raftLog]
      change ((proposeLoop s.raftLog.lastIndex es s).setProgress _ _).progress s.id = _
      rw [progress_setProgress, if_pos hcore.id]
      rfl
    · rw [hcore'.raftLog]
      change (proposeLoop s.raftLog.lastIndex es s).raftLog.storage = _
      rw [hcore.raftLog]

/-- **Proposals extend the log contiguously** exactly when they bring at most one entry: the index of
every entry is computed from the log the proposal found. A proposal of a later term deposes the leader. -/
theorem step_extended_iff (hstate : s.state = .stateLeader) (hlead : s.leadTransferee = NONE)
    (hm : m.msgType = .msgPropose) (rand : Nat) :
    (∃ s', s.step m rand = some s' ∧ Extended s (accepted (s.pendingConfIndex ≠ NONE) m.entries) s') ↔
      (m.term ≤ s.term ∧ (accepted (s.pendingConfIndex ≠ NONE) m.entries).length ≤ 1 ∧
        s.CanBroadcast (accepted (s.pendingConfIndex ≠ NONE) m.entries).length) ∨
      (s.term < m.term ∧ accepted (s.pendingConfIndex ≠ NONE) m.entries = [] ∧
        ∃ pr, s.progress s.id = some pr ∧ pr.matchIdx = s.raftLog.lastIndex) := by
  have hnow : m.msgType = .msgTimeoutNow → s.prs.contains s.id = true := fun h => by cases hm.symm.trans h
  rcases Nat.lt_or_ge s.term m.term with hlater | hterm
  · -- the leader becomes a follower, which drops the proposal
    have hobs : s.observeTerm m = { s with leadTransferee := NONE }.becomeFollower m.term NONE := if_pos hlater
    have hstep : s.step m rand = some (s.observeTerm m) := by
      rw [step_follower hnow (by rw [hobs]; rfl), stepFollower, hm]
    rw [hstep, hobs, or_iff_right fun h => absurd h.1 (Nat.not_le.mpr hlater), and_iff_right hlater]
    constructor
    · rintro ⟨s', hs', hext⟩
      cases hs'
      have hnil := List.append_cancel_left ((List.append_nil _).trans hext.entries)
      refine ⟨List.length_eq_zero_iff.mp ?_, hext.matched⟩
      rw [← length_numberedFrom s.term, ← hnil, List.length_nil]
    · rintro ⟨hnil, hmatch⟩
      refine ⟨_, rfl, ?_, hmatch, ?_⟩
      · rw [hnil, numberedFrom, List.append_nil]
        rfl
      · rw [hnil, List.length_nil]
        rfl
  · have hstep : s.step m rand = s.appendEntries m.entries := by
      rw [step_leader hnow (by rw [observeTerm_of_le hterm]; exact hstate), observeTerm_of_le hterm,
        stepLeader, hm]
      exact if_pos hlead
    rw [hstep, or_iff_left fun h => absurd h.1 (Nat.not_lt.mpr hterm), and_iff_right hterm,
      ← appendEntries_isSome]
    constructor
    · rintro ⟨s', hs', hext⟩
      exact ⟨(appendEntries_extended hs').mp hext, by rw [hs']; rfl⟩
    · rintro ⟨hlen, hsome⟩
      obtain ⟨s', hs'⟩ := Option.isSome_iff_exists.mp hsome
      exact ⟨s', hs', (appendEntries_extended hs').mpr hlen⟩

/-- A proposal of `count` plain entries. -/
def proposal (count : Nat) : Message := { msgType := .msgPropose, entries := List.replicate count {} }

theorem leaderOfFour_canBroadcast (n : Nat) : leaderOfFour.CanBroadcast n := by
  have hall : ∀ p ∈ leaderOfFour.peers,
      (leaderOfFour.progress p).any (fun pr => u64Sub pr.next 1 ≤ 1) = true := by decide +kernel
  refine ⟨⟨⟨1, 2⟩, by decide +kernel⟩, fun p hp _ => ?_⟩
  obtain ⟨pr, hpr, hnext⟩ := (Option.any_eq_true _ _).mp (hall p hp)
  rw [decide_eq_true_eq] at hnext
  refine ⟨pr, hpr, .inr ?_⟩
  change u64Sub pr.next 1 < 1 + (1 + n)
  omega

theorem step_extended_iff_one : ∃ s', leaderOfFour.step (proposal 1) 0 = some s' ∧
    Extended leaderOfFour [{}] s' :=
  (step_extended_iff (m := proposal 1) rfl rfl rfl 0).mpr
    (.inl ⟨by decide, by decide, leaderOfFour_canBroadcast _⟩)

/-- Two entries at once: both get index 2. -/
theorem not_step_extended_two : ∃ s', leaderOfFour.step (proposal 2) 0 = some s' ∧
    s'.raftLog.entries.map Entry.index = [1, 2, 2] ∧ ¬Extended leaderOfFour [{}, {}] s' := by
  have hrun : (leaderOfFour.step (proposal 2) 0).any
      (fun s' => s'.raftLog.entries.map Entry.index = [1, 2, 2]) = true := by
    decide +kernel
  obtain ⟨s', hs', hindex⟩ := (Option.any_eq_true _ _).mp hrun
  rw [decide_eq_true_eq] at hindex
  refine ⟨s', hs', hindex, fun h => ?_⟩
  rw [h.entries] at hindex
  exact absurd hindex (by decide)

/-- The message does not disturb the leader: it is handled, and leaves its peers, what it has committed
and a transfer under way as they are. -/
def Undisturbed (s : RaftContext) (m : Message) (rand : Nat) : Prop :=
  ∃ s', s.step m rand = some s' ∧ s'.prs = s.prs ∧ s'.raftLog.commited = s.raftLog.commited ∧
    s'.leadTransferee = s.leadTransferee

theorem progress_of_not_mem (hp : p ∉ s.peers) : s.progress p = none := by
  cases hpr : s.progress p with
  | none => rfl
  | some pr => exact absurd (mem_peers_of_progress hpr) hp

theorem sendAppend_of_none (hnone : s.progress p = none) : s.sendAppend p = none := by
  rw [sendAppend, hnone]
  rfl

/-- The null pointer is used, unless the answer is dropped before. -/
theorem handleAppendEntriesResponse_of_none (hnone : s.progress m.fromId = none) :
    s.handleAppendEntriesResponse m =
      if (m.term ≠ NONE ∧ m.term < s.term) ∨ (m.reject = true ∧ m.index = NONE) then some s else none := by
  unfold handleAppendEntriesResponse
  rw [hnone]
  by_cases hstale : m.term ≠ NONE ∧ m.term < s.term
  · rw [if_pos hstale, if_pos (.inl hstale)]
  rw [if_neg hstale]
  by_cases hreject : m.reject = true
  · rw [if_pos hreject]
    by_cases hindex : m.index = NONE
    · rw [if_pos hindex, if_pos (.inr ⟨hreject, hindex⟩)]
    · rw [if_neg hindex, if_neg (not_or.mpr ⟨hstale, fun h => hindex h.2⟩)]
      cases s.rejectHint m <;> rfl
  · rw [if_neg hreject, if_neg (not_or.mpr ⟨hstale, fun h => hreject h.1⟩)]
    rfl

/-- The lookup leaves a key without a progress. -/
theorem handleTransferLeader_of_none (hnone : s.progress m.fromId = none) :
    s.handleTransferLeader m =
      if m.fromId = s.id ∨ (s.leadTransferee ≠ NONE ∧ s.leadTransferee = m.fromId) then some s
      else some { s with prs := s.prs.insert m.fromId none } := by
  unfold handleTransferLeader
  rw [hnone]
  by_cases hself : m.fromId = s.id
  · rw [if_pos hself, if_pos (.inl hself)]
  rw [if_neg hself]
  by_cases hsame : s.leadTransferee ≠ NONE ∧ s.leadTransferee = m.fromId
  · rw [if_pos hsame, if_pos (.inr hsame)]
  · rw [if_neg hsame, if_neg (not_or.mpr ⟨hself, hsame⟩)]

theorem prs_insert_ne (hp : p ∉ s.peers) : s.prs.insert p none ≠ s.prs := by
  intro h
  refine hp (mem_peers.mpr ?_)
  rw [← h]
  exact ExtTreeMap.mem_insert_self

/-- **A stranger does not disturb the leader** only where its message is dropped before its progress is
looked up. -/
theorem step_undisturbed_iff (hstate : s.state = .stateLeader) (hfrom : m.fromId ∉ s.peers)
    (hterm : m.term ≤ s.term) (rand : Nat)
    (hm : m.msgType = .msgAppendResponse ∨ m.msgType = .msgHeartbeatResponse ∨ m.msgType = .msgTransferLeader) :
    Undisturbed s m rand ↔
      (m.msgType = .msgAppendResponse ∧
        ((m.term ≠ NONE ∧ m.term < s.term) ∨ (m.reject = true ∧ m.index = NONE))) ∨
      (m.msgType = .msgTransferLeader ∧
        (m.fromId = s.id ∨ (s.leadTransferee ≠ NONE ∧ s.leadTransferee = m.fromId))) := by
  have hobs := observeTerm_of_le hterm
  have hnone := progress_of_not_mem hfrom
  have hstep : s.step m rand = s.stepLeader m rand := by
    rw [step_leader (fun h => ?_) (hobs.symm ▸ hstate), hobs]
    rcases hm with hm | hm | hm <;> cases hm.symm.trans h
  unfold Undisturbed
  rw [hstep, stepLeader]
  rcases hm with hm | hm | hm
  · rw [hm]
    dsimp only
    rw [handleAppendEntriesResponse_of_none hnone]
    split_ifs with hdrop
    · exact iff_of_true ⟨s, rfl, rfl, rfl, rfl⟩ (.inl ⟨rfl, hdrop⟩)
    · refine iff_of_false ?_ ?_
      · rintro ⟨s', hs', -⟩
        cases hs'
      · rintro (⟨-, h⟩ | ⟨h, -⟩)
        · exact hdrop h
        · cases h
  · rw [hm]
    dsimp only
    rw [sendAppend_of_none hnone]
    refine iff_of_false ?_ ?_
    · rintro ⟨s', hs', -⟩
      cases hs'
    · rintro (⟨h, -⟩ | ⟨h, -⟩) <;> cases h
  · rw [hm]
    dsimp only
    rw [handleTransferLeader_of_none hnone]
    split_ifs with hdrop
    · exact iff_of_true ⟨s, rfl, rfl, rfl, rfl⟩ (.inr ⟨rfl, hdrop⟩)
    · refine iff_of_false ?_ ?_
      · rintro ⟨s', hs', hprs, -⟩
        cases hs'
        exact prs_insert_ne hfrom hprs
      · rintro (⟨h, -⟩ | ⟨-, h⟩)
        · cases h
        · exact hdrop h

/-- The request to hand leadership to node 5, which is no peer. -/
def transferToFive : Message := { msgType := .msgTransferLeader, fromId := 5 }

/-- A stale answer of node 5 is dropped. -/
theorem step_undisturbed_iff_stale :
    Undisturbed leaderOfFour { msgType := .msgAppendResponse, fromId := 5, reject := true } 0 :=
  (step_undisturbed_iff rfl (by decide +kernel) (by decide) 0 (.inl rfl)).mpr (.inl ⟨rfl, .inr ⟨rfl, rfl⟩⟩)

/-- The request adds a fifth key to the peers. -/
theorem not_step_undisturbed : (∀ p ∈ leaderOfFour.peers, (leaderOfFour.progress p).isSome) ∧
    transferToFive.fromId ∉ leaderOfFour.peers ∧
    (leaderOfFour.step transferToFive 0).map (fun s' => s'.prs.size) = some 5 ∧
    ¬Undisturbed leaderOfFour transferToFive 0 := by
  have hfive : transferToFive.fromId ∉ leaderOfFour.peers := by decide +kernel
  have hrun : (leaderOfFour.step transferToFive 0).map (fun s' => s'.prs.size) = some 5 := by decide +kernel
  refine ⟨by decide +kernel, hfive, hrun, ?_⟩
  rintro ⟨s', hs', hprs, -⟩
  rw [hs', Option.map_some, hprs] at hrun
  exact absurd hrun (by decide +kernel)

end RaftContext

end Eraft
