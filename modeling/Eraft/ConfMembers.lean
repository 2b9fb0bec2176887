import Eraft.RawNode
import Eraft.NodeQuorum
import Eraft.ClusterPlay

/-! Membership changes. `ApplyConfChange` is to keep the key set of `prs_` equal to the set of members.
It does so for additions and for removals of members; removing an unknown id leaves a null pointer
under it, and a leader that removes its last member reads outside an empty match vector. The
configuration it returns is empty. -/

open Std

namespace Eraft

/-- The set of members after a change. -/
def ConfChange.apply (cc : ConfChange) (members : Finset Nat) : Finset Nat :=
  match cc.changeType with
  | .addNode => insert cc.nodeId members
  | .removeNode => members.erase cc.nodeId

namespace RaftContext

/-- `LeaderCommit` reads its match vector inside its bounds. -/
def ReadsMatch (s : RaftContext) : Prop :=
  ∃ matched n, s.prs.toList.mapM (fun peer => peer.2.map Progress.matchIdx) = some matched ∧
    (matched.insertionSort (· ≤ ·))[s.commitThresh]? = some n

variable {s s' : RaftContext} {members : Finset Nat} {id : Nat}

theorem Complete.mem (h : Complete members s) : id ∈ members ↔ ∃ pr, s.progress id = some pr := by
  refine ⟨h.progress id, fun ⟨pr, hpr⟩ => ?_⟩
  rw [← h.peers]
  exact mem_peers_of_progress hpr

theorem Complete.progress_of_not_mem (h : Complete members s) (hid : id ∉ members) :
    s.progress id = none := by
  rw [Option.eq_none_iff_forall_ne_some]
  exact fun pr hpr => hid (h.mem.mpr ⟨pr, hpr⟩)

/-- The match vector has an element for every member, so that reading it fails only without any. -/
theorem Complete.readsMatch_iff (h : Complete members s) : s.ReadsMatch ↔ members ≠ ∅ := by
  have hsize : s.prs.size = members.card := by rw [← card_peers, h.peers]
  have hdefined : ∀ peer ∈ s.prs.toList, ∃ n, peer.2.map Progress.matchIdx = some n := by
    rintro ⟨k, p⟩ hmem
    have hget := ExtTreeMap.mem_toList_iff_getElem?_eq_some.mp hmem
    have hk : k ∈ members := by
      rw [← h.peers, mem_peers, ExtTreeMap.mem_iff_isSome_getElem?, hget]
      rfl
    obtain ⟨pr, hpr⟩ := h.progress k hk
    rw [RaftContext.progress, hget] at hpr
    exact ⟨pr.matchIdx, by rw [show p = some pr from hpr]; rfl⟩
  obtain ⟨matched, hmatched⟩ := Quorum.exists_mapM hdefined
  have hlen : (matched.insertionSort (· ≤ ·)).length = members.card := by
    rw [(List.perm_insertionSort (· ≤ ·) matched).length_eq,
      (Quorum.countP_mapM hmatched fun _ => true).1, ExtTreeMap.length_toList, hsize]
  constructor
  · rintro ⟨matched', n, hmatched', hn⟩ rfl
    rw [← Option.some.inj (hmatched.symm.trans hmatched'), List.getElem?_eq_none] at hn
    · cases hn
    · rw [hlen, Finset.card_empty]
      exact Nat.zero_le _
  · intro hne
    have hpos : 0 < members.card := Finset.card_pos.mpr (Finset.nonempty_iff_ne_empty.mpr hne)
    have hthresh := commitThresh_le (hsize ▸ hpos)
    have hlt : s.commitThresh < (matched.insertionSort (· ≤ ·)).length := by omega
    exact ⟨matched, _, hmatched, List.getElem?_eq_getElem hlt⟩

/-- The state without the peer `id`. -/
def erase (s : RaftContext) (id : Nat) : RaftContext := { s with prs := s.prs.erase id }

theorem Complete.erase (h : Complete members s) (id : Nat) : Complete (members.erase id) (s.erase id) := by
  refine ⟨?_, fun j hj => ?_⟩
  · ext j
    rw [mem_peers, RaftContext.erase, ExtTreeMap.mem_erase, ← mem_peers, h.peers, Finset.mem_erase,
      Ne, Nat.compare_eq_eq, eq_comm]
  · obtain ⟨hne, hj⟩ := Finset.mem_erase.mp hj
    obtain ⟨pr, hpr⟩ := h.progress j hj
    refine ⟨pr, ?_⟩
    rw [RaftContext.progress, RaftContext.erase, ExtTreeMap.getElem?_erase,
      if_neg (by rw [Nat.compare_eq_eq]; exact hne.symm)]
    exact hpr

theorem addNode_prs (s : RaftContext) (id : Nat) :
    (s.addNode id).prs = match s.progress id with
      | none => s.prs.insert id (some { next := 6 })
      | some _ => s.prs := by
  unfold addNode
  cases s.progress id <;> rfl

theorem addNode_state (s : RaftContext) (id : Nat) : (s.addNode id).state = s.state := by
  unfold addNode
  cases s.progress id <;> rfl

theorem Complete.addNode (h : Complete members s) (id : Nat) :
    Complete (insert id members) (s.addNode id) := by
  by_cases hid : id ∈ members
  · obtain ⟨pr, hpr⟩ := h.progress id hid
    have hprs := addNode_prs s id
    rw [hpr] at hprs
    rw [Finset.insert_eq_of_mem hid]
    exact h.of_prs hprs
  · have hprs := addNode_prs s id
    rw [h.progress_of_not_mem hid] at hprs
    have hset : Complete (insert id members) (s.setProgress id { next := 6 }) := by
      refine ⟨?_, fun j hj => ?_⟩
      · ext j
        rw [mem_peers, RaftContext.setProgress, ExtTreeMap.mem_insert, ← mem_peers, h.peers,
          Finset.mem_insert, Nat.compare_eq_eq, eq_comm]
      · rw [progress_setProgress]
        split_ifs with heq
        · exact ⟨_, rfl⟩
        · exact h.progress j (Finset.mem_of_mem_insert_of_ne hj fun hj => heq hj.symm)
    exact hset.of_prs hprs

/-- Removing an unknown id makes it known. -/
theorem removeNode_of_none (hid : s.progress id = none) :
    s.removeNode id = some { s with prs := s.prs.insert id none, pendingConfIndex := NONE } := by
  unfold removeNode
  rw [hid]
  rfl

theorem removeNode_of_some {pr : Progress} (hid : s.progress id = some pr) :
    s.removeNode id = (if s.state = .stateLeader then (s.erase id).leaderCommit else some (s.erase id)).map
      fun s => { s with pendingConfIndex := NONE } := by
  unfold removeNode
  rw [hid, Option.map_eq_bind]
  dsimp only
  by_cases hstate : s.state = .stateLeader
  · rw [if_pos hstate, if_pos hstate]
    rfl
  · rw [if_neg hstate, if_neg hstate]
    rfl

theorem removeNode_keeps {pr : Progress} (hid : s.progress id = some pr) (h : s.removeNode id = some s') :
    s'.prs = s.prs.erase id ∧ s'.state = s.state := by
  rw [removeNode_of_some hid] at h
  obtain ⟨t, ht, rfl⟩ := Option.map_eq_some_iff.mp h
  split_ifs at ht with hstate
  · rcases leaderCommit_spec ht with rfl | ⟨n, ms, _, rfl, _⟩ <;> exact ⟨rfl, rfl⟩
  · cases ht
    exact ⟨rfl, rfl⟩

end RaftContext

namespace RawNode

open RaftContext

/-- What one call is to do: the keys of `prs_` are the new set of members, each with a progress, and a
change that leaves the set as it is leaves every progress as it is. -/
structure Changed (members : Finset Nat) (cc : ConfChange) (n n' : RawNode) : Prop where
  complete : n'.raft.Complete (cc.apply members)
  same : cc.apply members = members → n'.raft.prs = n.raft.prs

/-- Every call of the sequence returns, changes the membership as it should and returns the
configuration that lists it. -/
def Applied : List ConfChange → Finset Nat → RawNode → Prop
  | [], _, _ => True
  | cc :: ccs, members, n => ∃ confState n', n.applyConfChange cc = some (confState, n') ∧
      Changed members cc n n' ∧ confState.nodes.toFinset = cc.apply members ∧
      Applied ccs (cc.apply members) n'

/-- The call is a removal after which a leader looks for a new commit index. -/
def Recounts (n : RawNode) (cc : ConfChange) : Prop :=
  cc.changeType = .removeNode ∧ n.raft.state = .stateLeader ∧ ∃ pr, n.raft.progress cc.nodeId = some pr

/-- The same without the configuration that is returned. A call that does not make a leader look for a
new commit index returns; one that does reads its match vector inside its bounds. What else
`LeaderCommit` reads and sends then is left open here. -/
def Kept : List ConfChange → Finset Nat → RawNode → Prop
  | [], _, _ => True
  | cc :: ccs, members, n =>
      (Recounts n cc → (n.raft.erase cc.nodeId).ReadsMatch) ∧
      (¬Recounts n cc → (n.applyConfChange cc).isSome = true) ∧
      ∀ confState n', n.applyConfChange cc = some (confState, n') →
        Changed members cc n n' ∧ Kept ccs (cc.apply members) n'

/-- Every call of the sequence adds a node or removes a member, but not the last one of a leader. -/
def Fits : List ConfChange → Finset Nat → RawNode → Prop
  | [], _, _ => True
  | cc :: ccs, members, n =>
      (cc.changeType = .addNode ∨
        (cc.nodeId ∈ members ∧ (n.raft.state = .stateLeader → members ≠ {cc.nodeId}))) ∧
      ∀ confState n', n.applyConfChange cc = some (confState, n') → Fits ccs (cc.apply members) n'

variable {n n' : RawNode} {members : Finset Nat} {cc : ConfChange} {confState : ConfState}

theorem applyConfChange_add {id : Nat} (hid : id ≠ NONE) :
    n.applyConfChange ⟨.addNode, id⟩ = some ({}, { n with raft := n.raft.addNode id }) :=
  if_neg fun h => hid h.1

theorem applyConfChange_remove {id : Nat} (hid : id ≠ NONE) :
    n.applyConfChange ⟨.removeNode, id⟩ =
      (n.raft.removeNode id).map fun raft => ({}, { n with raft := raft }) := by
  unfold applyConfChange
  rw [if_neg fun h => hid h.1, Option.map_eq_bind]
  rfl

theorem applyConfChange_spec (h : n.applyConfChange cc = some (confState, n')) :
    (cc.changeType = .addNode ∧ n'.raft = n.raft.addNode cc.nodeId) ∨
      (cc.changeType = .removeNode ∧ n.raft.removeNode cc.nodeId = some n'.raft) := by
  obtain ⟨ty, id⟩ := cc
  unfold applyConfChange at h
  split_ifs at h
  cases ty with
  | addNode =>
      cases h
      exact .inl ⟨rfl, rfl⟩
  | removeNode =>
      obtain ⟨raft, hraft, h⟩ := Option.bind_eq_some_iff.mp h
      cases h
      exact .inr ⟨rfl, hraft⟩

theorem applyConfChange_confState (hid : cc.nodeId ≠ NONE)
    (h : n.applyConfChange cc = some (confState, n')) : confState = {} := by
  obtain ⟨ty, id⟩ := cc
  cases ty with
  | addNode =>
      rw [applyConfChange_add hid] at h
      cases h
      rfl
  | removeNode =>
      rw [applyConfChange_remove hid] at h
      obtain ⟨raft, _, h⟩ := Option.map_eq_some_iff.mp h
      cases h
      rfl

theorem Changed.add (h : n.raft.Complete members) (id : Nat) :
    Changed members ⟨.addNode, id⟩ n { n with raft := n.raft.addNode id } := by
  refine ⟨h.addNode id, fun hsame => ?_⟩
  obtain ⟨pr, hpr⟩ := h.progress id (Finset.insert_eq_self.mp hsame)
  have hprs := addNode_prs n.raft id
  rw [hpr] at hprs
  exact hprs

theorem Changed.remove (h : n.raft.Complete members) {id : Nat} (hid : id ∈ members) {raft : RaftContext}
    (hraft : n.raft.removeNode id = some raft) :
    Changed members ⟨.removeNode, id⟩ n { n with raft := raft } := by
  obtain ⟨pr, hpr⟩ := h.progress id hid
  refine ⟨(h.erase id).of_prs (removeNode_keeps hpr hraft).1, fun hsame => ?_⟩
  exact absurd hid (Finset.erase_eq_self.mp hsame)

/-- Removing an unknown id never does what it should. -/
theorem not_changed_of_not_mem (h : n.raft.Complete members) {id : Nat} (hid : id ≠ NONE)
    (hnot : id ∉ members) :
    ∃ n', n.applyConfChange ⟨.removeNode, id⟩ = some ({}, n') ∧ ¬Changed members ⟨.removeNode, id⟩ n n' := by
  refine ⟨_, by rw [applyConfChange_remove hid, removeNode_of_none (h.progress_of_not_mem hnot)]; rfl, ?_⟩
  intro hchanged
  have hpeers := hchanged.complete.peers
  have hmem : id ∈ ({ n.raft with prs := n.raft.prs.insert id none, pendingConfIndex := NONE } :
      RaftContext).peers := by
    rw [mem_peers, ExtTreeMap.mem_insert, Nat.compare_eq_eq]
    exact .inl rfl
  rw [hpeers] at hmem
  exact Finset.notMem_erase id members hmem

theorem leaderCommit_readsMatch {s s' : RaftContext} (h : s.leaderCommit = some s') : s.ReadsMatch := by
  unfold leaderCommit at h
  simp only [Option.bind_eq_bind, Option.bind_eq_some_iff] at h
  obtain ⟨matched, hmatched, k, hk, _⟩ := h
  exact ⟨matched, k, hmatched, hk⟩

/-- **One call**, for a node whose peers are the members. -/
theorem kept_call_iff (h : n.raft.Complete members) (hid : cc.nodeId ≠ NONE) :
    ((Recounts n cc → (n.raft.erase cc.nodeId).ReadsMatch) ∧
      (¬Recounts n cc → (n.applyConfChange cc).isSome = true) ∧
      ∀ confState n', n.applyConfChange cc = some (confState, n') → Changed members cc n n') ↔
    (cc.changeType = .addNode ∨
      (cc.nodeId ∈ members ∧ (n.raft.state = .stateLeader → members ≠ {cc.nodeId}))) := by
  obtain ⟨ty, id⟩ := cc
  cases ty with
  | addNode =>
      refine iff_of_true ⟨fun hre => (nomatch hre.1), fun _ => ?_, fun confState n' happly => ?_⟩ (.inl rfl)
      · rw [applyConfChange_add hid]
        rfl
      · rw [applyConfChange_add hid] at happly
        cases happly
        exact .add h id
  | removeNode =>
      by_cases hmem : id ∈ members
      · obtain ⟨pr, hpr⟩ := h.progress id hmem
        have hreads : (n.raft.erase id).ReadsMatch ↔ members ≠ {id} := by
          rw [(h.erase id).readsMatch_iff, Ne, Finset.erase_eq_empty_iff, not_or,
            and_iff_right (Finset.ne_empty_of_mem hmem)]
        have hchanged : ∀ confState n', n.applyConfChange ⟨.removeNode, id⟩ = some (confState, n') →
            Changed members ⟨.removeNode, id⟩ n n' := by
          intro confState n' happly
          rw [applyConfChange_remove hid] at happly
          obtain ⟨raft, hraft, happly⟩ := Option.map_eq_some_iff.mp happly
          cases happly
          exact .remove h hmem hraft
        constructor
        · rintro ⟨hrange, _, _⟩
          exact .inr ⟨hmem, fun hstate => hreads.mp (hrange ⟨rfl, hstate, pr, hpr⟩)⟩
        · rintro (hty | ⟨_, hlast⟩)
          · cases hty
          · refine ⟨fun hre => hreads.mpr (hlast hre.2.1), fun hre => ?_, hchanged⟩
            have hstate : n.raft.state ≠ .stateLeader := fun hstate => hre ⟨rfl, hstate, pr, hpr⟩
            rw [applyConfChange_remove hid, removeNode_of_some hpr, if_neg hstate]
            rfl
      · obtain ⟨n', happly, hnot⟩ := not_changed_of_not_mem h hid hmem
        refine iff_of_false (fun hkept => hnot (hkept.2.2 {} n' happly)) ?_
        rintro (hty | ⟨hmem', _⟩)
        · cases hty
        · exact hmem hmem'

theorem kept_iff_fits {ccs : List ConfChange} (h : n.raft.Complete members)
    (hids : ∀ cc ∈ ccs, cc.nodeId ≠ NONE) : Kept ccs members n ↔ Fits ccs members n := by
  -- induction on the calls; each one leaves a node whose peers are the new members
  induction ccs generalizing members n with
  | nil => exact Iff.rfl
  | cons cc ccs ih =>
      obtain ⟨hid, hids⟩ := List.forall_mem_cons.mp hids
      have hcall := kept_call_iff h hid
      constructor
      · rintro ⟨hrange, hreturns, hrest⟩
        refine ⟨hcall.mp ⟨hrange, hreturns, fun c n' happly => (hrest c n' happly).1⟩, ?_⟩
        intro c n' happly
        obtain ⟨hchanged, hkept⟩ := hrest c n' happly
        exact (ih hchanged.complete hids).mp hkept
      · rintro ⟨hfit, hrest⟩
        obtain ⟨hrange, hreturns, hchanged⟩ := hcall.mpr hfit
        refine ⟨hrange, hreturns, fun c n' happly => ⟨hchanged c n' happly, ?_⟩⟩
        exact (ih (hchanged c n' happly).complete hids).mpr (hrest c n' happly)

/-- A call does everything it should only if it leaves no members. -/
theorem applied_call (h : n.raft.Complete members) (hid : cc.nodeId ≠ NONE)
    (happly : n.applyConfChange cc = some (confState, n')) (hchanged : Changed members cc n n')
    (hconf : confState.nodes.toFinset = cc.apply members) :
    cc.changeType = .removeNode ∧ members = {cc.nodeId} ∧ n.raft.state ≠ .stateLeader := by
  rw [applyConfChange_confState hid happly] at hconf
  have hempty : cc.apply members = ∅ := hconf.symm
  obtain ⟨ty, id⟩ := cc
  cases ty with
  | addNode => exact absurd hempty (Finset.insert_ne_empty id members)
  | removeNode =>
      have hmem : id ∈ members := by
        by_contra hnot
        obtain ⟨n₁, happly₁, hwrong⟩ := not_changed_of_not_mem h hid hnot
        rw [happly] at happly₁
        cases happly₁
        exact hwrong hchanged
      have hone : members = {id} :=
        (Finset.erase_eq_empty_iff members id).mp hempty |>.resolve_left (Finset.ne_empty_of_mem hmem)
      refine ⟨rfl, hone, fun hstate => ?_⟩
      obtain ⟨pr, hpr⟩ := h.progress id hmem
      rw [applyConfChange_remove hid, removeNode_of_some hpr, if_pos hstate] at happly
      obtain ⟨raft, hraft, _⟩ := Option.map_eq_some_iff.mp happly
      obtain ⟨t, ht, _⟩ := Option.map_eq_some_iff.mp hraft
      exact (h.erase id).readsMatch_iff.mp (leaderCommit_readsMatch ht) hempty

/-- **Membership is a set**, as far as it is. Sequences of changes after which everything holds,
the returned configuration included, are empty or remove the only member of a node that does not
lead. Without the returned configuration they are those that only add nodes and remove members, but
not the last one of a leader. -/
theorem membership_is_set_iff {ccs : List ConfChange} (h : n.raft.Complete members)
    (hids : ∀ cc ∈ ccs, cc.nodeId ≠ NONE) :
    (Applied ccs members n ↔ ccs = [] ∨ ∃ id, ccs = [⟨.removeNode, id⟩] ∧ members = {id} ∧
      n.raft.state ≠ .stateLeader) ∧
    (Kept ccs members n ↔ Fits ccs members n) := by
  refine ⟨⟨fun happlied => ?_, ?_⟩, kept_iff_fits h hids⟩
  · match ccs, hids, happlied with
    | [], _, _ => exact .inl rfl
    | cc :: ccs, hids, ⟨confState, n', happly, hchanged, hconf, happlied⟩ =>
        obtain ⟨hid, hids⟩ := List.forall_mem_cons.mp hids
        obtain ⟨hty, hone, hstate⟩ := applied_call h hid happly hchanged hconf
        have hempty : cc.apply members = ∅ := by
          rw [ConfChange.apply, hty, hone]
          exact Finset.erase_singleton _
        match ccs, hids, happlied with
        | [], _, _ =>
            obtain ⟨ty, id⟩ := cc
            cases hty
            exact .inr ⟨id, rfl, hone, hstate⟩
        | cc' :: ccs, hids, ⟨confState', n'', happly', hchanged', hconf', _⟩ =>
            have hid' := (List.forall_mem_cons.mp hids).1
            obtain ⟨_, hone', _⟩ := applied_call hchanged.complete hid' happly' hchanged' hconf'
            rw [hempty] at hone'
            exact absurd hone'.symm (Finset.singleton_ne_empty _)
  · rintro (rfl | ⟨id, rfl, rfl, hstate⟩)
    · exact trivial
    · have hid : id ≠ NONE := hids ⟨.removeNode, id⟩ (List.mem_singleton.mpr rfl)
      obtain ⟨pr, hpr⟩ := h.progress id (Finset.mem_singleton_self id)
      have hraft : n.raft.removeNode id = some { n.raft.erase id with pendingConfIndex := NONE } := by
        rw [removeNode_of_some hpr, if_neg hstate]
        rfl
      refine ⟨{}, { n with raft := { n.raft.erase id with pendingConfIndex := NONE } }, ?_,
        .remove h (Finset.mem_singleton_self id) hraft, ?_, trivial⟩
      · rw [applyConfChange_remove hid, hraft]
        rfl
      · exact (Finset.erase_singleton id).symm

/-- A node of a cluster that was just started. -/
def booted (peers : List Nat) (i : Nat) : RawNode := { raft := Cluster.bootNode peers i, prevHardSt := {} }

theorem booted_complete {peers : List Nat} (hpeers : 0 ∉ peers) {i : Nat} (hi : i ∈ peers) :
    (booted peers i).raft.Complete peers.toFinset :=
  (Cluster.boot_started hpeers).shape.complete i (List.mem_toFinset.mpr hi)

/-- A fourth node joins and the second one leaves. -/
theorem membership_is_set_iff_swap :
    Kept [⟨.addNode, 4⟩, ⟨.removeNode, 2⟩] [1, 2, 3].toFinset (booted [1, 2, 3] 1) := by
  refine (membership_is_set_iff (booted_complete (by decide) (by decide)) (by decide)).2.mpr ?_
  refine ⟨.inl rfl, fun _ _ _ => ⟨.inr ⟨by decide, fun _ => by decide⟩, fun _ _ _ => trivial⟩⟩

/-- Adding a fourth node returns no configuration, removing a ninth one leaves a null pointer under its
id, and a node that leads alone cannot leave. -/
theorem not_membership_is_set_absent :
    ((booted [1, 2, 3] 1).applyConfChange ⟨.addNode, 4⟩).map (fun r => (r.1.nodes, r.2.raft.prs.keys)) =
      some ([], [1, 2, 3, 4]) ∧
    ((booted [1, 2, 3] 1).applyConfChange ⟨.removeNode, 9⟩).map
      (fun r => (r.2.raft.prs.keys, r.2.raft.progress 9)) = some ([1, 2, 3, 9], none) ∧
    ((booted [1] 1).campaign 0).map
      (fun n => (n.raft.state, (n.applyConfChange ⟨.removeNode, 1⟩).isSome)) = some (.stateLeader, false) := by
  decide +kernel

end RawNode

end Eraft
