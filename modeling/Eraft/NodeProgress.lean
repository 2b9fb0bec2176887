import Eraft.NodeRole

/-! What a step does to the progress map of a node: the map stays complete, and `match` is written in
three places, for the node itself when it is elected or proposes, and for the sender of an
acknowledgement. -/

open Std

namespace Eraft.RaftContext

variable {s s' : RaftContext} {m : Message} {members : Finset Nat}

/-- The peers of the node are the members, each with a progress. -/
structure Complete (members : Finset Nat) (s : RaftContext) : Prop where
  peers : s.peers = members
  progress : ∀ j ∈ members, ∃ pr, s.progress j = some pr

theorem Complete.of_prs (h : Complete members s) (hprs : s'.prs = s.prs) : Complete members s' := by
  refine ⟨?_, fun j hj => ?_⟩
  · rw [RaftContext.peers, hprs]
    exact h.peers
  · obtain ⟨pr, hpr⟩ := h.progress j hj
    refine ⟨pr, ?_⟩
    rw [RaftContext.progress, hprs]
    exact hpr

theorem Complete.setProgress (h : Complete members s) {id : Nat} (hid : id ∈ members)
    (pr : Progress) : Complete members (s.setProgress id pr) := by
  refine ⟨(peers_setProgress pr (h.peers.symm ▸ hid)).trans h.peers, fun j hj => ?_⟩
  rw [progress_setProgress]
  split_ifs
  · exact ⟨pr, rfl⟩
  · exact h.progress j hj

theorem Complete.leaderState (h : Complete members s) : Complete members s.leaderState := by
  refine ⟨(peers_leaderState s).trans h.peers, fun j hj => ?_⟩
  obtain ⟨pr, hpr⟩ := h.progress j hj
  rw [progress_leaderState, hpr]
  exact ⟨_, rfl⟩

theorem CoreStep.complete (h : CoreStep s m s') (hM : Complete members s) (hid : s.id ∈ members)
    (hsnap : m.msgType ≠ .msgSnapshot) (hfrom : m.msgType = .msgTransferLeader → m.fromId ∈ members) :
    Complete members s' := by
  have hpeer : ∀ {pr}, s.progress m.fromId = some pr → m.fromId ∈ members := fun hpr =>
    hM.peers ▸ mem_peers_of_progress hpr
  cases h with
  | same h => exact hM.of_prs h.prs
  | follow _ _ h => exact hM.of_prs (h.prs.trans fallback_prs)
  | append _ h => exact hM.of_prs (h.prs.trans fallback_prs)
  | campaign _ _ _ h => exact hM.of_prs h.prs
  | alone _ _ _ h =>
      have hcand : Complete members s.becomeCandidate := hM.of_prs rfl
      exact hcand.leaderState.of_prs h.prs
  | grant _ _ _ h => exact hM.of_prs h.prs
  | record _ _ _ h => exact hM.of_prs h.prs
  | lose _ _ _ _ _ h => exact hM.of_prs h.prs
  | win _ _ _ _ h =>
      have hrec : Complete members (s.recordVote m) := hM.of_prs rfl
      exact hrec.leaderState.of_prs h.prs
  | propose _ _ h =>
      obtain ⟨_, _, hloop, _⟩ := proposeLoop_spec s.raftLog.lastIndex m.entries s
      have hprop : Complete members (proposeLoop s.raftLog.lastIndex m.entries s) :=
        hM.of_prs hloop.prs
      exact (hprop.setProgress (hloop.id.symm ▸ hid) _).of_prs h.prs
  | nack _ _ _ _ _ _ hpr h => exact (hM.setProgress (hpeer hpr) _).of_prs h.prs
  | ack _ _ _ _ hpr _ h => exact (hM.setProgress (hpeer hpr) _).of_prs h.prs
  | commit _ _ _ _ hpr _ _ h => exact (hM.setProgress (hpeer hpr) _).of_prs h.prs
  | phantom hm _ hnone _ =>
      obtain ⟨pr, hpr⟩ := hM.progress _ (hfrom hm)
      exact absurd (hnone.symm.trans hpr) (by simp)
  | snapshot hm => exact absurd hm hsnap

/-- `prs_[peer]->match`; 0 for an id without a progress. -/
def matchOf (s : RaftContext) (peer : Nat) : Nat := ((s.progress peer).map Progress.matchIdx).getD 0

theorem matchOf_of_progress {peer : Nat} {pr : Progress} (h : s.progress peer = some pr) :
    s.matchOf peer = pr.matchIdx := by
  rw [matchOf, h]
  rfl

theorem matchOf_of_prs (h : s'.prs = s.prs) (peer : Nat) : s'.matchOf peer = s.matchOf peer := by
  rw [matchOf, matchOf, progress, progress, h]

theorem matchOf_setProgress (s : RaftContext) (id peer : Nat) (pr : Progress) :
    (s.setProgress id pr).matchOf peer = if peer = id then pr.matchIdx else s.matchOf peer := by
  rw [matchOf, progress_setProgress]
  by_cases hid : id = peer
  · rw [if_pos hid, if_pos hid.symm]
    rfl
  · rw [if_neg hid, if_neg fun h => hid h.symm]
    rfl

theorem matchOf_leaderState (hid : ∃ pr, s.progress s.id = some pr) (peer : Nat) :
    s.leaderState.matchOf peer = if peer = s.id then s.raftLog.lastIndex + 1 else s.matchOf peer := by
  rw [matchOf, progress_leaderState]
  split_ifs with h
  · obtain ⟨pr, hpr⟩ := hid
    rw [h, hpr]
    rfl
  · rw [matchOf, Option.map_map]
    rfl

/-- What a message can do to the `match` of the peers. -/
inductive MatchStep (s : RaftContext) (m : Message) (s' : RaftContext) : Prop
  | keep (hstate : s'.state = .stateLeader → s.state = .stateLeader)
      (h : ∀ peer, s'.matchOf peer = s.matchOf peer)
  | lead (hstate : s.state ≠ .stateLeader)
      (h : ∀ peer, s'.matchOf peer = if peer = s.id then s.raftLog.lastIndex + 1 else s.matchOf peer)
  | propose (hstate : s.state = .stateLeader)
      (h : ∀ peer, s'.matchOf peer = if peer = s.id then s'.raftLog.lastIndex else s.matchOf peer)
  | ack (hm : m.msgType = .msgAppendResponse) (hstate : s.state = .stateLeader) (hcur : Current s m)
      (hreject : m.reject = false)
      (h : ∀ peer, s'.matchOf peer = if peer = m.fromId then m.index else s.matchOf peer)

theorem CoreStep.matches (h : CoreStep s m s') (hid : ∃ pr, s.progress s.id = some pr)
    (hsnap : m.msgType ≠ .msgSnapshot) : MatchStep s m s' := by
  have hkeep : ∀ {t : RaftContext}, SameCore t s' → (t.state = .stateLeader → s.state = .stateLeader) →
      t.prs = s.prs → MatchStep s m s' := fun h hstate hprs =>
    .keep (fun hleader => hstate (h.state.symm.trans hleader)) (matchOf_of_prs (h.prs.trans hprs))
  cases h with
  | same h | grant _ _ _ h | record _ _ _ h => exact hkeep h (fun hstate => hstate) rfl
  | follow _ _ h | append _ h => exact hkeep h fallback_leader fallback_prs
  | campaign _ _ _ h | lose _ _ _ _ _ h => exact hkeep h nofun rfl
  | alone _ hstate _ h =>
      refine .lead hstate fun peer => ?_
      exact (matchOf_of_prs h.prs peer).trans (matchOf_leaderState (s := s.becomeCandidate) hid peer)
  | win _ hcand _ _ h =>
      refine .lead (by rw [hcand]; decide) fun peer => ?_
      exact (matchOf_of_prs h.prs peer).trans (matchOf_leaderState (s := s.recordVote m) hid peer)
  | propose _ hstate h =>
      obtain ⟨_, _, hloop, _⟩ := proposeLoop_spec s.raftLog.lastIndex m.entries s
      refine .propose hstate fun peer => ?_
      rw [matchOf_of_prs (s := (proposeLoop s.raftLog.lastIndex m.entries s).setProgress _ _) h.prs,
        matchOf_setProgress, hloop.id, matchOf_of_prs hloop.prs, h.raftLog]
      rfl
  | nack _ hstate _ _ _ _ hpr h =>
      refine .keep (fun _ => hstate) fun peer => ?_
      rw [matchOf_of_prs h.prs, matchOf_setProgress]
      split_ifs with hpeer
      · rw [hpeer, matchOf_of_progress hpr]
      · rfl
  | ack hm hstate hcur hreject hpr _ h =>
      refine .ack hm hstate hcur hreject fun peer => ?_
      rw [matchOf_of_prs h.prs, matchOf_setProgress]
  | commit hm hstate hcur hreject hpr _ _ h =>
      refine .ack hm hstate hcur hreject fun peer => ?_
      rw [matchOf_of_prs (s := s.setProgress _ _) h.prs, matchOf_setProgress]
  | phantom _ hstate hnone h =>
      refine .keep (fun _ => hstate) fun peer => ?_
      rw [matchOf_of_prs h.prs, matchOf, progress, ExtTreeMap.getElem?_insert]
      split_ifs with hpeer
      · rw [Nat.compare_eq_eq] at hpeer
        rw [matchOf, ← hpeer, hnone]
        rfl
      · rfl
  | snapshot hm => exact absurd hm hsnap

end Eraft.RaftContext
