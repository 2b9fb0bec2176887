import Eraft.NodeTally
import Eraft.NodeLog
import Eraft.NodeProgress

/-! When a leader commits. Whatever a majority of the peers has reached in the leader's own term is
committed as soon as `LeaderCommit` has run: the position it reads in the sorted match vector is never
above the middle, whether a configuration change is pending or not. -/

open Std Quorum TermLog

namespace Eraft.RaftContext

variable {s s' t : RaftContext} {m : Message} {members : Finset Nat} {n f : Nat}

/-- The entry at `n` is of the leader's term and a majority of the peers has reached it, but the leader
has not committed it. -/
structure Overdue (s : RaftContext) (n : Nat) : Prop where
  behind : s.raftLog.commited < n
  ownTerm : lastTerm Entry.term (s.raftLog.entries.take n) = s.term
  majority : s.prs.size < 2 * (s.matchQuorum n).card

theorem Complete.mem_matchQuorum (h : Complete members s) :
    f ∈ s.matchQuorum n ↔ f ∈ members ∧ n ≤ s.matchOf f := by
  rw [RaftContext.mem_matchQuorum]
  constructor
  · rintro ⟨pr, hpr, hle⟩
    exact ⟨h.peers ▸ mem_peers_of_progress hpr, matchOf_of_progress hpr ▸ hle⟩
  · rintro ⟨hf, hle⟩
    obtain ⟨pr, hpr⟩ := h.progress f hf
    exact ⟨pr, hpr, matchOf_of_progress hpr ▸ hle⟩

theorem Complete.matchQuorum_subset (h : Complete members s) (h' : Complete members s')
    (hmatch : ∀ f ∈ members, n ≤ s'.matchOf f → n ≤ s.matchOf f) : s'.matchQuorum n ⊆ s.matchQuorum n := by
  intro f hf
  obtain ⟨hmem, hle⟩ := h'.mem_matchQuorum.mp hf
  exact h.mem_matchQuorum.mpr ⟨hmem, hmatch f hmem hle⟩

theorem Complete.size_eq (h : Complete members s) : s.prs.size = members.card := by
  rw [← card_peers, h.peers]

theorem Overdue.congr (hsame : SameCore s s') (h : Overdue s' n) : Overdue s n := by
  obtain ⟨hbehind, hown, hmost⟩ := h
  rw [hsame.raftLog] at hbehind hown
  rw [hsame.term] at hown
  rw [matchQuorum, hsame.prs] at hmost
  exact ⟨hbehind, hown, hmost⟩

/-- What is overdue after a step was overdue before, if the step has not moved the commit index back and
no peer has got to `n`. -/
theorem Overdue.before (h : Overdue s' n) (hc : Complete members s) (hc' : Complete members s')
    (hmatch : ∀ f ∈ members, n ≤ s'.matchOf f → n ≤ s.matchOf f) (hterm : s'.term = s.term)
    (hcommit : s.raftLog.commited ≤ s'.raftLog.commited)
    (hlog : s.raftLog.entries.take n = s'.raftLog.entries.take n) : Overdue s n := by
  refine ⟨hcommit.trans_lt h.behind, ?_, ?_⟩
  · rw [hlog, h.ownTerm, hterm]
  · have hmost := h.majority
    have hsub := Finset.card_le_card (hc.matchQuorum_subset hc' hmatch)
    rw [hc'.size_eq, ← hc.size_eq] at hmost
    omega

/-- A leader that has just added entries commits them at once if it is alone, and otherwise no majority
has reached them. -/
theorem not_overdue_added (hc' : Complete members s') {l k : Nat}
    (hother : ∀ f ∈ members, f ≠ l → s'.matchOf f ≤ k) (hself : s'.matchOf l ≤ s'.raftLog.lastIndex)
    (hcommit : members.card = 1 → s'.raftLog.commited = s'.raftLog.lastIndex) (hk : k < n) :
    ¬Overdue s' n := by
  intro h
  have hsub : s'.matchQuorum n ⊆ {l} := by
    intro f hf
    obtain ⟨hmem, hle⟩ := hc'.mem_matchQuorum.mp hf
    by_contra hne
    have hbelow := hother f hmem fun heq => hne (Finset.mem_singleton.mpr heq)
    omega
  have hcard := Finset.card_le_card hsub
  have hmost := h.majority
  rw [Finset.card_singleton] at hcard
  rw [hc'.size_eq] at hmost
  obtain ⟨f, hf⟩ := Finset.card_pos.mp (by omega : 0 < (s'.matchQuorum n).card)
  obtain ⟨hmem, hle⟩ := hc'.mem_matchQuorum.mp hf
  have hpos := Finset.card_pos.mpr ⟨f, hmem⟩
  rw [Finset.mem_singleton.mp (hsub hf)] at hle
  have hbehind := h.behind
  rw [hcommit (by omega)] at hbehind
  omega

theorem leaderCommit_sortedMatch (h : s.leaderCommit = some s') :
    ∃ n, s.sortedMatch s.commitThresh = some n := by
  unfold leaderCommit at h
  obtain ⟨matched, hmatched, h⟩ := Option.bind_eq_some_iff.mp h
  obtain ⟨n, hn, _⟩ := Option.bind_eq_some_iff.mp h
  exact ⟨n, sortedMatch_eq_some.mpr ⟨matched, hmatched, hn⟩⟩

theorem leaderCommit_core (h : s.leaderCommit = some s') : s'.prs = s.prs ∧ s'.term = s.term ∧
    s'.raftLog.entries = s.raftLog.entries ∧ s'.raftLog.lastIndex = s.raftLog.lastIndex := by
  rcases leaderCommit_spec h with rfl | ⟨n, ms, _, rfl, _⟩ <;> exact ⟨rfl, rfl, rfl, rfl⟩

theorem leaderCommit_mono (h : s.leaderCommit = some s') : s.raftLog.commited ≤ s'.raftLog.commited := by
  rcases leaderCommit_spec h with rfl | ⟨n, ms, hraise, rfl, _⟩
  · exact le_rfl
  · exact hraise.above.le

/-- A majority that has reached `n` puts the match that `LeaderCommit` reads at `n` or above. -/
theorem le_sortedMatch (hmost : s.prs.size < 2 * (s.matchQuorum n).card) {k : Nat}
    (hk : s.sortedMatch s.commitThresh = some k) : n ≤ k := by
  by_contra hlt
  have hcount := card_add_le_size hk (Nat.lt_of_not_le hlt)
  unfold commitThresh at hcount
  split_ifs at hcount with heven
  · rw [u64Sub_of_le (by omega)] at hcount
    omega
  · omega

/-- The match that `LeaderCommit` reads is that of some peer. -/
theorem sortedMatch_le_matchOf {k : Nat} (hk : s.sortedMatch s.commitThresh = some k) :
    ∃ f ∈ s.peers, k ≤ s.matchOf f := by
  have hpos := lt_size_of_sortedMatch hk
  have hcount := size_le_add_card hk
  obtain ⟨f, hf⟩ := Finset.card_pos.mp (by omega : 0 < (s.matchQuorum k).card)
  obtain ⟨pr, hpr, hle⟩ := mem_matchQuorum.mp hf
  exact ⟨f, mem_peers_of_progress hpr, matchOf_of_progress hpr ▸ hle⟩

/-- **`LeaderCommit` leaves nothing overdue**, where the matches are inside the log. -/
theorem leaderCommit_not_overdue (hlog : s.raftLog.FromOne) (hsorted : Sorted Entry.term s.raftLog.entries)
    (hlast : lastTerm Entry.term s.raftLog.entries ≤ s.term)
    (hmatch : ∀ f ∈ s.peers, s.matchOf f ≤ s.raftLog.entries.length) (h : s.leaderCommit = some s') :
    ¬Overdue s' n := by
  intro hover
  obtain ⟨hprs, hterm, hentries, _⟩ := leaderCommit_core h
  have hle := leaderCommit_mono h
  obtain ⟨k, hk⟩ := leaderCommit_sortedMatch h
  have hmost := hover.majority
  rw [matchQuorum, hprs] at hmost
  have hnk := le_sortedMatch hmost hk
  have hbehind := hover.behind
  obtain ⟨f, hpeer, hf⟩ := sortedMatch_le_matchOf hk
  have hkl := hf.trans (hmatch f hpeer)
  -- the terms of a log ascend, so that the entry at `k` is of the leader's term as the one at `n` is
  have hown : lastTerm Entry.term (s.raftLog.entries.take k) = s.term := by
    have hn := hover.ownTerm
    rw [hentries, hterm] at hn
    have hlow := (hsorted.ofPrefix (List.take_prefix k _)).lastTerm_le
      (List.take_prefix_take_left hnk (l := s.raftLog.entries))
    have hhigh := hsorted.lastTerm_le (List.take_prefix k s.raftLog.entries)
    omega
  have hraises : Raises s k :=
    ⟨sortedMatch_eq_some.mp hk, by omega, true, by rw [hlog.term_eq hkl, hown]⟩
  rw [hraises.commited_eq h] at hbehind
  omega

/-- An answer to an append leaves the log and the matches as they are, or raises the match of its sender,
after which the leader commits. -/
theorem handleAppendEntriesResponse_cases (h : s.handleAppendEntriesResponse m = some s') :
    (s'.raftLog = s.raftLog ∧ ∀ f, s'.matchOf f = s.matchOf f) ∨
    (m.reject = false ∧ s.matchOf m.fromId < m.index ∧ ∃ t,
      (s.setProgress m.fromId { matchIdx := m.index, next := m.index + 1 }).leaderCommit = some t ∧
      SameCore t s') := by
  unfold handleAppendEntriesResponse at h
  split_ifs at h with hstale hreject hnone
  · cases h
    exact .inl ⟨rfl, fun _ => rfl⟩
  · cases h
    exact .inl ⟨rfl, fun _ => rfl⟩
  · simp only [Option.bind_eq_bind, Option.bind_eq_some_iff] at h
    obtain ⟨index, _, pr, hpr, h⟩ := h
    obtain ⟨x, _, _, rfl⟩ := sendAppend_spec h
    refine .inl ⟨rfl, fun f => ?_⟩
    show (s.setProgress m.fromId { pr with next := index }).matchOf f = _
    rw [matchOf_setProgress]
    split_ifs with hf
    · rw [hf, matchOf_of_progress hpr]
    · rfl
  · simp only [Option.bind_eq_bind, Option.bind_eq_some_iff] at h
    obtain ⟨pr, hpr, h⟩ := h
    split_ifs at h with hlt
    swap
    · cases h
      exact .inl ⟨rfl, fun _ => rfl⟩
    obtain ⟨t, hcommit, h⟩ := Option.bind_eq_some_iff.mp h
    refine .inr ⟨by simpa using hreject, matchOf_of_progress hpr ▸ hlt, t, hcommit, ?_⟩
    split_ifs at h <;> cases h
    · exact {}
    · exact .refl _

/-- The answer that a leader handles in a call goes to `HandleAppendEntriesResponse`. -/
theorem call_response {call : Call} {rand : Nat} (hm : Handled call m) (hresp : m.msgType = .msgAppendResponse)
    (hstate : (s.observeTerm m).state = .stateLeader) (h : s.call rand call = some s') :
    (s.observeTerm m).handleAppendEntriesResponse m = some s' := by
  cases hm with
  | hup | beat => cases hresp
  | ignored _ htimeout => exact absurd (htimeout.symm.trans hresp) (by decide)
  | step =>
      have hstep : s.step m rand = some s' := h
      rw [step_leader (fun hty => absurd (hty.symm.trans hresp) (by decide)) hstate] at hstep
      unfold stepLeader at hstep
      rw [hresp] at hstep
      exact hstep

/-- What any other message does to a leader that keeps the lead. -/
inductive LeadStep (s : RaftContext) (m : Message) (s' : RaftContext) : Prop
  | keep (hlog : s'.raftLog = s.raftLog) (hprs : s'.prs = s.prs)
  | append (hacc : Accepts s m s') (hprs : s'.prs = s.prs)
  | propose {added : List Entry} (hlog : s'.raftLog.entries = s.raftLog.entries ++ added)
      (hcommit : s'.raftLog.commited =
        if s.prs.size = 1 then s'.raftLog.lastIndex else s.raftLog.commited)
      (hmatch : ∀ f, s'.matchOf f = if f = s.id then s'.raftLog.lastIndex else s.matchOf f)

theorem CoreStep.leading (h : CoreStep s m s') (hstate : s.state = .stateLeader)
    (hid : s.id ∈ s.peers) (hm : m.msgType ≠ .msgSnapshot) (hresp : m.msgType ≠ .msgAppendResponse)
    (hfrom : m.msgType = .msgTransferLeader → ∃ pr, s.progress m.fromId = some pr) : LeadStep s m s' := by
  have hfall : s.fallback m = s := fallback_of_ne (by rw [hstate]; decide)
  cases h with
  | same h | grant _ _ _ h => exact .keep h.raftLog h.prs
  | follow _ _ h =>
      rw [hfall] at h
      exact .keep h.raftLog h.prs
  | append hacc h =>
      rw [hfall] at h
      exact .append hacc h.prs
  | campaign _ hnot _ _ | alone _ hnot _ _ => exact absurd hstate hnot
  | record _ hcand _ _ | lose _ hcand _ _ _ _ | win _ hcand _ _ _ =>
      exact absurd (hcand.symm.trans hstate) (by decide)
  | propose _ _ h =>
      obtain ⟨_, added, hloop, _⟩ := proposeLoop_spec s.raftLog.lastIndex m.entries s
      have hlog := h.raftLog.trans (proposed_raftLog hid m.entries)
      refine .propose (?_ : _ = _ ++ added) ?_ fun f => ?_
      · rw [hlog, hloop.raftLog]
      · rw [hlog]
        rfl
      · rw [matchOf_of_prs (s := (proposeLoop s.raftLog.lastIndex m.entries s).setProgress _ _) h.prs,
          matchOf_setProgress, hloop.id, matchOf_of_prs hloop.prs, hlog]
        rfl
  | nack hty _ _ _ _ _ _ _ | ack hty _ _ _ _ _ _ | commit hty _ _ _ _ _ _ _ => exact absurd hty hresp
  | phantom hty _ hnone _ =>
      obtain ⟨pr, hpr⟩ := hfrom hty
      exact absurd (hnone.symm.trans hpr) (by simp)
  | snapshot hty => exact absurd hty hm

end Eraft.RaftContext
