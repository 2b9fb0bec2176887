import Eraft.ClusterCommit
import Eraft.NodeStable

/-! The invariants of a cluster as one. They are kept by every transition, whatever system makes it:
a cluster in which every call is followed by reading the messages, or one whose applications read them
later. -/

open Std Runs TermLog

namespace Eraft.Cluster

open RaftContext

/-- A run of transitions, none of which elects a node with a `match` beyond its own log. -/
structure Safe (members : Finset Nat) (moves : List (Move Cluster Event)) (c : Cluster) : Prop where
  shape : Shape members c
  election : Election members (moments moves c) c
  logs : Logs members (moments moves c) c
  ballots : Ballots members moves c
  progress : Matches members moves c
  commits : Commits members (moments moves c) c
  fromOne : ∀ c₁ ∈ moments moves c, ∀ i ∈ members, (c₁.nodes i).raftLog.FromOne
  elected : ∀ a ∈ moves, AtElection (MatchInLog members) a.before a.label

/-- Proposals have one entry, no message ends behind the last 64-bit index, and no node is elected with a
`match` beyond its own log. -/
structure Orderly (members : Finset Nat) (c : Cluster) (ev : Event) : Prop where
  oneEntry : OneEntry ev
  fitsIndex : FitsIndex ev
  inLog : AtElection (MatchInLog members) c ev

theorem Orderly.basic {members : Finset Nat} {c : Cluster} {ev : Event} (h : Orderly members c ev) :
    OneEntry ev ∧ AtElection (MatchInLog members) c ev := ⟨h.oneEntry, h.inLog⟩

instance (members : Finset Nat) (c : Cluster) (ev : Event) : Decidable (Orderly members c ev) :=
  decidable_of_iff (_ ∧ _ ∧ _)
    ⟨fun h => ⟨h.1, h.2.1, h.2.2⟩, fun h => ⟨h.oneEntry, h.fitsIndex, h.inLog⟩⟩

variable {members : Finset Nat} {moves : List (Move Cluster Event)} {c c' : Cluster} {ev : Event}
  {m : Message} {ms : List Message} {i : Nat} {ok : Cluster → Event → Cluster → Prop}

theorem Started.safe (h : Started members (fun _ => .new) c) : Safe members [] c := by
  refine ⟨h.shape, h.election, h.logs, h.ballots, h.matches, h.commits, fun c₁ hc₁ i hi => ?_, nofun⟩
  rw [List.mem_singleton.mp hc₁]
  exact (h.fromOne hi).1

theorem Safe.advance (h : Safe members moves c) (hcard : members.card ≤ 255) (hone : OneEntry ev)
    (htrans : Transition members c ev m ms c') : Advance members (moments moves c) c ev m ms c' := by
  have hc := mem_moments_self moves c
  have hel' := h.election.step h.shape hcard hc htrans
  exact ⟨htrans, h.shape, hc, h.election, hel', h.logs,
    h.logs.step h.election hel' h.shape hone hc htrans, (h.logs.entries_step h.election h.shape hone htrans).2⟩

/-- A `match` that a leader had before it was elected was inside its log at that time. -/
theorem Matches.tracked (h : Matches members moves c)
    (hfrom : ∀ c₁ ∈ moments moves c, ∀ i ∈ members, (c₁.nodes i).raftLog.FromOne)
    (helected : ∀ a ∈ moves, AtElection (MatchInLog members) a.before a.label) (hi : i ∈ members)
    (hstate : (c.nodes i).state = .stateLeader) {f : Nat} (hf : f ∈ members) :
    Tracked (moments moves c) (c.nodes i) f := by
  rcases h.peer i hi hstate f hf with hreach | ⟨a, ha, hleft⟩
  · exact .inl hreach
  · refine .inr ⟨_, hleft.log, ?_, hleft.before⟩
    rw [hleft.same, ← (hfrom _ (mem_moments_before c ha) i hi).lastIndex_eq]
    exact hleft.of_atElection (helected a ha) f hf (by rw [hleft.id]; exact hleft.other)

/-- **Every transition keeps the invariants.** -/
theorem Safe.step (h : Safe members moves c) (hcard : members.card ≤ 255) (hone : OneEntry ev)
    (hat : AtElection (MatchInLog members) c ev) (htrans : Transition members c ev m ms c') :
    Safe members (⟨c, ev, c'⟩ :: moves) c' := by
  have hadv := h.advance hcard hone htrans
  have hmatches := h.progress.step hadv
  have hfrom : ∀ c₁ ∈ moments (⟨c, ev, c'⟩ :: moves) c', ∀ i ∈ members, (c₁.nodes i).raftLog.FromOne := by
    intro c₁ hc₁ i hi
    rcases List.mem_cons.mp hc₁ with rfl | hc₁
    · exact (hadv.logs'.node i hi).fromOne
    · exact h.fromOne c₁ hc₁ i hi
  have helected : ∀ a ∈ (⟨c, ev, c'⟩ :: moves : List (Move Cluster Event)),
      AtElection (MatchInLog members) a.before a.label := List.forall_mem_cons.mpr ⟨hat, h.elected⟩
  exact ⟨h.shape.step htrans, hadv.election', hadv.logs', h.ballots.step hcard hadv, hmatches,
    h.commits.step h.ballots hadv fun hstate f hf => hmatches.tracked hfrom helected htrans.node hstate hf,
    hfrom, helected⟩

theorem Arrives.mono {net net' : List Message} (h : Arrives members net i m)
    (hsub : ∀ x ∈ net, x ∈ net') : Arrives members net' i m :=
  h.imp_right fun h => ⟨hsub m h.1, h.2⟩

/-- The message that a node handles in an enabled call arrives there. -/
theorem Shape.handled_arrives (hshape : Shape members c) (hcall : Enabled members c ev)
    (hm : Handled ev.call m) : Arrives members c.net ev.node m := by
  have hcall := hcall.2
  generalize ev.call = call at hm hcall
  cases hm with
  | hup => exact .inl ⟨rfl, .inl rfl⟩
  | beat => exact .inl ⟨rfl, .inr (.inl rfl)⟩
  | step => exact hcall
  | ignored m' hm =>
      rcases hcall with ⟨_, hty⟩ | ⟨hnet, hto⟩
      · exact .inl ⟨rfl, hty⟩
      · have hself : { m' with term := NONE } = m' := by rw [← hshape.timeout m' hnet hm]
        rw [hself]
        exact .inr ⟨hnet, hto⟩

/-- What arrives in a cluster is regular. -/
theorem Safe.regular (h : Safe members moves c) (hone : OneEntry ev) (hm : Handled ev.call m)
    (harrives : Arrives members c.net ev.node m) : Regular m := by
  refine ⟨fun happ => ?_, hone.handled hm, (h.shape.arrives_type harrives).1⟩
  obtain ⟨hnet, _⟩ := harrives.delivered (by rw [happ]; rfl)
  obtain ⟨G, hG, hcarries⟩ := h.logs.msg m hnet happ
  refine map_index_iff.mpr fun i e he => ?_
  rw [hcarries.index_eq (h.logs.led _ G hG).2 i e he]
  omega

/-- The committed part of the log of `s`. -/
def committedLog (s : RaftContext) : List Entry := s.raftLog.entries.take s.raftLog.commited

theorem Safe.commited_le (h : Safe members moves c) {c₁ : Cluster} (hc₁ : c₁ ∈ moments moves c)
    (hi : i ∈ members) : (c₁.nodes i).raftLog.commited ≤ (c₁.nodes i).raftLog.entries.length := by
  obtain ⟨P, hpre, hlen, _⟩ := h.commits.node c₁ hc₁ i hi
  exact hlen.trans hpre.length_le

/-- **State machine safety**, said of the committed logs as a whole. -/
theorem Safe.comparable (h : Safe members moves c) {c₁ c₂ : Cluster} (hc₁ : c₁ ∈ moments moves c)
    (hc₂ : c₂ ∈ moments moves c) {i j : Nat} (hi : i ∈ members) (hj : j ∈ members) :
    committedLog (c₁.nodes i) <+: committedLog (c₂.nodes j) ∨
      committedLog (c₂.nodes j) <+: committedLog (c₁.nodes i) := by
  obtain ⟨P, hpre, hlen, _, hchosen⟩ := h.commits.node c₁ hc₁ i hi
  obtain ⟨P', hpre', hlen', _, hchosen'⟩ := h.commits.node c₂ hc₂ j hj
  have hcommit : committedLog (c₁.nodes i) <+: P := List.prefix_of_prefix_length_le
    (List.take_prefix _ _) hpre ((List.length_take_le _ _).trans hlen)
  have hcommit' : committedLog (c₂.nodes j) <+: P' := List.prefix_of_prefix_length_le
    (List.take_prefix _ _) hpre' ((List.length_take_le _ _).trans hlen')
  have hcomp : P <+: P' ∨ P' <+: P := by
    by_cases hne : P = []
    · exact .inl (hne ▸ List.nil_prefix)
    by_cases hne' : P' = []
    · exact .inr (hne' ▸ List.nil_prefix)
    rcases Nat.le_total (lastTerm Entry.term P) (lastTerm Entry.term P') with hle | hle
    · exact (hchosen hne).comparable (hchosen' hne') h.ballots h.logs hle
    · exact ((hchosen' hne').comparable (hchosen hne) h.ballots h.logs hle).symm
  rcases hcomp with hP | hP
  · exact List.prefix_or_prefix_of_prefix (hcommit.trans hP) hcommit'
  · exact List.prefix_or_prefix_of_prefix hcommit (hcommit'.trans hP)

theorem FitsIndex.handled (h : FitsIndex ev) (hm : Handled ev.call m) :
    m.index + m.entries.length < 2 ^ 64 := by
  unfold FitsIndex at h
  cases hcall : ev.call <;> rw [hcall] at h hm <;> cases hm
  case hup => decide
  case beat => decide
  case step => exact h
  case ignored => exact h

/-- An append announces no commit index behind the log it carries, so that a follower never takes its
own back. -/
theorem Safe.commited_accepted (h : Safe members moves c) (hfits : FitsIndex ev)
    (hadv : Advance members (moments moves c) c ev m ms c')
    (hacc : Accepts ((c.nodes ev.node).observeTerm m) m (c'.nodes ev.node)) :
    (c.nodes ev.node).raftLog.commited ≤ (c'.nodes ev.node).raftLog.commited := by
  obtain ⟨hnet, _⟩ := hadv.trans.arrives.delivered (by rw [hacc.msgType]; rfl)
  obtain ⟨G, hG, hcarries, P, hpre, hlen, _⟩ := h.commits.msg m hnet hacc.msgType
  obtain ⟨_, hmerged⟩ := hadv.logs.merged hadv.election hadv.trans hacc hG hcarries
  have hle : m.commit ≤ G.length := hlen.trans hpre.length_le
  have hend : G.length < 2 ^ 64 := hcarries.length_eq ▸ hfits.handled hadv.trans.handled
  rw [hmerged.commited, observeTerm_raftLog, Nat.mod_eq_of_lt hend, Nat.min_eq_left hle]
  split_ifs with hlt
  · exact hlt.le
  · exact le_rfl

/-- **The commit index of a node never decreases.** -/
theorem Safe.commited_mono (h : Safe members moves c) (hcard : members.card ≤ 255) (hone : OneEntry ev)
    (hfits : FitsIndex ev) (htrans : Transition members c ev m ms c') (i : Nat) :
    (c.nodes i).raftLog.commited ≤ (c'.nodes i).raftLog.commited := by
  have hadv := h.advance hcard hone htrans
  by_cases hev : i = ev.node
  case neg => rw [htrans.other i hev]
  subst hev
  have hobs := observeTerm_raftLog (c.nodes ev.node) m
  have hle := h.commited_le (mem_moments_self moves c) htrans.node
  have hlen : (c.nodes ev.node).raftLog.lastIndex = (c.nodes ev.node).raftLog.entries.length :=
    (h.fromOne c (mem_moments_self moves c) _ htrans.node).lastIndex_eq
  cases htrans.core.log (h.shape.observed_self htrans.node) hadv.msgType.1 with
  | keep _ hlog => rw [hlog, hobs]
  | append hacc _ _ => exact h.commited_accepted hfits hadv hacc
  | lead _ _ hlog =>
      rw [hlog, hobs]
      dsimp only
      split_ifs <;> omega
  | propose _ _ _ _ hlog =>
      have hlast := (hadv.logs'.node _ htrans.node).fromOne.lastIndex_eq
      have hentries := congrArg (fun l => l.entries.length) hlog
      have hcommit := congrArg RaftLog.commited hlog
      rw [hobs] at hentries hcommit
      simp only [List.length_append] at hentries
      dsimp only at hcommit
      rw [hcommit]
      split_ifs <;> omega
  | commit _ _ hraise hlog =>
      have habove := hraise.above
      rw [hlog]
      dsimp only at habove ⊢
      rw [hobs] at habove
      exact habove.le

/-- What a node has committed it keeps. -/
theorem Safe.committedLog_grows (h : Safe members moves c) (hcard : members.card ≤ 255)
    (hone : OneEntry ev) (hfits : FitsIndex ev) (hat : AtElection (MatchInLog members) c ev)
    (htrans : Transition members c ev m ms c') (hi : i ∈ members) :
    committedLog (c.nodes i) <+: committedLog (c'.nodes i) := by
  have h' := h.step hcard hone hat htrans
  have hc : c ∈ moments (⟨c, ev, c'⟩ :: moves) c' := mem_moments_step (mem_moments_self moves c)
  have hc' := mem_moments_self (⟨c, ev, c'⟩ :: moves) c'
  rcases h'.comparable hc hc' hi hi with hpre | hpre
  · exact hpre
  · refine (hpre.eq_of_length (Nat.le_antisymm hpre.length_le ?_)) ▸ List.prefix_rfl
    rw [committedLog, committedLog, List.length_take_of_le (h'.commited_le hc hi),
      List.length_take_of_le (h'.commited_le hc' hi)]
    exact h.commited_mono hcard hone hfits htrans i

theorem ClusterRun.safe (hcard : members.card ≤ 255)
    (hok : ∀ c ev c', ok c ev c' → OneEntry ev ∧ AtElection (MatchInLog members) c ev)
    (hrun : ClusterRun members (fun _ => .new) ok moves c) : Safe members moves c := by
  induction hrun with
  | start h => exact h.safe
  | step hrun hnext ih =>
      obtain ⟨m, ms, htrans⟩ := hnext.transition ih.shape
      exact ih.step hcard (hok _ _ _ hnext.2.1).1 (hok _ _ _ hnext.2.1).2 htrans

/-- **Leader completeness.** What a node has committed in a term below that of a leader is in the log of
the leader, at whatever two moments the node and the leader are looked at. -/
theorem committed_in_later_leaders (hcard : members.card ≤ 255)
    (hrun : ClusterRun members (fun _ => .new) (fun c ev _ => OneEntry ev ∧
      AtElection (MatchInLog members) c ev) moves c) :
    ∀ c₁ ∈ moments moves c, ∀ c₂ ∈ moments moves c, ∀ i ∈ members, ∀ l ∈ members,
      (c₂.nodes l).state = .stateLeader → (c₁.nodes i).term < (c₂.nodes l).term →
        committedLog (c₁.nodes i) <+: (c₂.nodes l).raftLog.entries := by
  have hsafe := ClusterRun.safe hcard (fun _ _ _ h => h) hrun
  intro c₁ hc₁ c₂ hc₂ i hi l hl hstate hterm
  obtain ⟨P, hpre, hlen, hlast, hchosen⟩ := hsafe.commits.node c₁ hc₁ i hi
  have hcommit : committedLog (c₁.nodes i) <+: P := List.prefix_of_prefix_length_le
    (List.take_prefix _ _) hpre ((List.length_take_le _ _).trans hlen)
  refine hcommit.trans ?_
  by_cases hne : P = []
  · exact hne ▸ List.nil_prefix
  · exact (hchosen hne).complete hsafe.ballots hsafe.logs _ (hlast.trans_lt hterm) _
      ⟨c₂, hc₂, l, hl, hstate, rfl, rfl⟩

/-- Node 1 commits two entries and node 3 is then elected, with the vote of node 2. -/
theorem committed_in_later_leaders_of_three : ∃ moves c,
    ClusterRun [1, 2, 3].toFinset (fun _ => .new)
      (fun c ev _ => OneEntry ev ∧ AtElection (MatchInLog [1, 2, 3].toFinset) c ev) moves c ∧
    (committedLog (c.nodes 1)).length = 2 ∧ (c.nodes 3).state = .stateLeader ∧
    (c.nodes 1).term < (c.nodes 3).term ∧
    committedLog (c.nodes 1) <+: (c.nodes 3).raftLog.entries := by
  have hplay : (play (playNext [1, 2, 3].toFinset
      fun c ev _ => OneEntry ev ∧ AtElection (MatchInLog [1, 2, 3].toFinset) c ev)
      (Play.elect 1 [2] 1 ++ Play.replicate 1 2 1 ++ [.propose 1] ++ Play.replicate 1 3 1 ++
        Play.elect 3 [2] 2) [] (boot [1, 2, 3])).any
      (fun r => (committedLog (r.2.nodes 1)).length = 2 ∧ (r.2.nodes 3).state = .stateLeader ∧
        (r.2.nodes 1).term < (r.2.nodes 3).term) = true := by
    decide +kernel
  obtain ⟨moves, c, hrun, htest⟩ := exists_clusterRun (by decide) _ hplay
  obtain ⟨hlen, hstate, hterm⟩ : (committedLog (c.nodes 1)).length = 2 ∧
    (c.nodes 3).state = .stateLeader ∧ (c.nodes 1).term < (c.nodes 3).term := of_decide_eq_true htest
  have hc := mem_moments_self moves c
  exact ⟨moves, c, hrun, hlen, hstate, hterm, committed_in_later_leaders (by decide) hrun c hc c hc
    1 (by decide) 3 (by decide) hstate hterm⟩

end Eraft.Cluster
