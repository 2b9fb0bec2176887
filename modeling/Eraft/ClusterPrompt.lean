import Eraft.ClusterSafe
import Eraft.NodePrompt

/-! A leader commits in time. No entry of its own term that a majority is known to hold waits for another
message: every acknowledgement runs `LeaderCommit`, and what a node adds to its log as a leader no majority
has reached yet. -/

open Std Runs TermLog

namespace Eraft.Cluster

open RaftContext

/-- A leader that has its own log as its `match` of itself and nothing overdue. -/
structure Prompt (s : RaftContext) : Prop where
  own : s.matchOf s.id = s.raftLog.lastIndex
  current : ∀ n, ¬s.Overdue n

variable {members : Finset Nat} {hist : List Cluster} {c c' : Cluster} {ev : Event} {m : Message}
  {ms : List Message} {moves : List (Move Cluster Event)} {l n : Nat} {s s' : RaftContext}

theorem Prompt.congr (h : Prompt s) (hsame : SameCore s s') : Prompt s' := by
  refine ⟨?_, fun n hover => h.current n (hover.congr hsame)⟩
  rw [matchOf_of_prs hsame.prs, hsame.id, hsame.raftLog, h.own]

/-- A step that changes neither the matches nor the entries. -/
theorem Prompt.same (h : Prompt s) (hc : Complete members s) (hc' : Complete members s')
    (hid : s'.id = s.id) (hmatch : ∀ f, s'.matchOf f = s.matchOf f) (hterm : s'.term = s.term)
    (hlast : s'.raftLog.lastIndex = s.raftLog.lastIndex)
    (hlog : s'.raftLog.entries = s.raftLog.entries)
    (hcommit : s.raftLog.commited ≤ s'.raftLog.commited) : Prompt s' := by
  refine ⟨by rw [hid, hmatch, h.own, hlast], fun n hover => h.current n ?_⟩
  exact hover.before hc hc' (fun f _ hle => hmatch f ▸ hle) hterm hcommit (by rw [hlog])

/-- A leader starts with one entry of its term, which nobody else can have reached. -/
theorem Prompt.elected (hadv : Advance members hist c ev m ms c')
    (hat : AtElection (MatchInLog members) c ev)
    (hstate : ((c.nodes ev.node).observeTerm m).state ≠ .stateLeader)
    (hstate' : (c'.nodes ev.node).state = .stateLeader) : Prompt (c'.nodes ev.node) := by
  have hid := hadv.shape.observed_id (m := m) hadv.trans.node
  have hc' := (hadv.shape.step hadv.trans).complete _ hadv.trans.node
  have hlen := (hadv.logs.node _ hadv.trans.node).fromOne.lastIndex_eq
  have hlen' := (hadv.logs'.node _ hadv.trans.node).fromOne.lastIndex_eq
  have hobs := observeTerm_raftLog (c.nodes ev.node) m
  obtain ⟨e, hentries, _⟩ := hadv.elected_log hstate hstate' (hadv.first_log hstate hstate')
  have hlast : (c'.nodes ev.node).raftLog.lastIndex = (c.nodes ev.node).raftLog.lastIndex + 1 := by
    rw [hlen', hentries, List.length_append, hlen]
    rfl
  have hmatch : ∀ f, (c'.nodes ev.node).matchOf f =
      if f = ev.node then (c'.nodes ev.node).raftLog.lastIndex else (c.nodes ev.node).matchOf f := by
    intro f
    cases hadv.trans.core.matches
        (by rw [hid]; exact (hadv.shape.observed hadv.trans.node).progress _ hadv.trans.node)
        hadv.msgType.1 with
    | keep hkeep _ => exact absurd (hkeep hstate') hstate
    | lead _ hmatch =>
        rw [hmatch f, hid, hobs, hlast, matchOf_of_prs (observeTerm_prs _ _)]
    | propose hleader _ | ack _ hleader _ _ _ => exact absurd hleader hstate
  have hcommit : members.card = 1 →
      (c'.nodes ev.node).raftLog.commited = (c'.nodes ev.node).raftLog.lastIndex := by
    intro hone
    cases hadv.trans.core.log (hadv.shape.observed_self hadv.trans.node) hadv.msgType.1 with
    | keep hkeep _ => exact absurd (hkeep hstate') hstate
    | append _ _ hfall => exact absurd (fallback_leader (hfall.symm.trans hstate')) hstate
    | lead _ _ hlog =>
        have hcommit := congrArg RaftLog.commited hlog
        dsimp only at hcommit
        rw [hcommit, if_pos (by rw [hadv.shape.observed_size hadv.trans.node, hone]), hlast, hobs]
    | propose _ hleader _ _ _ | commit _ hleader _ _ => exact absurd hleader hstate
  refine ⟨by rw [hadv.id, hmatch, if_pos rfl], fun n hover => ?_⟩
  by_cases hn : n ≤ (c.nodes ev.node).raftLog.entries.length
  · -- the older entries are of earlier terms
    have hown := hover.ownTerm
    rw [hentries, List.take_append_of_le_length hn] at hown
    have hback := (hadv.logs.node _ hadv.trans.node).sorted.lastTerm_le (List.take_prefix n _)
    have hlt := hadv.elected_before hstate hstate'
    omega
  · refine not_overdue_added hc' (l := ev.node) (fun f hf hne => ?_)
      (by rw [hmatch, if_pos rfl]) hcommit (Nat.lt_of_not_le hn) hover
    obtain ⟨m', hcall, hwon⟩ := hadv.won hstate hstate' hf hne
    unfold AtElection at hat
    rw [hcall] at hat
    rw [hmatch, if_neg hne, ← hlen]
    exact hat hwon f hf (by rw [hadv.shape.id _ hadv.trans.node]; exact hne)

/-- A leader that has proposed. -/
theorem Prompt.proposed (h : Prompt s) (hc : Complete members s) (hc' : Complete members s')
    (hid : s'.id = s.id) (hterm : s'.term = s.term)
    (hinside : ∀ f ∈ members, s.matchOf f ≤ s.raftLog.lastIndex)
    (hlen : s.raftLog.lastIndex = s.raftLog.entries.length) {added : List Entry}
    (hlog : s'.raftLog.entries = s.raftLog.entries ++ added)
    (hcommit : s'.raftLog.commited =
      if s.prs.size = 1 then s'.raftLog.lastIndex else s.raftLog.commited)
    (hgrow : s.raftLog.commited ≤ s'.raftLog.commited)
    (hmatch : ∀ f, s'.matchOf f = if f = s.id then s'.raftLog.lastIndex else s.matchOf f) :
    Prompt s' := by
  refine ⟨by rw [hid, hmatch, if_pos rfl], fun n => ?_⟩
  by_cases hn : n ≤ s.raftLog.lastIndex
  · intro hover
    refine h.current n (hover.before hc hc' (fun f _ hle => ?_) hterm hgrow ?_)
    · by_cases hf : f = s.id
      · rw [hf, h.own]
        exact hn
      · rwa [hmatch, if_neg hf] at hle
    · rw [hlog, List.take_append_of_le_length (hlen ▸ hn)]
  · refine not_overdue_added hc' (l := s.id) (fun f hf hne => ?_) (by rw [hmatch, if_pos rfl]) (fun hone => ?_)
      (Nat.lt_of_not_le hn)
    · rw [hmatch, if_neg hne]
      exact hinside f hf
    · rw [hcommit, if_pos (by rw [hc.size_eq, hone])]

/-- An acknowledgement makes the leader commit. -/
theorem Prompt.response (h : Prompt s) (hc : Complete members s) (hc' : Complete members s')
    (hlog : s.raftLog.FromOne) (hsorted : Sorted Entry.term s.raftLog.entries)
    (hlast : lastTerm Entry.term s.raftLog.entries ≤ s.term)
    (hinside : ∀ f ∈ members, s'.matchOf f ≤ s'.raftLog.entries.length) (hself : s.id ∈ members)
    (hresp : s.handleAppendEntriesResponse m = some s') (hid : s'.id = s.id) (hterm : s'.term = s.term) :
    Prompt s' := by
  rcases handleAppendEntriesResponse_cases hresp with ⟨hsame, hmatch⟩ | ⟨_, hlt, t, hcommit, hcore⟩
  · exact h.same hc hc' hid hmatch hterm (by rw [hsame]) (by rw [hsame]) (by rw [hsame])
  · obtain ⟨hprs, _, hentries, hsame⟩ := leaderCommit_core hcommit
    rw [hcore.raftLog, hentries] at hinside
    have hmatch : ∀ f, s'.matchOf f = (s.setProgress m.fromId ⟨m.index, m.index + 1⟩).matchOf f :=
      matchOf_of_prs (hcore.prs.trans hprs)
    have hpeers : (s.setProgress m.fromId ⟨m.index, m.index + 1⟩).peers = members := by
      rw [← hc'.peers, peers, peers, hcore.prs, hprs]
    refine ⟨?_, fun n hover => ?_⟩
    · -- the leader does not acknowledge to itself more than it has
      have hother : s.id ≠ m.fromId := by
        intro hfrom
        have hle := hinside _ hself
        rw [hmatch, matchOf_setProgress, if_pos hfrom] at hle
        have hle : m.index ≤ s.raftLog.entries.length := hle
        rw [← hfrom, h.own, hlog.lastIndex_eq] at hlt
        exact absurd hlt (Nat.not_lt.mpr hle)
      rw [hid, hmatch, matchOf_setProgress, if_neg hother, h.own, hcore.raftLog, hsame]
      rfl
    · refine leaderCommit_not_overdue (s := s.setProgress m.fromId ⟨m.index, m.index + 1⟩) hlog hsorted
        hlast (fun f hf => ?_) hcommit (hover.congr hcore)
      rw [← hmatch]
      exact hinside f (hpeers ▸ hf)

/-- The call of an event leaves the node that the cluster then has, with its messages. -/
theorem apply_call (h : c.apply ev = some c') :
    ∃ s, (c.nodes ev.node).call ev.rand ev.call = some s ∧ SameCore s (c'.nodes ev.node) := by
  obtain ⟨s, hs, hmoved⟩ := apply_moved h
  refine ⟨s, hs, ?_⟩
  rw [hmoved]
  exact {}

/-- A leader that accepts an append, which carries a log of its own, keeps its entries. -/
theorem Advance.leader_accepts (hadv : Advance members hist c ev m ms c')
    (hobs : (c.nodes ev.node).observeTerm m = c.nodes ev.node)
    (hstate : (c.nodes ev.node).state = .stateLeader)
    (hacc : Accepts (c.nodes ev.node) m (c'.nodes ev.node)) :
    (c'.nodes ev.node).raftLog.entries = (c.nodes ev.node).raftLog.entries := by
  obtain ⟨hterm, G, hG, hmerged⟩ := hadv.logs.accepts hadv.election hadv.trans (by rwa [hobs])
  rw [hobs] at hterm hmerged
  rcases hmerged.entries with ⟨_, hsame⟩ | ⟨hnot, _⟩
  · exact hsame
  · exact absurd (((hadv.logs.node _ hadv.trans.node).leader hstate).2 G (hterm ▸ hG)) hnot

/-- **One step of the run.** -/
theorem Prompt.step (hadv : Advance members hist c ev m ms c')
    (hat : AtElection (MatchInLog members) c ev) (happly : c.apply ev = some c')
    (htracked : (c.nodes ev.node).state = .stateLeader →
      ∀ f ∈ members, Tracked hist (c.nodes ev.node) f)
    (htracked' : ∀ f ∈ members, Tracked (c' :: hist) (c'.nodes ev.node) f)
    (hgrow : (c.nodes ev.node).raftLog.commited ≤ (c'.nodes ev.node).raftLog.commited)
    (hstate' : (c'.nodes ev.node).state = .stateLeader)
    (h : (c.nodes ev.node).state = .stateLeader → Prompt (c.nodes ev.node)) :
    Prompt (c'.nodes ev.node) := by
  rcases hadv.leader_cases hstate' with ⟨hobs, hstate, hterm⟩ | ⟨hstate, _⟩
  case inr => exact .elected hadv hat hstate hstate'
  have hprompt := h hstate
  have hnode := hadv.logs.node _ hadv.trans.node
  have hlen' := (hadv.logs'.node _ hadv.trans.node).fromOne.lastIndex_eq
  have hc := hadv.shape.complete _ hadv.trans.node
  have hc' := (hadv.shape.step hadv.trans).complete _ hadv.trans.node
  have hid := hadv.shape.id _ hadv.trans.node
  have hid' : (c'.nodes ev.node).id = (c.nodes ev.node).id := by rw [hadv.id, hid]
  have hself : (c.nodes ev.node).id ∈ members := by rw [hid]; exact hadv.trans.node
  by_cases hresp : m.msgType = .msgAppendResponse
  · obtain ⟨s, hcall, hsame⟩ := apply_call happly
    have hhandle := call_response hadv.trans.handled hresp (by rwa [hobs]) hcall
    rw [hobs] at hhandle
    refine (hprompt.response hc (hc'.of_prs hsame.prs.symm) hnode.fromOne hnode.sorted hnode.bound
      (fun f hf => ?_) hself hhandle (hsame.id.symm.trans hid') (hsame.term.symm.trans hterm)).congr hsame
    rw [← matchOf_of_prs hsame.prs, ← hsame.raftLog]
    exact (htracked' f hf).le_length
  · have hcore := hadv.trans.core
    rw [hobs] at hcore
    cases hcore.leading hstate (hc.peers.symm ▸ hself) hadv.msgType.1 hresp fun hty =>
        hc.progress _ (hadv.shape.arrives_from hadv.trans.arrives (by rw [hty]; rfl)) with
    | keep hlog hprs =>
        exact hprompt.same hc hc' hid' (matchOf_of_prs hprs) hterm (by rw [hlog]) (by rw [hlog]) hgrow
    | append hacc hprs =>
        have hentries := hadv.leader_accepts hobs hstate hacc
        refine hprompt.same hc hc' hid' (matchOf_of_prs hprs) hterm ?_ hentries hgrow
        rw [hlen', hnode.fromOne.lastIndex_eq, hentries]
    | propose hlog hcommit hmatch =>
        refine hprompt.proposed hc hc' hid' hterm (fun f hf => ?_) hnode.fromOne.lastIndex_eq hlog hcommit
          hgrow hmatch
        rw [hnode.fromOne.lastIndex_eq]
        exact (htracked hstate f hf).le_length

theorem ClusterRun.prompt (hcard : members.card ≤ 255)
    (hrun : ClusterRun members (fun _ => .new) (fun c ev _ => Orderly members c ev) moves c) :
    ∀ l ∈ members, (c.nodes l).state = .stateLeader → Prompt (c.nodes l) := by
  refine hrun.induct (I := fun _ c => ∀ l ∈ members, (c.nodes l).state = .stateLeader → Prompt (c.nodes l))
    (fun c h l hl hstate => ?_) fun moves c ev c' hrun ih hnext l hl hstate => ?_
  · obtain ⟨config, _, _, _, hnew, _⟩ := h.built l hl
    exact absurd ((new_spec hnew).state.symm.trans hstate) (by decide)
  · have hsafe := ClusterRun.safe hcard (fun _ _ _ h => h.basic) hrun
    obtain ⟨m, ms, htrans⟩ := hnext.transition hsafe.shape
    by_cases hev : l = ev.node
    · subst hev
      exact .step (hsafe.advance hcard hnext.2.1.oneEntry htrans) hnext.2.1.inLog hnext.2.2
        (fun hleader f hf => ClusterRun.tracked hcard (fun _ _ _ h => h.basic) hrun hl hleader hf)
        (fun f hf => ClusterRun.tracked hcard (fun _ _ _ h => h.basic) (hrun.step hnext) hl hstate hf)
        (hsafe.commited_mono hcard hnext.2.1.oneEntry hnext.2.1.fitsIndex htrans _) hstate (ih _ hl)
    · rw [htrans.other l hev] at hstate ⊢
      exact ih l hl hstate

/-- **A leader commits in time.** An entry of the leader's own term that it knows a majority of the
members to hold is committed, at every moment of a run in which no node is elected with a `match` beyond
its log. -/
theorem majority_entries_committed (hcard : members.card ≤ 255)
    (hrun : ClusterRun members (fun _ => .new) (fun c ev _ => Orderly members c ev) moves c)
    (hl : l ∈ members) (hstate : (c.nodes l).state = .stateLeader) :
    ∀ e ∈ (c.nodes l).raftLog.entries, e.term = (c.nodes l).term →
      members.card < 2 * ((c.nodes l).matchQuorum e.index).card →
        e.index ≤ (c.nodes l).raftLog.commited := by
  have hsafe := ClusterRun.safe hcard (fun _ _ _ h => h.basic) hrun
  have hlog := (hsafe.logs.node l hl).fromOne
  intro e he hterm hmost
  by_contra hbehind
  refine (ClusterRun.prompt hcard hrun l hl hstate).current e.index ⟨Nat.lt_of_not_le hbehind, ?_, ?_⟩
  · obtain ⟨i, hi, rfl⟩ := List.getElem_of_mem he
    rw [hlog.contiguous i _ (List.getElem?_eq_getElem hi), lastTerm_take_succ hi]
    exact hterm
  · rw [hsafe.shape.size_eq hl]
    exact hmost

/-- Node 1 has proposed an entry, and node 2 has acknowledged it. -/
theorem majority_entries_committed_of_three : ∃ moves c e,
    ClusterRun [1, 2, 3].toFinset (fun _ => .new)
      (fun c ev _ => Orderly [1, 2, 3].toFinset c ev) moves c ∧
    (c.nodes 1).state = .stateLeader ∧ e ∈ (c.nodes 1).raftLog.entries ∧
    e.term = (c.nodes 1).term ∧ 1 < e.index ∧ 3 < 2 * ((c.nodes 1).matchQuorum e.index).card ∧
    e.index ≤ (c.nodes 1).raftLog.commited := by
  have hplay : (play (playNext [1, 2, 3].toFinset
      fun c ev _ => Orderly [1, 2, 3].toFinset c ev)
      (Play.elect 1 [2] 1 ++ .propose 1 :: Play.replicate 1 2 1) [] (boot [1, 2, 3])).any
      (fun r => (r.2.nodes 1).state = .stateLeader ∧ ∃ e ∈ (r.2.nodes 1).raftLog.entries,
        e.term = (r.2.nodes 1).term ∧ 1 < e.index ∧
        3 < 2 * ((r.2.nodes 1).matchQuorum e.index).card) = true := by
    decide +kernel
  obtain ⟨moves, c, hrun, htest⟩ := exists_clusterRun (by decide) _ hplay
  obtain ⟨hstate, e, he, hterm, hindex, hmost⟩ := of_decide_eq_true htest
  exact ⟨moves, c, e, hrun, hstate, he, hterm, hindex, hmost,
    majority_entries_committed (by decide) hrun (by decide) hstate e he hterm hmost⟩

end Eraft.Cluster
