import Eraft.ClusterMatch

/-! What is committed. A leader commits an entry of its own term that half of the members have reached,
and no later leader is elected without it. The count is of `match`, so that it means what it says only
where no `match` points outside the log of a leader. -/

open Std Runs TermLog

namespace Eraft.Cluster

open RaftContext

/-- At least half of the members have held `P`, which ends in the term of a leader that held it. -/
structure Chosen (members : Finset Nat) (hist : List Cluster) (P : List Entry) : Prop where
  nonempty : P ≠ []
  quorum : ∃ Q ⊆ members, members.card ≤ 2 * Q.card ∧ ∀ f ∈ Q, Held hist f P
  leader : ∃ q ∈ leaderLogs members hist (lastTerm Entry.term P), P <+: q

/-- The first `k` entries of `log` are among some that were chosen by term `t`. -/
def Committed (members : Finset Nat) (hist : List Cluster) (t : Nat) (log : List Entry) (k : Nat) :
    Prop :=
  ∃ P, P <+: log ∧ k ≤ P.length ∧ lastTerm Entry.term P ≤ t ∧ (P ≠ [] → Chosen members hist P)

/-- The `match` that the leader `s` has of `f` is one the peer has reached, or inside the log that the
leader was elected with. -/
def Tracked (hist : List Cluster) (s : RaftContext) (f : Nat) : Prop :=
  Reached hist s f ∨ ∃ B, B <+: s.raftLog.entries ∧ s.matchOf f ≤ B.length ∧
    lastTerm Entry.term B < s.term

/-- The invariant of commits. -/
structure Commits (members : Finset Nat) (hist : List Cluster) (c : Cluster) : Prop where
  node : ∀ c₁ ∈ hist, ∀ i ∈ members, Committed members hist (c₁.nodes i).term
    (c₁.nodes i).raftLog.entries (c₁.nodes i).raftLog.commited
  msg : ∀ m ∈ c.net, m.msgType = .msgAppend → ∃ G ∈ leaderLogs members hist m.term, Carries m G ∧
    Committed members hist m.term G m.commit

variable {members : Finset Nat} {hist : List Cluster} {c c' : Cluster} {ev : Event} {m x : Message}
  {ms : List Message} {P P' log log' q : List Entry} {f i k t t' : Nat}
  {moves : List (Move Cluster Event)}

theorem Chosen.mono (h : Chosen members hist P) : Chosen members (c :: hist) P := by
  obtain ⟨Q, hQ, hcard, hheld⟩ := h.quorum
  obtain ⟨q, hq, hpre⟩ := h.leader
  exact ⟨h.nonempty, ⟨Q, hQ, hcard, fun f hf => (hheld f hf).mono⟩, q, leaderLogs_mono _ hq, hpre⟩

theorem Committed.grow (h : Committed members hist t log k) (ht : t ≤ t') (hlog : log <+: log') :
    Committed members (c :: hist) t' log' k := by
  obtain ⟨P, hpre, hlen, hlast, hchosen⟩ := h
  exact ⟨P, hpre.trans hlog, hlen, hlast.trans ht, fun hne => (hchosen hne).mono⟩

theorem Committed.of_le (h : Committed members hist t log k) {j : Nat} (hj : j ≤ k) :
    Committed members hist t log j := by
  obtain ⟨P, hpre, hlen, hchosen⟩ := h
  exact ⟨P, hpre, hj.trans hlen, hchosen⟩

/-- **Leader completeness.** What was chosen is in the log of every later leader: one of the voters of
the leader had held it. -/
theorem Chosen.complete (h : Chosen members (moments moves c) P) (hballots : Ballots members moves c)
    (hlogs : Logs members (moments moves c) c) :
    ∀ T, lastTerm Entry.term P < T → ∀ q ∈ leaderLogs members (moments moves c) T, P <+: q := by
  refine leader_completeness hlogs.leaders h.nonempty fun T hT hled => ?_
  obtain ⟨elog, Q, hwin⟩ := hballots.winner T hled
  obtain ⟨Q', hQ', hcard', hheld⟩ := h.quorum
  obtain ⟨hQ, hcard⟩ := hwin.quorum
  obtain ⟨v, hv⟩ := Finset.inter_nonempty_of_card_lt_card_add_card hQ hQ' (by omega)
  obtain ⟨hv, hv'⟩ := Finset.mem_inter.mp hv
  obtain ⟨_, glog, hvoter, hup⟩ := hwin.voter v hv
  exact ⟨elog, glog, hwin.log, hwin.before, hwin.attributed, hvoter.attributed, hvoter.sorted, hup,
    hvoter.held P h.nonempty (hheld v hv') hT⟩

/-- The log of a leader contains what was chosen by its term, or is still shorter. -/
theorem Chosen.leader_log (h : Chosen members (moments moves c) P) (hballots : Ballots members moves c)
    (hlogs : Logs members (moments moves c) c) (ht : lastTerm Entry.term P ≤ t)
    (hq : q ∈ leaderLogs members (moments moves c) t) : P <+: q ∨ q <+: P := by
  rcases Nat.lt_or_eq_of_le ht with hlt | rfl
  · exact .inl (h.complete hballots hlogs t hlt q hq)
  · obtain ⟨p, hp, hpre⟩ := h.leader
    obtain ⟨r, _, hPr, hqr⟩ := hlogs.leaders.common hp hq hpre List.prefix_rfl
    exact List.prefix_or_prefix_of_prefix hPr hqr

theorem Chosen.comparable (h : Chosen members (moments moves c) P)
    (h' : Chosen members (moments moves c) P') (hballots : Ballots members moves c)
    (hlogs : Logs members (moments moves c) c)
    (hle : lastTerm Entry.term P ≤ lastTerm Entry.term P') : P <+: P' ∨ P' <+: P := by
  obtain ⟨q, hq, hpre⟩ := h'.leader
  rcases h.leader_log hballots hlogs hle hq with hPq | hqP
  · exact List.prefix_or_prefix_of_prefix hPq hpre
  · exact .inr (hpre.trans hqP)

/-- A leader that is alone has chosen its whole log. -/
theorem Committed.alone (hlogs : Logs members (c' :: hist) c') (hi : i ∈ members)
    (hcard : members.card = 1) (hstate : (c'.nodes i).state = .stateLeader) :
    Committed members (c' :: hist) (c'.nodes i).term (c'.nodes i).raftLog.entries
      (c'.nodes i).raftLog.entries.length := by
  obtain ⟨hself, _⟩ := (hlogs.node i hi).leader hstate
  obtain ⟨hlast, _⟩ := hlogs.led _ _ hself
  refine ⟨_, List.prefix_rfl, le_rfl, hlast.le, fun hne => ⟨hne, ⟨{i}, ?_, ?_, ?_⟩, ?_⟩⟩
  · exact Finset.singleton_subset_iff.mpr hi
  · rw [hcard, Finset.card_singleton]
    decide
  · intro f hf
    rw [Finset.mem_singleton.mp hf]
    exact ⟨c', List.mem_cons_self, hlast.symm, List.prefix_rfl⟩
  · rw [hlast]
    exact ⟨_, hself, List.prefix_rfl⟩

/-- A leader that adds entries commits all of them if it is alone, and none otherwise. -/
theorem Committed.extended (hadv : Advance members hist c ev m ms c')
    (hold : Committed members hist (c.nodes ev.node).term (c.nodes ev.node).raftLog.entries
      (c.nodes ev.node).raftLog.commited)
    (hstate' : (c'.nodes ev.node).state = .stateLeader) {added : List Entry}
    (hlog : (c'.nodes ev.node).raftLog = { (c.nodes ev.node).raftLog with
      entries := (c.nodes ev.node).raftLog.entries ++ added
      commited := if members.card = 1 then k else (c.nodes ev.node).raftLog.commited })
    (hk : k = (c'.nodes ev.node).raftLog.entries.length) :
    Committed members (c' :: hist) (c'.nodes ev.node).term (c'.nodes ev.node).raftLog.entries
      (c'.nodes ev.node).raftLog.commited := by
  have hcommit : (c'.nodes ev.node).raftLog.commited =
      if members.card = 1 then k else (c.nodes ev.node).raftLog.commited := by rw [hlog]
  rw [hcommit]
  split_ifs with hone
  · rw [hk]
    exact .alone hadv.logs' hadv.trans.node hone hstate'
  · refine hold.grow (hadv.term_le ev.node) ?_
    rw [hlog]
    exact List.prefix_append _ _

theorem Tracked.le_length {s : RaftContext} (h : Tracked hist s f) :
    s.matchOf f ≤ s.raftLog.entries.length := by
  rcases h with ⟨P, hlen, _, _, hpre⟩ | ⟨B, hpre, hle, _⟩
  · exact hlen ▸ hpre.length_le
  · exact hle.trans hpre.length_le

/-- A peer whose `match` covers an entry of the leader's own term has held the leader's log up to it. -/
theorem Tracked.held {s : RaftContext} {n : Nat} (h : Tracked hist s f) (hn : n ≤ s.matchOf f)
    (hsorted : Sorted Entry.term s.raftLog.entries)
    (hterm : lastTerm Entry.term (s.raftLog.entries.take n) = s.term) :
    Held hist f (s.raftLog.entries.take n) := by
  have htake := List.take_prefix n s.raftLog.entries
  have hlen : (s.raftLog.entries.take n).length ≤ n := List.length_take_le _ _
  rcases h with ⟨P, hlenP, hlast, ⟨c₁, hc₁, hterm₁, hpre₁⟩, hpre⟩ | ⟨B, hpre, hle, hlt⟩
  · have hsub := List.prefix_of_prefix_length_le htake hpre (by omega)
    exact ⟨c₁, hc₁, by rw [hterm₁, hlast, hterm], hsub.trans hpre₁⟩
  · have hsub := List.prefix_of_prefix_length_le htake hpre (by omega)
    have hback := (hsorted.ofPrefix hpre).lastTerm_le hsub
    omega

/-- **A leader commits only what was chosen.** -/
theorem Committed.raised (hadv : Advance members hist c ev m ms c')
    (htracked : ∀ f ∈ members, Tracked (c' :: hist) (c'.nodes ev.node) f)
    (hstate : ((c.nodes ev.node).observeTerm m).state = .stateLeader) {n : Nat}
    (hraise : Raises { (c.nodes ev.node).observeTerm m with prs := (c'.nodes ev.node).prs } n)
    (hlog : (c'.nodes ev.node).raftLog =
      { ((c.nodes ev.node).observeTerm m).raftLog with commited := n }) :
    Committed members (c' :: hist) (c'.nodes ev.node).term (c'.nodes ev.node).raftLog.entries n := by
  have hshape' := hadv.shape.step hadv.trans
  have hnode' := hadv.logs'.node _ hadv.trans.node
  obtain ⟨hstate', hterm'⟩ := hadv.role.leader_keeps hstate
  have hsize : members.card ≤ 2 * (matchQuorum { (c.nodes ev.node).observeTerm m with
      prs := (c'.nodes ev.node).prs } n).card := by
    rw [← hshape'.size_eq hadv.trans.node]
    exact hraise.size_le
  have hquorum : ∀ f ∈ matchQuorum { (c.nodes ev.node).observeTerm m with
      prs := (c'.nodes ev.node).prs } n, f ∈ members ∧ n ≤ (c'.nodes ev.node).matchOf f := by
    intro f hf
    obtain ⟨pr, hpr, hle⟩ := mem_matchQuorum.mp hf
    have hpr' : (c'.nodes ev.node).progress f = some pr := hpr
    refine ⟨?_, matchOf_of_progress hpr' ▸ hle⟩
    rw [← (hshape'.complete _ hadv.trans.node).peers]
    exact mem_peers_of_progress hpr'
  have hn : n ≤ (c'.nodes ev.node).raftLog.entries.length := by
    have hpos : 0 < members.card := Finset.card_pos.mpr ⟨_, hadv.trans.node⟩
    obtain ⟨f, hf⟩ := Finset.card_pos.mp (by omega : 0 < (matchQuorum
      { (c.nodes ev.node).observeTerm m with prs := (c'.nodes ev.node).prs } n).card)
    obtain ⟨hmem, hle⟩ := hquorum f hf
    exact hle.trans (htracked f hmem).le_length
  have hown : lastTerm Entry.term ((c'.nodes ev.node).raftLog.entries.take n) =
      (c'.nodes ev.node).term := by
    obtain ⟨found, hfound⟩ := hraise.ownTerm
    have hterm : (c'.nodes ev.node).raftLog.term n =
        some (((c.nodes ev.node).observeTerm m).term, found) := by
      rw [hlog]
      exact hfound
    rw [hnode'.fromOne.term_eq hn] at hterm
    exact (congrArg Prod.fst (Option.some.inj hterm)).trans hterm'.symm
  refine ⟨_, List.take_prefix n _, (List.length_take_of_le hn).ge, hown.le, fun hne => ⟨hne, ?_, ?_⟩⟩
  · refine ⟨_, fun f hf => (hquorum f hf).1, hsize, fun f hf => ?_⟩
    exact (htracked f (hquorum f hf).1).held (hquorum f hf).2 hnode'.sorted hown
  · rw [hown]
    exact ⟨_, (hnode'.leader hstate').1, List.take_prefix n _⟩

/-- **A follower keeps what was chosen**, since the log it takes over holds it, and commits what the
leader of its term has committed. -/
theorem Committed.accepted (hadv : Advance members (moments moves c) c ev m ms c')
    (h : Commits members (moments moves c) c) (hballots : Ballots members moves c)
    (hacc : Accepts ((c.nodes ev.node).observeTerm m) m (c'.nodes ev.node))
    (hterm : (c'.nodes ev.node).term = ((c.nodes ev.node).observeTerm m).term) :
    Committed members (c' :: moments moves c) (c'.nodes ev.node).term
      (c'.nodes ev.node).raftLog.entries (c'.nodes ev.node).raftLog.commited := by
  obtain ⟨hnet, _⟩ := hadv.trans.arrives.delivered (by rw [hacc.msgType]; rfl)
  obtain ⟨G, hG, hcarries, hcommit⟩ := h.msg m hnet hacc.msgType
  obtain ⟨hmterm, hmerged⟩ := hadv.logs.merged hadv.election hadv.trans hacc hG hcarries
  rw [hmerged.commited, observeTerm_raftLog]
  have hentries := hmerged.entries
  rw [observeTerm_raftLog] at hentries
  split_ifs with hraise
  · have hGlog : G <+: (c'.nodes ev.node).raftLog.entries := by
      rcases hentries with ⟨hpre, heq⟩ | ⟨_, heq⟩
      · exact heq ▸ hpre
      · exact heq ▸ List.prefix_rfl
    exact (hcommit.of_le (Nat.min_le_left _ _)).grow (hmterm.symm.trans hterm.symm).le hGlog
  · obtain ⟨P, hpre, hlen, hlast, hchosen⟩ := h.node c hadv.mem _ hadv.trans.node
    have hle := hadv.term_le ev.node
    refine ⟨P, ?_, hlen, hlast.trans hle, fun hne => (hchosen hne).mono⟩
    rcases hentries with ⟨_, heq⟩ | ⟨hnot, heq⟩
    · exact heq ▸ hpre
    · rw [heq]
      by_cases hne : P = []
      · rw [hne]
        exact List.nil_prefix
      · rcases (hchosen hne).leader_log hballots hadv.logs (hlast.trans (by omega)) hG with hPG | hGP
        · exact hPG
        · exact absurd (hGP.trans hpre) hnot

theorem Commits.node_step (h : Commits members (moments moves c) c) (hballots : Ballots members moves c)
    (hadv : Advance members (moments moves c) c ev m ms c')
    (htracked : (c'.nodes ev.node).state = .stateLeader → ∀ f ∈ members,
      Tracked (c' :: moments moves c) (c'.nodes ev.node) f) :
    Committed members (c' :: moments moves c) (c'.nodes ev.node).term
      (c'.nodes ev.node).raftLog.entries (c'.nodes ev.node).raftLog.commited := by
  have hold := h.node c hadv.mem _ hadv.trans.node
  have hle := hadv.term_le ev.node
  have hobs := observeTerm_raftLog (c.nodes ev.node) m
  have hnode' := hadv.logs'.node _ hadv.trans.node
  have hsize : ((c.nodes ev.node).observeTerm m).prs.size = members.card :=
    hadv.shape.observed_size hadv.trans.node
  cases hadv.trans.core.log (hadv.shape.observed_self hadv.trans.node) hadv.msgType.1 with
  | keep _ hlog =>
      rw [hlog, hobs]
      exact hold.grow hle List.prefix_rfl
  | append hacc hterm _ => exact .accepted hadv h hballots hacc hterm
  | lead _ hstate' hlog =>
      rw [hsize, hobs] at hlog
      refine .extended hadv hold hstate' hlog ?_
      rw [hlog, List.length_append, (hadv.logs.node _ hadv.trans.node).fromOne.lastIndex_eq]
      rfl
  | propose _ hstate _ _ hlog =>
      rw [hsize, hobs] at hlog
      exact .extended hadv hold (hadv.role.leader_keeps hstate).1 hlog hnode'.fromOne.lastIndex_eq
  | commit _ hstate hraise hlog =>
      have hraised := Committed.raised hadv (htracked (hadv.role.leader_keeps hstate).1) hstate hraise hlog
      have hcommit : (c'.nodes ev.node).raftLog.commited = _ := congrArg RaftLog.commited hlog
      rw [hcommit]
      exact hraised

theorem Commits.step (h : Commits members (moments moves c) c) (hballots : Ballots members moves c)
    (hadv : Advance members (moments moves c) c ev m ms c')
    (htracked : (c'.nodes ev.node).state = .stateLeader → ∀ f ∈ members,
      Tracked (c' :: moments moves c) (c'.nodes ev.node) f) :
    Commits members (c' :: moments moves c) c' := by
  have hnode := h.node_step hballots hadv htracked
  have hold : ∀ c₁ ∈ moments moves c, ∀ i ∈ members, Committed members (c' :: moments moves c)
      (c₁.nodes i).term (c₁.nodes i).raftLog.entries (c₁.nodes i).raftLog.commited :=
    fun c₁ hc₁ i hi => (h.node c₁ hc₁ i hi).grow le_rfl List.prefix_rfl
  refine ⟨fun c₁ hc₁ i hi => ?_, hadv.trans.forall_net (fun x hx happ => ?_) fun x hx happ => ?_⟩
  · rcases List.mem_cons.mp hc₁ with rfl | hc₁
    · by_cases hev : i = ev.node
      · rw [hev]
        exact hnode
      · rw [hadv.trans.other i hev]
        exact hold c hadv.mem i hi
    · exact hold c₁ hc₁ i hi
  · obtain ⟨G, hG, hcarries, hcommit⟩ := h.msg x hx happ
    exact ⟨G, leaderLogs_mono _ hG, hcarries, hcommit.grow le_rfl List.prefix_rfl⟩
  · obtain ⟨hx, hstate⟩ := (hadv.trans.sent x hx).append_inv hadv.msgType happ
    have hnode' := hadv.logs'.node _ hadv.trans.node
    obtain ⟨hself, _⟩ := hnode'.leader hstate
    have hne := hadv.election'.ne_nil_of_leader hadv.trans.node hstate (hadv.logs'.led _ _ hself).1
    refine ⟨_, ?_, hx.carries hnode'.fromOne hne, ?_⟩
    · rw [hx.term]
      exact hself
    · rw [hx.term, hx.commit]
      exact hnode

/-- Every `match` of another peer is inside the node's own log. -/
def MatchInLog (members : Finset Nat) (s : RaftContext) : Prop :=
  ∀ f ∈ members, f ≠ s.id → s.matchOf f ≤ s.raftLog.lastIndex

instance : DecidablePred (MatchInLog members) := fun s => by
  unfold MatchInLog
  infer_instance

variable {ok : Cluster → Event → Cluster → Prop}

theorem ClusterRun.tracked (hcard : members.card ≤ 255)
    (hok : ∀ c ev c', ok c ev c' → OneEntry ev ∧ AtElection (MatchInLog members) c ev)
    (hrun : ClusterRun members (fun _ => .new) ok moves c)
    (hi : i ∈ members) (hstate : (c.nodes i).state = .stateLeader) (hf : f ∈ members) :
    Tracked (moments moves c) (c.nodes i) f := by
  have hmatches := ClusterRun.matches hcard (fun _ _ _ h => (hok _ _ _ h).1) hrun
  rcases hmatches.peer i hi hstate f hf with hreach | ⟨a, ha, hleft⟩
  · exact .inl hreach
  · refine .inr ⟨_, hleft.log, ?_, hleft.before⟩
    have hfrom := ClusterRun.fromOne hcard (fun _ _ _ h => (hok _ _ _ h).1) hrun _ (mem_moments_before c ha) i hi
    rw [hleft.same, ← hfrom.lastIndex_eq]
    exact hleft.of_atElection (hok _ _ _ (hrun.next_of_mem a ha).2.1).2 f hf (by rw [hleft.id]; exact hleft.other)

theorem Started.commits (h : Started members (fun _ => .new) c) : Commits members [c] c := by
  refine ⟨fun c₁ hc₁ i hi => ?_, fun x hx => ?_⟩
  · obtain ⟨_, _, hzero⟩ := h.fromOne hi
    rw [List.mem_singleton.mp hc₁, hzero]
    exact ⟨[], List.nil_prefix, le_rfl, Nat.zero_le _, fun hne => absurd rfl hne⟩
  · rw [h.net] at hx
    cases hx

theorem ClusterRun.commits (hcard : members.card ≤ 255)
    (hrun : ClusterRun members (fun _ => .new) (fun c ev _ => OneEntry ev ∧
      AtElection (MatchInLog members) c ev) moves c) : Commits members (moments moves c) c := by
  induction hrun with
  | start h => exact h.commits
  | step hrun hnext ih =>
      obtain ⟨m, ms, hadv⟩ := ClusterRun.last_advance hcard (fun _ _ _ h => h.1) hrun hnext
      exact ih.step (ClusterRun.ballots hcard (fun _ _ _ h => h.1) hrun) hadv fun hstate f hf =>
        ClusterRun.tracked hcard (fun _ _ _ h => h) (hrun.step hnext) hadv.trans.node hstate hf

/-- **State machine safety.** In a run in which no node is elected with a `match` beyond its own log,
two nodes that have committed an index, at whatever moments, have the same entry there. -/
theorem state_machine_safety (hcard : members.card ≤ 255)
    (hrun : ClusterRun members (fun _ => .new) (fun c ev _ => OneEntry ev ∧
      AtElection (MatchInLog members) c ev) moves c) :
    ∀ c₁ ∈ moments moves c, ∀ c₂ ∈ moments moves c, ∀ a ∈ members, ∀ b ∈ members, ∀ k,
      k < (c₁.nodes a).raftLog.commited → k < (c₂.nodes b).raftLog.commited →
        ∃ e, (c₁.nodes a).raftLog.entries[k]? = some e ∧
          (c₂.nodes b).raftLog.entries[k]? = some e := by
  have hballots := ClusterRun.ballots hcard (fun _ _ _ h => h.1) hrun
  obtain ⟨_, hlogs⟩ := ClusterRun.logs hcard (fun _ _ _ h => h.1) hrun
  intro c₁ hc₁ c₂ hc₂ a ha b hb k hk hk'
  obtain ⟨P, hpre, hlen, _, hchosen⟩ := (ClusterRun.commits hcard hrun).node c₁ hc₁ a ha
  obtain ⟨P', hpre', hlen', _, hchosen'⟩ := (ClusterRun.commits hcard hrun).node c₂ hc₂ b hb
  have hk := hk.trans_le hlen
  have hk' := hk'.trans_le hlen'
  have hP := hchosen (List.ne_nil_of_length_pos (Nat.zero_lt_of_lt hk))
  have hP' := hchosen' (List.ne_nil_of_length_pos (Nat.zero_lt_of_lt hk'))
  refine ⟨P[k], List.prefix_iff_getElem?.mp hpre k hk, ?_⟩
  rw [List.prefix_iff_getElem?.mp hpre' k hk']
  have hcomp : P <+: P' ∨ P' <+: P := by
    rcases Nat.le_total (lastTerm Entry.term P) (lastTerm Entry.term P') with hle | hle
    · exact hP.comparable hP' hballots hlogs hle
    · exact (hP'.comparable hP hballots hlogs hle).symm
  rcases hcomp with h | h
  · rw [h.getElem hk]
  · rw [h.getElem hk']

/-- Node 1 is elected a second time, with its `match` of node 2 inside its log, and two nodes commit. -/
theorem state_machine_safety_of_three : ∃ moves c,
    ClusterRun [1, 2, 3].toFinset (fun _ => .new)
      (fun c ev _ => OneEntry ev ∧ AtElection (MatchInLog [1, 2, 3].toFinset) c ev) moves c ∧
    0 < (c.nodes 1).raftLog.commited ∧ 0 < (c.nodes 2).raftLog.commited ∧
    ∃ e, (c.nodes 1).raftLog.entries[0]? = some e ∧ (c.nodes 2).raftLog.entries[0]? = some e := by
  have hplay : (play (playNext [1, 2, 3].toFinset
      fun c ev _ => OneEntry ev ∧ AtElection (MatchInLog [1, 2, 3].toFinset) c ev)
      (Play.elect 1 [2] 1 ++ Play.replicate 1 2 1 ++ Play.elect 2 [3] 2 ++ Play.replicate 2 1 2 ++
        Play.elect 1 [2] 3 ++ Play.replicate 1 2 3) [] (boot [1, 2, 3])).any
      (fun r => 0 < (r.2.nodes 1).raftLog.commited ∧ 0 < (r.2.nodes 2).raftLog.commited ∧
        (r.2.nodes 1).term = 3) = true := by
    decide +kernel
  obtain ⟨moves, c, hrun, htest⟩ := exists_clusterRun (by decide) _ hplay
  obtain ⟨hfirst, hsecond, _⟩ := of_decide_eq_true htest
  have hc := mem_moments_self moves c
  exact ⟨moves, c, hrun, hfirst, hsecond, state_machine_safety (by decide) hrun c hc c hc
    1 (by decide) 2 (by decide) 0 hfirst hsecond⟩

/-- Node 1, elected again, counts its old `match` of node 2 and commits two entries that only node 3 has
besides it; node 2 is then elected without them and commits its own. -/
theorem not_state_machine_safety_regained : ∃ moves c,
    ClusterRun [1, 2, 3, 4, 5].toFinset (fun _ => .new) (fun _ ev _ => OneEntry ev) moves c ∧
    2 ≤ (c.nodes 1).raftLog.commited ∧ 2 ≤ (c.nodes 2).raftLog.commited ∧
    (c.nodes 1).raftLog.entries[1]? ≠ (c.nodes 2).raftLog.entries[1]? := by
  have hplay : (play (playNext [1, 2, 3, 4, 5].toFinset fun _ ev _ => OneEntry ev)
      (regained ++ Play.replicate 1 3 3 ++ [.hup 2, .hup 2] ++ Play.elect 2 [4, 5] 4 ++
        Play.replicate 2 4 4 ++ Play.replicate 2 4 4 ++ Play.replicate 2 5 4 ++ Play.replicate 2 5 4)
      [] (boot [1, 2, 3, 4, 5])).any (fun r => 2 ≤ (r.2.nodes 1).raftLog.commited ∧
        2 ≤ (r.2.nodes 2).raftLog.commited ∧
        (r.2.nodes 1).raftLog.entries[1]? ≠ (r.2.nodes 2).raftLog.entries[1]?) = true := by
    decide +kernel
  obtain ⟨moves, c, hrun, htest⟩ := exists_clusterRun (by decide) _ hplay
  exact ⟨moves, c, hrun, of_decide_eq_true htest⟩

end Eraft.Cluster
