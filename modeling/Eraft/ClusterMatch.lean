import Eraft.ClusterBallot

/-! What `match` says about a peer. A leader's `match` of a peer goes back to an acknowledgement of its
own term, and then the peer has held the leader's log up to there, or it was left over from an earlier
leadership: `BecomeLeader` resets `next` of every peer but `match` only of the node itself. -/

open Std Runs TermLog

namespace Eraft.Cluster

open RaftContext

/-- The sender of the acknowledgement `x` has held a log as long as it says, ending in its term and
part of a log of the leader of this term. -/
def Acked (members : Finset Nat) (hist : List Cluster) (x : Message) : Prop :=
  ∃ P, P.length = x.index ∧ lastTerm Entry.term P = x.term ∧ Held hist x.fromId P ∧
    ∃ q ∈ leaderLogs members hist x.term, P <+: q

/-- The peer `f` has held the log of the leader `s` up to its `match`, with an entry of the leader's
term as the last one. -/
def Reached (hist : List Cluster) (s : RaftContext) (f : Nat) : Prop :=
  ∃ P, P.length = s.matchOf f ∧ lastTerm Entry.term P = s.term ∧ Held hist f P ∧
    P <+: s.raftLog.entries

/-- The message is the vote that makes the candidate `s` leader of its term. -/
def WonBy (s : RaftContext) (m : Message) : Prop :=
  s.state = .stateCandidate ∧ m.msgType = .msgRequestVoteResponse ∧
    (m.term = NONE ∨ m.term = s.term) ∧ (s.recordVote m).voteThreshold < (s.recordVote m).grantCount

/-- A candidate that the call of `ev` makes leader satisfies `cond`. -/
def AtElection (cond : RaftContext → Prop) (c : Cluster) (ev : Event) : Prop :=
  match ev.call with
  | .tick => True
  | .step m => WonBy (c.nodes ev.node) m → cond (c.nodes ev.node)

/-- The `match` that the leader `s`, which is node `l`, has of the peer `f` is the one that the move
which elected it has found. -/
structure Leftover (a : Move Cluster Event) (l f : Nat) (s : RaftContext) : Prop where
  node : a.label.node = l
  won : ∃ m, a.label.call = .step m ∧ WonBy (a.before.nodes l) m
  id : (a.before.nodes l).id = l
  other : f ≠ l
  same : s.matchOf f = (a.before.nodes l).matchOf f
  log : (a.before.nodes l).raftLog.entries <+: s.raftLog.entries
  before : lastTerm Entry.term (a.before.nodes l).raftLog.entries < s.term

/-- The invariant of acknowledgements and matches. -/
structure Matches (members : Finset Nat) (moves : List (Move Cluster Event)) (c : Cluster) : Prop where
  ack : ∀ x ∈ c.net, x.msgType = .msgAppendResponse → x.reject = false →
    Acked members (moments moves c) x
  peer : ∀ l ∈ members, (c.nodes l).state = .stateLeader → ∀ f ∈ members,
    Reached (moments moves c) (c.nodes l) f ∨ ∃ a ∈ moves, Leftover a l f (c.nodes l)

variable {members : Finset Nat} {hist : List Cluster} {c c' : Cluster} {ev : Event} {m x : Message}
  {ms : List Message} {s s' : RaftContext} {P : List Entry} {f l : Nat}
  {moves : List (Move Cluster Event)} {a : Move Cluster Event}

theorem Held.mono (h : Held hist f P) : Held (c :: hist) f P := by
  obtain ⟨c₁, hc₁, h⟩ := h
  exact ⟨c₁, List.mem_cons_of_mem _ hc₁, h⟩

theorem Acked.mono (h : Acked members hist x) : Acked members (c :: hist) x := by
  obtain ⟨P, hlen, hlast, hheld, q, hq, hpre⟩ := h
  exact ⟨P, hlen, hlast, hheld.mono, q, leaderLogs_mono _ hq, hpre⟩

/-- The leader's log has grown and its `match` of the peer is the same. -/
theorem Reached.grow (h : Reached hist s f) (hmatch : s'.matchOf f = s.matchOf f)
    (hterm : s'.term = s.term) (hlog : s.raftLog.entries <+: s'.raftLog.entries) :
    Reached (c :: hist) s' f := by
  obtain ⟨P, hlen, hlast, hheld, hpre⟩ := h
  exact ⟨P, hlen.trans hmatch.symm, hlast.trans hterm.symm, hheld.mono, hpre.trans hlog⟩

theorem Leftover.grow (h : Leftover a l f s) (hmatch : s'.matchOf f = s.matchOf f)
    (hterm : s'.term = s.term) (hlog : s.raftLog.entries <+: s'.raftLog.entries) :
    Leftover a l f s' :=
  ⟨h.node, h.won, h.id, h.other, hmatch.trans h.same, h.log.trans hlog, hterm ▸ h.before⟩

theorem Matches.ack_step (h : Matches members moves c)
    (hadv : Advance members (moments moves c) c ev m ms c') (hx : x ∈ c'.net)
    (hack : x.msgType = .msgAppendResponse) (hreject : x.reject = false) :
    Acked members (c' :: moments moves c) x := by
  rw [hadv.trans.net] at hx
  rcases List.mem_append.mp hx with hx | hx
  · exact (h.ack x hx hack hreject).mono
  · obtain ⟨hacc, hterm, hfrom, _, hxterm, hindex⟩ :=
      (hadv.trans.sent x hx).ack_inv hadv.msgType hack hreject
    obtain ⟨hmterm, _⟩ := hadv.logs.accepts hadv.election hadv.trans hacc
    obtain ⟨hlast, q, hq, hpre⟩ := hadv.logs.accepted_log hadv.election hadv.trans hacc
    have hlog := (hadv.logs'.node _ hadv.trans.node).fromOne
    have hxterm' : x.term = m.term := hxterm.trans (hterm.trans hmterm)
    rw [hadv.id] at hfrom
    refine ⟨_, hlog.lastIndex_eq.symm.trans hindex.symm, hlast.trans hxterm'.symm, ?_, q, ?_, hpre⟩
    · exact ⟨c', List.mem_cons_self, by rw [hfrom, hlast, ← hxterm', hxterm], by rw [hfrom]⟩
    · rw [hxterm']
      exact leaderLogs_mono _ hq

/-- A leader has reached its own log. -/
theorem Reached.self (hlogs : Logs members (c' :: hist) c') (hl : l ∈ members)
    (hstate : (c'.nodes l).state = .stateLeader)
    (hmatch : (c'.nodes l).matchOf l = (c'.nodes l).raftLog.lastIndex) :
    Reached (c' :: hist) (c'.nodes l) l := by
  have hnode := hlogs.node l hl
  obtain ⟨hlast, _⟩ := hlogs.led _ _ (hnode.leader hstate).1
  refine ⟨_, ?_, hlast, ⟨c', List.mem_cons_self, hlast.symm, List.prefix_rfl⟩, List.prefix_rfl⟩
  rw [hmatch, hnode.fromOne.lastIndex_eq]

/-- A node that keeps the lead keeps what it knows of a peer whose `match` is not written. -/
theorem Matches.kept (h : Matches members moves c)
    (hadv : Advance members (moments moves c) c ev m ms c')
    (hstate : ((c.nodes ev.node).observeTerm m).state = .stateLeader)
    (hstate' : (c'.nodes ev.node).state = .stateLeader) (hf : f ∈ members)
    (hmatch : (c'.nodes ev.node).matchOf f = ((c.nodes ev.node).observeTerm m).matchOf f) :
    Reached (c' :: moments moves c) (c'.nodes ev.node) f ∨
      ∃ a ∈ (⟨c, ev, c'⟩ :: moves : List (Move Cluster Event)),
        Leftover a ev.node f (c'.nodes ev.node) := by
  rcases hadv.leader_cases hstate' with ⟨hobs, hleader, hterm⟩ | ⟨hnot, _⟩
  · rw [hobs] at hmatch
    have hlog : (c.nodes ev.node).raftLog.entries <+: (c'.nodes ev.node).raftLog.entries :=
      ((hadv.logs'.node _ hadv.trans.node).leader hstate').2 _ ⟨c, List.mem_cons_of_mem _ hadv.mem,
        ev.node, hadv.trans.node, hleader, hterm.symm, rfl⟩
    rcases h.peer _ hadv.trans.node hleader f hf with hreach | ⟨a, ha, hleft⟩
    · exact .inl (hreach.grow hmatch hterm hlog)
    · exact .inr ⟨a, List.mem_cons_of_mem _ ha, hleft.grow hmatch hterm hlog⟩
  · exact absurd hstate hnot

/-- A node with other peers is elected by a vote. -/
theorem Advance.won (hadv : Advance members hist c ev m ms c')
    (hstate : ((c.nodes ev.node).observeTerm m).state ≠ .stateLeader)
    (hstate' : (c'.nodes ev.node).state = .stateLeader) (hf : f ∈ members) (hother : f ≠ ev.node) :
    ∃ m, ev.call = .step m ∧ WonBy (c.nodes ev.node) m := by
  rcases hadv.role.elected hstate hstate' with ⟨hone, _⟩ | ⟨hm, hcand, hcur, hwin, _⟩
  · rw [hadv.shape.observed_size hadv.trans.node] at hone
    exact absurd (Finset.card_le_one.mp hone.le f hf _ hadv.trans.node) hother
  · refine ⟨m, ?_, ?_⟩
    · have hhandled := hadv.trans.handled
      generalize ev.call = call at hhandled
      cases hhandled with
      | hup | beat => cases hm
      | step => rfl
      | ignored _ htimeout => exact absurd (htimeout.symm.trans hm) (by decide)
    · rcases observeTerm_cases (c.nodes ev.node) m with ⟨hle, hobs⟩ | ⟨_, _, _, hfollower, _⟩
      · rw [hobs] at hcand hcur hwin
        exact ⟨hcand, hm, hcur.imp_right fun hge => Nat.le_antisymm hle hge, hwin⟩
      · exact absurd (hfollower.symm.trans hcand) (by decide)

theorem Matches.peer_step (h : Matches members moves c)
    (hadv : Advance members (moments moves c) c ev m ms c')
    (hstate' : (c'.nodes ev.node).state = .stateLeader) (hf : f ∈ members) :
    Reached (c' :: moments moves c) (c'.nodes ev.node) f ∨
      ∃ a ∈ (⟨c, ev, c'⟩ :: moves : List (Move Cluster Event)),
        Leftover a ev.node f (c'.nodes ev.node) := by
  have hid : ((c.nodes ev.node).observeTerm m).id = ev.node := hadv.shape.observed_id hadv.trans.node
  have hcomplete : Complete members ((c.nodes ev.node).observeTerm m) :=
    hadv.shape.observed hadv.trans.node
  have hnode' := hadv.logs'.node _ hadv.trans.node
  cases hadv.trans.core.matches (by rw [hid]; exact hcomplete.progress _ hadv.trans.node)
      hadv.msgType.1 with
  | keep hkeep hmatch => exact h.kept hadv (hkeep hstate') hstate' hf (hmatch f)
  | lead hstate hmatch =>
      have hnone := hadv.first_log hstate hstate'
      obtain ⟨e, hlog, _⟩ := hadv.elected_log hstate hstate' hnone
      have hmatch := hmatch f
      rw [hid] at hmatch
      by_cases hself : f = ev.node
      · subst hself
        refine .inl (.self hadv.logs' hadv.trans.node hstate' ?_)
        rw [hmatch, if_pos rfl, hnode'.fromOne.lastIndex_eq, hlog, List.length_append,
          observeTerm_raftLog, (hadv.logs.node _ hadv.trans.node).fromOne.lastIndex_eq]
        rfl
      · rw [if_neg hself, matchOf_of_prs (observeTerm_prs _ _)] at hmatch
        exact .inr ⟨_, List.mem_cons_self, rfl, hadv.won hstate hstate' hf hself,
          hadv.shape.id _ hadv.trans.node, hself, hmatch, hlog ▸ List.prefix_append _ _,
          hadv.elected_before hstate hstate'⟩
  | propose hstate hmatch =>
      have hmatch := hmatch f
      rw [hid] at hmatch
      by_cases hself : f = ev.node
      · subst hself
        rw [if_pos rfl] at hmatch
        exact .inl (.self hadv.logs' hadv.trans.node hstate' hmatch)
      · rw [if_neg hself] at hmatch
        exact h.kept hadv hstate hstate' hf hmatch
  | ack hm hstate hcur hreject hmatch =>
      have hmatch := hmatch f
      by_cases hfrom : f = m.fromId
      · subst hfrom
        rw [if_pos rfl] at hmatch
        obtain ⟨hnet, _⟩ := hadv.trans.arrives.delivered (by rw [hm]; rfl)
        obtain ⟨P, hlen, hlast, hheld, q, hq, hpre⟩ := h.ack m hnet hm hreject
        have hterm : (c'.nodes ev.node).term = m.term := (hadv.role.leader_keeps hstate).2.trans
          (hcur.term_eq ((hadv.election.msg m hnet).ack hm hreject))
        refine .inl ⟨P, hlen.trans hmatch.symm, hlast.trans hterm.symm, hheld.mono, hpre.trans ?_⟩
        exact (hnode'.leader hstate').2 q (leaderLogs_mono _ (hterm ▸ hq))
      · rw [if_neg hfrom] at hmatch
        exact h.kept hadv hstate hstate' hf hmatch

theorem Matches.step (h : Matches members moves c)
    (hadv : Advance members (moments moves c) c ev m ms c') :
    Matches members (⟨c, ev, c'⟩ :: moves) c' := by
  refine ⟨fun x hx hack hreject => h.ack_step hadv hx hack hreject, fun l hl hstate f hf => ?_⟩
  by_cases hev : l = ev.node
  · subst hev
    exact h.peer_step hadv hstate hf
  · rw [hadv.trans.other l hev] at hstate ⊢
    rcases h.peer l hl hstate f hf with hreach | ⟨a, ha, hleft⟩
    · exact .inl (hreach.grow rfl rfl List.prefix_rfl)
    · exact .inr ⟨a, List.mem_cons_of_mem _ ha, hleft⟩

theorem Started.matches (h : Started members (fun _ => .new) c) : Matches members [] c := by
  refine ⟨fun x hx => ?_, fun l hl hstate => ?_⟩
  · rw [h.net] at hx
    cases hx
  · obtain ⟨config, _, _, _, hnew, _⟩ := h.built l hl
    exact absurd ((new_spec hnew).state.symm.trans hstate) (by decide)

variable {ok : Cluster → Event → Cluster → Prop}

theorem ClusterRun.matches (hcard : members.card ≤ 255) (hok : ∀ c ev c', ok c ev c' → OneEntry ev)
    (hrun : ClusterRun members (fun _ => .new) ok moves c) : Matches members moves c :=
  ClusterRun.advance (I := Matches members) hcard hok (fun _ h => h.matches)
    (fun _ _ _ _ _ _ _ hadv h => h.step hadv) hrun

theorem Leftover.of_atElection {cond : RaftContext → Prop} (h : Leftover a l f s)
    (hcond : AtElection cond a.before a.label) : cond (a.before.nodes l) := by
  obtain ⟨m, hcall, hwon⟩ := h.won
  unfold AtElection at hcond
  rw [hcall, h.node] at hcond
  exact hcond hwon

instance (s : RaftContext) (m : Message) : Decidable (WonBy s m) := inferInstanceAs (Decidable (_ ∧ _))

instance (cond : RaftContext → Prop) [DecidablePred cond] (c : Cluster) (ev : Event) :
    Decidable (AtElection cond c ev) :=
  decidable_of_iff
    (∀ m ∈ ev.call.message?, WonBy (c.nodes ev.node) m → cond (c.nodes ev.node)) (by
      unfold AtElection
      cases ev.call with
      | tick => exact iff_of_true nofun trivial
      | step m => exact ⟨fun h => h m rfl, fun h m' hm' => Option.some.inj hm' ▸ h⟩)

/-- No `match` of another peer is left over from an earlier leadership. -/
def NoLeftover (members : Finset Nat) (s : RaftContext) : Prop :=
  ∀ f ∈ members, f ≠ s.id → s.matchOf f = 0

instance : DecidablePred (NoLeftover members) := fun s => by
  unfold NoLeftover
  infer_instance

/-- **Match soundness.** In a run in which no node is elected with a `match` from an earlier
leadership, the `match` of every peer is inside the leader's log, and a peer in the leader's term has
the same log up to it. -/
theorem match_sound (hcard : members.card ≤ 255)
    (hrun : ClusterRun members (fun _ => .new) (fun c ev _ => OneEntry ev ∧
      AtElection (NoLeftover members) c ev) moves c)
    (hl : l ∈ members) (hstate : (c.nodes l).state = .stateLeader) (hf : f ∈ members)
    {pr : Progress} (hpr : (c.nodes l).progress f = some pr) :
    pr.matchIdx ≤ (c.nodes l).raftLog.lastIndex ∧ ((c.nodes f).term = (c.nodes l).term →
      (c.nodes f).raftLog.entries.take pr.matchIdx = (c.nodes l).raftLog.entries.take pr.matchIdx) := by
  obtain ⟨hel, hlogs⟩ := ClusterRun.logs hcard (fun _ _ _ h => h.1) hrun
  rw [← matchOf_of_progress hpr, (hlogs.node l hl).fromOne.lastIndex_eq]
  rcases (ClusterRun.matches hcard (fun _ _ _ h => h.1) hrun).peer l hl hstate f hf with
    ⟨P, hlen, hlast, hheld, hpre⟩ | ⟨a, ha, hleft⟩
  · rw [← hlen]
    refine ⟨hpre.length_le, fun hterm => ?_⟩
    have hne := hel.ne_nil_of_leader hl hstate hlast
    have hballots := ClusterRun.ballots hcard (fun _ _ _ h => h.1) hrun
    rcases (hballots.held f hf P hne hheld).2 with hkept | ⟨u, hu, hub, _⟩
    · rw [← List.prefix_iff_eq_take.mp hkept, ← List.prefix_iff_eq_take.mp hpre]
    · omega
  · have hcond := hleft.of_atElection (hrun.next_of_mem a ha).2.1.2
    have hzero := hcond f hf (by rw [hleft.id]; exact hleft.other)
    rw [hleft.same, hzero, List.take_zero, List.take_zero]
    exact ⟨Nat.zero_le _, fun _ => rfl⟩

/-- Node 2 has acknowledged the log of node 1. -/
theorem match_sound_of_three : ∃ moves c pr,
    ClusterRun [1, 2, 3].toFinset (fun _ => .new)
      (fun c ev _ => OneEntry ev ∧ AtElection (NoLeftover [1, 2, 3].toFinset) c ev) moves c ∧
    (c.nodes 1).state = .stateLeader ∧ (c.nodes 2).term = (c.nodes 1).term ∧
    (c.nodes 1).progress 2 = some pr ∧ 0 < pr.matchIdx ∧
    (c.nodes 2).raftLog.entries.take pr.matchIdx = (c.nodes 1).raftLog.entries.take pr.matchIdx := by
  have hplay : (play (playNext [1, 2, 3].toFinset
      fun c ev _ => OneEntry ev ∧ AtElection (NoLeftover [1, 2, 3].toFinset) c ev)
      (Play.elect 1 [2] 1 ++ .propose 1 :: Play.replicate 1 2 1) [] (boot [1, 2, 3])).any
      (fun r => (r.2.nodes 1).state = .stateLeader ∧ (r.2.nodes 2).term = (r.2.nodes 1).term ∧
        ((r.2.nodes 1).progress 2).any fun pr => 0 < pr.matchIdx) = true := by
    decide +kernel
  obtain ⟨moves, c, hrun, htest⟩ := exists_clusterRun (by decide) _ hplay
  obtain ⟨hstate, hterm, hsome⟩ := of_decide_eq_true htest
  obtain ⟨pr, hpr, hpos⟩ := (Option.any_eq_true _ _).mp hsome
  exact ⟨moves, c, pr, hrun, hstate, hterm, hpr, of_decide_eq_true hpos,
    (match_sound (by decide) hrun (by decide) hstate (by decide) hpr).2 hterm⟩

/-- Node 1 leads term 1 and node 2 acknowledges three entries; node 3 leads term 2 and replaces the log
of node 1; node 1 is elected again in term 3. -/
def regained : List Play :=
  Play.elect 1 [2, 3] 1 ++ [.propose 1, .propose 1] ++ Play.replicate 1 2 1 ++
  Play.elect 3 [4, 5] 2 ++ [.deliver .msgAppend 3 1 2] ++
  Play.elect 1 [3, 4] 3

/-- A leader that takes up its old `match` of node 2, which lies outside its log. -/
theorem not_match_sound_regained : ∃ moves c pr,
    ClusterRun [1, 2, 3, 4, 5].toFinset (fun _ => .new) (fun _ ev _ => OneEntry ev) moves c ∧
    (c.nodes 1).state = .stateLeader ∧ (c.nodes 1).progress 2 = some pr ∧
    (c.nodes 1).raftLog.lastIndex < pr.matchIdx := by
  have hplay : (play (playNext [1, 2, 3, 4, 5].toFinset fun _ ev _ => OneEntry ev) regained []
      (boot [1, 2, 3, 4, 5])).any (fun r => (r.2.nodes 1).state = .stateLeader ∧
        ((r.2.nodes 1).progress 2).any fun pr => (r.2.nodes 1).raftLog.lastIndex < pr.matchIdx) =
      true := by
    decide +kernel
  obtain ⟨moves, c, hrun, htest⟩ := exists_clusterRun (by decide) _ hplay
  obtain ⟨hstate, hsome⟩ := of_decide_eq_true htest
  obtain ⟨pr, hpr, hlt⟩ := (Option.any_eq_true _ _).mp hsome
  exact ⟨moves, c, pr, hrun, hstate, hpr, of_decide_eq_true hlt⟩

end Eraft.Cluster
