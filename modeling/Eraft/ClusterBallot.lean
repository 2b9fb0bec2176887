import Eraft.ClusterLog

/-! What a vote says about the log of the voter. A vote is granted only to a candidate whose log is at
least as up to date as the voter's, and the voter's log holds what it held in an earlier term, unless
the log of a later leader did not. Both are remembered for every vote, and from the votes of a winner
for every leader. -/

open Std Runs TermLog

namespace Eraft.Cluster

open RaftContext

/-- The messages that a move put on the network. -/
def posted (a : Move Cluster Event) : List Message := a.after.net.drop a.before.net.length

/-- The move cast the vote of `v` in term `t` for `l`. -/
def CastsVote (a : Move Cluster Event) (v t l : Nat) : Prop :=
  a.label.node = v ∧ Casts (a.before.nodes v) (posted a) (a.after.nodes v) t l

/-- The node `v` has held the log `P`, that ends in the term it was in. -/
def Held (hist : List Cluster) (v : Nat) (P : List Entry) : Prop :=
  ∃ c ∈ hist, (c.nodes v).term = lastTerm Entry.term P ∧ P <+: (c.nodes v).raftLog.entries

/-- A leader of a term after that of `P` and below `b` has held a log without `P`. -/
def Displaced (members : Finset Nat) (hist : List Cluster) (P : List Entry) (b : Nat) : Prop :=
  ∃ u, lastTerm Entry.term P < u ∧ u < b ∧ ∃ q ∈ leaderLogs members hist u, ¬P <+: q

/-- The log `glog` with which `v` voted in term `t`. -/
structure VoterLog (members : Finset Nat) (hist : List Cluster) (v t b : Nat) (glog : List Entry) :
    Prop where
  attributed : Attributed Entry.term (leaderLogs members hist) glog
  sorted : Sorted Entry.term glog
  held : ∀ P, P ≠ [] → Held hist v P → lastTerm Entry.term P < t →
    P <+: glog ∨ Displaced members hist P b

/-- The leader of term `t` was elected with the log `elog` by a quorum of voters. -/
structure Winner (members : Finset Nat) (hist : List Cluster) (c : Cluster) (t : Nat)
    (elog : List Entry) (Q : Finset Nat) : Prop where
  quorum : Q ⊆ members ∧ members.card < 2 * Q.card
  log : ∀ q ∈ leaderLogs members hist t, elog <+: q
  before : lastTerm Entry.term elog < t
  attributed : Attributed Entry.term (leaderLogs members hist) elog
  voter : ∀ v ∈ Q, t ≤ (c.nodes v).term ∧ ∃ glog, VoterLog members hist v t t glog ∧
    UpToDate Entry.term glog elog

/-- The invariant of votes. -/
structure Ballots (members : Finset Nat) (moves : List (Move Cluster Event)) (c : Cluster) : Prop where
  held : ∀ v ∈ members, ∀ P, P ≠ [] → Held (moments moves c) v P →
    lastTerm Entry.term P ≤ (c.nodes v).term ∧ (P <+: (c.nodes v).raftLog.entries ∨
      Displaced members (moments moves c) P ((c.nodes v).term + 1))
  request : ∀ m ∈ c.net, m.msgType = .msgRequestVote → m.term ≤ (c.nodes m.fromId).term ∧
    ((c.nodes m.fromId).state = .stateCandidate → (c.nodes m.fromId).term = m.term →
      m.logTerm = lastTerm Entry.term (c.nodes m.fromId).raftLog.entries ∧
        m.index = (c.nodes m.fromId).raftLog.entries.length)
  self : ∀ i ∈ members, (c.nodes i).state = .stateCandidate → ∃ a ∈ moves,
    CastsVote a i (c.nodes i).term i ∧
      (a.before.nodes i).raftLog.entries = (c.nodes i).raftLog.entries
  cast : ∀ a ∈ moves, ∀ v t l, CastsVote a v t l → t ≤ (c.nodes l).term ∧
    ((c.nodes l).state = .stateCandidate → (c.nodes l).term = t →
      UpToDate Entry.term (a.before.nodes v).raftLog.entries (c.nodes l).raftLog.entries)
  grant : ∀ g ∈ c.net, IsGrant g → ∃ a ∈ moves, CastsVote a g.fromId g.term g.toId ∧
    VoterLog members (moments moves c) g.fromId g.term (g.term + 1)
      (a.before.nodes g.fromId).raftLog.entries
  winner : ∀ t, (leaderLogs members (moments moves c) t).Nonempty → ∃ elog Q,
    Winner members (moments moves c) c t elog Q

variable {members : Finset Nat} {hist : List Cluster} {c c' : Cluster} {ev : Event} {m x : Message}
  {ms : List Message} {P glog : List Entry} {v t b : Nat} {moves : List (Move Cluster Event)}

theorem Displaced.mono {b' : Nat} (h : Displaced members hist P b) (hb : b ≤ b') :
    Displaced members (c :: hist) P b' := by
  obtain ⟨u, hu, hub, q, hq, hnot⟩ := h
  exact ⟨u, hu, by omega, q, leaderLogs_mono u hq, hnot⟩

/-- A new moment at which something is held is that of the node that moved. -/
theorem Held.step_cases (hadv : Advance members hist c ev m ms c') (h : Held (c' :: hist) v P) :
    Held hist v P ∨ (v = ev.node ∧ (c'.nodes ev.node).term = lastTerm Entry.term P ∧
      P <+: (c'.nodes ev.node).raftLog.entries) := by
  obtain ⟨c₁, hc₁, hterm, hpre⟩ := h
  rcases List.mem_cons.mp hc₁ with rfl | hc₁
  · by_cases hev : v = ev.node
    · subst hev
      exact .inr ⟨rfl, hterm, hpre⟩
    · rw [hadv.trans.other v hev] at hterm hpre
      exact .inl ⟨c, hadv.mem, hterm, hpre⟩
  · exact .inl ⟨c₁, hc₁, hterm, hpre⟩

/-- A voter that has reached the term of its vote holds nothing more from before. -/
theorem VoterLog.step (hadv : Advance members hist c ev m ms c') (hv : t ≤ (c'.nodes v).term)
    (h : VoterLog members hist v t b glog) : VoterLog members (c' :: hist) v t b glog := by
  refine ⟨h.attributed.mono leaderLogs_mono, h.sorted, fun P hP hheld hlt => ?_⟩
  rcases hheld.step_cases hadv with hold | ⟨rfl, hterm, _⟩
  · exact (h.held P hP hold hlt).imp_right fun hdis => hdis.mono le_rfl
  · omega

/-- **What a node has held it still holds**, unless a later leader's log replaced it. -/
theorem Ballots.held_step (h : Ballots members moves c)
    (hadv : Advance members (moments moves c) c ev m ms c') (hv : v ∈ members) (hP : P ≠ [])
    (hheld : Held (c' :: moments moves c) v P) :
    lastTerm Entry.term P ≤ (c'.nodes v).term ∧ (P <+: (c'.nodes v).raftLog.entries ∨
      Displaced members (c' :: moments moves c) P ((c'.nodes v).term + 1)) := by
  rcases hheld.step_cases hadv with hold | ⟨rfl, hterm, hpre⟩
  swap
  · exact ⟨hterm.ge, .inl hpre⟩
  obtain ⟨hle, hkept⟩ := h.held v hv P hP hold
  have hterm := hadv.term_le v
  refine ⟨hle.trans hterm, ?_⟩
  rcases hkept with hpre | hdis
  swap
  · exact .inr (hdis.mono (Nat.succ_le_succ hterm))
  by_cases hev : v = ev.node
  swap
  · rw [hadv.trans.other v hev]
    exact .inl hpre
  subst hev
  have hobs := (hadv.logs.node _ hv).observe m
  have hpre : P <+: ((c.nodes ev.node).observeTerm m).raftLog.entries := by
    rw [observeTerm_raftLog]
    exact hpre
  cases hadv.entries with
  | keep _ heq => exact .inl (heq ▸ hpre)
  | extend _ _ _ heq => exact .inl (heq ▸ hpre.trans (List.prefix_append _ _))
  | adopt hsame _ hnot hadopt =>
      by_cases hP' : P <+: (c'.nodes ev.node).raftLog.entries
      · exact .inl hP'
      right
      have hbound := (hobs.sorted.lastTerm_le hpre).trans hobs.bound
      refine ⟨_, Nat.lt_of_le_of_ne hbound fun hlast => hnot ?_, by omega, _,
        leaderLogs_mono _ hadopt, hP'⟩
      -- in the term of `P` both logs are parts of one leader's, and the adopted one is the shorter
      have hself := hobs.attributed P.length (List.length_pos_of_ne_nil hP) hpre.length_le
      rw [← List.prefix_iff_eq_take.mp hpre, hlast] at hself
      obtain ⟨q, hq, hPq⟩ := hself
      obtain ⟨r, _, hPr, hGr⟩ := hadv.logs.leaders.common hq hadopt hPq List.prefix_rfl
      rcases List.prefix_or_prefix_of_prefix hPr hGr with hcase | hcase
      · exact absurd hcase hP'
      · exact hcase.trans hpre

theorem Ballots.request_step (h : Ballots members moves c)
    (hadv : Advance members (moments moves c) c ev m ms c') (hx : x ∈ c'.net)
    (hreq : x.msgType = .msgRequestVote) : x.term ≤ (c'.nodes x.fromId).term ∧
      ((c'.nodes x.fromId).state = .stateCandidate → (c'.nodes x.fromId).term = x.term →
        x.logTerm = lastTerm Entry.term (c'.nodes x.fromId).raftLog.entries ∧
          x.index = (c'.nodes x.fromId).raftLog.entries.length) := by
  rw [hadv.trans.net] at hx
  rcases List.mem_append.mp hx with hx | hx
  · obtain ⟨hle, hkey⟩ := h.request x hx hreq
    have hterm := hadv.term_le x.fromId
    refine ⟨hle.trans hterm, fun hcand heq => ?_⟩
    obtain ⟨hcand', hlog⟩ := hadv.candidate_keeps hcand (heq.trans_le hle)
    rw [hlog]
    exact hkey hcand' (by omega)
  · obtain ⟨hfrom, hterm, hindex, found, hlast⟩ := (hadv.trans.sent x hx).request_inv hadv.msgType hreq
    have hlog := (hadv.logs'.node _ hadv.trans.node).fromOne
    rw [hfrom, hadv.id]
    refine ⟨hterm.le, fun _ _ => ⟨?_, hindex.trans hlog.lastIndex_eq⟩⟩
    rw [hlog.lastIndex_eq, hlog.term_eq le_rfl, List.take_length] at hlast
    exact (congrArg Prod.fst (Option.some.inj hlast)).symm

theorem Ballots.self_step (h : Ballots members moves c)
    (hadv : Advance members (moments moves c) c ev m ms c') {i : Nat} (hi : i ∈ members)
    (hcand : (c'.nodes i).state = .stateCandidate) :
    ∃ a ∈ (⟨c, ev, c'⟩ :: moves : List (Move Cluster Event)), CastsVote a i (c'.nodes i).term i ∧
      (a.before.nodes i).raftLog.entries = (c'.nodes i).raftLog.entries := by
  by_cases hle : (c'.nodes i).term ≤ (c.nodes i).term
  · obtain ⟨hcand', hlog⟩ := hadv.candidate_keeps hcand hle
    obtain ⟨a, ha, hcast, hsame⟩ := h.self i hi hcand'
    have hterm : (c'.nodes i).term = (c.nodes i).term := Nat.le_antisymm hle (hadv.term_le i)
    exact ⟨a, List.mem_cons_of_mem _ ha, hterm ▸ hcast, hsame.trans hlog.symm⟩
  · -- the candidacy begins with this move
    obtain rfl : i = ev.node := by
      by_contra hev
      exact hle (hadv.trans.other i hev ▸ le_rfl)
    refine ⟨_, List.mem_cons_self, ⟨rfl, .inr ⟨Nat.lt_of_not_le hle, rfl, ?_, hadv.id.symm⟩⟩, ?_⟩
    · exact fun hfollower => absurd (hcand.symm.trans hfollower) (by decide)
    · exact (hadv.candidate_log hcand).symm

/-- The candidate that a node grants its vote has a log at least as up to date. -/
theorem Ballots.new_cast (h : Ballots members moves c)
    (hadv : Advance members (moments moves c) c ev m ms c') {l : Nat}
    (hcast : CastsVote ⟨c, ev, c'⟩ v t l) : t ≤ (c'.nodes l).term ∧
      ((c'.nodes l).state = .stateCandidate → (c'.nodes l).term = t →
        UpToDate Entry.term (c.nodes v).raftLog.entries (c'.nodes l).raftLog.entries) := by
  obtain ⟨rfl, ⟨x, hx, hgrant, rfl, rfl⟩ | ⟨_, hterm, _, rfl⟩⟩ := hcast
  · rw [posted, hadv.trans.net, List.drop_left] at hx
    obtain ⟨hfrom, hterm, _, _, _, hne, _⟩ := hadv.election.new_grant hadv.shape hadv.trans hx hgrant
    obtain ⟨hm, hcur, _, hcore, hahead, _, hto, _⟩ :=
      (hadv.trans.sent x hx).grant_inv hadv.msgType.1 hgrant
    obtain ⟨hnet, _⟩ := hadv.trans.arrives.delivered (by rw [hm]; rfl)
    obtain ⟨hle, hkey⟩ := h.request m hnet hm
    have hmterm : m.term = x.term := by
      rw [hterm, hcore.term]
      exact (hcur.term_eq ((hadv.election.msg m hnet).request hm).1).symm
    rw [hadv.trans.other _ (hfrom ▸ hne), hto]
    refine ⟨by omega, fun hcand heq => ?_⟩
    obtain ⟨hlogTerm, hindex⟩ := hkey hcand (by omega)
    have hup := hahead.upToDate ((hadv.logs.node _ hadv.trans.node).observe m).fromOne hlogTerm hindex
    rwa [observeTerm_raftLog] at hup
  · have hid : (c'.nodes ev.node).id = ev.node := hadv.id
    dsimp only
    rw [hid]
    refine ⟨hterm.ge, fun hcand _ => ?_⟩
    rw [hadv.candidate_log hcand]
    exact .inr ⟨rfl, le_rfl⟩

theorem Ballots.cast_step (h : Ballots members moves c)
    (hadv : Advance members (moments moves c) c ev m ms c') {a : Move Cluster Event} {l : Nat}
    (ha : a ∈ (⟨c, ev, c'⟩ :: moves : List (Move Cluster Event))) (hcast : CastsVote a v t l) :
    t ≤ (c'.nodes l).term ∧ ((c'.nodes l).state = .stateCandidate → (c'.nodes l).term = t →
      UpToDate Entry.term (a.before.nodes v).raftLog.entries (c'.nodes l).raftLog.entries) := by
  rcases List.mem_cons.mp ha with rfl | ha
  · exact h.new_cast hadv hcast
  · obtain ⟨hle, hup⟩ := h.cast a ha v t l hcast
    have hterm := hadv.term_le l
    refine ⟨hle.trans hterm, fun hcand heq => ?_⟩
    obtain ⟨hcand', hsame⟩ := hadv.candidate_keeps hcand (heq.trans_le hle)
    rw [hsame]
    exact hup hcand' (by omega)

theorem Ballots.grant_step (h : Ballots members moves c)
    (hadv : Advance members (moments moves c) c ev m ms c') (hx : x ∈ c'.net) (hgrant : IsGrant x) :
    ∃ a ∈ (⟨c, ev, c'⟩ :: moves : List (Move Cluster Event)), CastsVote a x.fromId x.term x.toId ∧
      VoterLog members (c' :: moments moves c) x.fromId x.term (x.term + 1)
        (a.before.nodes x.fromId).raftLog.entries := by
  have hvoter : x.term ≤ (c'.nodes x.fromId).term := by
    have hfrom := (hadv.shape.step hadv.trans).sender x hx
    have hid := (hadv.shape.step hadv.trans).id _ hfrom
    exact ((hadv.election'.node _ hfrom).granted x.toId x.term ⟨x, hx, hgrant, hid.symm, rfl, rfl⟩).1
  rw [hadv.trans.net] at hx
  rcases List.mem_append.mp hx with hx | hx
  · obtain ⟨a, ha, hcast, hlog⟩ := h.grant x hx hgrant
    exact ⟨a, List.mem_cons_of_mem _ ha, hcast, hlog.step hadv hvoter⟩
  · obtain ⟨hfrom, hterm, _⟩ := hadv.election.new_grant hadv.shape hadv.trans hx hgrant
    have hnode := hadv.logs.node _ hadv.trans.node
    refine ⟨_, List.mem_cons_self, ⟨hfrom.symm, .inl ⟨x, ?_, hgrant, rfl, rfl⟩⟩, ?_⟩
    · rw [posted, hadv.trans.net, List.drop_left]
      exact hx
    rw [hfrom]
    refine ⟨hnode.attributed.mono leaderLogs_mono, hnode.sorted, fun P hP hheld hlt => ?_⟩
    rcases hheld.step_cases hadv with hold | ⟨_, hnew, _⟩
    · have hle := hadv.term_le ev.node
      exact (h.held _ hadv.trans.node P hP hold).2.imp_right fun hdis => hdis.mono (by omega)
    · omega

/-- The last term below a bound without leaders does not count. -/
theorem Displaced.below (h : Displaced members hist P (t + 1))
    (hnone : ∀ q, q ∉ leaderLogs members hist t) : Displaced members hist P t := by
  obtain ⟨u, hu, hub, q, hq, hnot⟩ := h
  refine ⟨u, hu, Nat.lt_of_le_of_ne (Nat.le_of_lt_succ hub) ?_, q, hq, hnot⟩
  rintro rfl
  exact hnone q hq

/-- A voter of the node that this step elects: the move that cast its vote, and the log it had. -/
theorem Ballots.elected_voter (h : Ballots members moves c)
    (hadv : Advance members (moments moves c) c ev m ms c')
    (hstate : ((c.nodes ev.node).observeTerm m).state ≠ .stateLeader)
    (hstate' : (c'.nodes ev.node).state = .stateLeader)
    (hnone : ∀ q, q ∉ leaderLogs members (moments moves c) (c'.nodes ev.node).term)
    (hv : v = ev.node ∨ Grants c.net v ev.node (c'.nodes ev.node).term) :
    (c'.nodes ev.node).term ≤ (c'.nodes v).term ∧
      ∃ a ∈ (⟨c, ev, c'⟩ :: moves : List (Move Cluster Event)),
        CastsVote a v (c'.nodes ev.node).term ev.node ∧
        VoterLog members (c' :: moments moves c) v (c'.nodes ev.node).term (c'.nodes ev.node).term
          (a.before.nodes v).raftLog.entries := by
  rcases hv with rfl | ⟨g, hg, hgrant, rfl, hto, hgterm⟩
  · have hnode := hadv.logs.node _ hadv.trans.node
    have hvoter : VoterLog members (c' :: moments moves c) ev.node (c'.nodes ev.node).term
        (c'.nodes ev.node).term (c.nodes ev.node).raftLog.entries := by
      refine ⟨hnode.attributed.mono leaderLogs_mono, hnode.sorted, fun P hP hheld hlt => ?_⟩
      rcases hheld.step_cases hadv with hold | ⟨_, hnew, _⟩
      · refine (h.held _ hadv.trans.node P hP hold).2.imp_right ?_
        rintro ⟨u, hu, hub, hq⟩
        have hle := hadv.term_le ev.node
        have hdis : Displaced members (moments moves c) P ((c'.nodes ev.node).term + 1) :=
          ⟨u, hu, by omega, hq⟩
        exact (hdis.below hnone).mono le_rfl
      · omega
    refine ⟨le_rfl, ?_⟩
    by_cases hle : (c'.nodes ev.node).term ≤ (c.nodes ev.node).term
    · obtain ⟨hcand, hterm⟩ := hadv.elected_candidate hstate hstate' hle
      obtain ⟨a, ha, hcast, hlog⟩ := h.self _ hadv.trans.node hcand
      rw [hterm] at hcast
      refine ⟨a, List.mem_cons_of_mem _ ha, hcast, ?_⟩
      rw [hlog]
      exact hvoter
    · -- the node has no peers: it votes for itself and wins in this move
      refine ⟨_, List.mem_cons_self, ⟨rfl, .inr ⟨Nat.lt_of_not_le hle, rfl, ?_, hadv.id.symm⟩⟩, hvoter⟩
      exact fun hfollower => absurd (hstate'.symm.trans hfollower) (by decide)
  · obtain ⟨a, ha, hcast, hvoter⟩ := h.grant g hg hgrant
    have hfrom := hadv.shape.sender g hg
    have hgranted := ((hadv.election.node _ hfrom).granted g.toId g.term
      ⟨g, hg, hgrant, (hadv.shape.id _ hfrom).symm, rfl, rfl⟩).1.trans (hadv.term_le g.fromId)
    rw [hto] at hcast
    rw [hgterm] at hcast hvoter hgranted
    refine ⟨hgranted, a, List.mem_cons_of_mem _ ha, hcast, VoterLog.step hadv hgranted ?_⟩
    exact ⟨hvoter.attributed, hvoter.sorted, fun P hP hheld hlt =>
      (hvoter.held P hP hheld hlt).imp_right fun hdis => hdis.below hnone⟩

/-- Every vote for the node that this step elects was cast with a log that is not ahead. -/
theorem Ballots.elected_cast (h : Ballots members moves c)
    (hadv : Advance members (moments moves c) c ev m ms c')
    (hstate : ((c.nodes ev.node).observeTerm m).state ≠ .stateLeader)
    (hstate' : (c'.nodes ev.node).state = .stateLeader) {a : Move Cluster Event}
    (ha : a ∈ (⟨c, ev, c'⟩ :: moves : List (Move Cluster Event)))
    (hcast : CastsVote a v (c'.nodes ev.node).term ev.node) :
    UpToDate Entry.term (a.before.nodes v).raftLog.entries (c.nodes ev.node).raftLog.entries := by
  rcases List.mem_cons.mp ha with rfl | ha
  · obtain ⟨rfl, ⟨x, hx, hgrant, _⟩ | _⟩ := hcast
    · -- a node that grants a vote is a follower
      rw [posted, hadv.trans.net, List.drop_left] at hx
      obtain ⟨_, _, _, hfollower, _⟩ := hadv.election.new_grant hadv.shape hadv.trans hx hgrant
      exact absurd (hfollower.symm.trans hstate') (by decide)
    · exact .inr ⟨rfl, le_rfl⟩
  · obtain ⟨hle, hup⟩ := h.cast a ha _ _ _ hcast
    obtain ⟨hcand, hterm⟩ := hadv.elected_candidate hstate hstate' hle
    exact hup hcand hterm

theorem Ballots.winner_step (h : Ballots members moves c) (hcard : members.card ≤ 255)
    (hadv : Advance members (moments moves c) c ev m ms c')
    (hled : (leaderLogs members (c' :: moments moves c) t).Nonempty) :
    ∃ elog Q, Winner members (c' :: moments moves c) c' t elog Q := by
  obtain ⟨G, hG⟩ := hled
  -- a term that already had a leader keeps its record
  have hold : (leaderLogs members (moments moves c) t).Nonempty →
      ∃ elog Q, Winner members (c' :: moments moves c) c' t elog Q := by
    rintro ⟨G, hG⟩
    obtain ⟨elog, Q, hwin⟩ := h.winner t ⟨G, hG⟩
    refine ⟨elog, Q, hwin.quorum, fun q hq => ?_, hwin.before,
      hwin.attributed.mono leaderLogs_mono, fun v hv => ?_⟩
    · rcases leaderLogs_step_cases hadv.mem hadv.trans hq with hq | ⟨hstate, rfl, rfl⟩
      · exact hwin.log q hq
      · exact (hwin.log G hG).trans (((hadv.logs'.node _ hadv.trans.node).leader hstate).2 G
          (leaderLogs_mono _ hG))
    · obtain ⟨hterm, glog, hvoter, hup⟩ := hwin.voter v hv
      have hterm' := hterm.trans (hadv.term_le v)
      exact ⟨hterm', glog, hvoter.step hadv hterm', hup⟩
  rcases leaderLogs_step_cases hadv.mem hadv.trans hG with hG | ⟨hstate', rfl, _⟩
  · exact hold ⟨G, hG⟩
  rcases hadv.leader_cases hstate' with ⟨_, hleader, hterm⟩ | ⟨hstate, hnone⟩
  · exact hold ⟨_, hterm ▸ ((hadv.logs.node _ hadv.trans.node).leader hleader).1⟩
  obtain ⟨Q, hQ, hquorum, hvotes⟩ :=
    hadv.election.elected hadv.shape hcard hadv.trans hstate hstate'
  have hnode := hadv.logs.node _ hadv.trans.node
  refine ⟨_, Q, ⟨hQ, hquorum⟩, fun q hq => ?_, hadv.elected_before hstate hstate',
    hnode.attributed.mono leaderLogs_mono, fun v hv => ?_⟩
  · rcases leaderLogs_step_cases hadv.mem hadv.trans hq with hold | ⟨_, _, rfl⟩
    · exact absurd hold (hnone q)
    · obtain ⟨e, heq, _⟩ := hadv.elected_log hstate hstate' hnone
      rw [heq]
      exact List.prefix_append _ _
  · obtain ⟨hterm, a, ha, hcast, hvoter⟩ :=
      h.elected_voter hadv hstate hstate' hnone (hvotes v hv)
    exact ⟨hterm, _, hvoter, h.elected_cast hadv hstate hstate' ha hcast⟩

theorem Ballots.step (h : Ballots members moves c) (hcard : members.card ≤ 255)
    (hadv : Advance members (moments moves c) c ev m ms c') :
    Ballots members (⟨c, ev, c'⟩ :: moves) c' :=
  ⟨fun _ hv _ hP hheld => h.held_step hadv hv hP hheld, fun _ hx hreq => h.request_step hadv hx hreq,
    fun _ hi hcand => h.self_step hadv hi hcand, fun _ ha _ _ _ hcast => h.cast_step hadv ha hcast,
    fun _ hg hgrant => h.grant_step hadv hg hgrant, fun _ hled => h.winner_step hcard hadv hled⟩

theorem Started.ballots (h : Started members (fun _ => .new) c) : Ballots members [] c := by
  have hnet : ∀ x ∈ c.net, False := by
    rw [h.net]
    exact nofun
  refine ⟨?_, fun x hx => (hnet x hx).elim, ?_, nofun, fun x hx => (hnet x hx).elim, ?_⟩
  · rintro v hv P hP ⟨c₁, hc₁, _, hpre⟩
    rw [List.mem_singleton.mp hc₁, (h.fromOne hv).2.1] at hpre
    exact absurd (List.prefix_nil.mp hpre) hP
  · intro i hi hcand
    obtain ⟨config, _, _, _, hnew, _⟩ := h.built i hi
    rw [(new_spec hnew).state] at hcand
    cases hcand
  · rintro t ⟨G, hG⟩
    obtain ⟨l, hl⟩ := Led.of_leaderLogs hG
    exact absurd hl h.not_led

variable {ok : Cluster → Event → Cluster → Prop}

theorem ClusterRun.ballots (hcard : members.card ≤ 255) (hok : ∀ c ev c', ok c ev c' → OneEntry ev)
    (hrun : ClusterRun members (fun _ => .new) ok moves c) : Ballots members moves c :=
  ClusterRun.advance (I := Ballots members) hcard hok (fun _ h => h.ballots)
    (fun _ _ _ _ _ _ _ hadv h => h.step hcard hadv) hrun

theorem ClusterRun.fromOne (hcard : members.card ≤ 255) (hok : ∀ c ev c', ok c ev c' → OneEntry ev)
    (hrun : ClusterRun members (fun _ => .new) ok moves c) :
    ∀ c₁ ∈ moments moves c, ∀ i ∈ members, (c₁.nodes i).raftLog.FromOne := by
  refine ClusterRun.advance (I := fun moves c => ∀ c₁ ∈ moments moves c, ∀ i ∈ members,
    (c₁.nodes i).raftLog.FromOne) hcard hok (fun c h c₁ hc₁ i hi => ?_)
    (fun moves c ev c' m ms _ hadv h c₁ hc₁ i hi => ?_) hrun
  · rw [List.mem_singleton.mp hc₁]
    exact (h.fromOne hi).1
  · rcases List.mem_cons.mp hc₁ with rfl | hc₁
    · exact (hadv.logs'.node i hi).fromOne
    · exact h c₁ hc₁ i hi

/-- The last term and the last index of a log, in lexicographic order. -/
def lastKey (s : RaftContext) : ℕ ×ₗ ℕ :=
  toLex (lastTerm Entry.term s.raftLog.entries, s.raftLog.lastIndex)

theorem lastKey_le {s s' : RaftContext} (hs : s.raftLog.FromOne) (hs' : s'.raftLog.FromOne)
    (h : UpToDate Entry.term s.raftLog.entries s'.raftLog.entries) : lastKey s ≤ lastKey s' := by
  rw [lastKey, lastKey, Prod.Lex.toLex_le_toLex, hs.lastIndex_eq, hs'.lastIndex_eq]
  exact h

/-- **Election restriction.** A node that becomes leader of a term appends an entry of this term, and
more than half of the members, itself included, have voted for it in the term, each time with a log
whose last term and index are not above those of its log before. -/
theorem election_restriction {l : Nat} (hcard : members.card ≤ 255)
    (hrun : ClusterRun members (fun _ => .new) (fun _ ev _ => OneEntry ev) (⟨c, ev, c'⟩ :: moves) c')
    (hl : l ∈ members) (helects : Elects l c c') :
    (∃ e, (c'.nodes l).raftLog.entries = (c.nodes l).raftLog.entries ++ [e] ∧
      e.term = (c'.nodes l).term) ∧
    ∃ Q ⊆ members, l ∈ Q ∧ members.card < 2 * Q.card ∧ ∀ v ∈ Q,
      (∃ a ∈ (⟨c, ev, c'⟩ :: moves : List (Move Cluster Event)), CastsVote a v (c'.nodes l).term l) ∧
      ∀ a ∈ (⟨c, ev, c'⟩ :: moves : List (Move Cluster Event)), CastsVote a v (c'.nodes l).term l →
        lastKey (a.before.nodes v) ≤ lastKey (c.nodes l) := by
  have hfrom := ClusterRun.fromOne hcard (fun _ _ _ h => h) hrun
  cases hrun with
  | step hrun hnext =>
      obtain ⟨m, ms, hadv⟩ := ClusterRun.last_advance hcard (fun _ _ _ h => h) hrun hnext
      obtain ⟨rfl, hstate⟩ := hadv.elects helects
      have hstate' := helects.1
      have hnone := hadv.first_log hstate hstate'
      refine ⟨hadv.elected_log hstate hstate' hnone, ?_⟩
      obtain ⟨Q, hQ, hquorum, hvotes⟩ :=
        hadv.election.elected hadv.shape hcard hadv.trans hstate hstate'
      -- the winner has voted for itself, whether or not the quorum counts this vote
      refine ⟨insert ev.node Q, Finset.insert_subset hl hQ, Finset.mem_insert_self _ _, ?_, ?_⟩
      · have hle := Finset.card_le_card (Finset.subset_insert ev.node Q)
        omega
      · intro v hv
        have hvoter : v ∈ members ∧ (v = ev.node ∨ Grants c.net v ev.node (c'.nodes ev.node).term) := by
          rcases Finset.mem_insert.mp hv with rfl | hv
          · exact ⟨hl, .inl rfl⟩
          · exact ⟨hQ hv, hvotes v hv⟩
        have hballots := ClusterRun.ballots hcard (fun _ _ _ h => h) hrun
        obtain ⟨_, a, ha, hcast, _⟩ := hballots.elected_voter hadv hstate hstate' hnone hvoter.2
        refine ⟨⟨a, ha, hcast⟩, fun a ha hcast => ?_⟩
        exact lastKey_le (hfrom _ (mem_moments_before _ ha) v hvoter.1)
          (hfrom c (mem_moments_step hadv.mem) _ hl) (hballots.elected_cast hadv hstate hstate' ha hcast)

/-- Node 1 takes over the log of node 2 and is then elected with its vote. -/
theorem election_restriction_of_three : ∃ moves c ev c',
    ClusterRun [1, 2, 3].toFinset (fun _ => .new) (fun _ ev _ => OneEntry ev) (⟨c, ev, c'⟩ :: moves) c' ∧
    Elects 1 c c' ∧ ∃ Q ⊆ [1, 2, 3].toFinset, 1 ∈ Q ∧ [1, 2, 3].toFinset.card < 2 * Q.card ∧ ∀ v ∈ Q,
      (∃ a ∈ (⟨c, ev, c'⟩ :: moves : List (Move Cluster Event)), CastsVote a v (c'.nodes 1).term 1) ∧
      ∀ a ∈ (⟨c, ev, c'⟩ :: moves : List (Move Cluster Event)), CastsVote a v (c'.nodes 1).term 1 →
        lastKey (a.before.nodes v) ≤ lastKey (c.nodes 1) := by
  have hplay : (play (playNext [1, 2, 3].toFinset fun _ ev _ => OneEntry ev)
      (Play.elect 1 [3] 1 ++ .hup 2 :: Play.elect 2 [3] 2 ++ [.deliver .msgAppend 2 1 2] ++
        Play.elect 1 [2] 3) [] (boot [1, 2, 3])).any
      (fun r => r.1.head?.any fun a => Elects 1 a.before a.after) = true := by
    decide +kernel
  obtain ⟨moves, c, ev, c₁, hrun, htest⟩ := exists_clusterMove (by decide) _ hplay
  have helects : Elects 1 c c₁ := of_decide_eq_true htest
  exact ⟨moves, c, ev, c₁, hrun, helects,
    (election_restriction (by decide) hrun (by decide) helects).2⟩

end Eraft.Cluster
