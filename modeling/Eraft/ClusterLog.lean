import Eraft.ClusterElection
import Eraft.NodeLog

/-! The logs of a cluster that was started on empty storages, with proposals of one entry. Every log
goes back to the logs that leaders have held (`TermLog.Attributed`): an append always carries the
sender's whole log behind its index, so that an accepted one leaves either the receiver's log or the
sender's. -/

open Std Runs TermLog

namespace Eraft.Cluster

open RaftContext

/-- The logs that leaders of term `t` have held at the moments `hist`. -/
def leaderLogs (members : Finset Nat) (hist : List Cluster) (t : Nat) : Set (List Entry) :=
  { G | ∃ c ∈ hist, ∃ l ∈ members, (c.nodes l).state = .stateLeader ∧ (c.nodes l).term = t ∧
    (c.nodes l).raftLog.entries = G }

/-- What is kept about the log of one node. -/
structure NodeLog (members : Finset Nat) (hist : List Cluster) (s : RaftContext) : Prop where
  fromOne : s.raftLog.FromOne
  sorted : Sorted Entry.term s.raftLog.entries
  bound : lastTerm Entry.term s.raftLog.entries ≤ s.term
  candidate : s.state = .stateCandidate → lastTerm Entry.term s.raftLog.entries < s.term
  attributed : Attributed Entry.term (leaderLogs members hist) s.raftLog.entries
  leader : s.state = .stateLeader → s.raftLog.entries ∈ leaderLogs members hist s.term ∧
    ∀ G ∈ leaderLogs members hist s.term, G <+: s.raftLog.entries

/-- The invariant of logs. -/
structure Logs (members : Finset Nat) (hist : List Cluster) (c : Cluster) : Prop where
  node : ∀ i ∈ members, NodeLog members hist (c.nodes i)
  leaders : LeaderLogs Entry.term (leaderLogs members hist)
  led : ∀ t, ∀ G ∈ leaderLogs members hist t, lastTerm Entry.term G = t ∧ Contiguous G
  msg : ∀ m ∈ c.net, m.msgType = .msgAppend → ∃ G ∈ leaderLogs members hist m.term, Carries m G

variable {members : Finset Nat} {hist : List Cluster} {c c' : Cluster} {ev : Event} {m x : Message}
  {ms : List Message} {s s' : RaftContext} {G : List Entry} {t : Nat}

theorem leaderLogs_mono (t : Nat) : leaderLogs members hist t ⊆ leaderLogs members (c :: hist) t := by
  rintro G ⟨c₁, hc₁, h⟩
  exact ⟨c₁, List.mem_cons_of_mem _ hc₁, h⟩

theorem Led.of_leaderLogs (h : G ∈ leaderLogs members hist t) : ∃ l, Led members hist l t := by
  obtain ⟨c₁, hc₁, l, hl, hstate, hterm, _⟩ := h
  exact ⟨l, hl, c₁, hc₁, hstate, hterm⟩

/-- The log of a leader is not empty, nor is a part of it that ends in the leader's term. -/
theorem Election.ne_nil_of_leader (h : Election members hist c) {i : Nat} (hi : i ∈ members)
    (hstate : (c.nodes i).state = .stateLeader) {P : List Entry}
    (hlast : lastTerm Entry.term P = (c.nodes i).term) : P ≠ [] :=
  ne_nil_of_lastTerm_pos (hlast ▸ Nat.pos_of_ne_zero
    ((h.node i hi).active (by rw [hstate]; decide)).2)

/-- A new leader log is that of the node that moved. -/
theorem leaderLogs_step_cases (hc : c ∈ hist) (htrans : Transition members c ev m ms c')
    (h : G ∈ leaderLogs members (c' :: hist) t) : G ∈ leaderLogs members hist t ∨
      ((c'.nodes ev.node).state = .stateLeader ∧ (c'.nodes ev.node).term = t ∧
        (c'.nodes ev.node).raftLog.entries = G) := by
  obtain ⟨c₁, hc₁, l, hl, h⟩ := h
  rcases List.mem_cons.mp hc₁ with rfl | hc₁
  · by_cases hev : l = ev.node
    · exact .inr (hev ▸ h)
    · rw [htrans.other l hev] at h
      exact .inl ⟨c, hc, l, hl, h⟩
  · exact .inl ⟨c₁, hc₁, l, hl, h⟩

/-- A leader holds a leader log. -/
theorem Transition.mem_leaderLogs (htrans : Transition members c ev m ms c')
    (hstate : (c'.nodes ev.node).state = .stateLeader) :
    (c'.nodes ev.node).raftLog.entries ∈ leaderLogs members (c' :: hist) (c'.nodes ev.node).term :=
  ⟨c', List.mem_cons_self, ev.node, htrans.node, hstate, rfl, rfl⟩

/-! ### One step -/

theorem NodeLog.observe (h : NodeLog members hist s) (m : Message) :
    NodeLog members hist (s.observeTerm m) := by
  rcases observeTerm_cases s m with ⟨_, heq⟩ | ⟨hlt, hterm, _, hstate, _⟩
  · rw [heq]
    exact h
  · have hlog := observeTerm_raftLog s m
    refine ⟨hlog ▸ h.fromOne, hlog ▸ h.sorted, ?_, ?_, hlog ▸ h.attributed, ?_⟩
    · rw [hlog, hterm]
      exact h.bound.trans hlt.le
    · intro hcand
      rw [hstate] at hcand
      cases hcand
    · intro hleader
      rw [hstate] at hleader
      cases hleader

/-- What a step does to the entries of the node that moves: it keeps them, takes over the log of a
leader of its term, or adds an entry as the leader of its term. -/
inductive EntriesStep (members : Finset Nat) (hist : List Cluster) (s s' : RaftContext) : Prop
  | keep (hstate : s'.state = .stateLeader → s.state = .stateLeader)
      (h : s'.raftLog.entries = s.raftLog.entries)
  | adopt (hterm : s'.term = s.term) (hstate : s'.state ≠ .stateCandidate)
      (hnot : ¬s'.raftLog.entries <+: s.raftLog.entries)
      (h : s'.raftLog.entries ∈ leaderLogs members hist s.term)
  | extend {e : Entry} (hstate : s'.state = .stateLeader) (hterm : e.term = s'.term)
      (hindex : e.index = s.raftLog.entries.length + 1)
      (h : s'.raftLog.entries = s.raftLog.entries ++ [e])

theorem OneEntry.handled (h : OneEntry ev) (hm : Handled ev.call m) (hprop : m.msgType = .msgPropose) :
    m.entries.length = 1 := by
  unfold OneEntry at h
  cases hcall : ev.call <;> rw [hcall] at h hm <;> cases hm
  case hup => cases hprop
  case beat => cases hprop
  case step => exact h hprop
  case ignored hm => exact absurd (hm.symm.trans hprop) (by decide)

/-- The append that a node accepts carries a log of the leader of its term, and merges with it. -/
theorem Logs.merged (h : Logs members hist c) (hel : Election members hist c)
    (htrans : Transition members c ev m ms c')
    (hacc : Accepts ((c.nodes ev.node).observeTerm m) m (c'.nodes ev.node))
    (hG : G ∈ leaderLogs members hist m.term) (hcarries : Carries m G) :
    ((c.nodes ev.node).observeTerm m).term = m.term ∧ Merged G m.commit
      ((c.nodes ev.node).observeTerm m).raftLog (c'.nodes ev.node).raftLog := by
  obtain ⟨hnet, _⟩ := htrans.arrives.delivered (by rw [hacc.msgType]; rfl)
  have hterm := hacc.current.term_eq ((hel.msg m hnet).leader (.inr hacc.msgType)).1
  have hobs := (h.node _ htrans.node).observe m
  have hmatch := hobs.attributed.matching h.leaders (h.leaders.attributed _ G hG)
  exact ⟨hterm, hacc.merged_log hobs.fromOne hcarries (h.led _ G hG).2 hmatch⟩

theorem Logs.accepts (h : Logs members hist c) (hel : Election members hist c)
    (htrans : Transition members c ev m ms c')
    (hacc : Accepts ((c.nodes ev.node).observeTerm m) m (c'.nodes ev.node)) :
    ((c.nodes ev.node).observeTerm m).term = m.term ∧ ∃ G ∈ leaderLogs members hist m.term,
      Merged G m.commit ((c.nodes ev.node).observeTerm m).raftLog (c'.nodes ev.node).raftLog := by
  obtain ⟨hnet, _⟩ := htrans.arrives.delivered (by rw [hacc.msgType]; rfl)
  obtain ⟨G, hG, hcarries⟩ := h.msg m hnet hacc.msgType
  obtain ⟨hterm, hmerged⟩ := h.merged hel htrans hacc hG hcarries
  exact ⟨hterm, G, hG, hmerged⟩

theorem Logs.entries_step (h : Logs members hist c) (hel : Election members hist c)
    (hshape : Shape members c) (hone : OneEntry ev) (htrans : Transition members c ev m ms c') :
    (c'.nodes ev.node).raftLog.FromOne ∧
      EntriesStep members hist ((c.nodes ev.node).observeTerm m) (c'.nodes ev.node) := by
  obtain ⟨hsnap, _⟩ := hshape.arrives_type htrans.arrives
  have hobs := (h.node _ htrans.node).observe m
  cases htrans.core.log (hshape.observed_self htrans.node) hsnap with
  | keep hstate hlog => exact ⟨hlog ▸ hobs.fromOne, .keep hstate (by rw [hlog])⟩
  | append hacc hterm hstate =>
      obtain ⟨hmterm, G, hG, hmerged⟩ := h.accepts hel htrans hacc
      refine ⟨hmerged.fromOne, ?_⟩
      rcases hmerged.entries with ⟨_, hsame⟩ | ⟨hnot, hG'⟩
      · exact .keep (fun hleader => fallback_leader (hstate.symm.trans hleader)) hsame
      · refine .adopt hterm ?_ (hG' ▸ hnot) ?_
        · rw [hstate]
          unfold fallback
          split_ifs with hback
          · exact nofun
          · exact fun hcand => hback ⟨hcand, hmterm.symm⟩
        · rw [hG', hmterm]
          exact hG
  | lead _ hstate' hlog =>
      rw [hobs.fromOne.lastIndex_eq] at hlog
      exact ⟨hlog ▸ hobs.fromOne.concat rfl, .extend hstate' rfl rfl (by rw [hlog])⟩
  | @propose added hm hstate hlen hadded hlog =>
      rw [hone.handled htrans.handled hm] at hlen
      rw [hobs.fromOne.lastIndex_eq] at hadded
      obtain ⟨hstate', hterm⟩ := (htrans.core.role hsnap).leader_keeps hstate
      match added, hlen with
      | [], _ =>
          rw [List.append_nil] at hlog
          exact ⟨hlog ▸ hobs.fromOne.commit, .keep (fun _ => hstate) (by rw [hlog])⟩
      | [e], _ =>
          obtain ⟨heterm, heindex⟩ := hadded e (List.mem_singleton.mpr rfl)
          exact ⟨hlog ▸ hobs.fromOne.concat heindex,
            .extend hstate' (heterm.trans hterm.symm) heindex (by rw [hlog])⟩
  | commit hm hstate _ hlog =>
      exact ⟨hlog ▸ hobs.fromOne.commit, .keep (fun _ => hstate) (by rw [hlog])⟩

/-- **A leader's log only grows**, and the first log of a term has none before it. -/
theorem Logs.leader_extends (h : Logs members hist c) (hel : Election members hist c)
    (hel' : Election members (c' :: hist) c') (hshape : Shape members c)
    (htrans : Transition members c ev m ms c')
    (hentries : EntriesStep members hist ((c.nodes ev.node).observeTerm m) (c'.nodes ev.node))
    (hstate' : (c'.nodes ev.node).state = .stateLeader) :
    ∀ G ∈ leaderLogs members hist (c'.nodes ev.node).term, G <+: (c'.nodes ev.node).raftLog.entries := by
  intro G hG
  obtain ⟨hsnap, _⟩ := hshape.arrives_type htrans.arrives
  by_cases hstate : ((c.nodes ev.node).observeTerm m).state = .stateLeader
  · rw [((htrans.core.role hsnap).leader_keeps hstate).2] at hG
    have hleader := (((h.node _ htrans.node).observe m).leader hstate).2
    cases hentries with
    | keep _ heq =>
        rw [heq]
        exact hleader G hG
    | adopt _ _ hnot hadopt => exact absurd (hleader _ hadopt) hnot
    | extend _ _ _ heq =>
        rw [heq]
        exact (hleader G hG).trans (List.prefix_append _ _)
  · obtain ⟨l, hl⟩ := Led.of_leaderLogs hG
    exact absurd hl (hel.no_leader_before hshape htrans hel' hstate hstate')

/-- The log of a leader ends in its own term. -/
theorem Logs.leader_lastTerm (h : Logs members hist c) (hshape : Shape members c)
    (htrans : Transition members c ev m ms c')
    (hentries : EntriesStep members hist ((c.nodes ev.node).observeTerm m) (c'.nodes ev.node))
    (hstate' : (c'.nodes ev.node).state = .stateLeader) :
    lastTerm Entry.term (c'.nodes ev.node).raftLog.entries = (c'.nodes ev.node).term := by
  obtain ⟨hsnap, _⟩ := hshape.arrives_type htrans.arrives
  cases hentries with
  | keep hkeep heq =>
      have hstate := hkeep hstate'
      rw [heq, ((htrans.core.role hsnap).leader_keeps hstate).2]
      exact (h.led _ _ (((h.node _ htrans.node).observe m).leader hstate).1).1
  | adopt hterm _ _ hadopt =>
      rw [hterm]
      exact (h.led _ _ hadopt).1
  | extend _ hterm _ heq => rw [heq, lastTerm_concat, hterm]

theorem Logs.node_step (h : Logs members hist c) (hel : Election members hist c)
    (hel' : Election members (c' :: hist) c') (hshape : Shape members c) (hone : OneEntry ev)
    (hc : c ∈ hist) (htrans : Transition members c ev m ms c') :
    NodeLog members (c' :: hist) (c'.nodes ev.node) := by
  obtain ⟨hsnap, _⟩ := hshape.arrives_type htrans.arrives
  have hrole := htrans.core.role hsnap
  have hobs := (h.node _ htrans.node).observe m
  obtain ⟨hfrom, hentries⟩ := h.entries_step hel hshape hone htrans
  refine ⟨hfrom, ?_, ?_, ?_, ?_, ?_⟩
  · cases hentries with
    | keep _ heq =>
        rw [heq]
        exact hobs.sorted
    | adopt _ _ _ hadopt => exact h.leaders.sorted _ _ hadopt
    | extend _ hterm _ heq =>
        rw [heq]
        exact hobs.sorted.concat (hterm ▸ hobs.bound.trans hrole.term_le)
  · cases hentries with
    | keep _ heq =>
        rw [heq]
        exact hobs.bound.trans hrole.term_le
    | adopt hterm _ _ hadopt => rw [(h.led _ _ hadopt).1, hterm]
    | extend _ hterm _ heq => rw [heq, lastTerm_concat, hterm]
  · intro hcand
    cases hentries with
    | keep _ heq =>
        rw [heq]
        rcases hrole.candidate hcand with ⟨hcand', hterm⟩ | hterm
        · rw [hterm]
          exact hobs.candidate hcand'
        · rw [hterm]
          exact Nat.lt_succ_of_le hobs.bound
    | adopt _ hstate => exact absurd hcand hstate
    | extend hstate => exact absurd (hstate.symm.trans hcand) (by decide)
  · cases hentries with
    | keep _ heq =>
        rw [heq]
        exact hobs.attributed.mono leaderLogs_mono
    | adopt _ _ _ hadopt => exact (h.leaders.attributed _ _ hadopt).mono leaderLogs_mono
    | extend hstate hterm _ heq =>
        rw [heq]
        refine (hobs.attributed.mono leaderLogs_mono).concat ?_
        rw [hterm, ← heq]
        exact htrans.mem_leaderLogs hstate
  · intro hstate
    refine ⟨htrans.mem_leaderLogs hstate, fun G hG => ?_⟩
    rcases leaderLogs_step_cases hc htrans hG with hold | ⟨_, _, rfl⟩
    · exact h.leader_extends hel hel' hshape htrans hentries hstate G hold
    · exact List.prefix_rfl

/-- The nodes that did not move. -/
theorem Logs.node_other (h : Logs members hist c) (hel' : Election members (c' :: hist) c') (hc : c ∈ hist)
    (htrans : Transition members c ev m ms c') {i : Nat} (hi : i ∈ members) (hev : i ≠ ev.node) :
    NodeLog members (c' :: hist) (c.nodes i) := by
  have hold := h.node i hi
  refine ⟨hold.fromOne, hold.sorted, hold.bound, hold.candidate, hold.attributed.mono leaderLogs_mono,
    fun hstate => ⟨leaderLogs_mono _ (hold.leader hstate).1, fun G hG => ?_⟩⟩
  rcases leaderLogs_step_cases hc htrans hG with hG | ⟨hstate', hterm, _⟩
  · exact (hold.leader hstate).2 G hG
  · -- a second leader of the term
    have hself : Led members (c' :: hist) i (c.nodes i).term :=
      Led.mono ⟨hi, c, hc, hstate, rfl⟩
    exact absurd (hel'.leader_unique hself ⟨htrans.node, c', List.mem_cons_self, hstate', hterm⟩) hev

/-- The leader logs stay what they are, with that of the node that moved among them. -/
theorem Logs.leaders_step (h : Logs members hist c) (hc : c ∈ hist)
    (htrans : Transition members c ev m ms c') (hnode : NodeLog members (c' :: hist) (c'.nodes ev.node)) :
    LeaderLogs Entry.term (leaderLogs members (c' :: hist)) := by
  refine ⟨?_, ?_, ?_⟩
  · intro t p hp q hq
    rcases leaderLogs_step_cases hc htrans hp with hp' | ⟨hstate, rfl, rfl⟩
    · rcases leaderLogs_step_cases hc htrans hq with hq | ⟨hstate, rfl, rfl⟩
      · exact h.leaders.chain t p hp' q hq
      · exact .inl ((hnode.leader hstate).2 p hp)
    · exact .inr ((hnode.leader hstate).2 q hq)
  · intro t q hq
    rcases leaderLogs_step_cases hc htrans hq with hq | ⟨_, _, rfl⟩
    · exact (h.leaders.attributed t q hq).mono leaderLogs_mono
    · exact hnode.attributed
  · intro t q hq
    rcases leaderLogs_step_cases hc htrans hq with hq | ⟨_, _, rfl⟩
    · exact h.leaders.sorted t q hq
    · exact hnode.sorted

theorem Logs.step (h : Logs members hist c) (hel : Election members hist c)
    (hel' : Election members (c' :: hist) c') (hshape : Shape members c) (hone : OneEntry ev)
    (hc : c ∈ hist) (htrans : Transition members c ev m ms c') : Logs members (c' :: hist) c' := by
  have hnode := h.node_step hel hel' hshape hone hc htrans
  obtain ⟨hfrom, hentries⟩ := h.entries_step hel hshape hone htrans
  have hlast := h.leader_lastTerm hshape htrans hentries
  refine ⟨?_, h.leaders_step hc htrans hnode, ?_, ?_⟩
  · exact htrans.forall_nodes (P := fun _ s => NodeLog members (c' :: hist) s)
      (fun i hi hev => h.node_other hel' hc htrans hi hev) hnode
  · intro t q hq
    rcases leaderLogs_step_cases hc htrans hq with hq | ⟨hstate, rfl, rfl⟩
    · exact h.led t q hq
    · exact ⟨hlast hstate, hfrom.contiguous⟩
  · refine htrans.forall_net (fun x hx happ => ?_) fun x hx happ => ?_
    · obtain ⟨G, hG, hcarries⟩ := h.msg x hx happ
      exact ⟨G, leaderLogs_mono _ hG, hcarries⟩
    · obtain ⟨hx, hstate⟩ := (htrans.sent x hx).append_inv (hshape.arrives_type htrans.arrives) happ
      have hne := hel'.ne_nil_of_leader htrans.node hstate (hlast hstate)
      refine ⟨_, ?_, hx.carries hfrom hne⟩
      rw [hx.term]
      exact htrans.mem_leaderLogs hstate

/-- The log that an accepted append leaves is part of a log of the leader of its term, also where it
is longer than what the message covers. -/
theorem Logs.accepted_log (h : Logs members hist c) (hel : Election members hist c)
    (htrans : Transition members c ev m ms c')
    (hacc : Accepts ((c.nodes ev.node).observeTerm m) m (c'.nodes ev.node)) :
    lastTerm Entry.term (c'.nodes ev.node).raftLog.entries = m.term ∧
      ∃ q ∈ leaderLogs members hist m.term, (c'.nodes ev.node).raftLog.entries <+: q := by
  obtain ⟨hterm, G, hG, hmerged⟩ := h.accepts hel htrans hacc
  obtain ⟨hlast, _⟩ := h.led _ G hG
  rcases hmerged.entries with ⟨hpre, heq⟩ | ⟨_, heq⟩
  · -- the log extends one that ends in the current term, so that it ends there too
    have hobs := (h.node _ htrans.node).observe m
    have hlast' : lastTerm Entry.term ((c.nodes ev.node).observeTerm m).raftLog.entries = m.term :=
      Nat.le_antisymm (hterm ▸ hobs.bound) (hlast ▸ hobs.sorted.lastTerm_le hpre)
    rw [heq]
    refine ⟨hlast', ?_⟩
    have hnet := (htrans.arrives.delivered (by rw [hacc.msgType]; rfl)).1
    have hne : m.term ≠ NONE := ((hel.msg m hnet).leader (.inr hacc.msgType)).1
    have hself := hobs.attributed.self (ne_nil_of_lastTerm_pos (hlast' ▸ Nat.pos_of_ne_zero hne))
    rwa [hlast'] at hself
  · rw [heq]
    exact ⟨hlast, G, hG, List.prefix_rfl⟩

/-! ### Every run -/

theorem Started.fromOne (h : Started members (fun _ => .new) c) {i : Nat} (hi : i ∈ members) :
    (c.nodes i).raftLog.FromOne ∧ (c.nodes i).raftLog.entries = [] ∧
      (c.nodes i).raftLog.commited = 0 := by
  obtain ⟨config, _, _, _, hnew, _, hstorage⟩ := h.built i hi
  obtain ⟨l, applied, hl, hlog⟩ := (new_spec hnew).raftLog
  rw [hstorage] at hl
  cases hl
  rw [hlog]
  exact ⟨⟨rfl, nofun, fun _ => rfl, rfl, rfl⟩, rfl, rfl⟩

theorem Started.logs (h : Started members (fun _ => .new) c) : Logs members [c] c := by
  have hnone : ∀ t, ∀ G ∈ leaderLogs members [c] t, False := by
    intro t G hG
    obtain ⟨l, hl⟩ := Led.of_leaderLogs hG
    exact h.not_led hl
  refine ⟨?_, ⟨?_, ?_, ?_⟩, ?_, ?_⟩
  · intro i hi
    obtain ⟨hfrom, hnil, _⟩ := h.fromOne hi
    obtain ⟨config, _, _, _, hnew, _⟩ := h.built i hi
    have hstate := (new_spec hnew).state
    refine ⟨hfrom, ?_, ?_, ?_, ?_, ?_⟩
    · rw [hnil]
      exact List.Pairwise.nil
    · rw [hnil]
      exact Nat.zero_le _
    · exact fun hcand => absurd (hstate.symm.trans hcand) (by decide)
    · rw [hnil]
      exact .nil
    · exact fun hleader => absurd (hstate.symm.trans hleader) (by decide)
  · exact fun t p hp => (hnone t p hp).elim
  · exact fun t q hq => (hnone t q hq).elim
  · exact fun t q hq => (hnone t q hq).elim
  · exact fun t q hq => (hnone t q hq).elim
  · intro m hm
    rw [h.net] at hm
    cases hm

variable {ok : Cluster → Event → Cluster → Prop} {moves : List (Move Cluster Event)}

theorem ClusterRun.logs (hcard : members.card ≤ 255) (hok : ∀ c ev c', ok c ev c' → OneEntry ev)
    (hrun : ClusterRun members (fun _ => .new) ok moves c) :
    Election members (moments moves c) c ∧ Logs members (moments moves c) c :=
  ClusterRun.invariant
    (I := fun moves c => Election members (moments moves c) c ∧ Logs members (moments moves c) c)
    (fun _ h _ => ⟨h.election, h.logs⟩)
    (fun moves c _ _ _ _ hshape hstep htrans ⟨hel, hlogs⟩ =>
      have hc := mem_moments_self moves c
      have hel' := hel.step hshape hcard hc htrans
      ⟨hel', hlogs.step hel hel' hshape (hok _ _ _ hstep) hc htrans⟩) hrun

/-- A transition of a run, with the invariants of elections and logs before and after it. -/
structure Advance (members : Finset Nat) (hist : List Cluster) (c : Cluster) (ev : Event)
    (m : Message) (ms : List Message) (c' : Cluster) : Prop where
  trans : Transition members c ev m ms c'
  shape : Shape members c
  mem : c ∈ hist
  election : Election members hist c
  election' : Election members (c' :: hist) c'
  logs : Logs members hist c
  logs' : Logs members (c' :: hist) c'
  entries : EntriesStep members hist ((c.nodes ev.node).observeTerm m) (c'.nodes ev.node)

theorem ClusterRun.last_advance (hcard : members.card ≤ 255) (hok : ∀ c ev c', ok c ev c' → OneEntry ev)
    (hrun : ClusterRun members (fun _ => .new) ok moves c) (hnext : Next members ok c ev c') :
    ∃ m ms, Advance members (moments moves c) c ev m ms c' := by
  have hshape := ClusterRun.shape hrun
  obtain ⟨hel, hlogs⟩ := ClusterRun.logs hcard hok hrun
  obtain ⟨hel', hlogs'⟩ := ClusterRun.logs hcard hok (hrun.step hnext)
  obtain ⟨m, ms, htrans⟩ := hnext.transition hshape
  have hentries := (hlogs.entries_step hel hshape (hok _ _ _ hnext.2.1) htrans).2
  exact ⟨m, ms, htrans, hshape, mem_moments_self _ _, hel, hel', hlogs, hlogs', hentries⟩

/-- **Invariance along a run with logs.** -/
theorem ClusterRun.advance {I : List (Move Cluster Event) → Cluster → Prop}
    (hcard : members.card ≤ 255) (hok : ∀ c ev c', ok c ev c' → OneEntry ev)
    (hinit : ∀ c, Started members (fun _ => .new) c → I [] c)
    (hstep : ∀ moves c ev c' m ms, ok c ev c' → Advance members (moments moves c) c ev m ms c' →
      I moves c → I (⟨c, ev, c'⟩ :: moves) c')
    (hrun : ClusterRun members (fun _ => .new) ok moves c) : I moves c := by
  induction hrun with
  | start h => exact hinit _ h
  | step hrun hnext ih =>
      obtain ⟨m, ms, hadv⟩ := ClusterRun.last_advance hcard hok hrun hnext
      exact hstep _ _ _ _ m ms hnext.2.1 hadv ih

/-- The step from `c` to `c'` makes the node `l` leader of its term. -/
def Elects (l : Nat) (c c' : Cluster) : Prop :=
  (c'.nodes l).state = .stateLeader ∧
    ¬((c.nodes l).state = .stateLeader ∧ (c.nodes l).term = (c'.nodes l).term)

instance (l : Nat) (c c' : Cluster) : Decidable (Elects l c c') := inferInstanceAs (Decidable (_ ∧ _))

namespace Advance

theorem msgType (h : Advance members hist c ev m ms c') :
    m.msgType ≠ .msgSnapshot ∧ m.msgType ≠ .msgEntryConfChange := h.shape.arrives_type h.trans.arrives

theorem role (h : Advance members hist c ev m ms c') :
    RoleStep ((c.nodes ev.node).observeTerm m) m (c'.nodes ev.node) := h.trans.core.role h.msgType.1

theorem id (h : Advance members hist c ev m ms c') : (c'.nodes ev.node).id = ev.node :=
  (h.shape.step h.trans).id _ h.trans.node

theorem term_le (h : Advance members hist c ev m ms c') (i : Nat) :
    (c.nodes i).term ≤ (c'.nodes i).term := by
  by_cases hev : i = ev.node
  · rw [hev]
    exact (le_observeTerm _ m).1.trans h.role.term_le
  · rw [h.trans.other i hev]

/-- A candidate leaves its log alone. -/
theorem candidate_log (h : Advance members hist c ev m ms c')
    (hcand : (c'.nodes ev.node).state = .stateCandidate) :
    (c'.nodes ev.node).raftLog.entries = (c.nodes ev.node).raftLog.entries := by
  cases h.entries with
  | keep _ heq => rw [heq, observeTerm_raftLog]
  | adopt _ hstate => exact absurd hcand hstate
  | extend hstate => exact absurd (hstate.symm.trans hcand) (by decide)

/-- A candidate of a term the node was already in has been one before, with the same log. -/
theorem candidate_keeps (h : Advance members hist c ev m ms c') {i : Nat}
    (hcand : (c'.nodes i).state = .stateCandidate) (hle : (c'.nodes i).term ≤ (c.nodes i).term) :
    (c.nodes i).state = .stateCandidate ∧
      (c'.nodes i).raftLog.entries = (c.nodes i).raftLog.entries := by
  by_cases hev : i = ev.node
  · subst hev
    refine ⟨?_, h.candidate_log hcand⟩
    obtain ⟨hobs, _⟩ := le_observeTerm (c.nodes ev.node) m
    rcases h.role.candidate hcand with ⟨hcand', hterm⟩ | hterm
    · rcases observeTerm_cases (c.nodes ev.node) m with ⟨_, heq⟩ | ⟨_, _, _, hstate, _⟩
      · exact heq ▸ hcand'
      · exact absurd (hstate.symm.trans hcand') (by decide)
    · omega
  · rw [h.trans.other i hev] at hcand ⊢
    exact ⟨hcand, rfl⟩

/-- A node that is elected has the first leader log of its term. -/
theorem first_log (h : Advance members hist c ev m ms c')
    (hstate : ((c.nodes ev.node).observeTerm m).state ≠ .stateLeader)
    (hstate' : (c'.nodes ev.node).state = .stateLeader) :
    ∀ q, q ∉ leaderLogs members hist (c'.nodes ev.node).term := by
  intro q hq
  obtain ⟨l, hl⟩ := Led.of_leaderLogs hq
  exact h.election.no_leader_before h.shape h.trans h.election' hstate hstate' hl

/-- A leader has been one before the step, in the same term, or is elected by it. -/
theorem leader_cases (h : Advance members hist c ev m ms c')
    (hstate' : (c'.nodes ev.node).state = .stateLeader) :
    ((c.nodes ev.node).observeTerm m = c.nodes ev.node ∧ (c.nodes ev.node).state = .stateLeader ∧
      (c'.nodes ev.node).term = (c.nodes ev.node).term) ∨
    (((c.nodes ev.node).observeTerm m).state ≠ .stateLeader ∧
      ∀ q, q ∉ leaderLogs members hist (c'.nodes ev.node).term) := by
  by_cases hstate : ((c.nodes ev.node).observeTerm m).state = .stateLeader
  · have hterm := (h.role.leader_keeps hstate).2
    rcases observeTerm_cases (c.nodes ev.node) m with ⟨_, hobs⟩ | ⟨_, _, _, hobs, _⟩
    · rw [hobs] at hstate hterm
      exact .inl ⟨hobs, hstate, hterm⟩
    · exact absurd (hobs.symm.trans hstate) (by decide)
  · exact .inr ⟨hstate, h.first_log hstate hstate'⟩

/-- The node that a step elects is the one that moved. -/
theorem elects (h : Advance members hist c ev m ms c') {l : Nat} (helects : Elects l c c') :
    l = ev.node ∧ ((c.nodes l).observeTerm m).state ≠ .stateLeader := by
  obtain ⟨hstate', hnew⟩ := helects
  obtain rfl : l = ev.node := by
    by_contra hev
    rw [h.trans.other l hev] at hstate' hnew
    exact hnew ⟨hstate', rfl⟩
  rcases h.leader_cases hstate' with ⟨_, hleader, hterm⟩ | ⟨hstate, _⟩
  · exact absurd ⟨hleader, hterm.symm⟩ hnew
  · exact ⟨rfl, hstate⟩

/-- A node that is elected in a term it was already in was a candidate of it. -/
theorem elected_candidate (h : Advance members hist c ev m ms c')
    (hstate : ((c.nodes ev.node).observeTerm m).state ≠ .stateLeader)
    (hstate' : (c'.nodes ev.node).state = .stateLeader)
    (hle : (c'.nodes ev.node).term ≤ (c.nodes ev.node).term) :
    (c.nodes ev.node).state = .stateCandidate ∧ (c.nodes ev.node).term = (c'.nodes ev.node).term := by
  obtain ⟨hobs, _⟩ := le_observeTerm (c.nodes ev.node) m
  rcases h.role.elected hstate hstate' with ⟨_, hterm⟩ | ⟨_, hcand, _, _, hterm⟩
  · omega
  · rcases observeTerm_cases (c.nodes ev.node) m with ⟨_, heq⟩ | ⟨_, _, _, hfollower, _⟩
    · rw [heq] at hcand hterm
      exact ⟨hcand, hterm.symm⟩
    · exact absurd (hfollower.symm.trans hcand) (by decide)

/-- The log of a node that is elected ends in an earlier term. -/
theorem elected_before (h : Advance members hist c ev m ms c')
    (hstate : ((c.nodes ev.node).observeTerm m).state ≠ .stateLeader)
    (hstate' : (c'.nodes ev.node).state = .stateLeader) :
    lastTerm Entry.term (c.nodes ev.node).raftLog.entries < (c'.nodes ev.node).term := by
  have hobs := (h.logs.node _ h.trans.node).observe m
  rw [← observeTerm_raftLog (c.nodes ev.node) m]
  rcases h.role.elected hstate hstate' with ⟨_, hterm⟩ | ⟨_, hcand, _, _, hterm⟩
  · rw [hterm]
    exact Nat.lt_succ_of_le hobs.bound
  · rw [hterm]
    exact hobs.candidate hcand

/-- The log of a node that is elected gets the first entry of its term. -/
theorem elected_log (h : Advance members hist c ev m ms c')
    (hstate : ((c.nodes ev.node).observeTerm m).state ≠ .stateLeader)
    (hstate' : (c'.nodes ev.node).state = .stateLeader)
    (hnone : ∀ q, q ∉ leaderLogs members hist (c'.nodes ev.node).term) :
    ∃ e, (c'.nodes ev.node).raftLog.entries = (c.nodes ev.node).raftLog.entries ++ [e] ∧
      e.term = (c'.nodes ev.node).term := by
  cases h.entries with
  | keep hkeep => exact absurd (hkeep hstate') hstate
  | adopt hterm _ _ hadopt => exact absurd (hterm ▸ hadopt) (hnone _)
  | @extend e _ hterm _ heq => exact ⟨e, by rw [heq, observeTerm_raftLog], hterm⟩

end Advance

/-- **Log matching.** In every reachable state the entries of a log have consecutive indices from 1 on
and non-decreasing terms not above the node's, and two logs with an entry of the same index and term
are identical up to it. -/
theorem log_matching (hcard : members.card ≤ 255)
    (hrun : ClusterRun members (fun _ => .new) (fun _ ev _ => OneEntry ev) moves c) :
    (∀ i ∈ members, (∀ k e, (c.nodes i).raftLog.entries[k]? = some e →
        e.index = k + 1 ∧ e.term ≤ (c.nodes i).term) ∧
      (c.nodes i).raftLog.entries.Pairwise fun e e' => e.term ≤ e'.term) ∧
    ∀ i ∈ members, ∀ j ∈ members, ∀ e ∈ (c.nodes i).raftLog.entries,
      ∀ e' ∈ (c.nodes j).raftLog.entries, e.index = e'.index → e.term = e'.term →
        (c.nodes i).raftLog.entries.take e.index = (c.nodes j).raftLog.entries.take e.index := by
  obtain ⟨_, h⟩ := ClusterRun.logs hcard (fun _ _ _ h => h) hrun
  refine ⟨fun i hi => ⟨fun k e he => ⟨(h.node i hi).fromOne.contiguous k e he, ?_⟩,
    (h.node i hi).sorted⟩, ?_⟩
  · exact ((h.node i hi).sorted.term_le_lastTerm (List.mem_of_getElem? he)).trans (h.node i hi).bound
  · intro i hi j hj e he e' he' hindex hterm
    obtain ⟨k, hk, rfl⟩ := List.mem_iff_getElem.mp he
    obtain ⟨k', hk', rfl⟩ := List.mem_iff_getElem.mp he'
    have hke := (h.node i hi).fromOne.contiguous k _ (List.getElem?_eq_getElem hk)
    have hke' := (h.node j hj).fromOne.contiguous k' _ (List.getElem?_eq_getElem hk')
    obtain rfl : k = k' := by omega
    rw [hke]
    refine (h.node i hi).attributed.matching h.leaders (h.node j hj).attributed (k + 1)
      (Nat.succ_pos k) hk hk' ?_
    rw [lastTerm_take_succ hk, lastTerm_take_succ hk', hterm]

theorem log_matching_of_three : ∃ moves c,
    ClusterRun [1, 2, 3].toFinset (fun _ => .new) (fun _ ev _ => OneEntry ev) moves c ∧
      { term := 1, index := 2 } ∈ (c.nodes 1).raftLog.entries ∧
      { term := 1, index := 2 } ∈ (c.nodes 2).raftLog.entries ∧
      (c.nodes 1).raftLog.entries.take 2 = (c.nodes 2).raftLog.entries.take 2 := by
  have hplay : (play (playNext [1, 2, 3].toFinset fun _ ev _ => OneEntry ev)
      (Play.elect 1 [2] 1 ++ [.propose 1, .deliver .msgAppend 1 2 1]) [] (boot [1, 2, 3])).any
      (fun r => { term := 1, index := 2 } ∈ (r.2.nodes 1).raftLog.entries ∧
        { term := 1, index := 2 } ∈ (r.2.nodes 2).raftLog.entries) = true := by
    decide +kernel
  obtain ⟨moves, c, hrun, htest⟩ := exists_clusterRun (by decide) _ hplay
  obtain ⟨hfirst, hsecond⟩ := of_decide_eq_true htest
  exact ⟨moves, c, hrun, hfirst, hsecond, (log_matching (by decide) hrun).2 1 (by decide) 2 (by decide)
    _ hfirst _ hsecond rfl rfl⟩

/-- **Acknowledgement soundness.** When a node answers an append with an acknowledgement, that is of
the term of the append and names the last index of the node's log, and this log, which has an entry at
every index up to the acknowledged one, is part of a log that the leader of this term has held. -/
theorem acknowledgement_sound (hcard : members.card ≤ 255)
    (hrun : ClusterRun members (fun _ => .new) (fun _ ev _ => OneEntry ev) (⟨c, ev, c'⟩ :: moves) c')
    (hcall : ev.call = .step m) (hm : m.msgType = .msgAppend) (hx : x ∈ c'.net.drop c.net.length)
    (hack : x.msgType = .msgAppendResponse) (hreject : x.reject = false) :
    x.term = m.term ∧ x.index = (c'.nodes ev.node).raftLog.lastIndex ∧
      x.index = (c'.nodes ev.node).raftLog.entries.length ∧
      ∃ c₁ ∈ moments (⟨c, ev, c'⟩ :: moves) c', ∃ l ∈ members,
        (c₁.nodes l).state = .stateLeader ∧ (c₁.nodes l).term = m.term ∧
          (c'.nodes ev.node).raftLog.entries.take x.index <+: (c₁.nodes l).raftLog.entries := by
  cases hrun with
  | step hrun hnext =>
      obtain ⟨hel, hlogs⟩ := ClusterRun.logs hcard (fun _ _ _ h => h) hrun
      obtain ⟨_, hlogs'⟩ := ClusterRun.logs hcard (fun _ _ _ h => h) (hrun.step hnext)
      have hshape : Shape members c := ClusterRun.shape hrun
      obtain ⟨m', ms, htrans⟩ := hnext.transition hshape
      rw [htrans.net, List.drop_left] at hx
      obtain rfl : m' = m := by
        have hhandled := htrans.handled
        rw [hcall] at hhandled
        cases hhandled with
        | step => rfl
        | ignored _ htimeout => exact absurd (htimeout.symm.trans hm) (by decide)
      obtain ⟨hacc, hterm, _, _, hxterm, hindex⟩ :=
        (htrans.sent x hx).ack_inv (hshape.arrives_type htrans.arrives) hack hreject
      have hlast := (hlogs'.node _ htrans.node).fromOne.lastIndex_eq
      obtain ⟨_, q, ⟨c₁, hc₁, l, hl, hstate, hlterm, rfl⟩, hpre⟩ := hlogs.accepted_log hel htrans hacc
      exact ⟨hxterm.trans (hterm.trans (hlogs.accepts hel htrans hacc).1), hindex, hindex.trans hlast, c₁,
        mem_moments_step hc₁, l, hl, hstate, hlterm, (List.take_prefix _ _).trans hpre⟩

/-- Node 2 acknowledges the log of node 1. -/
theorem acknowledgement_sound_of_three : ∃ moves c ev c' m x,
    ClusterRun [1, 2, 3].toFinset (fun _ => .new) (fun _ ev _ => OneEntry ev)
      (⟨c, ev, c'⟩ :: moves) c' ∧
    ev.call = .step m ∧ m.msgType = .msgAppend ∧ x ∈ c'.net.drop c.net.length ∧
    x.msgType = .msgAppendResponse ∧ x.reject = false ∧ x.index = 1 ∧ x.term = m.term ∧
    x.index = (c'.nodes ev.node).raftLog.lastIndex ∧
    x.index = (c'.nodes ev.node).raftLog.entries.length ∧
    ∃ c₁ ∈ moments (⟨c, ev, c'⟩ :: moves) c', ∃ l ∈ [1, 2, 3].toFinset,
      (c₁.nodes l).state = .stateLeader ∧ (c₁.nodes l).term = m.term ∧
        (c'.nodes ev.node).raftLog.entries.take x.index <+: (c₁.nodes l).raftLog.entries := by
  have hplay : (play (playNext [1, 2, 3].toFinset fun _ ev _ => OneEntry ev)
      (Play.elect 1 [2] 1 ++ [.deliver .msgAppend 1 2 1]) [] (boot [1, 2, 3])).any
      (fun r => r.1.head?.any fun a =>
        a.label.call.message?.any (fun m => m.msgType == .msgAppend) &&
        decide (∃ x ∈ a.after.net.drop a.before.net.length, x.msgType = .msgAppendResponse ∧
          x.reject = false ∧ x.index = 1)) = true := by
    decide +kernel
  obtain ⟨moves, c, ev, c₁, hrun, htest⟩ := exists_clusterMove (by decide) _ hplay
  rw [Bool.and_eq_true, decide_eq_true_eq] at htest
  obtain ⟨hm, x, hx, hack, hreject, hindex⟩ := htest
  obtain ⟨m, hmessage, hm⟩ := (Option.any_eq_true _ _).mp hm
  have hcall : ev.call = .step m := Call.message?_eq_some.mp hmessage
  have hm : m.msgType = .msgAppend := beq_iff_eq.mp hm
  exact ⟨moves, c, ev, c₁, m, x, hrun, hcall, hm, hx, hack, hreject, hindex,
    acknowledgement_sound (by decide) hrun hcall hm hx hack hreject⟩

/-- **Leader append-only.** Between two moments at which a node leads the same term, its log at the
earlier one is a prefix of its log at the later one. The moments of a run are listed latest first. -/
theorem leader_append_only (hcard : members.card ≤ 255)
    (hrun : ClusterRun members (fun _ => .new) (fun _ ev _ => OneEntry ev) moves c) :
    (moments moves c).Pairwise fun later earlier => ∀ i ∈ members,
      (earlier.nodes i).state = .stateLeader → (later.nodes i).state = .stateLeader →
        (earlier.nodes i).term = (later.nodes i).term →
          (earlier.nodes i).raftLog.entries <+: (later.nodes i).raftLog.entries := by
  induction hrun with
  | start => exact List.pairwise_singleton _ _
  | step hrun hnext ih =>
      rw [moments_cons]
      refine List.pairwise_cons.mpr ⟨fun c₁ hc₁ i hi hstate hstate' hterm => ?_, ih⟩
      obtain ⟨_, h⟩ := ClusterRun.logs hcard (fun _ _ _ h => h) (hrun.step hnext)
      exact ((h.node i hi).leader hstate').2 _ ⟨c₁, mem_moments_step hc₁, i, hi, hstate, hterm, rfl⟩

/-- Node 1 leads before and after a proposal. -/
theorem leader_append_only_of_three : ∃ moves c,
    ClusterRun [1, 2, 3].toFinset (fun _ => .new) (fun _ ev _ => OneEntry ev) moves c ∧
      ∃ c₁ ∈ moves.map Move.before, (c₁.nodes 1).raftLog.entries ≠ (c.nodes 1).raftLog.entries ∧
        (c₁.nodes 1).state = .stateLeader ∧ (c₁.nodes 1).term = (c.nodes 1).term ∧
        (c.nodes 1).state = .stateLeader ∧
        (c₁.nodes 1).raftLog.entries <+: (c.nodes 1).raftLog.entries := by
  have hplay : (play (playNext [1, 2, 3].toFinset fun _ ev _ => OneEntry ev)
      (Play.elect 1 [2] 1 ++ [.propose 1]) [] (boot [1, 2, 3])).any
      (fun r => ∃ c₁ ∈ r.1.map Move.before,
        (c₁.nodes 1).raftLog.entries ≠ (r.2.nodes 1).raftLog.entries ∧
        (c₁.nodes 1).state = .stateLeader ∧ (c₁.nodes 1).term = (r.2.nodes 1).term ∧
        (r.2.nodes 1).state = .stateLeader) = true := by
    decide +kernel
  obtain ⟨moves, c, hrun, htest⟩ := exists_clusterRun (by decide) _ hplay
  obtain ⟨c₁, hc₁, hne, hstate, hterm, hstate'⟩ := of_decide_eq_true htest
  exact ⟨moves, c, hrun, c₁, hc₁, hne, hstate, hterm, hstate',
    (List.pairwise_cons.mp (leader_append_only (by decide) hrun)).1 c₁ hc₁ 1 (by decide) hstate hstate'
      hterm⟩

end Eraft.Cluster
