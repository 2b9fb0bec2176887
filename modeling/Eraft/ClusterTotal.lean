import Eraft.ClusterSafe
import Eraft.NodeTotal

/-! No call of a node in a cluster is undefined. What a node reads is in its own log as long as it follows;
a leader reads at the `next` and `match` of its peers, which the answers of the peers have moved. An answer is
about a log that the leader has held in the same term, and this log has only grown since. -/

open Std Runs TermLog

namespace Eraft

namespace RaftContext

variable {s s' : RaftContext} {m x : Message}

/-- A rejection with an index answers an append that reaches beyond the log, or one whose `logTerm` is not
the term of the entry there. -/
theorem Sent.nack_inv (h : Sent s m s' x) (hm : m.msgType ≠ .msgSnapshot ∧ m.msgType ≠ .msgEntryConfChange)
    (hlog : s.raftLog.FromOne) (hx : x.msgType = .msgAppendResponse) (hreject : x.reject = true)
    (hindex : x.index ≠ NONE) :
    (m.msgType = .msgAppend ∧ Current s m ∧ x.term = s'.term ∧ x.index ≤ m.index) ∧
      (x.logTerm = NONE ∨ (m.index ≤ s.raftLog.entries.length ∧ x.logTerm ≠ m.logTerm ∧
        x.logTerm = lastTerm Entry.term (s.raftLog.entries.take m.index))) := by
  cases h with
  | beyond hty hcur _ hlt hx' =>
      subst hx'
      exact ⟨⟨hty, hcur, rfl, hlt⟩, .inl rfl⟩
  | @conflict t index found hty hcur _ hle hfirst hterm hne hsearch hx' =>
      subst hx'
      have hreach : m.index ≤ s.raftLog.entries.length := hlog.lastIndex_eq ▸ hle
      rw [hlog.toSliceIndex_succ] at hsearch
      have hsame := hlog.term_eq hreach
      rw [hterm] at hsame
      refine ⟨⟨hty, hcur, rfl, ?_⟩, .inr ⟨hreach, hne, congrArg Prod.fst (Option.some.inj hsame)⟩⟩
      show index ≤ m.index
      cases hfound : lastIdx (fun e => e.term == t) (s.raftLog.entries.take m.index) with
      | none => exact (hsearch.trans (by rw [hfound]; rfl)).le.trans (Nat.zero_le _)
      | some k =>
          have hk := lastIdx_lt hfound
          rw [hfound] at hsearch
          rw [List.length_take] at hk
          have hk' : index = k := hsearch
          omega
  | append hx' => exact absurd (hx'.msgType.symm.trans hx) (by decide)
  | transfer hm' hx' =>
      subst hx'
      exact absurd (hm'.symm.trans hx) (by decide)
  | confChange hm' => exact absurd hm' hm.2
  | snapshot hm' => exact absurd hm' hm.1
  | heartbeat hx' | requestVote hx' | heartbeatResponse hx' | timeoutNow hx' | refuse hx' =>
      subst hx'
      cases hx
  | grant _ _ hx' =>
      subst hx'
      cases hx
  | accept _ hx' =>
      subst hx'
      cases hreject
  | stale hx' =>
      subst hx'
      exact absurd rfl hindex

end RaftContext

namespace Cluster

open RaftContext

variable {members : Finset Nat} {hist : List Cluster} {c c' : Cluster} {ev : Event} {m x : Message}
  {ms : List Message} {moves : List (Move Cluster Event)} {l i : Nat}

/-- The rejection points into a log of the leader that it answers, and its hint is of an earlier term. -/
def Refused (members : Finset Nat) (hist : List Cluster) (x : Message) : Prop :=
  x.logTerm < x.term ∧ ∃ G ∈ leaderLogs members hist x.term, x.index ≤ G.length

theorem Refused.mono (h : Refused members hist x) : Refused members (c :: hist) x := by
  obtain ⟨hterm, G, hG, hle⟩ := h
  exact ⟨hterm, G, leaderLogs_mono _ hG, hle⟩

/-- What keeps the reads of a leader in its log. -/
structure Sound (members : Finset Nat) (hist : List Cluster) (c : Cluster) : Prop where
  nack : ∀ x ∈ c.net, x.msgType = .msgAppendResponse → x.reject = true → x.index ≠ NONE →
    Refused members hist x
  next : ∀ l ∈ members, (c.nodes l).state = .stateLeader → Addressable members (c.nodes l)

/-- A node that finds another term than the append says has no entry of the leader's term there. -/
theorem Advance.refused (hadv : Advance members hist c ev m ms c') (hx : x ∈ ms)
    (hty : x.msgType = .msgAppendResponse) (hreject : x.reject = true) (hindex : x.index ≠ NONE) :
    Refused members hist x := by
  have hnode := (hadv.logs.node _ hadv.trans.node).observe m
  obtain ⟨⟨happ, hcur, hxterm, hle⟩, hhint⟩ :=
    (hadv.trans.sent x hx).nack_inv hadv.msgType hnode.fromOne hty hreject hindex
  obtain ⟨hnet, _⟩ := hadv.trans.arrives.delivered (by rw [happ]; rfl)
  obtain ⟨G, hG, hcarries⟩ := hadv.logs.msg m hnet happ
  have hne := ((hadv.election.msg m hnet).leader (.inr happ)).1
  have hobs := hcur.term_eq hne
  have hterm : x.term = m.term := by
    rw [hxterm, hadv.trans.core.term_eq hadv.msgType.1 (.inr (by rw [happ]; decide)), hobs]
  refine ⟨?_, G, hterm ▸ hG, hle.trans hcarries.index⟩
  rw [hterm]
  rcases hhint with hnone | ⟨hreach, hdiffer, hlast⟩
  · rw [hnone]
    exact Nat.pos_of_ne_zero hne
  · have hbound : x.logTerm ≤ m.term := by
      rw [hlast, ← hobs]
      exact (hnode.sorted.lastTerm_le (List.take_prefix _ _)).trans hnode.bound
    refine Nat.lt_of_le_of_ne hbound fun heq => hdiffer ?_
    -- an entry of the leader's term is the leader's own, and then the terms agree
    have hpos : 0 < m.index := by
      refine Nat.pos_of_ne_zero fun hzero => hne ?_
      rw [← heq, hlast, hzero]
      rfl
    obtain ⟨q, hq, hpre⟩ := hnode.attributed m.index hpos hreach
    rw [← hlast, heq] at hq
    obtain ⟨r, _, hr, hr'⟩ := hadv.logs.leaders.common hq hG hpre (List.take_prefix m.index G)
    have hlen : (((c.nodes ev.node).observeTerm m).raftLog.entries.take m.index).length =
        (G.take m.index).length := by
      rw [List.length_take, List.length_take, Nat.min_eq_left hreach, Nat.min_eq_left hcarries.index]
    rw [hlast, hcarries.logTerm, (List.prefix_of_prefix_length_le hr hr' hlen.le).eq_of_length hlen]

/-- What a leader has in hand of its log in this term is in its log. -/
theorem Safe.le_length (h : Safe members moves c) (hl : l ∈ members)
    (hstate : (c.nodes l).state = .stateLeader) {G : List Entry}
    (hG : G ∈ leaderLogs members (moments moves c) (c.nodes l).term) :
    G.length ≤ (c.nodes l).raftLog.entries.length :=
  (((h.logs.node l hl).leader hstate).2 G hG).length_le

/-- The answers that reach a leader in its term. -/
theorem Safe.answerable (h : Safe members moves c) (hsound : Sound members (moments moves c) c)
    (hl : l ∈ members) (hstate : (c.nodes l).state = .stateLeader) (hm : m ∈ c.net)
    (hty : m.msgType = .msgAppendResponse) (hle : m.term ≤ (c.nodes l).term)
    (hcur : Current (c.nodes l) m) : Answerable (c.nodes l) m := by
  refine ⟨fun hreject => ?_, fun hreject hindex => ?_⟩
  · have hterm : m.term = (c.nodes l).term :=
      Nat.le_antisymm hle (hcur.resolve_left ((h.election.msg m hm).ack hty hreject))
    obtain ⟨P, hlen, _, _, q, hq, hpre⟩ := h.progress.ack m hm hty hreject
    rw [hterm] at hq
    exact hlen ▸ hpre.length_le.trans (h.le_length hl hstate hq)
  · obtain ⟨hhint, G, hG, hindex⟩ := hsound.nack m hm hty hreject hindex
    have hterm : m.term = (c.nodes l).term :=
      Nat.le_antisymm hle (hcur.resolve_left (Nat.pos_iff_ne_zero.mp (Nat.zero_lt_of_lt hhint)))
    rw [hterm] at hG hhint
    obtain ⟨hlast, _⟩ := h.logs.led _ _ ((h.logs.node l hl).leader hstate).1
    exact ⟨(hindex.trans (h.le_length hl hstate hG)).trans (Nat.le_succ _), fun _ => hlast.symm ▸ hhint⟩

theorem Safe.readable (h : Safe members moves c) (hsound : Sound members (moments moves c) c)
    (hi : i ∈ members) : Readable members (c.nodes i) := by
  refine ⟨h.shape.complete i hi, (h.logs.node i hi).fromOne, (h.shape.id i hi).symm ▸ hi, hsound.next i hi,
    fun hstate f hf => ?_⟩
  exact (h.progress.tracked h.fromOne h.elected hi hstate hf).le_length

/-- What arrives at a node can be handled there. -/
theorem Safe.processable (h : Safe members moves c) (hsound : Sound members (moments moves c) c)
    (hi : ev.node ∈ members) (hone : OneEntry ev) (hm : Handled ev.call m)
    (harrives : Arrives members c.net ev.node m) :
    Processable members ((c.nodes ev.node).observeTerm m) m := by
  have hregular := h.regular hone hm harrives
  refine ⟨hregular.index_eq, hregular.propose, fun hty => ?_, fun hstate hty hcur => ?_⟩
  · refine h.shape.arrives_from harrives ?_
    rcases hty with hty | hty | hty <;> rw [hty] <;> rfl
  · obtain ⟨hnet, _⟩ := harrives.delivered (by rw [hty]; rfl)
    rcases observeTerm_cases (c.nodes ev.node) m with ⟨hle, heq⟩ | ⟨_, _, _, hfollower, _⟩
    · rw [heq] at hstate hcur ⊢
      exact h.answerable hsound hi hstate hnet hty hle hcur
    · cases hfollower.symm.trans hstate

/-- **Every transition keeps the reads of the leaders in their logs.** -/
theorem Sound.step (hsound : Sound members (moments moves c) c) (h : Safe members moves c)
    (hadv : Advance members (moments moves c) c ev m ms c') (hone : OneEntry ev) :
    Sound members (moments (⟨c, ev, c'⟩ :: moves) c') c' := by
  refine ⟨hadv.trans.forall_net (fun x hx hty hreject hindex => (hsound.nack x hx hty hreject hindex).mono)
    fun x hx hty hreject hindex => (hadv.refused hx hty hreject hindex).mono, ?_⟩
  refine hadv.trans.forall_nodes (P := fun _ s => s.state = .stateLeader → Addressable members s)
    (fun l hl _ => hsound.next l hl) fun hstate' => ?_
  have hnode' := hadv.logs'.node _ hadv.trans.node
  refine hadv.trans.core.addressable ((h.readable hsound hadv.trans.node).observe m)
    (h.processable hsound hadv.trans.node hone hadv.trans.handled hadv.trans.arrives) hadv.msgType.1 hstate'
    hnode'.fromOne fun hstate => ?_
  -- who led before leads in the same term, and its log has grown
  rcases hadv.leader_cases hstate' with ⟨hobs, hleader, hterm⟩ | ⟨hnot, _⟩
  · rw [hobs]
    exact ((hnode'.leader hstate').2 _ ⟨c, List.mem_cons_of_mem _ hadv.mem, ev.node, hadv.trans.node,
      hleader, hterm.symm, rfl⟩).length_le
  · exact absurd hstate hnot

theorem Started.sound (h : Started members (fun _ => .new) c) : Sound members [c] c := by
  refine ⟨fun x hx => ?_, fun l hl hstate => ?_⟩
  · rw [h.net] at hx
    cases hx
  · obtain ⟨config, _, _, _, hnew, _⟩ := h.built l hl
    exact absurd ((new_spec hnew).state.symm.trans hstate) (by decide)

end Cluster

end Eraft
