import Eraft.ClusterPlay
import Eraft.NodeQuorum

/-! Elections in a cluster. A candidate that falls back to follower in its own term clears its vote
and can grant another one, so the proof does not rest on `vote_` alone: what is unique is the granted
vote, and a node that has granted a vote in a term is a follower there for as long as the term lasts.
-/

open Std Runs

namespace Eraft.Cluster

open RaftContext

/-- The node `l` has been leader of term `t` at one of the moments `hist`. -/
def Led (members : Finset Nat) (hist : List Cluster) (l t : Nat) : Prop :=
  l ∈ members ∧ ∃ c ∈ hist, (c.nodes l).state = .stateLeader ∧ (c.nodes l).term = t

/-- The node `v` has granted `l` its vote for term `t`. -/
def Grants (net : List Message) (v l t : Nat) : Prop :=
  ∃ g ∈ net, IsGrant g ∧ g.fromId = v ∧ g.toId = l ∧ g.term = t

/-- What elections keep about one node. -/
structure NodeElection (members : Finset Nat) (hist : List Cluster) (net : List Message)
    (s : RaftContext) : Prop where
  granted : ∀ l t, Grants net s.id l t →
    t ≤ s.term ∧ (t = s.term → s.vote = l ∧ s.state = .stateFollower)
  active : s.state ≠ .stateFollower → s.vote = s.id ∧ s.term ≠ NONE
  voters : s.state = .stateCandidate → ∀ v, s.votes[v]? = some true →
    v ∈ members ∧ (v = s.id ∨ Grants net v s.id s.term)
  lead : s.lead ≠ NONE → Led members hist s.lead s.term
  led : ∀ t, Led members hist s.id t → t ≤ s.term ∧ (t = s.term → s.state = .stateLeader)

/-- What elections keep about one message. -/
structure MsgElection (members : Finset Nat) (hist : List Cluster) (m : Message) : Prop where
  request : m.msgType = .msgRequestVote → m.term ≠ NONE ∧ m.toId ≠ m.fromId
  grant : IsGrant m → m.term ≠ NONE ∧ m.toId ≠ m.fromId ∧ m.toId ∈ members
  leader : m.msgType = .msgHeartbeat ∨ m.msgType = .msgAppend →
    m.term ≠ NONE ∧ Led members hist m.fromId m.term
  ack : m.msgType = .msgAppendResponse → m.reject = false → m.term ≠ NONE

/-- The node `l` has the votes of more than half of the members for term `t`. -/
def Won (members : Finset Nat) (net : List Message) (l t : Nat) : Prop :=
  ∃ Q ⊆ members, members.card < 2 * Q.card ∧ ∀ v ∈ Q, v = l ∨ Grants net v l t

/-- The invariant of elections. -/
structure Election (members : Finset Nat) (hist : List Cluster) (c : Cluster) : Prop where
  node : ∀ i ∈ members, NodeElection members hist c.net (c.nodes i)
  msg : ∀ m ∈ c.net, MsgElection members hist m
  unique : ∀ v l l' t, Grants c.net v l t → Grants c.net v l' t → l = l'
  won : ∀ l t, Led members hist l t → Won members c.net l t
  noGrant : ∀ l t, Led members hist l t → ∀ l', ¬Grants c.net l l' t

variable {members : Finset Nat} {hist : List Cluster} {c c' : Cluster} {ev : Event} {m x : Message}
  {ms net net' : List Message} {s s' : RaftContext} {v l l' t : Nat}

theorem Led.mono (h : Led members hist l t) : Led members (c :: hist) l t := by
  obtain ⟨hl, c₁, hc₁, hstate⟩ := h
  exact ⟨hl, c₁, List.mem_cons_of_mem _ hc₁, hstate⟩

theorem Grants.mono (hsub : ∀ x ∈ net, x ∈ net') (h : Grants net v l t) : Grants net' v l t := by
  obtain ⟨g, hg, hgrant⟩ := h
  exact ⟨g, hsub g hg, hgrant⟩

theorem Transition.net_sub (h : Transition members c ev m ms c') : ∀ x ∈ c.net, x ∈ c'.net := by
  intro x hx
  rw [h.net]
  exact List.mem_append_left _ hx

/-- A new leader is the node that moved. -/
theorem Led.step_cases (hc : c ∈ hist) (htrans : Transition members c ev m ms c')
    (h : Led members (c' :: hist) l t) : Led members hist l t ∨
      (l = ev.node ∧ (c'.nodes ev.node).state = .stateLeader ∧ (c'.nodes ev.node).term = t) := by
  obtain ⟨hl, c₁, hc₁, hstate, hterm⟩ := h
  rcases List.mem_cons.mp hc₁ with rfl | hc₁
  · by_cases hev : l = ev.node
    · subst hev
      exact .inr ⟨rfl, hstate, hterm⟩
    · rw [htrans.other l hev] at hstate hterm
      exact .inl ⟨hl, c, hc, hstate, hterm⟩
  · exact .inl ⟨hl, c₁, hc₁, hstate, hterm⟩

/-- **Election safety.** Two quorums share a voter, and a voter has granted one vote. -/
theorem Election.leader_unique (h : Election members hist c) (hl : Led members hist l t)
    (hl' : Led members hist l' t) : l = l' := by
  obtain ⟨Q, hQ, hcard, hvotes⟩ := h.won l t hl
  obtain ⟨Q', hQ', hcard', hvotes'⟩ := h.won l' t hl'
  obtain ⟨v, hv⟩ := Finset.inter_nonempty_of_card_lt_card_add_card hQ hQ' (by omega)
  obtain ⟨hv, hv'⟩ := Finset.mem_inter.mp hv
  rcases hvotes v hv with rfl | hgrant <;> rcases hvotes' v hv' with rfl | hgrant'
  · rfl
  · exact absurd hgrant' (h.noGrant v t hl l')
  · exact absurd hgrant (h.noGrant v t hl' l)
  · exact h.unique v l l' t hgrant hgrant'

theorem NodeElection.observe (h : NodeElection members hist net s) (m : Message) :
    NodeElection members hist net (s.observeTerm m) := by
  rcases observeTerm_cases s m with ⟨_, heq⟩ | ⟨hlt, hterm, _, hstate, hlead⟩
  · rw [heq]
    exact h
  · refine ⟨?_, ?_, ?_, ?_, ?_⟩
    · intro l t hgrant
      rw [observeTerm_id] at hgrant
      have hle := (h.granted l t hgrant).1
      rw [hterm]
      exact ⟨by omega, fun heq => by omega⟩
    · exact fun hne => absurd hstate hne
    · intro hcand
      rw [hstate] at hcand
      cases hcand
    · exact fun hne => absurd hlead hne
    · intro t hled
      rw [observeTerm_id] at hled
      have hle := (h.led t hled).1
      rw [hterm]
      exact ⟨by omega, fun heq => by omega⟩

/-- A candidate or leader has voted for itself: nothing but its candidacy takes it there, and it grants
no request of another node. -/
theorem NodeElection.active_step (h : NodeElection members hist net s) (hrole : RoleStep s m s')
    (hother : m.msgType = .msgRequestVote → m.fromId ≠ s.id) (hid : s.id ≠ NONE) :
    s'.state ≠ .stateFollower → s'.vote = s'.id ∧ s'.term ≠ NONE := by
  intro hstate
  cases hrole with
  | keep h' | record _ _ _ h' =>
      rw [h'.vote, h'.id, h'.term]
      exact h.active (h'.state ▸ hstate)
  | follow _ _ h' =>
      rw [h'.vote, h'.id, h'.term]
      rw [h'.state] at hstate
      dsimp only at hstate ⊢
      unfold fallback at hstate ⊢
      split_ifs at hstate ⊢
      · exact absurd rfl hstate
      · exact h.active hstate
  | campaign _ h' | alone _ _ h' => exact ⟨h'.vote.trans h'.id.symm, h'.term ▸ Nat.succ_ne_zero _⟩
  | grant hm hfree _ h' =>
      have hvote := (h.active (h'.state ▸ hstate)).1
      rcases hfree with hnone | hfrom
      · exact absurd (hvote.symm.trans hnone) hid
      · exact absurd (hfrom.symm.trans hvote) (hother hm)
  | lose _ _ _ _ h' => exact absurd h'.state hstate
  | win _ hcand _ _ h' =>
      rw [h'.vote, h'.id, h'.term]
      exact h.active (by rw [hcand]; decide)

/-- The votes a candidate counts are its own and granted ones. -/
theorem NodeElection.voters_step (h : NodeElection members hist net s) (hrole : RoleStep s m s')
    (hid : s.id ∈ members) (hrecorded : m.msgType = .msgRequestVoteResponse →
      s.state = .stateCandidate → Current s m → ∀ v, (s.recordVote m).votes[v]? = some true →
        v ∈ members ∧ (v = s.id ∨ Grants net v s.id s.term)) :
    s'.state = .stateCandidate → ∀ v, s'.votes[v]? = some true →
      v ∈ members ∧ (v = s'.id ∨ Grants net v s'.id s'.term) := by
  intro hcand v hv
  cases hrole with
  | keep h' | grant _ _ _ h' =>
      rw [h'.id, h'.term]
      exact h.voters (h'.state ▸ hcand) v (h'.votes ▸ hv)
  | follow _ _ h' =>
      rw [h'.id, h'.term]
      rw [h'.state] at hcand
      rw [h'.votes] at hv
      dsimp only at hcand hv ⊢
      unfold fallback at hcand hv ⊢
      split_ifs at hcand hv ⊢
      · cases hcand
      · exact h.voters hcand v hv
  | campaign _ h' =>
      rw [h'.votes, becomeCandidate, ExtTreeMap.getElem?_insert] at hv
      split_ifs at hv with hself
      · rw [Nat.compare_eq_eq] at hself
        exact ⟨hself ▸ hid, .inl (hself.symm.trans h'.id.symm)⟩
      · rw [ExtTreeMap.getElem?_empty] at hv
        cases hv
  | record hm hstate hcur h' =>
      rw [h'.id, h'.term]
      exact hrecorded hm hstate hcur v (h'.votes ▸ hv)
  | alone _ _ h' | lose _ _ _ _ h' | win _ _ _ _ h' =>
      rw [h'.state] at hcand
      cases hcand

/-- A node follows the sender of an append or heartbeat of its term, and a leader itself. -/
theorem NodeElection.lead_step {hist' : List Cluster} (h : NodeElection members hist net s)
    (hrole : RoleStep s m s') (hmono : ∀ l t, Led members hist l t → Led members hist' l t)
    (hleader : s'.state = .stateLeader → Led members hist' s'.id s'.term)
    (hfrom : m.msgType = .msgHeartbeat ∨ m.msgType = .msgAppend → Current s m →
      Led members hist' m.fromId s.term) :
    s'.lead ≠ NONE → Led members hist' s'.lead s'.term := by
  intro hlead
  cases hrole with
  | keep h' | grant _ _ _ h' | record _ _ _ h' =>
      rw [h'.lead, h'.term]
      exact hmono _ _ (h.lead (h'.lead ▸ hlead))
  | follow hm hcur h' =>
      rw [h'.lead, h'.term]
      dsimp only
      rw [fallback_term]
      exact hfrom hm hcur
  | campaign _ h' | lose _ _ _ _ h' => exact absurd h'.lead hlead
  | alone _ _ h' | win _ _ _ _ h' =>
      rw [h'.lead.trans h'.id.symm]
      exact hleader h'.state

/-- The vote request a node answers with a grant came from another member, and the node is a
follower. -/
theorem Election.new_grant (h : Election members hist c) (hshape : Shape members c)
    (htrans : Transition members c ev m ms c') (hx : x ∈ ms) (hgrant : IsGrant x) :
    x.fromId = ev.node ∧ x.term = (c'.nodes ev.node).term ∧ (c'.nodes ev.node).vote = x.toId ∧
      (c'.nodes ev.node).state = .stateFollower ∧ x.term ≠ NONE ∧ x.toId ≠ x.fromId ∧
      x.toId ∈ members := by
  obtain ⟨hsnap, _⟩ := hshape.arrives_type htrans.arrives
  obtain ⟨hm, hcur, hvote, hcore, _, hfrom, hto, hterm⟩ :=
    (htrans.sent x hx).grant_inv hsnap hgrant
  obtain ⟨hnet, hmto⟩ := htrans.arrives.delivered (by rw [hm]; rfl)
  obtain ⟨hmterm, hne⟩ := (h.msg m hnet).request hm
  have hid : (c.nodes ev.node).id = ev.node := hshape.id _ htrans.node
  have hfrom' : x.fromId = ev.node := by
    rw [hfrom, hcore.id]
    exact (observeTerm_id _ _).trans hid
  have hterm' : (c'.nodes ev.node).term = ((c.nodes ev.node).observeTerm m).term := hcore.term
  -- a candidate or leader has voted for itself and would have refused
  have hfollower : ((c.nodes ev.node).observeTerm m).state = .stateFollower := by
    by_contra hactive
    have hself := ((h.node _ htrans.node).observe m).active hactive
    rw [observeTerm_id, hid] at hself
    rcases hvote with hvote | hvote
    · have hzero : ev.node = NONE := hself.1.symm.trans hvote
      exact hshape.idPos (hzero ▸ htrans.node)
    · exact hne (hmto.trans (hself.1.symm.trans hvote))
  refine ⟨hfrom', hterm, hcore.vote.trans hto.symm, hcore.state.trans hfollower, ?_, ?_, ?_⟩
  · rw [hterm, hterm', hcur.term_eq hmterm]
    exact hmterm
  · rw [hfrom', hto, ← hmto]
    exact hne.symm
  · rw [hto]
    exact hshape.sender m hnet

theorem Grants.step_cases (h : Election members hist c) (hshape : Shape members c)
    (htrans : Transition members c ev m ms c') (hgrant : Grants c'.net v l t) :
    Grants c.net v l t ∨ (v = ev.node ∧ t = (c'.nodes ev.node).term ∧
      (c'.nodes ev.node).vote = l ∧ (c'.nodes ev.node).state = .stateFollower) := by
  obtain ⟨g, hg, hgrant, rfl, rfl, rfl⟩ := hgrant
  rw [htrans.net] at hg
  rcases List.mem_append.mp hg with hg | hg
  · exact .inl ⟨g, hg, hgrant, rfl, rfl, rfl⟩
  · obtain ⟨hfrom, hterm, hvote, hstate, _⟩ := h.new_grant hshape htrans hg hgrant
    exact .inr ⟨hfrom, hterm, hvote, hstate⟩

theorem Election.grants_ne (h : Election members hist c) (hshape : Shape members c)
    (hgrant : Grants c.net v l t) : l ≠ NONE := by
  obtain ⟨g, hg, hgrant, _, rfl, _⟩ := hgrant
  exact fun hnone => hshape.idPos (hnone ▸ ((h.msg g hg).grant hgrant).2.2)

/-- The votes of a candidate, with the response it is handling, are its own and granted ones. -/
theorem Election.recorded (h : Election members hist c) (hshape : Shape members c)
    (htrans : Transition members c ev m ms c') (hm : m.msgType = .msgRequestVoteResponse)
    (hcand : ((c.nodes ev.node).observeTerm m).state = .stateCandidate)
    (hcur : Current ((c.nodes ev.node).observeTerm m) m)
    (hv : (((c.nodes ev.node).observeTerm m).recordVote m).votes[v]? = some true) :
    v ∈ members ∧ (v = ev.node ∨ Grants c.net v ev.node ((c.nodes ev.node).observeTerm m).term) := by
  have hid : ((c.nodes ev.node).observeTerm m).id = ev.node :=
    (observeTerm_id _ _).trans (hshape.id _ htrans.node)
  obtain ⟨hnet, hto⟩ := htrans.arrives.delivered (by rw [hm]; rfl)
  rw [recordVote, ExtTreeMap.getElem?_insert] at hv
  split_ifs at hv with hfrom
  · rw [Nat.compare_eq_eq] at hfrom
    have hgrant : IsGrant m := ⟨hm, by simpa using hv⟩
    have hterm := hcur.term_eq ((h.msg m hnet).grant hgrant).1
    exact ⟨hfrom ▸ hshape.sender m hnet, .inr ⟨m, hnet, hgrant, hfrom, hto, hterm.symm⟩⟩
  · have hold := ((h.node _ htrans.node).observe m).voters hcand v hv
    rwa [hid] at hold

/-- An old grant of the current term was made by a follower, which keeps role and vote. -/
theorem Election.granted_step (h : Election members hist c) (hshape : Shape members c)
    (htrans : Transition members c ev m ms c') (hgrant : Grants c'.net ev.node l t) :
    t ≤ (c'.nodes ev.node).term ∧ (t = (c'.nodes ev.node).term →
      (c'.nodes ev.node).vote = l ∧ (c'.nodes ev.node).state = .stateFollower) := by
  obtain ⟨hsnap, _⟩ := hshape.arrives_type htrans.arrives
  have hrole := htrans.core.role hsnap
  have hid : ((c.nodes ev.node).observeTerm m).id = ev.node :=
    (observeTerm_id _ _).trans (hshape.id _ htrans.node)
  rcases hgrant.step_cases h hshape htrans with hold | ⟨_, rfl, hvote, hstate⟩
  · obtain ⟨hle, hcur⟩ := ((h.node _ htrans.node).observe m).granted l t (hid.symm ▸ hold)
    refine ⟨hle.trans hrole.term_le, fun heq => ?_⟩
    have hterm : (c'.nodes ev.node).term = ((c.nodes ev.node).observeTerm m).term :=
      Nat.le_antisymm (heq ▸ hle) hrole.term_le
    obtain ⟨hvote, hstate⟩ := hcur (heq.trans hterm)
    obtain ⟨hvote', hstate'⟩ := hrole.follower_keeps hstate hterm (hvote ▸ h.grants_ne hshape hold)
    exact ⟨hvote'.trans hvote, hstate'⟩
  · exact ⟨le_rfl, fun _ => ⟨hvote, hstate⟩⟩

/-- A node that led its current term still leads it. -/
theorem Election.led_step (h : Election members hist c) (hshape : Shape members c) (hc : c ∈ hist)
    (htrans : Transition members c ev m ms c') (hled : Led members (c' :: hist) ev.node t) :
    t ≤ (c'.nodes ev.node).term ∧
      (t = (c'.nodes ev.node).term → (c'.nodes ev.node).state = .stateLeader) := by
  obtain ⟨hsnap, _⟩ := hshape.arrives_type htrans.arrives
  have hrole := htrans.core.role hsnap
  have hid : ((c.nodes ev.node).observeTerm m).id = ev.node :=
    (observeTerm_id _ _).trans (hshape.id _ htrans.node)
  rcases hled.step_cases hc htrans with hold | ⟨_, hstate, rfl⟩
  · obtain ⟨hle, hcur⟩ := ((h.node _ htrans.node).observe m).led t (hid.symm ▸ hold)
    refine ⟨hle.trans hrole.term_le, fun heq => ?_⟩
    exact (hrole.leader_keeps (hcur (Nat.le_antisymm hle (heq ▸ hrole.term_le)))).1
  · exact ⟨le_rfl, fun _ => hstate⟩

theorem Election.node_step (h : Election members hist c) (hshape : Shape members c) (hc : c ∈ hist)
    (htrans : Transition members c ev m ms c') :
    NodeElection members (c' :: hist) c'.net (c'.nodes ev.node) := by
  obtain ⟨hsnap, _⟩ := hshape.arrives_type htrans.arrives
  have hrole := htrans.core.role hsnap
  have hobs := (h.node _ htrans.node).observe m
  have hid : ((c.nodes ev.node).observeTerm m).id = ev.node :=
    (observeTerm_id _ _).trans (hshape.id _ htrans.node)
  have hid' : (c'.nodes ev.node).id = ev.node := hrole.id_eq.trans hid
  have hleader : ∀ l, (c'.nodes ev.node).state = .stateLeader → l = ev.node →
      Led members (c' :: hist) l (c'.nodes ev.node).term := by
    rintro l hstate rfl
    exact ⟨htrans.node, c', List.mem_cons_self, hstate, rfl⟩
  refine ⟨?_, ?_, ?_, ?_, ?_⟩
  · intro l t hgrant
    rw [hid'] at hgrant
    exact h.granted_step hshape htrans hgrant
  · refine hobs.active_step hrole (fun hreq => ?_) ?_
    · obtain ⟨hnet, hto⟩ := htrans.arrives.delivered (by rw [hreq]; rfl)
      rw [hid, ← hto]
      exact ((h.msg m hnet).request hreq).2.symm
    · rw [hid]
      exact fun hzero => hshape.idPos (hzero ▸ htrans.node)
  · intro hcand v hv
    have hvoters := hobs.voters_step hrole (hid.symm ▸ htrans.node) (fun hm hcand hcur v hv => by
      rw [hid]
      exact h.recorded hshape htrans hm hcand hcur hv) hcand v hv
    exact ⟨hvoters.1, hvoters.2.imp_right (Grants.mono htrans.net_sub)⟩
  · refine hobs.lead_step hrole (fun _ _ => Led.mono) (fun hstate => hleader _ hstate hid') ?_
    intro hm hcur
    obtain ⟨hnet, _⟩ := htrans.arrives.delivered (by rcases hm with hm | hm <;> rw [hm] <;> rfl)
    obtain ⟨hterm, hled⟩ := (h.msg m hnet).leader hm
    rw [hcur.term_eq hterm]
    exact hled.mono
  · intro t hled
    rw [hid'] at hled
    exact h.led_step hshape hc htrans hled

theorem Won.mono (hsub : ∀ x ∈ net, x ∈ net') (h : Won members net l t) : Won members net' l t := by
  obtain ⟨Q, hQ, hcard, hvotes⟩ := h
  exact ⟨Q, hQ, hcard, fun v hv => (hvotes v hv).imp_right (Grants.mono hsub)⟩

/-- A node that was no leader when it handled the message becomes one with a quorum of votes. -/
theorem Election.elected (h : Election members hist c) (hshape : Shape members c)
    (hcard : members.card ≤ 255) (htrans : Transition members c ev m ms c')
    (hstate : ((c.nodes ev.node).observeTerm m).state ≠ .stateLeader)
    (hstate' : (c'.nodes ev.node).state = .stateLeader) :
    Won members c.net ev.node (c'.nodes ev.node).term := by
  obtain ⟨hsnap, _⟩ := hshape.arrives_type htrans.arrives
  have hsize : ((c.nodes ev.node).observeTerm m).prs.size = members.card :=
    hshape.observed_size htrans.node
  rcases (htrans.core.role hsnap).elected hstate hstate' with
    ⟨hone, _⟩ | ⟨hm, hcand, hcur, hwin, hterm⟩
  · refine ⟨{ev.node}, Finset.singleton_subset_iff.mpr htrans.node, ?_, ?_⟩
    · rw [Finset.card_singleton, ← hsize, hone]
      decide
    · intro v hv
      exact .inl (Finset.mem_singleton.mp hv)
  · have hrecorded : ∀ v ∈ (((c.nodes ev.node).observeTerm m).recordVote m).voteQuorum, _ :=
      fun v hv => h.recorded hshape htrans hm hcand hcur (mem_voteQuorum.mp hv)
    refine ⟨_, fun v hv => (hrecorded v hv).1, ?_, fun v hv => ?_⟩
    · rw [← hsize]
      exact lt_card_voteQuorum (s := ((c.nodes ev.node).observeTerm m).recordVote m)
        (hsize.trans_le hcard) hwin
    · rw [hterm]
      exact (hrecorded v hv).2

theorem Election.won_step (h : Election members hist c) (hshape : Shape members c)
    (hcard : members.card ≤ 255) (hc : c ∈ hist) (htrans : Transition members c ev m ms c')
    (hled : Led members (c' :: hist) l t) : Won members c'.net l t := by
  obtain ⟨hsnap, _⟩ := hshape.arrives_type htrans.arrives
  rcases hled.step_cases hc htrans with hold | ⟨rfl, hstate', rfl⟩
  · exact (h.won l t hold).mono htrans.net_sub
  by_cases hstate : ((c.nodes ev.node).observeTerm m).state = .stateLeader
  · -- the node already led this term before the step
    have hterm := ((htrans.core.role hsnap).leader_keeps hstate).2
    rcases observeTerm_cases (c.nodes ev.node) m with ⟨_, hobs⟩ | ⟨_, _, _, hobs, _⟩
    · rw [hobs] at hstate hterm
      exact (h.won _ _ ⟨htrans.node, c, hc, hstate, hterm.symm⟩).mono htrans.net_sub
    · rw [hstate] at hobs
      cases hobs
  · exact (h.elected hshape hcard htrans hstate hstate').mono htrans.net_sub

theorem MsgElection.mono (h : MsgElection members hist m) : MsgElection members (c :: hist) m :=
  ⟨h.request, h.grant, fun hm => (h.leader hm).imp_right Led.mono, h.ack⟩

/-- About an entry or a heartbeat only its leader matters. -/
theorem MsgElection.of_leader (htype : x.msgType = .msgHeartbeat ∨ x.msgType = .msgAppend)
    (h : x.term ≠ NONE ∧ Led members hist x.fromId x.term) : MsgElection members hist x := by
  have hne : ∀ {ty : MessageType}, x.msgType = ty → ty ≠ .msgHeartbeat → ty ≠ .msgAppend → False := by
    rintro ty rfl hheartbeat happend
    exact htype.elim hheartbeat happend
  exact ⟨fun hx => (hne hx (by decide) (by decide)).elim, fun hx => (hne hx.1 (by decide) (by decide)).elim,
    fun _ => h, fun hx => (hne hx (by decide) (by decide)).elim⟩

theorem Election.msg_step (h : Election members hist c) (hshape : Shape members c)
    (htrans : Transition members c ev m ms c')
    (hnode : NodeElection members (c' :: hist) c'.net (c'.nodes ev.node)) (hx : x ∈ ms) :
    MsgElection members (c' :: hist) x := by
  obtain ⟨hsnap, hconf⟩ := hshape.arrives_type htrans.arrives
  have hid : (c'.nodes ev.node).id = ev.node := (hshape.step htrans).id _ htrans.node
  have hleader : (c'.nodes ev.node).state = .stateLeader →
      (c'.nodes ev.node).term ≠ NONE ∧
        Led members (c' :: hist) (c'.nodes ev.node).id (c'.nodes ev.node).term := by
    intro hstate
    refine ⟨(hnode.active (by rw [hstate]; decide)).2, ?_⟩
    rw [hid]
    exact ⟨htrans.node, c', List.mem_cons_self, hstate, rfl⟩
  cases htrans.sent x hx with
  | append hx hstate =>
      refine .of_leader (.inr hx.msgType) ?_
      rw [hx.term, hx.fromId]
      exact hleader hstate
  | heartbeat hx hstate =>
      subst hx
      exact .of_leader (.inl rfl) (hleader hstate)
  | requestVote hx _ hto hterm =>
      subst hx
      exact ⟨fun _ => ⟨Nat.ne_zero_of_lt hterm, hto⟩, nofun, nofun, nofun⟩
  | grant hm _ hx' =>
      refine ⟨?_, fun hgrant => ?_, ?_, ?_⟩
      · exact fun h => by subst hx'; cases h
      · obtain ⟨_, _, _, _, hterm, hne, hmem⟩ := h.new_grant hshape htrans hx hgrant
        exact ⟨hterm, hne, hmem⟩
      · exact fun h => by subst hx'; rcases h with h | h <;> cases h
      · exact fun h => by subst hx'; cases h
  | accept hacc hx hcore =>
      have hm := hacc.msgType
      obtain ⟨hnet, _⟩ := htrans.arrives.delivered (by rw [hm]; rfl)
      have hterm := ((h.msg m hnet).leader (.inr hm)).1
      have hterm' : (c'.nodes ev.node).term = m.term :=
        hcore.term.trans (fallback_term.trans (hacc.current.term_eq hterm))
      subst hx
      exact ⟨nofun, nofun, nofun, fun _ _ => hterm'.symm ▸ hterm⟩
  | transfer hm hx =>
      subst hx
      have hne : ∀ {ty : MessageType}, m.msgType = ty → ty ≠ .msgTransferLeader → False :=
        fun hty hne => hne (hty.symm.trans hm)
      exact ⟨fun h => (hne h (by decide)).elim, fun h => (hne h.1 (by decide)).elim,
        fun h => (h.elim (hne · (by decide)) (hne · (by decide))).elim,
        fun h => (hne h (by decide)).elim⟩
  | confChange hm => exact absurd hm hconf
  | snapshot hm => exact absurd hm hsnap
  | refuse hx | stale hx | heartbeatResponse hx | timeoutNow hx =>
      subst hx
      exact ⟨nofun, nofun, nofun, nofun⟩
  | beyond _ _ _ _ hx | conflict _ _ _ _ _ _ _ _ hx =>
      subst hx
      exact ⟨nofun, nofun, nofun, nofun⟩

/-- The nodes that did not move. -/
theorem Election.node_other (h : Election members hist c) (hshape : Shape members c) (hc : c ∈ hist)
    (htrans : Transition members c ev m ms c') {i : Nat} (hi : i ∈ members) (hev : i ≠ ev.node) :
    NodeElection members (c' :: hist) c'.net (c.nodes i) := by
  have hid : (c.nodes i).id = i := hshape.id i hi
  have hold := h.node i hi
  refine ⟨?_, hold.active, ?_, fun hlead => (hold.lead hlead).mono, ?_⟩
  · intro l t hgrant
    rcases hgrant.step_cases h hshape htrans with hgrant | ⟨hself, _⟩
    · exact hold.granted l t hgrant
    · exact absurd (hid.symm.trans hself) hev
  · intro hcand v hv
    have hvoters := hold.voters hcand v hv
    exact ⟨hvoters.1, hvoters.2.imp_right (Grants.mono htrans.net_sub)⟩
  · intro t hled
    rcases hled.step_cases hc htrans with hled | ⟨hself, _⟩
    · exact hold.led t hled
    · exact absurd (hid.symm.trans hself) hev

theorem Election.step (h : Election members hist c) (hshape : Shape members c)
    (hcard : members.card ≤ 255) (hc : c ∈ hist) (htrans : Transition members c ev m ms c') :
    Election members (c' :: hist) c' := by
  have hnode := h.node_step hshape hc htrans
  have hid : (c'.nodes ev.node).id = ev.node := (hshape.step htrans).id _ htrans.node
  have hgranted : ∀ l t, Grants c'.net ev.node l t → t = (c'.nodes ev.node).term →
      (c'.nodes ev.node).vote = l ∧ (c'.nodes ev.node).state = .stateFollower :=
    fun l t hgrant => (hnode.granted l t (hid.symm ▸ hgrant)).2
  refine ⟨?_, ?_, ?_, fun l t hled => h.won_step hshape hcard hc htrans hled, ?_⟩
  · exact htrans.forall_nodes (P := fun _ s => NodeElection members (c' :: hist) c'.net s)
      (fun i hi hev => h.node_other hshape hc htrans hi hev) hnode
  · exact htrans.forall_net (fun x hx => (h.msg x hx).mono)
      fun x hx => h.msg_step hshape htrans hnode hx
  · -- two grants of the term the node is in both name the node in `vote_`
    intro v l l' t hgrant hgrant'
    rcases hgrant.step_cases h hshape htrans with hold | ⟨rfl, hterm, hvote, _⟩
    · rcases hgrant'.step_cases h hshape htrans with hold' | ⟨rfl, hterm, hvote, _⟩
      · exact h.unique v l l' t hold hold'
      · exact (hgranted l t hgrant hterm).1.symm.trans hvote
    · exact hvote.symm.trans (hgranted l' t hgrant' hterm).1
  · intro l t hled l' hgrant
    rcases hgrant.step_cases h hshape htrans with hold | ⟨rfl, hterm, _, hfollower⟩
    · rcases hled.step_cases hc htrans with hled | ⟨rfl, hleader, hterm⟩
      · exact h.noGrant l t hled l' hold
      · exact absurd ((hgranted l' t hgrant hterm.symm).2.symm.trans hleader) (by decide)
    · have hleader := (hnode.led t (hid.symm ▸ hled)).2 hterm
      exact absurd (hfollower.symm.trans hleader) (by decide)

/-- A node that is elected is the first leader of its term. -/
theorem Election.no_leader_before (h : Election members hist c) (hshape : Shape members c)
    (htrans : Transition members c ev m ms c') (h' : Election members (c' :: hist) c')
    (hstate : ((c.nodes ev.node).observeTerm m).state ≠ .stateLeader)
    (hstate' : (c'.nodes ev.node).state = .stateLeader) :
    ¬Led members hist l (c'.nodes ev.node).term := by
  intro hled
  have hself : Led members (c' :: hist) ev.node (c'.nodes ev.node).term :=
    ⟨htrans.node, c', List.mem_cons_self, hstate', rfl⟩
  obtain rfl := h'.leader_unique hled.mono hself
  obtain ⟨hsnap, _⟩ := hshape.arrives_type htrans.arrives
  have hid : ((c.nodes ev.node).observeTerm m).id = ev.node :=
    (observeTerm_id _ _).trans (hshape.id _ htrans.node)
  have hled' : Led members hist ((c.nodes ev.node).observeTerm m).id (c'.nodes ev.node).term := by
    rw [hid]
    exact hled
  obtain ⟨hle, hcur⟩ := ((h.node _ htrans.node).observe m).led _ hled'
  exact hstate (hcur (Nat.le_antisymm hle (htrans.core.role hsnap).term_le))

theorem Started.not_led {storage : Nat → MemoryStorage} (h : Started members storage c) :
    ¬Led members [c] l t := by
  rintro ⟨hl, c₁, hc₁, hstate, _⟩
  obtain ⟨config, _, _, _, hnew, _⟩ := h.built l hl
  rw [List.mem_singleton.mp hc₁, (new_spec hnew).state] at hstate
  cases hstate

theorem Started.election {storage : Nat → MemoryStorage} (h : Started members storage c) :
    Election members [c] c := by
  have hgrants : ∀ v l t, ¬Grants c.net v l t := by
    rintro v l t ⟨g, hg, _⟩
    rw [h.net] at hg
    cases hg
  refine ⟨?_, ?_, ?_, ?_, ?_⟩
  · intro i hi
    obtain ⟨config, _, _, _, hnew, _⟩ := h.built i hi
    have hinit := new_spec hnew
    refine ⟨?_, ?_, ?_, ?_, ?_⟩
    · exact fun l t hgrant => absurd hgrant (hgrants _ _ _)
    · exact fun hne => absurd hinit.state hne
    · intro hcand
      rw [hinit.state] at hcand
      cases hcand
    · exact fun hne => absurd hinit.lead hne
    · exact fun t hled => absurd hled h.not_led
  · intro m hm
    rw [h.net] at hm
    cases hm
  · exact fun v l l' t hgrant _ => absurd hgrant (hgrants v l t)
  · exact fun l t hled => absurd hled h.not_led
  · exact fun l t hled => absurd hled h.not_led

variable {storage : Nat → MemoryStorage} {ok : Cluster → Event → Cluster → Prop}
  {moves : List (Move Cluster Event)}

theorem ClusterRun.election (hcard : members.card ≤ 255)
    (hrun : ClusterRun members storage ok moves c) : Election members (moments moves c) c :=
  ClusterRun.invariant (I := fun moves c => Election members (moments moves c) c)
    (fun _ h _ => h.election)
    (fun moves c _ _ _ _ hshape _ htrans h =>
      h.step hshape hcard (mem_moments_self moves c) htrans) hrun

/-- **Election safety and leader agreement.** At all moments of a run two leaders of one term are the
same node, and a node that knows a leader knows one that has led in its term. The storages, with the
terms and votes in them, and the proposals are arbitrary. -/
theorem election_safety (hcard : members.card ≤ 255)
    (hrun : ClusterRun members storage (fun _ _ _ => True) moves c) :
    (∀ c₁ ∈ moments moves c, ∀ c₂ ∈ moments moves c, ∀ i ∈ members, ∀ j ∈ members,
      (c₁.nodes i).state = .stateLeader → (c₂.nodes j).state = .stateLeader →
        (c₁.nodes i).term = (c₂.nodes j).term → i = j) ∧
    (∀ i ∈ members, (c.nodes i).lead ≠ NONE → (c.nodes i).lead ∈ members ∧
      ∃ c₁ ∈ moments moves c, (c₁.nodes (c.nodes i).lead).state = .stateLeader ∧
        (c₁.nodes (c.nodes i).lead).term = (c.nodes i).term) := by
  have h := ClusterRun.election hcard hrun
  refine ⟨?_, fun i hi hlead => (h.node i hi).lead hlead⟩
  intro c₁ hc₁ c₂ hc₂ i hi j hj hstate hstate' hterm
  exact h.leader_unique ⟨hi, c₁, hc₁, hstate, hterm⟩ ⟨hj, c₂, hc₂, hstate', rfl⟩

/-- Node 1 is elected by node 2, which then follows it. -/
theorem election_safety_of_three : ∃ moves c,
    ClusterRun [1, 2, 3].toFinset (fun _ => .new) (fun _ _ _ => True) moves c ∧
      (c.nodes 1).state = .stateLeader ∧ (c.nodes 2).lead = 1 ∧
      ∀ c₁ ∈ moments moves c, ∀ j ∈ [1, 2, 3].toFinset, (c₁.nodes j).state = .stateLeader →
        (c₁.nodes j).term = (c.nodes 1).term → j = 1 := by
  have hplay : (play (playNext [1, 2, 3].toFinset fun _ _ _ => True)
      (Play.elect 1 [2] 1 ++ [.deliver .msgAppend 1 2 1]) [] (boot [1, 2, 3])).any
      (fun r => (r.2.nodes 1).state = .stateLeader ∧ (r.2.nodes 2).lead = 1) = true := by
    decide +kernel
  obtain ⟨moves, c, hrun, htest⟩ := exists_clusterRun (by decide) _ hplay
  obtain ⟨hstate, hlead⟩ := of_decide_eq_true htest
  refine ⟨moves, c, hrun, hstate, hlead, fun c₁ hc₁ j hj hleader hterm => ?_⟩
  exact (election_safety (by decide) hrun).1 c₁ hc₁ c (mem_moments_self moves c) j hj 1 (by decide)
    hleader hstate hterm

end Eraft.Cluster
