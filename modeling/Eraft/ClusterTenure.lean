import Eraft.ClusterElection
import Eraft.NodePace

/-! How long a leader leads. Terms only grow by campaigns. A node campaigns when its timer runs out, and
the appends and heartbeats of its leader restart the timer; so a leader that every other node hears in time
stays, with whatever else is delivered. What `in time` means is read off the run alone: the ticks since the
last message of the leader are counted, and compared with the configured timeout. -/

open Std Runs

namespace Eraft

namespace RaftContext

variable {s s' : RaftContext} {m x : Message} {rand : Nat}

/-- A message has the term of the node that sends it, or none, or that of the message it passes on. -/
theorem Sent.term_le (h : Sent s m s' x) (hsnap : m.msgType ≠ .msgSnapshot) :
    x.term ≤ s'.term ∨ x.term = m.term := by
  cases h with
  | append hx => exact .inl hx.term.le
  | transfer _ hx => exact .inr (by rw [hx])
  | confChange _ hx => exact .inr (by rw [hx])
  | snapshot hm => exact absurd hm hsnap
  | timeoutNow hx =>
      rw [hx]
      exact .inl (Nat.zero_le _)
  | heartbeat hx | requestVote hx | refuse hx | stale hx | heartbeatResponse hx =>
      rw [hx]
      exact .inl le_rfl
  | grant _ _ hx | accept _ hx | beyond _ _ _ _ hx | conflict _ _ _ _ _ _ _ _ hx =>
      rw [hx]
      exact .inl le_rfl

/-- The leader of term `t` speaks. -/
def FromLeader (t : Nat) (m : Message) : Prop :=
  (m.msgType = .msgHeartbeat ∨ m.msgType = .msgAppend) ∧ m.term = t

instance (t : Nat) (m : Message) : Decidable (FromLeader t m) :=
  inferInstanceAs (Decidable (_ ∧ _))

theorem handleHeartbeat_restarts (hterm : s.term ≤ m.term) :
    (s.handleHeartbeat m rand).electionElapsed = 0 := by
  unfold handleHeartbeat
  rw [if_neg fun h => absurd h.2 (Nat.not_lt.mpr hterm)]
  rfl

theorem handleAppendEntries_restarts (hterm : s.term ≤ m.term) (h : s.handleAppendEntries m rand = some s') :
    s'.electionElapsed = 0 := by
  unfold handleAppendEntries at h
  rw [if_neg fun h => absurd h.2 (Nat.not_lt.mpr hterm)] at h
  dsimp only at h
  split_ifs at h
  · cases h
    rfl
  · obtain ⟨resPair, _, h⟩ := Option.bind_eq_some_iff.mp h
    split_ifs at h
    · exact congrArg Aside.electionElapsed (rejectAppend_aside h)
    · exact congrArg Aside.electionElapsed (acceptAppend_aside h)
  · exact congrArg Aside.electionElapsed (acceptAppend_aside h)

/-- A leader whose term is not over is heard in every role. -/
theorem step_restarts {t : Nat} (hm : FromLeader t m) (hterm : s.term ≤ t) (h : s.step m rand = some s') :
    s'.electionElapsed = 0 := by
  obtain ⟨htype, rfl⟩ := hm
  have hobs : (s.observeTerm m).term ≤ m.term := by
    rcases observeTerm_cases s m with ⟨_, heq⟩ | ⟨_, heq, _⟩
    · rwa [heq]
    · exact heq.le
  have hfall : (if m.term = (s.observeTerm m).term then
      (s.observeTerm m).becomeFollower m.term m.fromId else s.observeTerm m).term ≤ m.term := by
    split_ifs
    · exact le_rfl
    · exact hobs
  have hnow : m.msgType = .msgTimeoutNow → s.prs.contains s.id = true := by
    intro hm
    rw [hm] at htype
    rcases htype with h | h <;> cases h
  cases hstate : (s.observeTerm m).state with
  | stateFollower =>
      rw [step_follower hnow hstate] at h
      rcases htype with hm | hm <;> rw [stepFollower, hm] at h
      · cases h
        exact handleHeartbeat_restarts hobs
      · exact handleAppendEntries_restarts hobs h
  | stateCandidate =>
      rw [step_candidate hnow hstate] at h
      rcases htype with hm | hm <;> rw [stepCandidate, hm] at h
      · cases h
        exact handleHeartbeat_restarts hfall
      · exact handleAppendEntries_restarts hfall h
  | stateLeader =>
      rw [step_leader hnow hstate] at h
      rcases htype with hm | hm <;> rw [stepLeader, hm] at h
      · cases h
        exact handleHeartbeat_restarts hobs
      · exact handleAppendEntries_restarts hobs h

/-- Every timeout that is drawn lasts at least as long as the configured one, if that takes no more than
half of the range. -/
def Aside.Drawn (a : Aside) : Prop := a.electionTimeout ≤ 2 ^ 63 → a.electionTimeout ≤ a.randomElectionTimeout

theorem le_u64Add_randIntn {n : Nat} (hn : n ≤ 2 ^ 63) (rand : Nat) : n ≤ u64Add n (randIntn n rand) := by
  rcases Nat.eq_zero_or_pos n with rfl | hpos
  · exact Nat.zero_le _
  · rw [u64Add_randIntn hpos hn]
    exact Nat.le_add_right _ _

theorem Aside.drawn_redrawn (a : Aside) (rand : Nat) : (a.redrawn rand).Drawn :=
  fun hrange => le_u64Add_randIntn hrange rand

theorem Listens.drawn (h : s.Listens rand s') (hs : s.aside.Drawn) : s'.aside.Drawn := by
  rcases h with h | h
  · rw [h]
    exact hs
  · rw [h]
    exact s.aside.drawn_redrawn rand

theorem Listens.elapsed_le (h : s.Listens rand s') : s'.electionElapsed ≤ s.electionElapsed := by
  rcases h with h | h
  · exact (congrArg Aside.electionElapsed h).le
  · exact (congrArg Aside.electionElapsed h).le.trans (Nat.zero_le _)

theorem step_elapsed_le (h : s.step m rand = some s') : s'.electionElapsed ≤ s.electionElapsed := by
  cases step_aside h with
  | listens h => exact h.elapsed_le
  | campaign _ h => exact (congrArg Aside.electionElapsed h).le
  | propose _ _ h => exact (congrArg Aside.electionElapsed h).le

theorem tick_elapsed_le (h : s.tick rand = some s') : s'.electionElapsed ≤ s.electionElapsed + 1 := by
  rcases tick_aside h with h | ⟨_, h⟩
  · exact h.elapsed_le.trans (Nat.le_succ _)
  · exact (congrArg Aside.electionElapsed h).le

theorem call_drawn {c : Call} (h : s.call rand c = some s') (hs : s.aside.Drawn) : s'.aside.Drawn := by
  cases c with
  | tick =>
      rcases tick_aside h with h | ⟨_, h⟩
      · exact h.drawn hs
      · rw [h]
        exact hs
  | step m =>
      cases step_aside h with
      | listens h => exact h.drawn hs
      | campaign _ h =>
          rw [h]
          exact s.aside.drawn_redrawn rand
      | propose _ _ h =>
          rw [h]
          exact hs

theorem call_electionTimeout {c : Call} (h : s.call rand c = some s') :
    s'.electionTimeout = s.electionTimeout := by
  have hlisten : s.Listens rand s' → s'.electionTimeout = s.electionTimeout := by
    rintro (h | h) <;> exact congrArg Aside.electionTimeout h
  cases c with
  | tick =>
      rcases tick_aside h with h | ⟨_, h⟩
      · exact hlisten h
      · exact congrArg Aside.electionTimeout h
  | step m =>
      cases step_aside h with
      | listens h => exact hlisten h
      | campaign _ h => exact congrArg Aside.electionTimeout h
      | propose _ _ h => exact congrArg Aside.electionTimeout h

theorem new_drawn {config : Config} {te pc : Nat} (h : new config rand te pc = some s) : s.aside.Drawn := by
  unfold new at h
  rw [if_pos (new_spec h).valid] at h
  obtain ⟨l, -, h⟩ := Option.bind_eq_some_iff.mp h
  cases h
  exact fun hrange => le_u64Add_randIntn hrange rand

end RaftContext

namespace Cluster

open RaftContext

/-- The ticks of the node `i` since it has last heard the leader of term `t`. The timer it has at the
start, in `c₀`, counts as ticks. -/
def silence (c₀ : Cluster) (t i : Nat) : List (Move Cluster Event) → Nat
  | [] => (c₀.nodes i).electionElapsed
  | move :: older =>
      if move.label.node = i then
        match move.label.call with
        | .tick => silence c₀ t i older + 1
        | .step m => if FromLeader t m then 0 else silence c₀ t i older
      else silence c₀ t i older

/-- A move that makes no node campaign: a node that ticks, other than `l`, has heard the leader of term `t`
within the timeout, and no message tells a node to campaign. -/
def InTouch (c₀ : Cluster) (l t : Nat) (older : List (Move Cluster Event))
    (move : Move Cluster Event) : Prop :=
  match move.label.call with
  | .tick => move.label.node = l ∨ silence c₀ t move.label.node older + 1 <
      (move.before.nodes move.label.node).electionTimeout
  | .step m => m.msgType ≠ .msgHup ∧ m.msgType ≠ .msgTimeoutNow

/-- Every move of the run is one of those. -/
def AllInTouch (c₀ : Cluster) (l t : Nat) : List (Move Cluster Event) → Prop
  | [] => True
  | move :: older => InTouch c₀ l t older move ∧ AllInTouch c₀ l t older

variable {members : Finset Nat} {storage : Nat → MemoryStorage} {ok : Cluster → Event → Cluster → Prop}
  {c₀ c c' : Cluster} {ev : Event} {m : Message} {ms : List Message}
  {earlier later moves : List (Move Cluster Event)} {l t : Nat}

theorem ClusterRun.drawn (hrun : ClusterRun members storage ok moves c) :
    ∀ i ∈ members, (c.nodes i).aside.Drawn := by
  refine hrun.induct (I := fun _ c => ∀ i ∈ members, (c.nodes i).aside.Drawn) (fun c h i hi => ?_)
    fun moves c ev c' hrun ih hnext => ?_
  · obtain ⟨config, _, _, _, hnew, _⟩ := h.built i hi
    exact new_drawn hnew
  · obtain ⟨m, ms, htrans⟩ := hnext.transition (ClusterRun.shape hrun)
    obtain ⟨s, hs, hmoved⟩ := apply_moved hnext.2.2
    refine htrans.forall_nodes (P := fun _ s => s.aside.Drawn) (fun i hi _ => ih i hi) ?_
    have hdrawn : s.aside.Drawn := call_drawn hs (ih _ htrans.node)
    rw [hmoved]
    exact hdrawn

/-- No term is above `t`. -/
structure TermsUpTo (members : Finset Nat) (t : Nat) (c : Cluster) : Prop where
  node : ∀ i ∈ members, (c.nodes i).term ≤ t
  net : ∀ x ∈ c.net, x.term ≤ t

theorem Transition.term_le_of_arrives (htrans : Transition members c ev m ms c')
    (hnet : ∀ x ∈ c.net, x.term ≤ t) : m.term ≤ t := by
  rcases htrans.arrives with ⟨hnone, _⟩ | ⟨hmem, _⟩
  · rw [hnone]
    exact Nat.zero_le _
  · exact hnet m hmem

/-- The term of the node that moves bounds those of its messages. -/
theorem TermsUpTo.step (h : TermsUpTo members t c) (hshape : Shape members c)
    (htrans : Transition members c ev m ms c') (hterm : (c'.nodes ev.node).term ≤ t) :
    TermsUpTo members t c' := by
  refine ⟨htrans.forall_nodes (P := fun _ s => s.term ≤ t) (fun i hi _ => h.node i hi) hterm,
    htrans.forall_net h.net fun x hx => ?_⟩
  rcases (htrans.sent x hx).term_le (hshape.arrives_type htrans.arrives).1 with hle | heq
  · exact hle.trans hterm
  · exact heq.le.trans (htrans.term_le_of_arrives h.net)

/-- The terms on the network are no further than those of the nodes. -/
theorem ClusterRun.termsUpTo (hrun : ClusterRun members storage ok moves c)
    (hmax : ∀ i ∈ members, (c.nodes i).term ≤ t) : TermsUpTo members t c := by
  induction hrun with
  | start h =>
      refine ⟨hmax, fun x hx => ?_⟩
      rw [h.net] at hx
      cases hx
  | @step moves c c' ev hrun hnext ih =>
      have hshape : Shape members c := ClusterRun.shape hrun
      obtain ⟨m, ms, htrans⟩ := hnext.transition hshape
      have hgrow := (htrans.core.role (hshape.arrives_type htrans.arrives).1).term_le
      refine (ih fun i hi => ?_).step hshape htrans (hmax _ htrans.node)
      by_cases hev : i = ev.node
      · rw [hev]
        exact ((le_observeTerm _ _).1.trans hgrow).trans (hmax _ htrans.node)
      · rw [← htrans.other i hev]
        exact hmax i hi

/-- What holds while the leader `l` of term `t` is heard. -/
structure Tenure (members : Finset Nat) (c₀ : Cluster) (l t : Nat) (later : List (Move Cluster Event))
    (c : Cluster) : Prop where
  leader : (c.nodes l).state = .stateLeader
  term : (c.nodes l).term = t
  terms : TermsUpTo members t c
  elapsed : ∀ i ∈ members, (c.nodes i).electionElapsed ≤ silence c₀ t i later
  range : ∀ i ∈ members, (c.nodes i).electionTimeout ≤ 2 ^ 63

/-- A node that moves in touch with the leader reaches no later term. -/
theorem Tenure.term_le (h : Tenure members c₀ l t later c)
    (hdrawn : ∀ i ∈ members, (c.nodes i).aside.Drawn) (hshape : Shape members c)
    (htouch : InTouch c₀ l t later ⟨c, ev, c'⟩) (htrans : Transition members c ev m ms c')
    (happly : c.apply ev = some c') : (c'.nodes ev.node).term ≤ t := by
  have hsnap := (hshape.arrives_type htrans.arrives).1
  have hobs : ((c.nodes ev.node).observeTerm m).term ≤ t := by
    rcases observeTerm_cases (c.nodes ev.node) m with ⟨_, heq⟩ | ⟨_, heq, _⟩
    · rw [heq]
      exact h.terms.node _ htrans.node
    · rw [heq]
      exact htrans.term_le_of_arrives h.terms.net
  by_cases hstate : ((c.nodes ev.node).observeTerm m).state = .stateLeader
  · rw [htrans.core.term_eq hsnap (.inl hstate)]
    exact hobs
  unfold InTouch at htouch
  cases hcall : ev.call with
  | tick =>
      rw [hcall] at htouch
      -- a tick has no term to look at, so the node is no leader, and its timer runs on
      have hsame : (c.nodes ev.node).observeTerm m = c.nodes ev.node := by
        have hm := htrans.handled
        rw [hcall] at hm
        cases hm <;> exact observeTerm_none rfl
      rw [hsame] at hstate
      have hin : (c.nodes ev.node).electionElapsed + 1 < (c.nodes ev.node).randomElectionTimeout := by
        rcases htouch with heq | hlt
        · exact absurd h.leader (heq ▸ hstate)
        · have helapsed := h.elapsed _ htrans.node
          have hdraw : (c.nodes ev.node).electionTimeout ≤ (c.nodes ev.node).randomElectionTimeout :=
            hdrawn _ htrans.node (h.range _ htrans.node)
          dsimp only at hlt
          omega
      obtain ⟨s, hs, hmoved⟩ := apply_moved happly
      rw [hcall] at hs
      cases (tick_waits hstate hin ev.rand).symm.trans hs
      rw [hmoved]
      exact h.terms.node _ htrans.node
  | step x =>
      rw [hcall] at htouch
      have hm := htrans.handled
      rw [hcall] at hm
      cases hm with
      | step =>
          rw [htrans.core.term_eq hsnap (.inr htouch)]
          exact hobs
      | ignored _ hnow => exact absurd hnow htouch.2

/-- The timer of a node says no more than the ticks since it has heard the leader. -/
theorem Tenure.elapsed_step (h : Tenure members c₀ l t later c) (htrans : Transition members c ev m ms c')
    (happly : c.apply ev = some c') :
    ∀ i ∈ members, (c'.nodes i).electionElapsed ≤ silence c₀ t i (⟨c, ev, c'⟩ :: later) := by
  intro i hi
  unfold silence
  dsimp only
  split_ifs with hev
  · subst hev
    obtain ⟨s, hs, hmoved⟩ := apply_moved happly
    rw [hmoved]
    have helapsed := h.elapsed _ hi
    cases hcall : ev.call with
    | tick =>
        rw [hcall] at hs
        exact (tick_elapsed_le hs).trans (Nat.succ_le_succ helapsed)
    | step x =>
        rw [hcall] at hs
        dsimp only
        split_ifs with hx
        · exact (step_restarts hx (h.terms.node _ hi) hs).le
        · exact (step_elapsed_le hs).trans helapsed
  · rw [htrans.other i (Ne.symm hev)]
    exact h.elapsed i hi

/-- The leader is not deposed by a message of its own term or of an earlier one. -/
theorem Tenure.leads (h : Tenure members c₀ l t later c) (hshape : Shape members c)
    (htrans : Transition members c ev m ms c') :
    (c'.nodes l).state = .stateLeader ∧ (c'.nodes l).term = t := by
  by_cases hev : l = ev.node
  · subst hev
    have hsame : (c.nodes ev.node).observeTerm m = c.nodes ev.node :=
      observeTerm_of_le (h.term.symm ▸ htrans.term_le_of_arrives h.terms.net)
    have hrole := htrans.core.role (hshape.arrives_type htrans.arrives).1
    rw [hsame] at hrole
    obtain ⟨hstate, hterm⟩ := hrole.leader_keeps h.leader
    exact ⟨hstate, hterm.trans h.term⟩
  · rw [htrans.other l hev]
    exact ⟨h.leader, h.term⟩

/-- **One step of the run.** -/
theorem Tenure.step (h : Tenure members c₀ l t later c) (hdrawn : ∀ i ∈ members, (c.nodes i).aside.Drawn)
    (hshape : Shape members c) (htouch : InTouch c₀ l t later ⟨c, ev, c'⟩)
    (hnext : Next members ok c ev c') : Tenure members c₀ l t (⟨c, ev, c'⟩ :: later) c' := by
  obtain ⟨m, ms, htrans⟩ := hnext.transition hshape
  obtain ⟨hleader, hterm⟩ := h.leads hshape htrans
  refine ⟨hleader, hterm, h.terms.step hshape htrans (h.term_le hdrawn hshape htouch htrans hnext.2.2),
    h.elapsed_step htrans hnext.2.2, ?_⟩
  refine htrans.forall_nodes (P := fun _ s => s.electionTimeout ≤ 2 ^ 63) (fun i hi _ => h.range i hi) ?_
  obtain ⟨s, hs, hmoved⟩ := apply_moved hnext.2.2
  rw [hmoved]
  exact (call_electionTimeout hs).le.trans (h.range _ htrans.node)

theorem ClusterRun.tenure (hrun₀ : ClusterRun members storage ok earlier c₀)
    (hstate : (c₀.nodes l).state = .stateLeader)
    (hmax : ∀ i ∈ members, (c₀.nodes i).term ≤ (c₀.nodes l).term)
    (hrange : ∀ i ∈ members, (c₀.nodes i).electionTimeout ≤ 2 ^ 63)
    (hrun : Run (· = c₀) (Next members ok) later c) (hquiet : AllInTouch c₀ l (c₀.nodes l).term later) :
    Tenure members c₀ l (c₀.nodes l).term later c := by
  induction hrun with
  | start h =>
      subst h
      exact ⟨hstate, rfl, ClusterRun.termsUpTo hrun₀ hmax, fun i _ => le_rfl, hrange⟩
  | @step later c c' ev hrun hnext ih =>
      obtain ⟨htouch, hquiet⟩ := hquiet
      have hall : ClusterRun members storage ok (later ++ earlier) c := hrun₀.append hrun
      exact (ih hquiet).step (ClusterRun.drawn hall) (ClusterRun.shape hall) htouch hnext

/-- **A leader that is heard stays.** From a moment on at which no node has a later term than the leader
`l`, let no node be told to campaign, and let every other node that ticks have heard the leader of that term
less than a timeout ago. Then `l` goes on leading in that term and no node reaches a later one, whatever
messages, old ones too, are delivered, lost or repeated. -/
theorem heard_leader_stays (hrun₀ : ClusterRun members storage ok earlier c₀)
    (hstate : (c₀.nodes l).state = .stateLeader)
    (hmax : ∀ i ∈ members, (c₀.nodes i).term ≤ (c₀.nodes l).term)
    (hrange : ∀ i ∈ members, (c₀.nodes i).electionTimeout ≤ 2 ^ 63)
    (hrun : Run (· = c₀) (Next members ok) later c) (hquiet : AllInTouch c₀ l (c₀.nodes l).term later) :
    ((c.nodes l).state = .stateLeader ∧ (c.nodes l).term = (c₀.nodes l).term) ∧
      ∀ i ∈ members, (c.nodes i).term ≤ (c₀.nodes l).term := by
  have h := ClusterRun.tenure hrun₀ hstate hmax hrange hrun hquiet
  exact ⟨⟨h.leader, h.term⟩, h.terms.node⟩

instance (c₀ : Cluster) (l t : Nat) (older : List (Move Cluster Event)) (move : Move Cluster Event) :
    Decidable (InTouch c₀ l t older move) := by
  unfold InTouch
  cases move.label.call <;> dsimp only <;> infer_instance

instance decidableAllInTouch (c₀ : Cluster) (l t : Nat) : (later : List (Move Cluster Event)) →
    Decidable (AllInTouch c₀ l t later)
  | [] => isTrue trivial
  | _ :: older =>
      have := decidableAllInTouch c₀ l t older
      inferInstanceAs (Decidable (_ ∧ _))

/-- A play, or a tick of the given node. -/
def timedNext (members : Finset Nat) (c : Cluster) : Play ⊕ Nat → Option (Event × Cluster)
  | .inl p => playNext members (fun _ _ _ => True) c p
  | .inr i => if i ∈ members then (c.apply { node := i, call := .tick }).map ({ node := i, call := .tick }, ·)
      else none

theorem timedNext_spec (members : Finset Nat) (c : Cluster) (p : Play ⊕ Nat) (ev : Event) (c' : Cluster)
    (h : timedNext members c p = some (ev, c')) : Next members (fun _ _ _ => True) c ev c' := by
  cases p with
  | inl p => exact playNext_spec _ _ c p ev c' h
  | inr i =>
      rw [timedNext] at h
      split_ifs at h with hi
      obtain ⟨c₁, happly, heq⟩ := Option.map_eq_some_iff.mp h
      cases heq
      exact ⟨⟨hi, trivial⟩, trivial, happly⟩

/-- Node 1 sends a heartbeat, node 2 hears it and then ticks nine times. -/
def heartbeatRound : List (Play ⊕ Nat) :=
  .inr 1 :: .inl (.deliver .msgHeartbeat 1 2 1) :: List.replicate 9 (.inr 2)

/-- Node 2, whose timeout is 10, ticks eighteen times and hears node 1 twice. -/
theorem heard_leader_stays_of_three : ∃ earlier c₀ later c,
    ClusterRun [1, 2, 3].toFinset (fun _ => .new) (fun _ _ _ => True) earlier c₀ ∧
      Run (· = c₀) (Next [1, 2, 3].toFinset fun _ _ _ => True) later c ∧
      (later.map Move.label).count { node := 2, call := .tick } = 18 ∧
      (c₀.nodes 2).randomElectionTimeout = 10 ∧
      (c.nodes 1).state = .stateLeader ∧ (c.nodes 1).term = 1 ∧ (c.nodes 2).term ≤ 1 := by
  have hplay : (play (playNext [1, 2, 3].toFinset fun _ _ _ => True) (Play.elect 1 [2] 1) []
      (boot [1, 2, 3])).any (fun r : List (Move Cluster Event) × Cluster =>
        decide ((r.2.nodes 1).state = .stateLeader ∧ (r.2.nodes 1).term = 1 ∧
        (r.2.nodes 2).term = 1 ∧ (r.2.nodes 3).term = 0 ∧
        (r.2.nodes 2).randomElectionTimeout = 10 ∧
        ∀ i ∈ [1, 2, 3].toFinset, (r.2.nodes i).electionTimeout ≤ 2 ^ 63) &&
      ((some r.2).bind (play (timedNext [1, 2, 3].toFinset) (heartbeatRound ++ heartbeatRound) [])).any
        fun r' => AllInTouch r.2 1 (r.2.nodes 1).term r'.1 ∧
          (r'.1.map Move.label).count { node := 2, call := .tick } = 18) = true := by
    decide +kernel
  obtain ⟨earlier, c₀, hrun₀, htest⟩ := exists_clusterRun (by decide) _ hplay
  rw [Bool.and_eq_true, decide_eq_true_eq] at htest
  obtain ⟨⟨hstate, hterm, hterm₂, hterm₃, htimeout, hrange⟩, hlater⟩ := htest
  have hmax : ∀ i ∈ [1, 2, 3].toFinset, (c₀.nodes i).term ≤ (c₀.nodes 1).term := by
    intro i hi
    have hi : i = 1 ∨ i = 2 ∨ i = 3 := by simpa using hi
    rcases hi with rfl | rfl | rfl
    · exact le_rfl
    · exact (hterm₂.trans hterm.symm).le
    · exact hterm₃.le.trans (Nat.zero_le _)
  obtain ⟨later, c, hrun, htest⟩ := exists_run_of_play (timedNext_spec [1, 2, 3].toFinset) (some c₀)
    (fun _ h => (Option.some.inj h).symm) _ hlater
  obtain ⟨hquiet, hcount⟩ := of_decide_eq_true htest
  obtain ⟨⟨hlead, hsame⟩, hle⟩ := heard_leader_stays hrun₀ hstate hmax hrange hrun hquiet
  exact ⟨earlier, c₀, later, c, hrun₀, hrun, hcount, htimeout, hlead, hsame.trans hterm,
    (hle 2 (by decide)).trans hterm.le⟩

end Cluster

end Eraft
