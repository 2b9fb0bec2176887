import Eraft.ClusterPrompt
import Eraft.NodeTransfer

/-! Where the leadership goes. A leader asks only such a member to campaign that has held its whole log:
the `match` of the member is the leader's last index, which no leftover `match` reaches, and the entries
up to it are still there as long as the member sees no later term. -/

open Std Runs TermLog

namespace Eraft.Cluster

open RaftContext

/-- The move `a` asked the member `x.toId` to campaign, after it had held the whole log of the leader. -/
structure Handover (members : Finset Nat) (hist : List Cluster) (a : Move Cluster Event) (x : Message) :
    Prop where
  sender : x.fromId = a.label.node
  target : x.toId ∈ members
  other : x.toId ≠ x.fromId
  leader : (a.after.nodes x.fromId).state = .stateLeader
  nonempty : (a.after.nodes x.fromId).raftLog.entries ≠ []
  last : lastTerm Entry.term (a.after.nodes x.fromId).raftLog.entries = (a.after.nodes x.fromId).term
  held : Held hist x.toId (a.after.nodes x.fromId).raftLog.entries

variable {members : Finset Nat} {hist : List Cluster} {c c' : Cluster} {ev : Event} {m x : Message}
  {ms : List Message} {moves : List (Move Cluster Event)} {a : Move Cluster Event} {f : Nat}
  {s : RaftContext}

/-- A peer whose `match` is the leader's last index has held the leader's log. -/
theorem Tracked.whole (h : Tracked hist s f) (hmatch : s.matchOf f = s.raftLog.entries.length)
    (hlast : lastTerm Entry.term s.raftLog.entries = s.term) : Held hist f s.raftLog.entries := by
  rcases h with ⟨P, hlen, _, hheld, hpre⟩ | ⟨B, hpre, hle, hlt⟩
  · exact (hpre.eq_of_length (hlen.trans hmatch)) ▸ hheld
  · -- a leftover `match` ends before the first entry of the leader's term
    have hall := hpre.eq_of_length (Nat.le_antisymm hpre.length_le (hmatch ▸ hle))
    rw [hall, hlast] at hlt
    exact absurd hlt (Nat.lt_irrefl _)

/-- A posted message is one of those the call left in the node. -/
theorem apply_posted (h : c.apply ev = some c') (hx : x ∈ posted ⟨c, ev, c'⟩) :
    ∃ s, (c.nodes ev.node).call ev.rand ev.call = some s ∧ x ∈ s.msgs ∧
      SameCore s (c'.nodes ev.node) := by
  obtain ⟨s, hs, hsame⟩ := apply_call h
  refine ⟨s, hs, ?_, hsame⟩
  obtain ⟨s₁, hs₁, h⟩ := Option.bind_eq_some_iff.mp h
  cases hs.symm.trans hs₁
  rw [posted, ← Option.some.inj h] at hx
  have hx : x ∈ (c.net ++ s.msgs).drop c.net.length := hx
  rwa [List.drop_left] at hx

/-- **One step of the run.** -/
theorem Handover.step (hcard : members.card ≤ 255)
    (hrun : ClusterRun members (fun _ => .new) (fun c ev _ => Orderly members c ev) moves c)
    (hnext : Next members (fun c ev _ => Orderly members c ev) c ev c')
    (hx : x ∈ posted ⟨c, ev, c'⟩) (hty : x.msgType = .msgTimeoutNow) :
    Handover members (c' :: moments moves c) ⟨c, ev, c'⟩ x := by
  have hrun' := hrun.step hnext
  have hsafe := ClusterRun.safe hcard (fun _ _ _ h => h.basic) hrun
  have hsafe' := ClusterRun.safe hcard (fun _ _ _ h => h.basic) hrun'
  obtain ⟨⟨hnode, henabled⟩, _, happly⟩ := hnext
  obtain ⟨s, hcall, hmem, hsame⟩ := apply_posted happly hx
  obtain ⟨m, hstep, hands⟩ := call_handsOver hcall (hsafe.shape.idle _ hnode) hmem hty
  rw [hstep] at henabled
  have hid := hsafe.shape.id _ hnode
  have hnode' := hsafe'.logs.node _ hnode
  have hstate' := hsame.state.trans hands.leads
  have hlast := (hsafe'.logs.led _ _ (hnode'.leader hstate').1).1
  have hfrom : m.fromId ∈ members := by
    refine hsafe.shape.arrives_from henabled ?_
    rcases hands.msgType with hm | hm <;> rw [hm] <;> rfl
  have hmatch : (c'.nodes ev.node).matchOf m.fromId = (c'.nodes ev.node).raftLog.entries.length := by
    rw [← hnode'.fromOne.lastIndex_eq, matchOf_of_prs hsame.prs, hsame.raftLog]
    exact hands.caughtUp
  rw [hands.message, hid]
  refine ⟨rfl, hfrom, fun hself => ?_, hstate', hsafe'.election.ne_nil_of_leader hnode hstate' hlast, hlast,
    (ClusterRun.tracked hcard (fun _ _ _ h => h.basic) hrun' hnode hstate' hfrom).whole hmatch hlast⟩
  -- a leader is never behind itself
  have hself : m.fromId = (c.nodes ev.node).id := hself.trans hid.symm
  have hbehind := hands.behind hself
  rw [hself, (ClusterRun.prompt hcard hrun _ hnode hands.leader).own] at hbehind
  exact absurd hbehind (Nat.lt_irrefl _)

/-- **Leadership is handed on with the log.** Every `MsgTimeoutNow` was sent by a leader to another member
that had had the whole log of the leader by then, in the leader's term; and as long as the member is in
this term it still has all of it. -/
theorem handed_over_with_log (hcard : members.card ≤ 255)
    (hrun : ClusterRun members (fun _ => .new) (fun c ev _ => Orderly members c ev) moves c) :
    ∀ later a earlier, moves = later ++ a :: earlier → ∀ x ∈ posted a, x.msgType = .msgTimeoutNow →
      x.fromId = a.label.node ∧ (a.after.nodes x.fromId).state = .stateLeader ∧
      x.toId ∈ members ∧ x.toId ≠ x.fromId ∧
      (∃ c₁ ∈ a.after :: moments earlier a.before,
        (c₁.nodes x.toId).term = (a.after.nodes x.fromId).term ∧
        (a.after.nodes x.fromId).raftLog.entries <+: (c₁.nodes x.toId).raftLog.entries) ∧
      (a.after.nodes x.fromId).term ≤ (c.nodes x.toId).term ∧
      ((c.nodes x.toId).term = (a.after.nodes x.fromId).term →
        (a.after.nodes x.fromId).raftLog.entries <+: (c.nodes x.toId).raftLog.entries) := by
  rintro later a earlier rfl x hx hty
  obtain ⟨hbefore, hnext⟩ := hrun.of_append
  have h : Handover members (a.after :: moments earlier a.before) a x :=
    .step hcard hbefore hnext hx hty
  obtain ⟨c₁, hc₁, hterm, hpre⟩ := h.held
  have hmem : c₁ ∈ moments (later ++ a :: earlier) c := by
    have ha : a ∈ later ++ a :: earlier := List.mem_append_right _ List.mem_cons_self
    rcases List.mem_cons.mp hc₁ with rfl | hc₁
    · exact hrun.mem_moments_after a ha
    · refine List.mem_cons_of_mem _ ?_
      rw [List.map_append]
      exact List.mem_append_right _ hc₁
  have hsafe := ClusterRun.safe hcard (fun _ _ _ h => h.basic) hrun
  obtain ⟨hle, hkept⟩ := hsafe.ballots.held _ h.target _ h.nonempty ⟨c₁, hmem, hterm, hpre⟩
  rw [h.last] at hle hterm
  refine ⟨h.sender, h.leader, h.target, h.other, ⟨c₁, hc₁, hterm, hpre⟩, hle, fun hterm => ?_⟩
  rcases hkept with hkept | ⟨u, hlow, hhigh, _⟩
  · exact hkept
  · rw [h.last] at hlow
    omega

/-- Node 1 is asked to hand over to node 2, which has acknowledged its log. -/
def handToSecond : Event :=
  { node := 1, call := .step { msgType := .msgTransferLeader, fromId := 2, toId := 1 } }

theorem handed_over_with_log_of_three : ∃ a moves c x,
    ClusterRun [1, 2, 3].toFinset (fun _ => .new) (fun c ev _ => Orderly [1, 2, 3].toFinset c ev)
      (a :: moves) c ∧
    x ∈ posted a ∧ x.msgType = .msgTimeoutNow ∧ x.toId = 2 ∧
    (∃ c₁ ∈ a.after :: moments moves a.before, (c₁.nodes 2).term = (a.after.nodes x.fromId).term ∧
      (a.after.nodes x.fromId).raftLog.entries <+: (c₁.nodes 2).raftLog.entries) ∧
    (a.after.nodes x.fromId).raftLog.entries <+: (c.nodes 2).raftLog.entries := by
  have hplay : (play (playNext [1, 2, 3].toFinset
      fun c ev _ => Orderly [1, 2, 3].toFinset c ev)
      (Play.elect 1 [2] 1 ++ .propose 1 :: Play.replicate 1 2 1) [] (boot [1, 2, 3])).any
      (fun r => (Enabled [1, 2, 3].toFinset r.2 handToSecond ∧
        Orderly [1, 2, 3].toFinset r.2 handToSecond) ∧
        (r.2.apply handToSecond).any fun c' => ∃ x ∈ c'.net.drop r.2.net.length,
          x.msgType = .msgTimeoutNow ∧ x.toId = 2 ∧
          (c'.nodes 2).term = (c'.nodes x.fromId).term) = true := by
    decide +kernel
  obtain ⟨moves, c, hrun, htest⟩ := exists_clusterRun (by decide) _ hplay
  obtain ⟨⟨henabled, hok⟩, hafter⟩ := of_decide_eq_true htest
  obtain ⟨c', happly, htest⟩ := (Option.any_eq_true _ _).mp hafter
  obtain ⟨x, hx, hty, hto, hterm⟩ := of_decide_eq_true htest
  have hrun := hrun.step ⟨henabled, hok, happly⟩
  have h := handed_over_with_log (by decide) hrun [] _ moves rfl x hx hty
  rw [hto] at h
  exact ⟨_, moves, c', x, hrun, hx, hty, hto, h.2.2.2.2.1, h.2.2.2.2.2.2 hterm⟩

end Eraft.Cluster
