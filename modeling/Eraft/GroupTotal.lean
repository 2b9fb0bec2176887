import Eraft.GroupDeliver

/-! Nothing that can happen in a group reads outside of the data. A call reads of a node what a bare node has,
and its entries are those of the storage it is saved to. -/

open Std Runs TermLog

namespace Eraft

namespace RaftContext

variable {s : RaftContext} {m : Message} {members : Finset Nat}

theorem Readable.of_bare (h : Readable members s.bare) (hlog : s.raftLog.FromOne) : Readable members s := by
  have hc : Complete members s := h.complete.of_prs rfl
  refine ⟨hc, hlog, h.self, fun hstate => ⟨hc, hlog, (h.next hstate).next⟩, fun hstate f hf => ?_⟩
  exact h.inside hstate f hf

theorem Processable.of_bare (h : Processable members s.bare m) : Processable members s m := by
  refine ⟨h.append, h.propose, h.sender, fun hstate hty hcur => ?_⟩
  have hanswer := h.answer hstate hty hcur
  exact ⟨hanswer.ack, hanswer.nack⟩

end RaftContext

namespace Group

open RaftContext Cluster

variable {members : Finset Nat} {g : Group} {ev : Event} {gmoves : List (Move Group Turn)} {i : Nat}
  {moves : List (Move Cluster Event)} {net : List Message}

theorem Simulates.call_returns (h : Simulates members gmoves g moves net)
    (hfrom : (g.nodes ev.node).raft.raftLog.FromOne) (henabled : Enabled members g.cluster ev)
    (hone : OneEntry ev) : ∃ g', g.call ev = some g' := by
  have hread : Readable members (g.nodes ev.node).raft := by
    have hbare : Readable members (g.nodes ev.node).raft.bare := h.safe.readable h.sound henabled.1
    exact hbare.of_bare hfrom
  have hcall : ∃ n, (g.nodes ev.node).call ev.rand ev.call = some n := by
    cases hcall : ev.call with
    | tick =>
        obtain ⟨s, hs⟩ := tick_returns hread ev.rand
        exact ⟨{ g.nodes ev.node with raft := s }, by rw [RawNode.call, RawNode.tick, hs]; rfl⟩
    | step m =>
        have hm : Handled ev.call m := hcall ▸ .step m
        have hproc := h.safe.processable h.sound henabled.1 hone hm
          (h.safe.shape.handled_arrives (h.enabled henabled) hm)
        rw [show (g.bare net).nodes ev.node = (g.nodes ev.node).raft.bare from rfl, bare_observeTerm] at hproc
        obtain ⟨s, hs⟩ := step_returns hread hproc.of_bare ev.rand
        exact ⟨{ g.nodes ev.node with raft := s }, by rw [RawNode.call, RawNode.step, hs]; rfl⟩
  obtain ⟨n, hn⟩ := hcall
  unfold Group.call
  rw [hn]
  exact ⟨_, rfl⟩

/-- **No read outside of the data.** In every state of a run on empty storages in which proposals have one entry
and no node is elected with a `match` beyond its log, every call that can happen next and every `Ready` cycle
returns: no node reads outside of its log, its storage or the match vector or uses a null progress, whatever has
been lost, repeated or reordered on the way. -/
theorem every_turn_returns (hcard : members.card ≤ 255)
    (hrun : GroupRun members (Orderly members) gmoves g) :
    (∀ ev, Enabled members g.cluster ev → OneEntry ev → ∃ g', g.call ev = some g') ∧
      ∀ i ∈ members, ∃ rd g', g.ready i = some (rd, g') := by
  obtain ⟨⟨moves, net, h⟩, hserving⟩ := GroupRun.simulates hcard hrun
  refine ⟨fun ev henabled hone => ?_, fun i hi => h.ready_returns hi (hserving i hi)⟩
  exact h.call_returns (hserving _ henabled.1).mirrors.fromOne henabled hone

/-- Node 2 is elected after node 1 with one entry in its log, which node 3 does not have. The rejection of
node 3 can be handled. -/
theorem every_turn_returns_of_three : ∃ gmoves g m g',
    GroupRun [1, 2, 3].toFinset (Orderly [1, 2, 3].toFinset) gmoves g ∧ m ∈ g.net ∧
    m.msgType = .msgAppendResponse ∧ m.reject = true ∧ m.index = 1 ∧
    (g.nodes 2).raft.state = .stateLeader ∧ g.call { node := 2, call := .step m } = some g' := by
  have hplay : (play (scriptNext [1, 2, 3].toFinset (Orderly [1, 2, 3].toFinset))
      (Script.driven (Play.elect 1 [2] 1 ++ Play.replicate 1 2 1 ++ Play.elect 2 [1] 2 ++
        [.deliver .msgAppend 2 3 2])) [] (boot [1, 2, 3])).any (fun r =>
      (r.2.nodes 2).raft.state = .stateLeader ∧ ∃ m ∈ r.2.net, m.toId = 2 ∧
        m.msgType = .msgAppendResponse ∧ m.reject = true ∧ m.index = 1) = true := by
    decide +kernel
  obtain ⟨gmoves, g, hrun, htest⟩ := exists_groupRun (by decide) _ hplay
  obtain ⟨hstate, m, hm, hto, hty, hreject, hindex⟩ := of_decide_eq_true htest
  have hmember : 2 ∈ [1, 2, 3].toFinset := by decide
  have hev : Enabled [1, 2, 3].toFinset g.cluster { node := 2, call := .step m } :=
    ⟨hmember, Or.inr ⟨hm, hto⟩⟩
  obtain ⟨g', hcall⟩ := (every_turn_returns (by decide) hrun).1 _ hev fun hprop => by cases hty.symm.trans hprop
  exact ⟨gmoves, g, m, g', hrun, hm, hty, hreject, hindex, hstate, hcall⟩

end Group

end Eraft
