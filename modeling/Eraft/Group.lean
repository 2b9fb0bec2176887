import Eraft.ClusterTotal
import Eraft.NodeBare
import Eraft.ReadyDeliver

/-! A group of nodes, each driven by its application. Between two `Ready` cycles an application can make
any number of calls; in a cycle it saves the new entries, sends the messages that were pushed since the
last one and applies the committed entries to its state machine. Messages that were sent can be lost,
repeated and reordered. -/

open Std Runs TermLog

namespace Eraft

/-- The members with their applications. `net` is everything that was sent, and `machines` what each
application has applied, in order. -/
structure Group where
  nodes : Nat → RawNode
  net : List Message
  machines : Nat → List Entry

/-- What happens next in a group: a call on a member, or a cycle of its application, with what it
reads. -/
inductive Turn where
  | call (ev : Event)
  | ready (node : Nat) (rd : DReady)

namespace Group

open RaftContext Cluster

/-- The nodes as a cluster. -/
def cluster (g : Group) : Cluster := { nodes := fun i => (g.nodes i).raft, net := g.net }

def call (g : Group) (ev : Event) : Option Group := do
  let n ← (g.nodes ev.node).call ev.rand ev.call
  return { g with nodes := Function.update g.nodes ev.node n }

/-- A cycle of the application of member `i`. -/
def ready (g : Group) (i : Nat) : Option (DReady × Group) := do
  let (rd, n) ← (g.nodes i).cycle RawNode.saved
  return (rd, { nodes := Function.update g.nodes i n
                net := g.net ++ rd.messages
                machines := Function.update g.machines i (g.machines i ++ rd.committedEntries) })

/-- The transitions of a group whose calls all satisfy `ok`. -/
def Next (members : Finset Nat) (ok : Cluster → Event → Prop) (g : Group) (turn : Turn) (g' : Group) :
    Prop :=
  match turn with
  | .call ev => Enabled members g.cluster ev ∧ ok g.cluster ev ∧ g.call ev = some g'
  | .ready i rd => i ∈ members ∧ g.ready i = some (rd, g')

/-- Every member is built on an empty storage, with the membership as its peers. -/
structure Started (members : Finset Nat) (g : Group) : Prop where
  built : ∀ i ∈ members, ∃ config rand transferElapsed pendingConfIndex,
    RawNode.new config rand transferElapsed pendingConfIndex = some (g.nodes i) ∧
      config.id = i ∧ RawNode.freshStart config
  peers : ∀ i ∈ members, (g.nodes i).raft.peers = members
  net : g.net = []
  machines : ∀ i ∈ members, g.machines i = []

/-- The runs of a group. -/
abbrev GroupRun (members : Finset Nat) (ok : Cluster → Event → Prop) :
    List (Move Group Turn) → Group → Prop :=
  Run (Started members) (Next members ok)

/-! ### The group as a cluster

What a node has pushed counts as sent, and what only the application sees is left out. Then a call is a
transition of the cluster, and a cycle changes nothing. -/

/-- The bare nodes, with the messages `net`. -/
def bare (g : Group) (net : List Message) : Cluster :=
  { nodes := fun i => (g.nodes i).raft.bare, net := net }

/-- The cluster that the group stands for, after the moves `moves`; `gmoves` are the moves of the
group. -/
structure Simulates (members : Finset Nat) (gmoves : List (Move Group Turn)) (g : Group)
    (moves : List (Move Cluster Event)) (net : List Message) : Prop where
  safe : Safe members moves (g.bare net)
  sound : Sound members (moments moves (g.bare net)) (g.bare net)
  sent : ∀ x ∈ g.net, x ∈ net
  pushed : ∀ i ∈ members, ∀ x ∈ (g.nodes i).raft.msgs, x ∈ net
  earlier : ∀ g₁ ∈ moments gmoves g, ∃ net₁, g₁.bare net₁ ∈ moments moves (g.bare net)

/-- What holds of one member: its storage mirrors its log, and its application has applied a part of
what is committed. -/
structure Serving (machine : List Entry) (n : RawNode) : Prop where
  mirrors : n.raft.raftLog.Mirrors
  applied : n.raft.raftLog.applied ≤ n.raft.raftLog.commited
  machine : machine = n.raft.raftLog.entries.take n.raft.raftLog.applied

variable {members : Finset Nat} {g g' : Group} {ev : Event} {gmoves : List (Move Group Turn)}
  {moves : List (Move Cluster Event)} {net : List Message} {m : Message} {n n' : RawNode}
  {machine : List Entry} {rd : DReady} {i : Nat}

/-- A call changes its node only. -/
structure Called (g : Group) (ev : Event) (g' : Group) : Prop where
  node : (g.nodes ev.node).call ev.rand ev.call = some (g'.nodes ev.node)
  other : ∀ j, j ≠ ev.node → g'.nodes j = g.nodes j
  net : g'.net = g.net
  machines : g'.machines = g.machines

theorem call_spec (h : g.call ev = some g') : Called g ev g' := by
  obtain ⟨n, hn, h⟩ := Option.bind_eq_some_iff.mp h
  cases h
  refine ⟨?_, fun j hj => Function.update_of_ne hj _ _, rfl, rfl⟩
  simp only [Function.update_self]
  exact hn

/-- A cycle sends what its node has pushed and applies what the node has committed. -/
structure Served (g : Group) (i : Nat) (rd : DReady) (g' : Group) : Prop where
  node : (g.nodes i).cycle RawNode.saved = some (rd, g'.nodes i)
  other : ∀ j, j ≠ i → g'.nodes j = g.nodes j
  net : g'.net = g.net ++ rd.messages
  machine : g'.machines i = g.machines i ++ rd.committedEntries
  machines : ∀ j, j ≠ i → g'.machines j = g.machines j

theorem ready_spec (h : g.ready i = some (rd, g')) : Served g i rd g' := by
  obtain ⟨⟨rd', n⟩, hn, h⟩ := Option.bind_eq_some_iff.mp h
  cases h
  refine ⟨?_, fun j hj => Function.update_of_ne hj _ _, rfl, Function.update_self _ _ _,
    fun j hj => Function.update_of_ne hj _ _⟩
  simp only [Function.update_self]
  exact hn

/-- A call taken apart: the member handles the message `m` and pushes `ms`, and the cluster makes the
same transition. -/
structure Handles (members : Finset Nat) (g : Group) (net : List Message) (ev : Event) (m : Message)
    (ms : List Message) (g' : Group) : Prop where
  regular : Regular m
  core : CoreStep ((g.nodes ev.node).raft.observeTerm m) m (g'.nodes ev.node).raft
  msgs : (g'.nodes ev.node).raft.msgs = (g.nodes ev.node).raft.msgs ++ ms
  trans : Transition members (g.bare net) ev m ms (g'.bare (net ++ ms))

/-- What was sent counts as sent in the cluster. -/
theorem Simulates.enabled (h : Simulates members gmoves g moves net) (henabled : Enabled members g.cluster ev) :
    Enabled members (g.bare net) ev := by
  refine ⟨henabled.1, ?_⟩
  have harrives := henabled.2
  generalize ev.call = call at harrives
  cases call with
  | tick => trivial
  | step m => exact harrives.mono h.sent

/-- **A call is a transition of the cluster.** -/
theorem Simulates.handles (h : Simulates members gmoves g moves net)
    (hfrom : (g.nodes ev.node).raft.raftLog.FromOne) (henabled : Enabled members g.cluster ev)
    (hone : OneEntry ev) (hcall : Called g ev g') : ∃ m ms, Handles members g net ev m ms g' := by
  obtain ⟨m, hm, hcore, ms, hmsgs, hsent⟩ := call_outcome (RawNode.call_spec hcall.node).1
  have harrives := h.safe.shape.handled_arrives (h.enabled henabled) hm
  have hregular := h.safe.regular hone hm harrives
  have hlog : ((g.nodes ev.node).raft.observeTerm m).raftLog.FromOne := by
    rw [observeTerm_raftLog]
    exact hfrom
  have hlog' := hcore.fromOne hlog hregular
  have hobs : ((g.bare net).nodes ev.node).observeTerm m =
      ((g.nodes ev.node).raft.observeTerm m).bare := bare_observeTerm _ m
  rw [observeTerm_msgs] at hmsgs
  refine ⟨m, ms, hregular, hcore, hmsgs, henabled.1, hm, harrives, ?_, ?_, rfl, ?_, rfl⟩
  · rw [hobs]
    exact hcore.bare hlog hregular
  · intro x hx
    rw [hobs]
    exact (hsent x hx).bare hlog hlog' hregular
  · intro j hj
    show (g'.nodes j).raft.bare = (g.nodes j).raft.bare
    rw [hcall.other j hj]

/-- The condition on elections does not look at what only the application sees. -/
theorem atElection_bare (h : Orderly members g.cluster ev) (hfrom : (g.nodes ev.node).raft.raftLog.FromOne) :
    AtElection (MatchInLog members) (g.bare net) ev := by
  have hat := h.inLog
  unfold AtElection at hat ⊢
  generalize ev.call = call at hat
  cases call with
  | tick => trivial
  | step m =>
      intro hwon f hf hne
      have hle := hat hwon f hf hne
      have hlast := RaftLog.bare_lastIndex hfrom.empty
      exact hle.trans_eq hlast.symm

/-- What a member has applied it keeps, whatever message it handles. -/
theorem Serving.call (h : Serving machine n) {m : Message} (hm : Regular m)
    (hcore : CoreStep (n.raft.observeTerm m) m n'.raft)
    (hgrows : committedLog n.raft.bare <+: committedLog n'.raft.bare)
    (hco : n.raft.raftLog.commited ≤ n.raft.raftLog.entries.length)
    (hmono : n.raft.raftLog.commited ≤ n'.raft.raftLog.commited) : Serving machine n' := by
  have hmirrors := h.mirrors
  rw [← observeTerm_raftLog n.raft m] at hmirrors
  have hbase := hcore.sameBase hm.noSnapshot
  rw [observeTerm_raftLog] at hbase
  have hap := h.applied
  refine ⟨?_, ?_, ?_⟩
  · exact hmirrors.step (hcore.fromOne hmirrors.fromOne hm) (hcore.sameBase hm.noSnapshot)
      (hcore.keepsStable hmirrors.fromOne.firstIndex hmirrors.stabled_le hm)
  · rw [hbase.applied]
    exact hap.trans hmono
  · obtain ⟨rest, hrest⟩ := hgrows
    have hlen : n.raft.raftLog.applied ≤ (committedLog n.raft.bare).length := by
      rw [committedLog, List.length_take_of_le (by exact hco)]
      exact hap
    calc machine = (committedLog n.raft.bare).take n.raft.raftLog.applied := by
          rw [h.machine, committedLog, List.take_take, Nat.min_eq_left (by exact hap)]
          rfl
      _ = (committedLog n'.raft.bare).take n.raft.raftLog.applied := by
          rw [← hrest, List.take_append_of_le_length hlen]
      _ = n'.raft.raftLog.entries.take n'.raft.raftLog.applied := by
          rw [hbase.applied, committedLog, List.take_take, Nat.min_eq_left (by exact hap.trans hmono)]
          rfl

/-- A cycle applies the rest of what is committed. -/
theorem Serving.cycle (h : Serving machine n)
    (hco : n.raft.raftLog.commited ≤ n.raft.raftLog.entries.length)
    (hcycle : n.cycle RawNode.saved = some (rd, n')) :
    Serving (machine ++ rd.committedEntries) n' ∧ n'.raft.bare = n.raft.bare ∧ n'.raft.msgs = [] ∧
      rd.messages = n.raft.msgs ∧
      machine ++ rd.committedEntries = n.raft.raftLog.entries.take n.raft.raftLog.commited := by
  have hmirrors := (RawNode.Mirrors.cycle h.mirrors hcycle).1
  have hcycled := RawNode.cycle_eq_some.mp hcycle
  have hfrom := h.mirrors.fromOne
  have hentries : rd.entries = n.raft.raftLog.entries.drop n.raft.raftLog.stabled :=
    Option.some.inj
      (hcycled.entries.symm.trans (RaftLog.unstableEntries_of_one hfrom.firstIndex h.mirrors.stabled_le))
  have hcommitted := Option.some.inj
    (hcycled.committedEntries.symm.trans (RaftLog.nextEnts_of_one hfrom.firstIndex h.applied hco))
  have hlen : (n.raft.raftLog.entries.take n.raft.raftLog.commited).length = n.raft.raftLog.commited :=
    List.length_take_of_le hco
  obtain ⟨l, hl, hraft⟩ := hcycled.raft
  rw [RawNode.cycledLog_maybeCompact hfrom.firstIndex (RawNode.Mirrors.save h.mirrors hentries).1.dummy] at hl
  cases hl
  have happlied : (RawNode.cycledLog RawNode.saved n.raft.raftLog rd).applied = n.raft.raftLog.commited := by
    show (rd.committedEntries.getLast?.map Entry.index).getD n.raft.raftLog.applied = _
    rw [hcommitted]
    exact (RaftLog.last_drop_index (hfrom.contiguous.take _) (hlen.symm ▸ h.applied)).trans hlen
  have hall : machine ++ rd.committedEntries = n.raft.raftLog.entries.take n.raft.raftLog.commited := by
    calc machine ++ rd.committedEntries
        = (n.raft.raftLog.entries.take n.raft.raftLog.commited).take n.raft.raftLog.applied ++
            (n.raft.raftLog.entries.take n.raft.raftLog.commited).drop n.raft.raftLog.applied := by
          rw [hcommitted, List.take_take, Nat.min_eq_left h.applied, h.machine]
      _ = n.raft.raftLog.entries.take n.raft.raftLog.commited := List.take_append_drop _ _
  obtain ⟨raft', prevHardSt'⟩ := n'
  cases hraft
  refine ⟨⟨hmirrors, happlied.le, ?_⟩, rfl, rfl, hcycled.messages, hall⟩
  show _ = n.raft.raftLog.entries.take (RawNode.cycledLog RawNode.saved n.raft.raftLog rd).applied
  rw [happlied]
  exact hall

end Group

end Eraft
