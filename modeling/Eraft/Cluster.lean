import Eraft.NodeProgress
import Eraft.NodeStart

/-! A cluster with one fixed membership. The network keeps every message a node has ever pushed and
any of them can be delivered at any time, which covers loss, duplication and reordering. Between
calls the application reads the pushed messages (`ReadMessage`). -/

open Std Runs

namespace Eraft

structure Cluster where
  nodes : Nat → RaftContext
  net : List Message

/-- A call on one of the nodes, with the random draw it makes. -/
structure Event where
  node : Nat
  call : Call
  rand : Nat := 0
  deriving DecidableEq

namespace Cluster

/-- A call, after which the node's messages are on the network. -/
def apply (c : Cluster) (ev : Event) : Option Cluster := do
  let s ← (c.nodes ev.node).call ev.rand ev.call
  return { nodes := Function.update c.nodes ev.node s.readMessage.2, net := c.net ++ s.readMessage.1 }

/-- The messages an application hands to a node itself: to campaign, to send heartbeats, to propose,
or to move the leadership to a member. -/
def LocalMessage (members : Finset Nat) (m : Message) : Prop :=
  m.term = NONE ∧ (m.msgType = .msgHup ∨ m.msgType = .msgBeat ∨ m.msgType = .msgPropose ∨
    (m.msgType = .msgTransferLeader ∧ m.fromId ∈ members))

/-- The types of those messages. -/
def fromApplication : MessageType → Bool
  | .msgHup | .msgBeat | .msgPropose | .msgTransferLeader => true
  | _ => false

/-- The message can reach the node `i`: from the application, or over the network. -/
def Arrives (members : Finset Nat) (net : List Message) (i : Nat) (m : Message) : Prop :=
  LocalMessage members m ∨ (m ∈ net ∧ m.toId = i)

/-- The calls that can happen in a cluster: ticks, and messages that arrive. -/
def Enabled (members : Finset Nat) (c : Cluster) (ev : Event) : Prop :=
  ev.node ∈ members ∧ match ev.call with
    | .tick => True
    | .step m => Arrives members c.net ev.node m

/-- The transitions of a cluster whose steps all satisfy `ok`. -/
def Next (members : Finset Nat) (ok : Cluster → Event → Cluster → Prop) (c : Cluster) (ev : Event)
    (c' : Cluster) : Prop :=
  Enabled members c ev ∧ ok c ev c' ∧ c.apply ev = some c'

/-- Every member is built on its own storage, with the membership as its peers. -/
structure Started (members : Finset Nat) (storage : Nat → MemoryStorage) (c : Cluster) : Prop where
  built : ∀ i ∈ members, ∃ config rand transferElapsed pendingConfIndex,
    RaftContext.new config rand transferElapsed pendingConfIndex = some (c.nodes i) ∧
      config.id = i ∧ config.storage = storage i
  peers : ∀ i ∈ members, (c.nodes i).peers = members
  net : c.net = []

/-- A proposal has one entry, as `RawNode::Propose` makes it. -/
def OneEntry (ev : Event) : Prop :=
  match ev.call with
  | .tick => True
  | .step m => m.msgType = .msgPropose → m.entries.length = 1

/-- The entries of a message end at a 64-bit index. -/
def FitsIndex (ev : Event) : Prop :=
  match ev.call with
  | .tick => True
  | .step m => m.index + m.entries.length < 2 ^ 64

/-- The types of messages that nodes send to each other. -/
def onWire : MessageType → Bool
  | .msgHup | .msgBeat | .msgPropose | .msgSnapshot | .msgEntryConfChange => false
  | _ => true

/-- What never changes in a cluster: every node has the members as its peers, and the network carries
only messages of members. -/
structure Shape (members : Finset Nat) (c : Cluster) : Prop where
  id : ∀ i ∈ members, (c.nodes i).id = i
  idPos : NONE ∉ members
  complete : ∀ i ∈ members, (c.nodes i).Complete members
  idle : ∀ i ∈ members, (c.nodes i).msgs = []
  sender : ∀ m ∈ c.net, m.fromId ∈ members
  wire : ∀ m ∈ c.net, onWire m.msgType = true
  timeout : ∀ m ∈ c.net, m.msgType = .msgTimeoutNow → m.term = NONE

/-- One transition taken apart: the node `ev.node` handles the message `m` and pushes `ms`. -/
structure Transition (members : Finset Nat) (c : Cluster) (ev : Event) (m : Message)
    (ms : List Message) (c' : Cluster) : Prop where
  node : ev.node ∈ members
  handled : RaftContext.Handled ev.call m
  arrives : Arrives members c.net ev.node m
  core : RaftContext.CoreStep ((c.nodes ev.node).observeTerm m) m (c'.nodes ev.node)
  sent : ∀ x ∈ ms, RaftContext.Sent ((c.nodes ev.node).observeTerm m) m (c'.nodes ev.node) x
  net : c'.net = c.net ++ ms
  other : ∀ j, j ≠ ev.node → c'.nodes j = c.nodes j
  idle : (c'.nodes ev.node).msgs = []

variable {members : Finset Nat} {ok : Cluster → Event → Cluster → Prop} {c c' : Cluster} {ev : Event}
  {m : Message} {ms : List Message}

theorem Shape.size_eq (hshape : Shape members c) {i : Nat} (hi : i ∈ members) :
    (c.nodes i).prs.size = members.card := by
  rw [← RaftContext.card_peers, (hshape.complete i hi).peers]

/-! A node that has read the term of a message still knows every member. -/

theorem Shape.observed (hshape : Shape members c) {i : Nat} (hi : i ∈ members) :
    RaftContext.Complete members ((c.nodes i).observeTerm m) :=
  (hshape.complete i hi).of_prs (RaftContext.observeTerm_prs _ _)

theorem Shape.observed_size (hshape : Shape members c) {i : Nat} (hi : i ∈ members) :
    ((c.nodes i).observeTerm m).prs.size = members.card := by
  rw [RaftContext.observeTerm_prs, hshape.size_eq hi]

theorem Shape.observed_id (hshape : Shape members c) {i : Nat} (hi : i ∈ members) :
    ((c.nodes i).observeTerm m).id = i :=
  (RaftContext.observeTerm_id _ _).trans (hshape.id i hi)

theorem Shape.observed_self (hshape : Shape members c) {i : Nat} (hi : i ∈ members) :
    ((c.nodes i).observeTerm m).id ∈ ((c.nodes i).observeTerm m).peers := by
  rw [hshape.observed_id hi, (hshape.observed hi).peers]
  exact hi

/-- A message of any other type came over the network. -/
theorem Arrives.delivered {net : List Message} {i : Nat} (h : Arrives members net i m)
    (hm : fromApplication m.msgType = false) : m ∈ net ∧ m.toId = i := by
  rcases h with ⟨_, h | h | h | ⟨h, _⟩⟩ | h
  case inr => exact h
  all_goals
    rw [h] at hm
    cases hm

/-- The types of messages a node of the cluster handles. -/
theorem Shape.arrives_type (hshape : Shape members c) {i : Nat} (h : Arrives members c.net i m) :
    m.msgType ≠ .msgSnapshot ∧ m.msgType ≠ .msgEntryConfChange := by
  rcases h with ⟨_, h | h | h | ⟨h, _⟩⟩ | ⟨hnet, _⟩
  case inr =>
    have hwire := hshape.wire m hnet
    constructor <;> intro hm <;> rw [hm] at hwire <;> cases hwire
  all_goals rw [h]; decide

/-- A message that is not the application's own comes from a member. -/
theorem Shape.arrives_from (hshape : Shape members c) {i : Nat} (h : Arrives members c.net i m)
    (hm : onWire m.msgType = true) : m.fromId ∈ members := by
  rcases h with ⟨_, h | h | h | ⟨_, h⟩⟩ | ⟨hnet, _⟩
  · rw [h] at hm
    cases hm
  · rw [h] at hm
    cases hm
  · rw [h] at hm
    cases hm
  · exact h
  · exact hshape.sender m hnet

/-- The node that moves makes the call, and the application reads its messages. -/
theorem apply_moved (h : c.apply ev = some c') :
    ∃ s, (c.nodes ev.node).call ev.rand ev.call = some s ∧ c'.nodes ev.node = s.readMessage.2 := by
  obtain ⟨s, hs, h⟩ := Option.bind_eq_some_iff.mp h
  refine ⟨s, hs, ?_⟩
  rw [← Option.some.inj h]
  exact Function.update_self _ _ _

theorem Next.transition (hshape : Shape members c) (hnext : Next members ok c ev c') :
    ∃ m ms, Transition members c ev m ms c' := by
  obtain ⟨⟨hnode, hcall⟩, _, happly⟩ := hnext
  obtain ⟨s, hs, happly⟩ := Option.bind_eq_some_iff.mp happly
  have hc' := (Option.some.inj happly).symm
  have hmoved : c'.nodes ev.node = s.readMessage.2 := by
    rw [hc']
    exact Function.update_self _ _ _
  obtain ⟨m, hm, hcore, ms, hmsgs, hsent⟩ := RaftContext.call_outcome hs
  rw [RaftContext.observeTerm_msgs, hshape.idle _ hnode, List.nil_append] at hmsgs
  have harrives : Arrives members c.net ev.node m := by
    generalize ev.call = call at hm hcall
    cases hm with
    | hup => exact .inl ⟨rfl, .inl rfl⟩
    | beat => exact .inl ⟨rfl, .inr (.inl rfl)⟩
    | step => exact hcall
    | ignored m' hm =>
        rcases hcall with ⟨_, hty⟩ | ⟨hnet, hto⟩
        · exact .inl ⟨rfl, hty⟩
        · have hself : { m' with term := NONE } = m' := by rw [← hshape.timeout m' hnet hm]
          rw [hself]
          exact .inr ⟨hnet, hto⟩
  refine ⟨m, ms, hnode, hm, harrives, ?_, ?_, ?_, ?_, ?_⟩
  · rw [hmoved]
    exact hcore.congr {}
  · intro x hx
    rw [hmoved]
    exact (hsent x hx).congr {}
  · rw [hc']
    exact congrArg (c.net ++ ·) hmsgs
  · intro j hj
    rw [hc']
    exact Function.update_of_ne hj _ _
  · rw [hmoved]
    rfl

/-- What is to hold of every node has to be shown for the one that moved. -/
theorem Transition.forall_nodes (h : Transition members c ev m ms c') {P : Nat → RaftContext → Prop}
    (hold : ∀ i ∈ members, i ≠ ev.node → P i (c.nodes i)) (hnew : P ev.node (c'.nodes ev.node)) :
    ∀ i ∈ members, P i (c'.nodes i) := by
  intro i hi
  by_cases hev : i = ev.node
  · rw [hev]
    exact hnew
  · rw [h.other i hev]
    exact hold i hi hev

/-- What is to hold of every message has to be shown for the new ones. -/
theorem Transition.forall_net (h : Transition members c ev m ms c') {P : Message → Prop}
    (hold : ∀ x ∈ c.net, P x) (hnew : ∀ x ∈ ms, P x) : ∀ x ∈ c'.net, P x := by
  intro x hx
  rw [h.net] at hx
  exact (List.mem_append.mp hx).elim (hold x) (hnew x)

/-- Every message a node pushes is of a type nodes exchange, and comes from a member. -/
theorem Shape.sent (hshape : Shape members c) (h : Transition members c ev m ms c') {x : Message}
    (hx : x ∈ ms) (hid : (c'.nodes ev.node).id = ev.node) :
    x.fromId ∈ members ∧ onWire x.msgType = true ∧ (x.msgType = .msgTimeoutNow → x.term = NONE) := by
  obtain ⟨hsnap, hconf⟩ := hshape.arrives_type h.arrives
  have hself : (c'.nodes ev.node).id ∈ members := hid.symm ▸ h.node
  cases h.sent x hx with
  | append hx => exact ⟨hx.fromId ▸ hself, by rw [hx.msgType]; rfl, by rw [hx.msgType]; intro h; cases h⟩
  | transfer hm hx =>
      subst hx
      have hfrom := hshape.arrives_from h.arrives (show onWire m.msgType = true by rw [hm]; rfl)
      exact ⟨hfrom, by rw [hm]; rfl, fun h => absurd (hm.symm.trans h) (by decide)⟩
  | confChange hm => exact absurd hm hconf
  | snapshot hm => exact absurd hm hsnap
  | heartbeat hx | requestVote hx | refuse hx | stale hx | heartbeatResponse hx =>
      subst hx
      exact ⟨hself, rfl, fun h => by cases h⟩
  | timeoutNow hx =>
      subst hx
      exact ⟨hself, rfl, fun _ => rfl⟩
  | grant _ _ hx | accept _ hx | beyond _ _ _ _ hx | conflict _ _ _ _ _ _ _ _ hx =>
      subst hx
      exact ⟨hself, rfl, fun h => by cases h⟩

theorem Shape.step (hshape : Shape members c) (h : Transition members c ev m ms c') :
    Shape members c' := by
  obtain ⟨hsnap, _⟩ := hshape.arrives_type h.arrives
  have hid : (c'.nodes ev.node).id = ev.node := by
    rw [(h.core.role hsnap).id_eq, RaftContext.observeTerm_id]
    exact hshape.id _ h.node
  refine ⟨h.forall_nodes (P := fun i s => s.id = i) (fun i hi _ => hshape.id i hi) hid, hshape.idPos,
    h.forall_nodes (P := fun _ s => s.Complete members) (fun i hi _ => hshape.complete i hi) ?_,
    h.forall_nodes (P := fun _ s => s.msgs = []) (fun i hi _ => hshape.idle i hi) h.idle,
    h.forall_net hshape.sender fun x hx => (hshape.sent h hx hid).1,
    h.forall_net hshape.wire fun x hx => (hshape.sent h hx hid).2.1,
    h.forall_net hshape.timeout fun x hx => (hshape.sent h hx hid).2.2⟩
  refine h.core.complete (hshape.observed h.node) ?_ hsnap
    fun hm => hshape.arrives_from h.arrives (by rw [hm]; rfl)
  rw [RaftContext.observeTerm_id, hshape.id _ h.node]
  exact h.node

theorem Started.shape {storage : Nat → MemoryStorage} (h : Started members storage c) :
    Shape members c := by
  have hinit : ∀ i ∈ members, ∃ config, RaftContext.Initial config (c.nodes i) ∧ config.id = i := by
    intro i hi
    obtain ⟨config, _, _, _, hnew, hid, _⟩ := h.built i hi
    exact ⟨config, RaftContext.new_spec hnew, hid⟩
  refine ⟨?_, ?_, ?_, ?_, ?_, ?_, ?_⟩
  · intro i hi
    obtain ⟨config, hi, hid⟩ := hinit i hi
    exact hi.id.trans hid
  · intro hnone
    obtain ⟨config, hi, hid⟩ := hinit NONE hnone
    exact hi.id_ne (hi.id.trans hid)
  · intro i hi
    refine ⟨h.peers i hi, fun j hj => ?_⟩
    obtain ⟨config, hinit, _⟩ := hinit i hi
    rw [← h.peers i hi, RaftContext.mem_peers, ExtTreeMap.mem_iff_isSome_getElem?,
      Option.isSome_iff_exists] at hj
    obtain ⟨p, hp⟩ := hj
    obtain ⟨pr, rfl⟩ := hinit.progress j p hp
    exact ⟨pr, by rw [RaftContext.progress, hp]; rfl⟩
  · intro i hi
    obtain ⟨config, hi, _⟩ := hinit i hi
    exact hi.msgs
  all_goals
    intro m hm
    rw [h.net] at hm
    cases hm

/-- The runs of a cluster on the given storages whose steps all satisfy `ok`. -/
abbrev ClusterRun (members : Finset Nat) (storage : Nat → MemoryStorage)
    (ok : Cluster → Event → Cluster → Prop) : List (Move Cluster Event) → Cluster → Prop :=
  Run (Started members storage) (Next members ok)

variable {storage : Nat → MemoryStorage} {moves : List (Move Cluster Event)}

theorem ClusterRun.shape (hrun : ClusterRun members storage ok moves c) : Shape members c :=
  hrun.induct (fun _ h => h.shape) fun _ _ _ _ _ hshape hnext => by
    obtain ⟨_, _, htrans⟩ := hnext.transition hshape
    exact hshape.step htrans

/-- **Invariance along a run.** An invariant may speak about the whole run so far; a step is given as
the transition of one node. -/
theorem ClusterRun.invariant {I : List (Move Cluster Event) → Cluster → Prop}
    (hinit : ∀ c, Started members storage c → Shape members c → I [] c)
    (hstep : ∀ moves c ev c' m ms, Shape members c → ok c ev c' → Transition members c ev m ms c' →
      I moves c → I (⟨c, ev, c'⟩ :: moves) c')
    (hrun : ClusterRun members storage ok moves c) : I moves c :=
  hrun.induct (fun c h => hinit c h h.shape) fun moves c ev c' hrun hinv hnext => by
    have hshape : Shape members c := ClusterRun.shape hrun
    obtain ⟨m, ms, htrans⟩ := hnext.transition hshape
    exact hstep moves c ev c' m ms hshape hnext.2.1 htrans hinv

end Cluster

end Eraft
