import Eraft.Cluster

/-! Runs of a cluster by evaluation. A cluster on empty storages is booted and driven by a list of
plays, each of which names a message to deliver by its type, its ends and its term. -/

open Std Runs

namespace Eraft.Cluster

def bootConfig (peers : List Nat) (i : Nat) : Config :=
  { id := i, peers := peers, electionTick := 10, heartbeatTick := 1, storage := .new }

/-- The node with the configuration `bootConfig`. -/
def bootNode (peers : List Nat) (i : Nat) : RaftContext where
  prs := peers.foldl (fun prs peer => prs.insert peer (some
    (if peer = i then { next := 1, matchIdx := 0 } else { next := 1 }))) ∅
  id := i
  term := 0
  vote := NONE
  state := .stateFollower
  votes := ∅
  raftLog := { storage := .new, pendingSnapshot := {}, commited := 0, applied := 0, stabled := 0
               firstIndex := 1, entries := [] }
  lead := NONE
  msgs := []
  heartbeatTimeout := 1
  electionTimeout := 10
  randomElectionTimeout := 10
  heartbeatElapsed := 0
  electionElapsed := 0
  transferElapsed := 0
  leadTransferee := NONE
  pendingConfIndex := NONE

theorem bootNode_new (peers : List Nat) {i : Nat} (hi : i ≠ 0) :
    RaftContext.new (bootConfig peers i) 0 0 NONE = some (bootNode peers i) := by
  have hvalid : (bootConfig peers i).validate = true := by simp [Config.validate, bootConfig, hi]
  unfold RaftContext.new
  rw [if_pos hvalid]
  cases peers <;> rfl

/-- The cluster of the given nodes, before the first call. -/
def boot (peers : List Nat) : Cluster := { nodes := bootNode peers, net := [] }

theorem boot_started {peers : List Nat} (hpeers : 0 ∉ peers) :
    Started peers.toFinset (fun _ => .new) (boot peers) := by
  refine ⟨fun i hi => ?_, fun i _ => ?_, rfl⟩
  · have hne : i ≠ 0 := fun hzero => hpeers (hzero ▸ List.mem_toFinset.mp hi)
    exact ⟨bootConfig peers i, 0, 0, NONE, bootNode_new peers hne, rfl, rfl⟩
  · ext j
    rw [RaftContext.mem_peers, List.mem_toFinset]
    refine (RaftContext.mem_foldl_insert _ peers ∅ j).trans ?_
    simp

/-- What is to happen next. -/
inductive Play where
  | hup (node : Nat)
  | propose (node : Nat)
  /-- The latest message of this kind. -/
  | deliver (msgType : MessageType) (fromId toId term : Nat)

/-- The event a play stands for. -/
def Play.event (c : Cluster) : Play → Option Event
  | .hup node => some { node := node, call := .step { msgType := .msgHup } }
  | .propose node => some { node := node, call := .step { msgType := .msgPropose, entries := [{}] } }
  | .deliver msgType fromId toId term =>
      (c.net.reverse.find? fun m => m.msgType = msgType ∧ m.fromId = fromId ∧ m.toId = toId ∧
        m.term = term).map fun m => { node := toId, call := .step m }

/-- The node `i` is elected in term `t` with these votes. -/
def Play.elect (i : Nat) (voters : List Nat) (t : Nat) : List Play :=
  .hup i :: voters.map (.deliver .msgRequestVote i · t) ++
    voters.map (.deliver .msgRequestVoteResponse · i t)

/-- The node `i`, leader of term `t`, sends its log to `j` and gets the answer. -/
def Play.replicate (i j t : Nat) : List Play :=
  [.deliver .msgAppend i j t, .deliver .msgAppendResponse j i t]

instance (members : Finset Nat) (net : List Message) (i : Nat) (m : Message) :
    Decidable (Arrives members net i m) := by
  unfold Arrives LocalMessage
  infer_instance

instance (members : Finset Nat) (c : Cluster) (ev : Event) : Decidable (Enabled members c ev) := by
  unfold Enabled
  cases ev.call <;> dsimp only <;> infer_instance

instance (ev : Event) : Decidable (OneEntry ev) := by
  unfold OneEntry
  cases ev.call <;> dsimp only <;> infer_instance

instance (ev : Event) : Decidable (FitsIndex ev) := by
  unfold FitsIndex
  cases ev.call <;> dsimp only <;> infer_instance

section

variable (members : Finset Nat) (ok : Cluster → Event → Cluster → Prop)
  [∀ c ev c', Decidable (ok c ev c')]

/-- The transition a play picks. -/
def playNext (c : Cluster) (p : Play) : Option (Event × Cluster) := do
  let ev ← p.event c
  let c' ← c.apply ev
  if Enabled members c ev ∧ ok c ev c' then some (ev, c') else none

theorem playNext_spec (c : Cluster) (p : Play) (ev : Event) (c' : Cluster)
    (h : playNext members ok c p = some (ev, c')) : Next members ok c ev c' := by
  simp only [playNext, Option.bind_eq_bind, Option.bind_eq_some_iff] at h
  obtain ⟨ev', _, c₁, happly, h⟩ := h
  split_ifs at h with hok
  cases h
  exact ⟨hok.1, hok.2, happly⟩

variable {ok}

/-- A run of a booted cluster can be exhibited by evaluating a test on its outcome. -/
theorem exists_clusterRun {peers : List Nat} (hpeers : 0 ∉ peers) (plays : List Play)
    {test : List (Move Cluster Event) × Cluster → Bool}
    (h : (play (playNext peers.toFinset ok) plays [] (boot peers)).any test = true) :
    ∃ moves c, ClusterRun peers.toFinset (fun _ => .new) ok moves c ∧ test (moves, c) = true :=
  exists_run_of_play (playNext_spec _ ok) (some (boot peers))
    (fun _ hs => Option.some.inj hs ▸ boot_started hpeers) plays h

/-- The same for a test on the last move. -/
theorem exists_clusterMove {peers : List Nat} (hpeers : 0 ∉ peers) (plays : List Play)
    {test : Move Cluster Event → Bool} (h : (play (playNext peers.toFinset ok) plays [] (boot peers)).any
      (fun r => r.1.head?.any test) = true) : ∃ moves c ev c',
      ClusterRun peers.toFinset (fun _ => .new) ok (⟨c, ev, c'⟩ :: moves) c' ∧ test ⟨c, ev, c'⟩ = true := by
  obtain ⟨moves, c', hrun, hsome⟩ := exists_clusterRun hpeers plays h
  obtain ⟨⟨c, ev, c₁⟩, hhead, htest⟩ := (Option.any_eq_true _ _).mp hsome
  obtain ⟨moves, rfl⟩ := List.head?_eq_some_iff.mp hhead
  obtain rfl : c₁ = c' := hrun.after_eq
  exact ⟨moves, c, ev, c₁, hrun, htest⟩

end

end Eraft.Cluster
