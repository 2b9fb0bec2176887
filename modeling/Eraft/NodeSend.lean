import Eraft.RaftContext

/-! What the sending functions of a node do: they push messages that describe the state they are
called in and change nothing else. -/

open Std

namespace Eraft.RaftContext

/-- The ids in `prs_`. -/
def peers (s : RaftContext) : Finset Nat := s.prs.keys.toFinset

theorem mem_peers {s : RaftContext} {id : Nat} : id ∈ s.peers ↔ id ∈ s.prs := by
  rw [peers, List.mem_toFinset, ExtTreeMap.mem_keys]

theorem card_peers (s : RaftContext) : s.peers.card = s.prs.size := by
  rw [peers, List.toFinset_card_of_nodup ExtTreeMap.nodup_keys, ExtTreeMap.length_keys]

theorem mem_peers_of_progress {s : RaftContext} {id : Nat} {pr : Progress}
    (h : s.progress id = some pr) : id ∈ s.peers := by
  rw [mem_peers, ExtTreeMap.mem_iff_isSome_getElem?]
  unfold progress at h
  cases hget : s.prs[id]? with
  | none => rw [hget] at h; cases h
  | some p => rfl

theorem mem_foldl_insert (f : Nat → Option Progress) (keys : List Nat)
    (prs : ExtTreeMap Nat (Option Progress)) (k : Nat) :
    k ∈ keys.foldl (fun prs peer => prs.insert peer (f peer)) prs ↔ k ∈ keys ∨ k ∈ prs := by
  induction keys generalizing prs with
  | nil => simp
  | cons key keys ih =>
      rw [List.foldl_cons, ih, ExtTreeMap.mem_insert, Nat.compare_eq_eq, List.mem_cons, eq_comm]
      tauto

theorem progress_setProgress (s : RaftContext) (id id' : Nat) (pr : Progress) :
    (s.setProgress id pr).progress id' = if id = id' then some pr else s.progress id' := by
  unfold progress setProgress
  rw [ExtTreeMap.getElem?_insert]
  split_ifs with h h' h' <;> simp_all

theorem peers_setProgress {s : RaftContext} {id : Nat} (pr : Progress) (hid : id ∈ s.peers) :
    (s.setProgress id pr).peers = s.peers := by
  ext id'
  rw [mem_peers, mem_peers, setProgress, ExtTreeMap.mem_insert]
  constructor
  · rintro (h | h)
    · rw [Nat.compare_eq_eq] at h
      rw [← h, ← mem_peers]
      exact hid
    · exact h
  · exact Or.inr

theorem progress_leaderState (s : RaftContext) (id : Nat) :
    s.leaderState.progress id = (s.progress id).map fun pr =>
      if id = s.id then { next := s.raftLog.lastIndex + 2, matchIdx := s.raftLog.lastIndex + 1 }
      else { pr with next := s.raftLog.lastIndex + 1 } := by
  simp only [progress, leaderState, leaderPrs, ExtTreeMap.getElem?_map]
  cases s.prs[id]? <;> rfl

theorem peers_leaderState (s : RaftContext) : s.leaderState.peers = s.peers := by
  simp only [peers, leaderState, leaderPrs, ExtTreeMap.keys_map]

/-- The state with more messages pushed. -/
def pushAll (s : RaftContext) (ms : List Message) : RaftContext := { s with msgs := s.msgs ++ ms }

theorem pushAll_nil (s : RaftContext) : s.pushAll [] = s := by
  simp [pushAll]

theorem pushAll_pushAll (s : RaftContext) (ms ms' : List Message) :
    (s.pushAll ms).pushAll ms' = s.pushAll (ms ++ ms') := by
  simp [pushAll]

/-- An append as `SendAppend` builds it in the state `s`. -/
structure AppendOf (s : RaftContext) (m : Message) : Prop where
  msgType : m.msgType = .msgAppend
  fromId : m.fromId = s.id
  term : m.term = s.term
  commit : m.commit = s.raftLog.commited
  progress : ∃ pr, s.progress m.toId = some pr ∧ m.index = u64Sub pr.next 1
  logTerm : s.raftLog.term m.index = some (m.logTerm, true)
  entries : m.entries = s.raftLog.entries.drop (s.raftLog.toSliceIndex (m.index + 1))

theorem AppendOf.of_pushAll {s : RaftContext} {ms : List Message} {m : Message}
    (h : AppendOf (s.pushAll ms) m) : AppendOf s m :=
  ⟨h.msgType, h.fromId, h.term, h.commit, h.progress, h.logTerm, h.entries⟩

theorem AppendOf.pushAll {s : RaftContext} {m : Message} (h : AppendOf s m) (ms : List Message) :
    AppendOf (s.pushAll ms) m :=
  ⟨h.msgType, h.fromId, h.term, h.commit, h.progress, h.logTerm, h.entries⟩

/-- A memory storage always knows a term, so the branch that reloads entries is not taken. -/
theorem raftLog_term_snd {l : RaftLog} {i t : Nat} {found : Bool} (h : l.term i = some (t, found)) :
    found = true := by
  unfold RaftLog.term at h
  split at h
  · simp only [Option.map_eq_some_iff, Prod.mk.injEq] at h
    obtain ⟨_, _, _, h⟩ := h
    exact h.symm
  · dsimp only at h
    rw [if_neg (by rw [MemoryStorage.term_snd]; decide)] at h
    split at h <;> cases h <;> rfl

theorem sendAppend_spec {s s' : RaftContext} {peer : Nat} (h : s.sendAppend peer = some s') :
    ∃ m, AppendOf s m ∧ m.toId = peer ∧ s' = s.pushAll [m] := by
  unfold sendAppend at h
  simp only [Option.bind_eq_bind, Option.bind_eq_some_iff] at h
  obtain ⟨pr, hpr, ⟨t, found⟩, hterm, h⟩ := h
  have hfound := raftLog_term_snd hterm
  subst hfound
  rw [if_neg (fun hfalse : (t, true).2 = false => Bool.noConfusion hfalse)] at h
  cases h
  exact ⟨_, ⟨rfl, rfl, rfl, rfl, ⟨pr, hpr, rfl⟩, hterm, rfl⟩, rfl, rfl⟩

theorem foldlM_sendAppend {s : RaftContext} {keys : List Nat} {ms : List Message}
    {s' : RaftContext}
    (hms : ∀ m ∈ ms, AppendOf s m ∧ m.toId ≠ s.id)
    (h : keys.foldlM (fun s peer => if peer = s.id then some s else s.sendAppend peer)
      (s.pushAll ms) = some s') :
    ∃ ms', s' = s.pushAll ms' ∧ ∀ m ∈ ms', AppendOf s m ∧ m.toId ≠ s.id := by
  induction keys generalizing ms with
  | nil =>
      cases h
      exact ⟨ms, rfl, hms⟩
  | cons peer keys ih =>
      rw [List.foldlM_cons] at h
      split_ifs at h with hid
      · exact ih hms h
      · obtain ⟨s₁, hsend, hrest⟩ := Option.bind_eq_some_iff.mp h
        obtain ⟨m, hm, hto, rfl⟩ := sendAppend_spec hsend
        rw [pushAll_pushAll] at hrest
        refine ih ?_ hrest
        intro x hx
        rcases List.mem_append.mp hx with hx | hx
        · exact hms x hx
        · rw [List.mem_singleton.mp hx]
          exact ⟨hm.of_pushAll, by rw [hto]; exact hid⟩

theorem bcastAppend_spec {s s' : RaftContext} (h : s.bcastAppend = some s') :
    ∃ ms, s' = s.pushAll ms ∧ ∀ m ∈ ms, AppendOf s m ∧ m.toId ≠ s.id := by
  have h0 : s.prs.keys.foldlM (fun s peer => if peer = s.id then some s else s.sendAppend peer)
      (s.pushAll []) = some s' := by
    rw [pushAll_nil]
    exact h
  exact foldlM_sendAppend (by simp) h0

/-- A loop that sends one message to every other peer. -/
theorem foldl_send {s : RaftContext} (send : RaftContext → Nat → RaftContext)
    (msg : Nat → Message) (hsend : ∀ ms peer, send (s.pushAll ms) peer = s.pushAll (ms ++ [msg peer]))
    (keys : List Nat) (ms : List Message)
    (hms : ∀ m ∈ ms, ∃ peer, m = msg peer ∧ peer ≠ s.id) :
    ∃ ms', keys.foldl (fun s peer => if peer = s.id then s else send s peer) (s.pushAll ms) =
      s.pushAll ms' ∧ ∀ m ∈ ms', ∃ peer, m = msg peer ∧ peer ≠ s.id := by
  induction keys generalizing ms with
  | nil => exact ⟨ms, rfl, hms⟩
  | cons peer keys ih =>
      rw [List.foldl_cons]
      by_cases hid : peer = s.id
      · rw [if_pos (show peer = (s.pushAll ms).id from hid)]
        exact ih ms hms
      · rw [if_neg (show ¬peer = (s.pushAll ms).id from hid), hsend]
        refine ih _ ?_
        intro x hx
        rcases List.mem_append.mp hx with hx | hx
        · exact hms x hx
        · exact ⟨peer, List.mem_singleton.mp hx, hid⟩

/-- The heartbeat of the state `s`. -/
def heartbeatMsg (s : RaftContext) (peer : Nat) : Message :=
  { msgType := .msgHeartbeat, fromId := s.id, toId := peer, term := s.term }

theorem bcastHeartbeat_spec (s : RaftContext) :
    ∃ ms, s.bcastHeartbeat = s.pushAll ms ∧
      ∀ m ∈ ms, ∃ peer, m = heartbeatMsg s peer ∧ peer ≠ s.id := by
  have h := foldl_send (s := s) sendHeartbeat (heartbeatMsg s)
    (fun ms peer => by simp [sendHeartbeat, heartbeatMsg, push, pushAll]) s.prs.keys [] (by simp)
  rwa [pushAll_nil] at h

end Eraft.RaftContext
