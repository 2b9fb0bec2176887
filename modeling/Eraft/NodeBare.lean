import Eraft.NodeStable

/-! A node without what only its application sees: the storage, what was read from the node and what
was applied. As long as the log starts at index 1, no message is handled differently without them, so
that a node which is read in `Ready` cycles does what one without cycles does. -/

open Std TermLog

namespace Eraft

/-- Behind the end of an empty storage the term is 0. -/
theorem MemoryStorage.term_of_empty {st : MemoryStorage} (h : st.lastIndex = 0) {i : Nat} (hi : 0 < i) :
    st.term i = (0, true) := by
  have hlen := List.length_pos_of_ne_nil st.entsPos
  rw [MemoryStorage.lastIndex] at h
  unfold MemoryStorage.term
  dsimp only
  rw [if_neg (by omega), List.getElem?_eq_none (by omega)]

namespace RaftLog

/-- The log over an empty storage, of which nothing was saved or applied. -/
def bare (l : RaftLog) : RaftLog :=
  { l with storage := .new, pendingSnapshot := {}, applied := 0, stabled := 0 }

variable {l : RaftLog}

theorem FromOne.bare (h : l.FromOne) : l.bare.FromOne :=
  ⟨h.firstIndex, h.contiguous, fun _ => rfl, rfl, rfl⟩

theorem bare_lastIndex (h : l.entries = [] → l.storage.lastIndex = 0) : l.bare.lastIndex = l.lastIndex := by
  unfold lastIndex
  rw [show l.bare.entries = l.entries from rfl]
  cases hlast : l.entries.getLast? with
  | some e => rfl
  | none => exact (h (List.getLast?_eq_none_iff.mp hlast)).symm

theorem FromOne.bare_term (h : l.FromOne) (i : Nat) : l.bare.term i = l.term i := by
  unfold term
  rw [show l.bare.entries = l.entries from rfl, show l.bare.firstIndex = l.firstIndex from rfl]
  split_ifs with hin
  · rfl
  · have hstored : l.storage.term i = (0, true) := by
      rcases Nat.eq_zero_or_pos i with rfl | hi
      · exact h.termZero
      · have hnil : l.entries = [] := by
          by_contra hne
          exact hin ⟨List.length_pos_of_ne_nil hne, by rw [h.firstIndex]; exact hi⟩
        exact MemoryStorage.term_of_empty (h.empty hnil) hi
    have hbare : l.bare.storage.term i = (0, true) := by
      rcases Nat.eq_zero_or_pos i with rfl | hi
      · rfl
      · exact MemoryStorage.term_of_empty rfl hi
    dsimp only
    rw [hstored, hbare, h.snapshot, show isEmptySnap l.bare.pendingSnapshot = true from rfl]
    rfl

end RaftLog

namespace RaftContext

open RaftLog

/-- The node with its bare log, of which all messages were read. -/
def bare (s : RaftContext) : RaftContext := { s with raftLog := s.raftLog.bare, msgs := [] }

variable {s s' : RaftContext} {m x : Message}

theorem SameCore.bare (h : SameCore s s') : SameCore s.bare s'.bare :=
  ⟨h.id, h.prs, h.term, h.vote, h.state, h.votes, congrArg RaftLog.bare h.raftLog, h.lead⟩

theorem bare_observeTerm (s : RaftContext) (m : Message) : s.bare.observeTerm m = (s.observeTerm m).bare := by
  unfold observeTerm
  rw [show s.bare.term = s.term from rfl]
  split_ifs <;> rfl

theorem bare_fallback (s : RaftContext) (m : Message) : s.bare.fallback m = (s.fallback m).bare := by
  unfold fallback
  rw [show s.bare.state = s.state from rfl, show s.bare.term = s.term from rfl]
  split_ifs <;> rfl

theorem bare_elected (h : s.raftLog.FromOne) : s.bare.elected = s.elected.bare := by
  have hlast : s.bare.raftLog.lastIndex = s.raftLog.lastIndex := bare_lastIndex h.empty
  unfold elected leaderState noopEntry leaderPrs
  rw [hlast]
  rfl

theorem bare_proposeLoop (n : Nat) (entries : List Entry) (s : RaftContext) :
    proposeLoop n entries s.bare = (proposeLoop n entries s).bare := by
  induction entries generalizing s with
  | nil => rfl
  | cons e rest ih =>
      unfold proposeLoop
      dsimp only
      rw [show s.bare.pendingConfIndex = s.pendingConfIndex from rfl,
        show s.bare.term = s.term from rfl]
      split_ifs
      · exact ih s
      · exact ih { s with
          pendingConfIndex := n + 0 + 1
          raftLog := { s.raftLog with
            entries := s.raftLog.entries ++ [{ e with term := s.term, index := n + 0 + 1 }] } }
      · exact ih { s with
          raftLog := { s.raftLog with
            entries := s.raftLog.entries ++ [{ e with term := s.term, index := n + 0 + 1 }] } }

theorem bare_proposed (h : s.raftLog.FromOne) (entries : List Entry) :
    s.bare.proposed entries = (s.proposed entries).bare := by
  have hlast : s.bare.raftLog.lastIndex = s.raftLog.lastIndex := bare_lastIndex h.empty
  have hloop : (proposeLoop s.raftLog.lastIndex entries s).bare.raftLog.lastIndex =
      (proposeLoop s.raftLog.lastIndex entries s).raftLog.lastIndex := by
    obtain ⟨_, added, hcore, _⟩ := proposeLoop_spec s.raftLog.lastIndex entries s
    refine bare_lastIndex fun hnil => ?_
    rw [hcore.raftLog] at hnil ⊢
    exact h.empty (List.append_eq_nil_iff.mp hnil).1
  unfold proposed setProgress
  dsimp only
  rw [hlast, bare_proposeLoop, hloop]
  rfl

/-- The append loop reads nothing but the entries; what was never stable stays so. -/
theorem bare_appendLoop {ents : List Entry} {q : Nat} {l l' : RaftLog} (h : l.FromOne)
    (hq : q ≤ l.entries.length) (hindex : ∀ i e, ents[i]? = some e → e.index = q + i + 1)
    (hloop : appendLoop ents ents 0 l = some l') : appendLoop ents ents 0 l.bare = some l'.bare := by
  obtain ⟨stabled, heq⟩ := appendLoop_all h hq hindex
  obtain ⟨stabled', heq'⟩ := appendLoop_all h.bare hq hindex
  obtain rfl := Option.some.inj (heq.symm.trans hloop)
  have hstable := appendLoop_keepsStable h.bare.firstIndex (Nat.zero_le _) heq'
  obtain rfl : stabled' = 0 := Nat.le_zero.mp hstable.le
  exact heq'

theorem Accepts.bare (h : Accepts s m s') (hlog : s.raftLog.FromOne) (hm : Regular m) :
    Accepts s.bare m s'.bare := by
  have hlast : s.bare.raftLog.lastIndex = s.raftLog.lastIndex := bare_lastIndex hlog.empty
  refine ⟨h.msgType, h.current, hlast.symm ▸ h.reach, fun hfirst => ?_, ?_⟩
  · obtain ⟨found, hterm⟩ := h.agrees hfirst
    exact ⟨found, (hlog.bare_term _).trans hterm⟩
  · obtain ⟨l, hloop, hmerged⟩ := h.merged
    have hreach : m.index ≤ s.raftLog.entries.length := hlog.lastIndex_eq ▸ h.reach
    refine ⟨l.bare, bare_appendLoop hlog hreach (hm.index_eq h.msgType) hloop, ?_⟩
    show s'.raftLog.bare = _
    rw [hmerged]
    unfold followCommit
    rw [show l.bare.commited = l.commited from rfl]
    split_ifs <;> rfl

theorem AppendOf.bare (h : AppendOf s x) (hlog : s.raftLog.FromOne) : AppendOf s.bare x :=
  ⟨h.msgType, h.fromId, h.term, h.commit, h.progress, (hlog.bare_term _).trans h.logTerm, h.entries⟩

theorem NotAhead.bare (h : NotAhead s m) (hlog : s.raftLog.FromOne) : NotAhead s.bare m := by
  obtain ⟨t, found, hterm, hnot⟩ := h
  have hlast : s.bare.raftLog.lastIndex = s.raftLog.lastIndex := bare_lastIndex hlog.empty
  refine ⟨t, found, ?_, ?_⟩
  · rw [hlast]
    exact (hlog.bare_term _).trans hterm
  · rw [hlast]
    exact hnot

/-- **A bare node takes the same steps.** -/
theorem CoreStep.bare (h : CoreStep s m s') (hlog : s.raftLog.FromOne) (hm : Regular m) :
    CoreStep s.bare m s'.bare := by
  cases h with
  | same h => exact .same h.bare
  | follow hm' hcur h =>
      refine .follow hm' hcur ?_
      rw [bare_fallback]
      exact h.bare
  | append hacc h =>
      refine .append (hacc.bare hlog hm) ?_
      rw [bare_fallback]
      exact h.bare
  | campaign hm' hstate hsize h => exact .campaign hm' hstate hsize h.bare
  | alone hm' hstate hsize h =>
      refine .alone hm' hstate hsize ?_
      rw [show s.bare.becomeCandidate = s.becomeCandidate.bare from rfl,
        bare_elected (s := s.becomeCandidate) hlog]
      exact h.bare
  | grant hm' hvote hcur h => exact .grant hm' hvote hcur h.bare
  | record hm' hstate hcur h => exact .record hm' hstate hcur h.bare
  | lose hm' hstate hcur hwin hlost h => exact .lose hm' hstate hcur hwin hlost h.bare
  | win hm' hstate hcur hwin h =>
      refine .win hm' hstate hcur hwin ?_
      rw [show s.bare.recordVote m = (s.recordVote m).bare from rfl,
        bare_elected (s := s.recordVote m) hlog]
      exact h.bare
  | propose hm' hstate h =>
      refine .propose hm' hstate ?_
      rw [bare_proposed hlog]
      exact h.bare
  | nack hm' hstate hcur hreject hindex hhint hpr h =>
      exact .nack hm' hstate hcur hreject hindex hhint hpr h.bare
  | ack hm' hstate hcur hreject hpr hlt h => exact .ack hm' hstate hcur hreject hpr hlt h.bare
  | commit hm' hstate hcur hreject hpr hlt hraise h =>
      refine .commit hm' hstate hcur hreject hpr hlt ⟨hraise.stat, hraise.above, ?_⟩ h.bare
      obtain ⟨found, hterm⟩ := hraise.ownTerm
      exact ⟨found, (hlog.bare_term _).trans hterm⟩
  | phantom hm' hstate hnone h => exact .phantom hm' hstate hnone h.bare
  | snapshot hm' => exact .snapshot hm'

/-- **A bare node sends the same messages.** -/
theorem Sent.bare (h : Sent s m s' x) (hlog : s.raftLog.FromOne) (hlog' : s'.raftLog.FromOne)
    (hm : Regular m) : Sent s.bare m s'.bare x := by
  have hlast : s.bare.raftLog.lastIndex = s.raftLog.lastIndex := bare_lastIndex hlog.empty
  have hlast' : s'.bare.raftLog.lastIndex = s'.raftLog.lastIndex := bare_lastIndex hlog'.empty
  cases h with
  | append hx hstate hto => exact .append (hx.bare hlog') hstate hto
  | heartbeat hx hstate => exact .heartbeat hx hstate
  | requestVote hx hstate hto hterm hlast =>
      rw [← hlast'] at hx hlast
      exact .requestVote hx hstate hto hterm ((hlog'.bare_term _).trans hlast)
  | grant hm' hcur hx hvote h hahead => exact .grant hm' hcur hx hvote h.bare (hahead.bare hlog)
  | refuse hx => exact .refuse hx
  | accept hacc hx h =>
      rw [← hlast'] at hx
      refine .accept (hacc.bare hlog hm) hx ?_
      rw [bare_fallback]
      exact h.bare
  | stale hx => exact .stale hx
  | beyond hm' hcur hsame hindex hx =>
      rw [← hlast] at hindex hx
      exact .beyond hm' hcur (congrArg RaftLog.bare hsame) hindex hx
  | conflict hm' hcur hsame hindex hfirst hterm hne hsearch hx =>
      rw [← hlast] at hindex
      exact .conflict hm' hcur (congrArg RaftLog.bare hsame) hindex hfirst
        ((hlog.bare_term _).trans hterm) hne hsearch hx
  | heartbeatResponse hx => exact .heartbeatResponse hx
  | timeoutNow hx hstate => exact .timeoutNow hx hstate
  | transfer hm' hx => exact .transfer hm' hx
  | confChange hm' hx => exact .confChange hm' hx
  | snapshot hm' => exact .snapshot hm'

end RaftContext

end Eraft
