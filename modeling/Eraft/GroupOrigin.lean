import Eraft.GroupDeliver

/-! Where the applied entries come from. An entry gets into the logs of a group in one way only: the
leader of its term appends it, either the empty one of its election or one that it was asked to
propose. -/

open Std Runs TermLog

namespace Eraft

namespace RaftContext

variable {s s' : RaftContext} {m : Message}

/-- A proposal adds some of the entries it was given. -/
theorem proposeLoop_added (n : Nat) (entries : List Entry) (s : RaftContext) :
    ∃ added, (proposeLoop n entries s).raftLog.entries = s.raftLog.entries ++ added ∧
      ∀ e ∈ added, ∃ p ∈ entries, e = { p with term := s.term, index := n + 1 } := by
  induction entries generalizing s with
  | nil => exact ⟨[], (List.append_nil _).symm, nofun⟩
  | cons p rest ih =>
      -- the entry is appended, unless it is a second pending configuration change
      have hadd : ∀ pending : Nat, ∃ added, (proposeLoop n rest { s with
            pendingConfIndex := pending
            raftLog := { s.raftLog with
              entries := s.raftLog.entries ++ [{ p with term := s.term, index := n + 1 }] } }).raftLog.entries =
          s.raftLog.entries ++ added ∧
            ∀ e ∈ added, ∃ p' ∈ p :: rest, e = { p' with term := s.term, index := n + 1 } := by
        intro pending
        obtain ⟨added, hentries, hadded⟩ := ih { s with
          pendingConfIndex := pending
          raftLog := { s.raftLog with
            entries := s.raftLog.entries ++ [{ p with term := s.term, index := n + 1 }] } }
        refine ⟨{ p with term := s.term, index := n + 1 } :: added, ?_, List.forall_mem_cons.mpr ⟨?_, ?_⟩⟩
        · exact hentries.trans (List.append_cons _ _ _).symm
        · exact ⟨p, List.mem_cons_self, rfl⟩
        · intro e he
          obtain ⟨p', hp', he⟩ := hadded e he
          exact ⟨p', List.mem_cons_of_mem _ hp', he⟩
      unfold proposeLoop
      dsimp only
      split_ifs
      · obtain ⟨added, hentries, hadded⟩ := ih s
        refine ⟨added, hentries, fun e he => ?_⟩
        obtain ⟨p', hp', he⟩ := hadded e he
        exact ⟨p', List.mem_cons_of_mem _ hp', he⟩
      · exact hadd (n + 0 + 1)
      · exact hadd s.pendingConfIndex

theorem CoreStep.proposal_added (h : CoreStep s m s') (hm : m.msgType = .msgPropose) :
    ∃ added, s'.raftLog.entries = s.raftLog.entries ++ added ∧
      ∀ e ∈ added, ∃ p ∈ m.entries, e = { p with term := s.term, index := s.raftLog.lastIndex + 1 } := by
  cases h with
  | same h => exact ⟨[], by rw [h.raftLog, List.append_nil], nofun⟩
  | propose _ _ h =>
      obtain ⟨added, hentries, hadded⟩ := proposeLoop_added s.raftLog.lastIndex m.entries s
      exact ⟨added, by rw [h.raftLog]; exact hentries, hadded⟩
  | append hacc => exact absurd (hacc.msgType.symm.trans hm) (by decide)
  | follow hm' | campaign hm' | alone hm' =>
      rcases hm' with hm' | hm' <;> exact absurd (hm'.symm.trans hm) (by decide)
  | grant hm' | record hm' | lose hm' | win hm' | nack hm' | ack hm' | commit hm' | phantom hm'
  | snapshot hm' => exact absurd (hm'.symm.trans hm) (by decide)

end RaftContext

namespace Cluster

open RaftContext

/-- The call `ev` makes the leader of the term of `e` append this entry: at its election, where the
entry is empty, or because it was proposed. -/
structure Appended (ev : Event) (c c' : Cluster) (e : Entry) : Prop where
  state : (c'.nodes ev.node).state = .stateLeader
  term : (c'.nodes ev.node).term = e.term
  log : (c'.nodes ev.node).raftLog.entries = (c.nodes ev.node).raftLog.entries ++ [e]
  cause : (Elects ev.node c c' ∧ e.entryType = .entryNormal ∧ e.data = []) ∨
    ∃ m, ev.call = .step m ∧ m.msgType = .msgPropose ∧
      ∃ p ∈ m.entries, e.entryType = p.entryType ∧ e.data = p.data

variable {members : Finset Nat} {hist : List Cluster} {c c' : Cluster} {ev : Event} {m : Message}
  {ms : List Message}

/-- **What a leader holds.** After a step its log is part of one that a leader of the term has held
before, or the step has appended an entry to it. -/
theorem Advance.appended (hadv : Advance members hist c ev m ms c') (hone : OneEntry ev)
    (hstate' : (c'.nodes ev.node).state = .stateLeader) :
    (∃ q ∈ leaderLogs members hist (c'.nodes ev.node).term, (c'.nodes ev.node).raftLog.entries <+: q) ∨
      ∃ e, Appended ev c c' e := by
  have hobs := (hadv.logs.node _ hadv.trans.node).observe m
  have hlog₀ := observeTerm_raftLog (c.nodes ev.node) m
  have hkept : ((c.nodes ev.node).observeTerm m).state = .stateLeader →
      (c'.nodes ev.node).raftLog.entries = ((c.nodes ev.node).observeTerm m).raftLog.entries →
      ∃ q ∈ leaderLogs members hist (c'.nodes ev.node).term, (c'.nodes ev.node).raftLog.entries <+: q := by
    intro hstate heq
    rw [(hadv.role.leader_keeps hstate).2, heq]
    exact ⟨_, (hobs.leader hstate).1, List.prefix_rfl⟩
  cases hadv.trans.core.log (hadv.shape.observed_self hadv.trans.node) hadv.msgType.1 with
  | keep hstate hlog => exact .inl (hkept (hstate hstate') (by rw [hlog]))
  | append hacc hterm _ =>
      have hmterm := (hadv.logs.accepts hadv.election hadv.trans hacc).1
      rw [hterm, hmterm]
      exact .inl (hadv.logs.accepted_log hadv.election hadv.trans hacc).2
  | lead hstate _ hlog =>
      refine .inr ⟨_, hstate', rfl, by rw [hlog, hlog₀], .inl ⟨⟨hstate', ?_⟩, rfl, rfl⟩⟩
      rintro ⟨hleader, hterm⟩
      rcases observeTerm_cases (c.nodes ev.node) m with ⟨_, heq⟩ | ⟨hlt, hnew, _⟩
      · rw [heq] at hstate
        exact hstate hleader
      · have := hadv.role.term_le
        omega
  | @propose added hm hstate hlen hadded hlog =>
      obtain ⟨added', hentries, horigin⟩ := hadv.trans.core.proposal_added hm
      have hsame : added' = added := by
        rw [hlog] at hentries
        exact (List.append_cancel_left hentries).symm
      subst hsame
      rw [hone.handled hadv.trans.handled hm] at hlen
      match added', hlen with
      | [], _ => exact .inl (hkept hstate (by rw [hentries, List.append_nil]))
      | [e], _ =>
          obtain ⟨p, hp, he⟩ := horigin e (List.mem_singleton.mpr rfl)
          have hcall : ev.call = .step m := by
            have hhandled := hadv.trans.handled
            generalize ev.call = call at hhandled
            cases hhandled with
            | hup | beat => cases hm
            | step => rfl
            | ignored _ htimeout => exact absurd (htimeout.symm.trans hm) (by decide)
          refine .inr ⟨e, hstate', ?_, by rw [hentries, hlog₀], .inr ⟨m, hcall, hm, p, hp, ?_, ?_⟩⟩
          · rw [(hadv.role.leader_keeps hstate).2, he]
          · rw [he]
          · rw [he]
  | commit _ hstate _ hlog => exact .inl (hkept hstate (by rw [hlog]))

end Cluster

namespace Group

open RaftContext Cluster

/-- The move has made the entry `e`. -/
def Creates (a : Move Group Turn) (e : Entry) : Prop :=
  ∃ ev, a.label = .call ev ∧ Appended ev a.before.cluster a.after.cluster e

variable {members : Finset Nat} {g g' : Group} {ev : Event} {gmoves : List (Move Group Turn)}
  {moves : List (Move Cluster Event)} {m : Message} {net ms : List Message} {rd : DReady} {i : Nat}
  {e e' : Entry}

/-- Every entry that the leader of its term holds was made by a move, and no two moves have made an
entry with the same term and index. -/
structure Origins (members : Finset Nat) (gmoves : List (Move Group Turn)) (hist : List Cluster) :
    Prop where
  made : ∀ t, ∀ G ∈ leaderLogs members hist t, ∀ e ∈ G, e.term = t → ∃ a ∈ gmoves, Creates a e
  once : gmoves.Pairwise fun later earlier => ∀ e e', Creates later e → Creates earlier e' →
    e.term = e'.term → e.index ≠ e'.index

/-- A made entry is the last one of its leader's log. -/
theorem Appended.mem_leaderLogs {hist : List Cluster} {before after : Group} {net : List Message}
    (h : Appended ev before.cluster after.cluster e) (hnode : ev.node ∈ members)
    (hafter : after.bare net ∈ hist) (hfrom : (after.nodes ev.node).raft.raftLog.FromOne) :
    ∃ G ∈ leaderLogs members hist e.term, G = (before.nodes ev.node).raft.raftLog.entries ++ [e] ∧
      e.index = G.length := by
  have hlog : (after.nodes ev.node).raft.raftLog.entries =
      (before.nodes ev.node).raft.raftLog.entries ++ [e] := h.log
  refine ⟨_, ⟨_, hafter, ev.node, hnode, h.state, h.term, hlog⟩, rfl, ?_⟩
  rw [List.length_append, List.length_singleton]
  refine hfrom.contiguous _ e ?_
  rw [hlog, List.getElem?_concat_length]

/-- An entry of a later call has another term or another index: the leader's log has grown. -/
theorem Simulates.creates_new (h : Simulates members gmoves g moves net) (hcard : members.card ≤ 255)
    (hone : OneEntry ev) (hhandles : Handles members g net ev m ms g')
    (hnew : Appended ev g.cluster g'.cluster e) {G : List Entry}
    (hG : G ∈ leaderLogs members (moments moves (g.bare net)) e'.term) (hindex : e'.index = G.length)
    (hterm : e.term = e'.term) : e.index ≠ e'.index := by
  have hadv := h.safe.advance hcard hone hhandles.trans
  have hnode := hhandles.trans.node
  have hlen : e.index = (g.nodes ev.node).raft.raftLog.entries.length + 1 := by
    refine (hadv.logs'.node _ hnode).fromOne.contiguous _ e ?_
    show (g'.nodes ev.node).raft.raftLog.entries[_]? = some e
    rw [show (g'.nodes ev.node).raft.raftLog.entries = (g.nodes ev.node).raft.raftLog.entries ++ [e] from
      hnew.log, List.getElem?_concat_length]
  have hterm' : ((g'.bare (net ++ ms)).nodes ev.node).term = e'.term := hnew.term.trans hterm
  rcases hadv.leader_cases hnew.state with ⟨_, hleader, hsame⟩ | ⟨_, hnone⟩
  · have hpre := ((h.safe.logs.node _ hnode).leader hleader).2 G (by rw [← hsame, hterm']; exact hG)
    have hle : G.length ≤ (g.nodes ev.node).raft.raftLog.entries.length := hpre.length_le
    omega
  · exact absurd (hterm'.symm ▸ hG) (hnone G)

theorem Origins.call (horigins : Origins members gmoves (moments moves (g.bare net)))
    (h : Simulates members gmoves g moves net) (hcard : members.card ≤ 255) (hone : OneEntry ev)
    (hhandles : Handles members g net ev m ms g')
    (hmoves : ∀ a ∈ gmoves, ∀ e, Creates a e → ∃ G ∈ leaderLogs members (moments moves (g.bare net)) e.term,
      e.index = G.length) :
    Origins members (⟨g, .call ev, g'⟩ :: gmoves)
      (moments (⟨g.bare net, ev, g'.bare (net ++ ms)⟩ :: moves) (g'.bare (net ++ ms))) := by
  have hadv := h.safe.advance hcard hone hhandles.trans
  have hold : ∀ t, ∀ G ∈ leaderLogs members (moments moves (g.bare net)) t, ∀ e ∈ G, e.term = t →
      ∃ a ∈ (⟨g, .call ev, g'⟩ :: gmoves : List (Move Group Turn)), Creates a e := by
    intro t G hG e he hterm
    obtain ⟨a, ha, hcreates⟩ := horigins.made t G hG e he hterm
    exact ⟨a, List.mem_cons_of_mem _ ha, hcreates⟩
  refine ⟨fun t G hG e he hterm => ?_,
    List.pairwise_cons.mpr ⟨fun a ha e e' hnew hcreates => ?_, horigins.once⟩⟩
  · rcases leaderLogs_step_cases hadv.mem hhandles.trans hG with hG | ⟨hstate', hterm', rfl⟩
    · exact hold t G hG e he hterm
    rcases hadv.appended hone hstate' with ⟨q, hq, hpre⟩ | ⟨e₀, happended⟩
    · exact hold t q (hterm' ▸ hq) e (hpre.subset he) hterm
    · rw [happended.log] at he
      rcases List.mem_append.mp he with he | he
      · obtain ⟨q, hq, heq⟩ := (h.safe.logs.node _ hhandles.trans.node).attributed.of_mem he
        exact hold e.term q hq e heq rfl
      · obtain rfl := List.mem_singleton.mp he
        exact ⟨_, List.mem_cons_self, ev, rfl, happended.state, happended.term, happended.log, happended.cause⟩
  · obtain ⟨ev', hlabel, hnew⟩ := hnew
    cases hlabel
    obtain ⟨G, hG, hindex⟩ := hmoves a ha e' hcreates
    exact h.creates_new hcard hone hhandles hnew hG hindex

/-- A cycle makes no entry. -/
theorem Origins.ready {hist : List Cluster} (h : Origins members gmoves hist) :
    Origins members (⟨g, .ready i rd, g'⟩ :: gmoves) hist := by
  refine ⟨fun t G hG e he hterm => ?_, List.pairwise_cons.mpr ⟨fun a ha e e' hnew => ?_, h.once⟩⟩
  · obtain ⟨a, ha, hcreates⟩ := h.made t G hG e he hterm
    exact ⟨a, List.mem_cons_of_mem _ ha, hcreates⟩
  · obtain ⟨ev, hlabel, _⟩ := hnew
    cases hlabel

/-- In a run the leader of its term has held every made entry, as the last one of its log. -/
theorem GroupRun.creates_leaderLogs (hcard : members.card ≤ 255)
    (hrun : GroupRun members (Orderly members) gmoves g) (h : Simulates members gmoves g moves net) :
    ∀ a ∈ gmoves, ∀ e, Creates a e → ∃ G ∈ leaderLogs members (moments moves (g.bare net)) e.term,
      e.index = G.length := by
  rintro a ha e ⟨ev, hlabel, happended⟩
  have hmem := hrun.mem_moments_after a ha
  obtain ⟨net₁, hafter⟩ := h.earlier _ hmem
  have hnext := hrun.next_of_mem a ha
  rw [hlabel] at hnext
  have hnode : ev.node ∈ members := hnext.1.1
  obtain ⟨earlier, hrun₁⟩ := hrun.of_moment hmem
  have hfrom := ((GroupRun.simulates hcard hrun₁).2 _ hnode).mirrors.fromOne
  obtain ⟨G, hG, _, hindex⟩ := Appended.mem_leaderLogs happended hnode hafter hfrom
  exact ⟨G, hG, hindex⟩

theorem GroupRun.origins (hcard : members.card ≤ 255)
    (hrun : GroupRun members (Orderly members) gmoves g) :
    ∃ moves net, Simulates members gmoves g moves net ∧
      Origins members gmoves (moments moves (g.bare net)) := by
  induction hrun with
  | start h =>
      refine ⟨[], [], h.simulates, fun t G hG => ?_, List.Pairwise.nil⟩
      obtain ⟨l, hl⟩ := Led.of_leaderLogs hG
      exact absurd hl h.bare.not_led
  | @step gmoves g g' turn hrun hnext ih =>
      obtain ⟨moves, net, h, horigins⟩ := ih
      have hserving := (GroupRun.simulates hcard hrun).2
      cases turn with
      | call ev =>
          obtain ⟨henabled, hok, hcall⟩ := hnext
          obtain ⟨m, ms, hhandles⟩ := h.handles (hserving _ henabled.1).mirrors.fromOne henabled hok.oneEntry
            (call_spec hcall)
          exact ⟨_, _, (h.call hserving hcard hok (call_spec hcall) hhandles).1,
            horigins.call h hcard hok.oneEntry hhandles (GroupRun.creates_leaderLogs hcard hrun h)⟩
      | ready i rd =>
          obtain ⟨hi, hready⟩ := hnext
          have hserved := ready_spec hready
          have hsame := h.bare_ready (hserving i hi) hi hserved
          refine ⟨moves, net, (h.ready hserving hi hserved).1, ?_⟩
          rw [hsame]
          exact horigins.ready

/-- **Applied entries are proposed once.** Every entry in a state machine was made by exactly one move
of the run: the leader of its term was elected and appended an empty entry, or it was asked to propose
an entry with this type and data. A move makes one entry, so that no proposal is applied twice. -/
theorem applied_entries_made_once (hcard : members.card ≤ 255)
    (hrun : GroupRun members (Orderly members) gmoves g) (hi : i ∈ members) (he : e ∈ g.machines i) :
    ∃! k : Nat, ∃ a, gmoves[k]? = some a ∧ Creates a e := by
  obtain ⟨moves, net, h, horigins⟩ := GroupRun.origins hcard hrun
  have hserving := (GroupRun.simulates hcard hrun).2 i hi
  have hlog : e ∈ (g.nodes i).raft.raftLog.entries := by
    rw [hserving.machine] at he
    exact List.mem_of_mem_take he
  obtain ⟨q, hq, heq⟩ := (h.safe.logs.node i hi).attributed.of_mem hlog
  obtain ⟨a, ha, hcreates⟩ := horigins.made _ q hq e heq rfl
  obtain ⟨k, hk, rfl⟩ := List.mem_iff_getElem.mp ha
  refine ⟨k, ⟨_, List.getElem?_eq_getElem hk, hcreates⟩, ?_⟩
  rintro k' ⟨a', ha', hcreates'⟩
  obtain ⟨hk', rfl⟩ := List.getElem?_eq_some_iff.mp ha'
  have honce := List.pairwise_iff_getElem.mp horigins.once
  rcases Nat.lt_trichotomy k' k with hlt | heq | hgt
  · exact absurd rfl (honce k' k hk' hk hlt e e hcreates' hcreates rfl)
  · exact heq
  · exact absurd rfl (honce k k' hk hk' hgt e e hcreates hcreates' rfl)

/-- The second entry that node 2 has applied was proposed once. -/
theorem applied_entries_made_once_of_three : ∃ gmoves g e,
    GroupRun [1, 2, 3].toFinset (Orderly [1, 2, 3].toFinset) gmoves g ∧ e ∈ g.machines 2 ∧ e.index = 2 ∧
      ∃! k : Nat, ∃ a, gmoves[k]? = some a ∧ Creates a e := by
  have hplay : (play (scriptNext [1, 2, 3].toFinset (Orderly [1, 2, 3].toFinset))
      (Script.driven (Play.elect 1 [2] 1 ++ Play.replicate 1 2 1 ++ .propose 1 :: Play.replicate 1 2 1 ++
        [.deliver .msgAppend 1 2 1])) [] (boot [1, 2, 3])).any
      (fun r => { term := 1, index := 2 } ∈ r.2.machines 2) = true := by
    decide +kernel
  obtain ⟨gmoves, g, hrun, htest⟩ := exists_groupRun (by decide) _ hplay
  have hmem : { term := 1, index := 2 } ∈ g.machines 2 := of_decide_eq_true htest
  exact ⟨gmoves, g, _, hrun, hmem, rfl, applied_entries_made_once (by decide) hrun (by decide) hmem⟩

end Group

end Eraft
