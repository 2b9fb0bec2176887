import Eraft.Group

/-! The state machines of a group. Every application applies the same entries in the same order: what
one has applied at any moment is the beginning of what another has applied at any other, or the other
way round. -/

open Std Runs TermLog

namespace Eraft.Group

open RaftContext Cluster

variable {members : Finset Nat} {g g' : Group} {ev : Event} {gmoves : List (Move Group Turn)}
  {moves : List (Move Cluster Event)} {m : Message} {net ms : List Message} {rd : DReady} {i : Nat}

/-- A node on an empty storage is bare. -/
theorem bare_of_fresh {c : Config} {rand te pc : Nat} {s : RaftContext}
    (h : RaftContext.new c rand te pc = some s) (hfresh : RawNode.freshStart c) : s.bare = s := by
  have hlog := new_raftLog h hfresh.2
  rw [hfresh.1] at hlog
  have hlog : s.raftLog.bare = s.raftLog := by
    rw [← Option.some.inj hlog]
    rfl
  have hmsgs := (new_spec h).msgs
  unfold RaftContext.bare
  rw [hlog, ← hmsgs]

theorem Started.bare (h : Started members g) : Cluster.Started members (fun _ => .new) (g.bare []) := by
  refine ⟨fun i hi => ?_, h.peers, rfl⟩
  obtain ⟨config, rand, te, pc, hnew, hid, hfresh⟩ := h.built i hi
  obtain ⟨raft, hraft, hnew⟩ := Option.bind_eq_some_iff.mp hnew
  have hnode : (g.nodes i).raft = raft := by rw [← Option.some.inj hnew]
  refine ⟨config, rand, te, pc, ?_, hid, hfresh.1⟩
  show _ = some (g.nodes i).raft.bare
  rw [hnode, bare_of_fresh hraft hfresh]
  exact hraft

theorem Started.serving (h : Started members g) (hi : i ∈ members) : Serving (g.machines i) (g.nodes i) := by
  obtain ⟨config, rand, te, pc, hnew, _, hfresh⟩ := h.built i hi
  have hfeed := RawNode.Starts.feeding ⟨config, rand, te, pc, hfresh, hnew⟩
  have hmirrors := RawNode.Starts.mirrors ⟨config, rand, te, pc, hfresh.1, hnew⟩
  refine ⟨hmirrors, hfeed.applied, ?_⟩
  rw [h.machines i hi]
  exact hfeed.delivered

theorem Started.simulates (h : Started members g) : Simulates members [] g [] [] := by
  refine ⟨h.bare.safe, h.bare.sound, ?_, fun i hi x hx => ?_, fun g₁ hg₁ => ?_⟩
  · rw [h.net]
    exact nofun
  · obtain ⟨config, _, _, _, hnew, _⟩ := h.built i hi
    obtain ⟨raft, hraft, hnew⟩ := Option.bind_eq_some_iff.mp hnew
    rw [← Option.some.inj hnew, show raft.msgs = [] from (new_spec hraft).msgs] at hx
    exact hx
  · rw [List.mem_singleton.mp hg₁]
    exact ⟨[], mem_moments_self _ _⟩

theorem Simulates.commited_le (h : Simulates members gmoves g moves net) (hi : i ∈ members) :
    (g.nodes i).raft.raftLog.commited ≤ (g.nodes i).raft.raftLog.entries.length :=
  h.safe.commited_le (mem_moments_self moves _) hi

theorem Simulates.call (h : Simulates members gmoves g moves net)
    (hserving : ∀ i ∈ members, Serving (g.machines i) (g.nodes i)) (hcard : members.card ≤ 255)
    (hok : Orderly members g.cluster ev) (hcall : Called g ev g')
    (hhandles : Handles members g net ev m ms g') :
    Simulates members (⟨g, .call ev, g'⟩ :: gmoves) g' (⟨g.bare net, ev, g'.bare (net ++ ms)⟩ :: moves)
      (net ++ ms) ∧ ∀ i ∈ members, Serving (g'.machines i) (g'.nodes i) := by
  obtain ⟨hregular, hcore, hmsgs, htrans⟩ := hhandles
  have hnode := htrans.node
  have hat : AtElection (MatchInLog members) (g.bare net) ev :=
    atElection_bare hok (hserving _ hnode).mirrors.fromOne
  have hadv := h.safe.advance hcard hok.oneEntry htrans
  refine ⟨⟨h.safe.step hcard hok.oneEntry hat htrans, h.sound.step h.safe hadv hok.oneEntry,
    fun x hx => ?_, fun i hi x hx => ?_, ?_⟩, fun i hi => ?_⟩
  · rw [hcall.net] at hx
    exact List.mem_append_left _ (h.sent x hx)
  · by_cases hev : i = ev.node
    · rw [hev, hmsgs] at hx
      exact List.mem_append.mpr ((List.mem_append.mp hx).imp_left (h.pushed _ hnode x))
    · rw [hcall.other i hev] at hx
      exact List.mem_append_left _ (h.pushed i hi x hx)
  · intro g₁ hg₁
    rcases List.mem_cons.mp hg₁ with rfl | hg₁
    · exact ⟨_, mem_moments_self _ _⟩
    · obtain ⟨net₁, hmem⟩ := h.earlier g₁ hg₁
      exact ⟨net₁, mem_moments_step hmem⟩
  · rw [hcall.machines]
    by_cases hev : i = ev.node
    · subst hev
      exact (hserving _ hi).call hregular hcore
        (h.safe.committedLog_grows hcard hok.oneEntry hok.fitsIndex hat htrans hi) (h.commited_le hi)
        (h.safe.commited_mono hcard hok.oneEntry hok.fitsIndex htrans _)
    · rw [hcall.other i hev]
      exact hserving i hi

/-- A cycle leaves the cluster as it is. -/
theorem Simulates.bare_ready (h : Simulates members gmoves g moves net)
    (hserving : Serving (g.machines i) (g.nodes i)) (hi : i ∈ members) (hready : Served g i rd g') :
    g'.bare net = g.bare net := by
  obtain ⟨_, hbare, _⟩ := hserving.cycle (h.commited_le hi) hready.node
  unfold bare
  congr 1
  funext j
  by_cases hj : j = i
  · rw [hj]
    exact hbare
  · rw [hready.other j hj]

theorem Simulates.ready (h : Simulates members gmoves g moves net)
    (hserving : ∀ i ∈ members, Serving (g.machines i) (g.nodes i)) (hi : i ∈ members)
    (hready : Served g i rd g') :
    Simulates members (⟨g, .ready i rd, g'⟩ :: gmoves) g' moves net ∧
      ∀ j ∈ members, Serving (g'.machines j) (g'.nodes j) := by
  obtain ⟨hserving', _, hmsgs, hmessages, _⟩ := (hserving i hi).cycle (h.commited_le hi) hready.node
  have hsame := h.bare_ready (hserving i hi) hi hready
  refine ⟨⟨hsame.symm ▸ h.safe, hsame.symm ▸ h.sound, fun x hx => ?_, fun j hj x hx => ?_,
    fun g₁ hg₁ => ?_⟩, fun j hj => ?_⟩
  · rw [hready.net, hmessages] at hx
    exact (List.mem_append.mp hx).elim (h.sent x) (h.pushed i hi x)
  · by_cases hji : j = i
    · rw [hji, hmsgs] at hx
      exact absurd hx List.not_mem_nil
    · rw [hready.other j hji] at hx
      exact h.pushed j hj x hx
  · rw [hsame]
    rcases List.mem_cons.mp hg₁ with rfl | hg₁
    · exact ⟨net, hsame ▸ mem_moments_self _ _⟩
    · exact h.earlier g₁ hg₁
  · by_cases hji : j = i
    · rw [hji, hready.machine]
      exact hserving'
    · rw [hready.other j hji, hready.machines j hji]
      exact hserving j hj

/-- A cycle is defined in every state. -/
theorem Simulates.ready_returns (h : Simulates members gmoves g moves net) (hi : i ∈ members)
    (hserving : Serving (g.machines i) (g.nodes i)) : ∃ rd g', g.ready i = some (rd, g') := by
  have hnext := RaftLog.nextEnts_of_one hserving.mirrors.fromOne.firstIndex hserving.applied (h.commited_le hi)
  obtain ⟨⟨rd, n'⟩, hcycle⟩ := Option.isSome_iff_exists.mp (RawNode.Mirrors.cycle_defined hserving.mirrors
    (Option.isSome_iff_exists.mpr ⟨_, hnext⟩))
  unfold Group.ready
  rw [hcycle]
  exact ⟨rd, _, rfl⟩

theorem GroupRun.simulates (hcard : members.card ≤ 255)
    (hrun : GroupRun members (Orderly members) gmoves g) :
    (∃ moves net, Simulates members gmoves g moves net) ∧
      ∀ i ∈ members, Serving (g.machines i) (g.nodes i) := by
  refine Run.induct (I := fun gmoves g => (∃ moves net, Simulates members gmoves g moves net) ∧
    ∀ i ∈ members, Serving (g.machines i) (g.nodes i)) (fun g h => ?_) ?_ hrun
  · exact ⟨⟨[], [], h.simulates⟩, fun i hi => h.serving hi⟩
  · rintro gmoves g turn g' _ ⟨⟨moves, net, h⟩, hserving⟩ hnext
    cases turn with
    | call ev =>
        obtain ⟨henabled, hok, hcall⟩ := hnext
        obtain ⟨m, ms, hhandles⟩ := h.handles (hserving _ henabled.1).mirrors.fromOne henabled hok.oneEntry
          (call_spec hcall)
        obtain ⟨h', hserving'⟩ := h.call hserving hcard hok (call_spec hcall) hhandles
        exact ⟨⟨_, _, h'⟩, hserving'⟩
    | ready i rd =>
        obtain ⟨hi, hready⟩ := hnext
        obtain ⟨h', hserving'⟩ := h.ready hserving hi (ready_spec hready)
        exact ⟨⟨_, _, h'⟩, hserving'⟩

/-- Every member has applied a part of what it has committed. -/
theorem GroupRun.machine_committed (hcard : members.card ≤ 255)
    (hrun : GroupRun members (Orderly members) gmoves g) {g₁ : Group} (hg₁ : g₁ ∈ moments gmoves g)
    (hi : i ∈ members) : g₁.machines i <+: committedLog (g₁.nodes i).raft.bare := by
  obtain ⟨earlier, hrun₁⟩ := hrun.of_moment hg₁
  have hserving := (GroupRun.simulates hcard hrun₁).2 i hi
  rw [hserving.machine]
  exact List.take_prefix_take_left hserving.applied

/-- **Replicated state machines.** What one application has applied at any moment of a run and what
another has applied at any other are beginnings of one sequence, which each applies without gaps and
repetitions. A cycle is defined in every state, and after it the application has applied all that its
node has committed. -/
theorem replicated_state_machines (hcard : members.card ≤ 255)
    (hrun : GroupRun members (Orderly members) gmoves g) :
    (∀ g₁ ∈ moments gmoves g, ∀ g₂ ∈ moments gmoves g, ∀ i ∈ members, ∀ j ∈ members,
      g₁.machines i <+: g₂.machines j ∨ g₂.machines j <+: g₁.machines i) ∧
    ∀ i ∈ members, (g.machines i).map Entry.index = List.range' 1 (g.machines i).length ∧
      ∃ rd g', g.ready i = some (rd, g') ∧
        g'.machines i = (g.nodes i).raft.raftLog.entries.take (g.nodes i).raft.raftLog.commited := by
  obtain ⟨⟨moves, net, h⟩, hserving⟩ := GroupRun.simulates hcard hrun
  refine ⟨fun g₁ hg₁ g₂ hg₂ i hi j hj => ?_, fun i hi => ⟨?_, ?_⟩⟩
  · obtain ⟨net₁, hc₁⟩ := h.earlier g₁ hg₁
    obtain ⟨net₂, hc₂⟩ := h.earlier g₂ hg₂
    have hpre := GroupRun.machine_committed hcard hrun hg₁ hi
    have hpre' := GroupRun.machine_committed hcard hrun hg₂ hj
    rcases h.safe.comparable hc₁ hc₂ hi hj with hcomp | hcomp
    · exact List.prefix_or_prefix_of_prefix (hpre.trans hcomp) hpre'
    · exact List.prefix_or_prefix_of_prefix hpre (hpre'.trans hcomp)
  · rw [(hserving i hi).machine]
    exact ((hserving i hi).mirrors.fromOne.contiguous.take _).map_index
  · obtain ⟨rd, g', hready⟩ := h.ready_returns hi (hserving i hi)
    have hserved := ready_spec hready
    refine ⟨rd, g', hready, ?_⟩
    rw [hserved.machine]
    exact ((hserving i hi).cycle (h.commited_le hi) hserved.node).2.2.2.2

/-- The group of the given nodes, before the first call. -/
def boot (peers : List Nat) : Group where
  nodes i := { raft := bootNode peers i, prevHardSt := (bootNode peers i).hardState }
  net := []
  machines _ := []

theorem boot_started {peers : List Nat} (hpeers : 0 ∉ peers) : Started peers.toFinset (boot peers) := by
  refine ⟨fun i hi => ?_, (Cluster.boot_started hpeers).peers, rfl, fun _ _ => rfl⟩
  have hne : i ≠ 0 := fun hzero => hpeers (hzero ▸ List.mem_toFinset.mp hi)
  refine ⟨bootConfig peers i, 0, 0, NONE, ?_, rfl, rfl, rfl⟩
  unfold RawNode.new
  rw [bootNode_new peers hne]
  rfl

/-- A play, or a cycle of an application. -/
inductive Script where
  | act (p : Play)
  | ready (i : Nat)

/-- The node a play calls. -/
def callee : Play → Nat
  | .hup node | .propose node => node
  | .deliver _ _ toId _ => toId

/-- After each play the application of its node runs a cycle. -/
def Script.driven (plays : List Play) : List Script :=
  plays.flatMap fun p => [.act p, .ready (callee p)]

section

variable (members : Finset Nat) (ok : Cluster → Event → Prop) [∀ c ev, Decidable (ok c ev)]

def scriptNext (g : Group) : Script → Option (Turn × Group)
  | .act p => do
      let ev ← p.event g.cluster
      let g' ← g.call ev
      if Enabled members g.cluster ev ∧ ok g.cluster ev then some (.call ev, g') else none
  | .ready i => if i ∈ members then (g.ready i).map fun r => (.ready i r.1, r.2) else none

theorem scriptNext_spec (g : Group) (p : Script) (turn : Turn) (g' : Group)
    (h : scriptNext members ok g p = some (turn, g')) : Next members ok g turn g' := by
  cases p with
  | act p =>
      simp only [scriptNext, Option.bind_eq_bind, Option.bind_eq_some_iff] at h
      obtain ⟨ev, _, g₁, hcall, h⟩ := h
      split_ifs at h with hok
      cases h
      exact ⟨hok.1, hok.2, hcall⟩
  | ready i =>
      simp only [scriptNext] at h
      split_ifs at h with hi
      obtain ⟨r, hr, h⟩ := Option.map_eq_some_iff.mp h
      cases h
      exact ⟨hi, hr⟩

variable {ok}

theorem exists_groupRun {peers : List Nat} (hpeers : 0 ∉ peers) (scripts : List Script)
    {test : List (Move Group Turn) × Group → Bool}
    (h : (play (scriptNext peers.toFinset ok) scripts [] (boot peers)).any test = true) :
    ∃ gmoves g, GroupRun peers.toFinset ok gmoves g ∧ test (gmoves, g) = true :=
  exists_run_of_play (scriptNext_spec _ ok) (some (boot peers))
    (fun _ hs => Option.some.inj hs ▸ boot_started hpeers) scripts h

end

/-- Node 1 is elected and replicates two entries to node 2; its own application has applied both, the
other one so far. -/
theorem replicated_state_machines_of_three : ∃ gmoves g,
    GroupRun [1, 2, 3].toFinset (Orderly [1, 2, 3].toFinset) gmoves g ∧
    (g.machines 1).length = 2 ∧ (g.machines 2).length = 1 ∧ g.machines 2 <+: g.machines 1 := by
  have hplay : (play (scriptNext [1, 2, 3].toFinset (Orderly [1, 2, 3].toFinset))
      (Script.driven (Play.elect 1 [2] 1 ++ Play.replicate 1 2 1 ++ .propose 1 :: Play.replicate 1 2 1))
      [] (boot [1, 2, 3])).any
      (fun r => (r.2.machines 1).length = 2 ∧ (r.2.machines 2).length = 1) = true := by
    decide +kernel
  obtain ⟨gmoves, g, hrun, htest⟩ := exists_groupRun (by decide) _ hplay
  obtain ⟨hfirst, hsecond⟩ : (g.machines 1).length = 2 ∧ (g.machines 2).length = 1 :=
    of_decide_eq_true htest
  have hg := mem_moments_self gmoves g
  refine ⟨gmoves, g, hrun, hfirst, hsecond, ?_⟩
  rcases (replicated_state_machines (by decide) hrun).1 g hg g hg 2 (by decide) 1 (by decide) with h | h
  · exact h
  · have := h.length_le
    omega

end Eraft.Group
