import Eraft.NodeTimer
import Eraft.ReadyRun
import Eraft.ConfMembers

/-! The pace of elections. After a campaign a candidate that hears nothing waits for its timer and
campaigns again. `TickElection` sets the timer back to 0 before it campaigns; a campaign that a message
starts keeps what has elapsed, and so comes too early by as much. -/

open Std Runs

namespace Eraft

namespace RaftContext

variable {s s' : RaftContext} {m : Message} {c : Call} {rand n k : Nat} {draws : List Nat}

/-- The node after some ticks and nothing else, with their draws. -/
def ticks (s : RaftContext) (draws : List Nat) : Option RaftContext :=
  draws.foldlM (fun s rand => s.tick rand) s

/-- If only ticks follow, the next election starts with the `n`-th of them, whatever is drawn. -/
def NextElection (s : RaftContext) (n : Nat) : Prop :=
  ∀ draws : List Nat,
    (draws.length < n → ∃ t, s.ticks draws = some t ∧ t.term = s.term) ∧
    (draws.length = n → ∃ t, s.ticks draws = some t ∧ t.term = s.term + 1 ∧ t.state = .stateCandidate)

/-- The next election comes after a whole timeout, and before two of them are over. -/
def Paced (s : RaftContext) : Prop :=
  ∃ n, s.electionTimeout ≤ n ∧ n ≤ 2 * s.electionTimeout - 1 ∧ s.NextElection n

/-- The call starts an election. -/
def StartsElection (s : RaftContext) : Call → Prop
  | .tick => s.state ≠ .stateLeader ∧ s.randomElectionTimeout ≤ s.electionElapsed + 1
  | .step m => s.Campaigns m

/-- The node after its timer has been set. -/
def withElapsed (s : RaftContext) (n : Nat) : RaftContext := { s with electionElapsed := n }

/-- A candidate that can campaign again. -/
structure Waiting (s : RaftContext) : Prop where
  state : s.state = .stateCandidate
  size : s.prs.size ≠ 1
  term : (s.raftLog.term s.raftLog.lastIndex).isSome

theorem doElection_waiting (hsize : s.prs.size ≠ 1) (h : s.doElection rand = some s') :
    s'.Waiting ∧ s'.term = s.term + 1 := by
  rcases doElection_cases h with ⟨hone, -⟩ | ⟨t, found, ms, -, hterm, rfl, -⟩
  · exact absurd hone hsize
  · exact ⟨⟨rfl, hsize, Option.isSome_of_eq_some hterm⟩, rfl⟩

theorem Waiting.doElection (h : s.Waiting) (rand : Nat) : ∃ t, s.doElection rand = some t := by
  obtain ⟨pair, hpair⟩ := Option.isSome_iff_exists.mp h.term
  unfold RaftContext.doElection
  dsimp only
  split_ifs with hone
  · exact absurd hone h.size
  · change ∃ t, (s.raftLog.term s.raftLog.lastIndex).bind _ = some t
    rw [hpair]
    exact ⟨_, rfl⟩

theorem Waiting.withElapsed (h : s.Waiting) (n : Nat) : (s.withElapsed n).Waiting := ⟨h.state, h.size, h.term⟩

theorem hup_campaigns (hstate : s.state ≠ .stateLeader) : s.Campaigns { msgType := .msgHup } :=
  .inl ⟨rfl, by rw [observeTerm_none rfl]; exact hstate⟩

theorem tick_eq_tickElection (hstate : s.state ≠ .stateLeader) (rand : Nat) :
    s.tick rand = s.tickElection rand := by
  unfold tick
  cases hrole : s.state with
  | stateFollower => rfl
  | stateCandidate => rfl
  | stateLeader => exact absurd hrole hstate

/-- The tick before the timer runs out only counts. -/
theorem tick_waits (hstate : s.state ≠ .stateLeader) (hin : s.electionElapsed + 1 < s.randomElectionTimeout)
    (rand : Nat) : s.tick rand = some (s.withElapsed (s.electionElapsed + 1)) := by
  rw [tick_eq_tickElection hstate, tickElection, if_neg (Nat.not_le.mpr hin)]
  rfl

/-- The tick at which the timer runs out. -/
theorem tick_fires (hstate : s.state ≠ .stateLeader) (hover : s.randomElectionTimeout ≤ s.electionElapsed + 1)
    (rand : Nat) : s.tick rand = (s.withElapsed 0).doElection rand := by
  rw [tick_eq_tickElection hstate, tickElection, if_pos hover]
  have hcampaign : (s.withElapsed 0).Campaigns { msgType := .msgHup } := hup_campaigns hstate
  have hstep := hcampaign.step_eq rand
  rw [observeTerm_none rfl] at hstep
  exact hstep

theorem Waiting.tick_fires (h : s.Waiting) (hover : s.randomElectionTimeout ≤ s.electionElapsed + 1)
    (rand : Nat) : ∃ t, s.tick rand = some t ∧ t.term = s.term + 1 ∧ t.state = .stateCandidate := by
  rw [RaftContext.tick_fires (by rw [h.state]; decide) hover]
  obtain ⟨t, ht⟩ := (h.withElapsed 0).doElection rand
  obtain ⟨hwait, hterm⟩ := doElection_waiting (h.withElapsed 0).size ht
  exact ⟨t, ht, hterm, hwait.state⟩

/-- As long as the timer has not run out the ticks are only counted. -/
theorem Waiting.ticks_wait (h : s.Waiting)
    (hin : draws = [] ∨ s.electionElapsed + draws.length < s.randomElectionTimeout) :
    s.ticks draws = some (s.withElapsed (s.electionElapsed + draws.length)) := by
  induction draws generalizing s with
  | nil => rfl
  | cons rand draws ih =>
      rcases hin with hnil | hin
      · cases hnil
      · rw [List.length_cons] at hin
        have hrest : (s.withElapsed (s.electionElapsed + 1)).electionElapsed + draws.length <
            s.randomElectionTimeout := by
          change s.electionElapsed + 1 + draws.length < s.randomElectionTimeout
          omega
        have hticks := ih (h.withElapsed (s.electionElapsed + 1)) (.inr hrest)
        unfold ticks at hticks ⊢
        rw [List.foldlM_cons, tick_waits (by rw [h.state]; decide) (by omega), Option.bind_eq_bind,
          Option.bind_some, hticks, List.length_cons, ← Nat.add_assoc, Nat.add_right_comm]
        rfl

/-- **The next election comes when the rest of the timeout is over**, and at the next tick if it is
already. -/
theorem Waiting.nextElection (h : s.Waiting) :
    s.NextElection (max 1 (s.randomElectionTimeout - s.electionElapsed)) := by
  intro draws
  constructor
  · intro hlen
    refine ⟨_, h.ticks_wait ?_, rfl⟩
    rcases draws with - | ⟨rand, draws⟩
    · exact .inl rfl
    · rw [List.length_cons] at hlen ⊢
      exact .inr (by omega)
  · intro hlen
    have hne : draws ≠ [] := by
      rintro rfl
      rw [List.length_nil] at hlen
      omega
    obtain ⟨before, last, rfl⟩ : ∃ before last, draws = before ++ [last] :=
      ⟨draws.dropLast, draws.getLast hne, (List.dropLast_append_getLast hne).symm⟩
    rw [List.length_append, List.length_singleton] at hlen
    have hwait : s.ticks before = some (s.withElapsed (s.electionElapsed + before.length)) := by
      refine h.ticks_wait ?_
      rcases before with - | ⟨rand, before⟩
      · exact .inl rfl
      · rw [List.length_cons] at hlen ⊢
        exact .inr (by omega)
    have hover : s.randomElectionTimeout ≤ s.electionElapsed + before.length + 1 := by omega
    obtain ⟨t, ht, hterm, hstate⟩ := (h.withElapsed (s.electionElapsed + before.length)).tick_fires hover last
    refine ⟨t, ?_, hterm, hstate⟩
    unfold ticks at hwait ⊢
    rw [List.foldlM_append, hwait, Option.bind_eq_bind, Option.bind_some, List.foldlM_cons, ht]
    rfl

theorem NextElection.unique (h : s.NextElection n) (h' : s.NextElection k) : n = k := by
  have hnot : ∀ {n k}, s.NextElection n → s.NextElection k → ¬n < k := by
    intro n k h h' hlt
    obtain ⟨t, ht, hlater, -⟩ := (h (List.replicate n 0)).2 List.length_replicate
    obtain ⟨t', ht', hsame⟩ := (h' (List.replicate n 0)).1 (List.length_replicate.trans_lt hlt)
    cases ht.symm.trans ht'
    omega
  exact Nat.le_antisymm (Nat.not_lt.mp (hnot h' h)) (Nat.not_lt.mp (hnot h h'))

/-- With a timeout of `T + k` and `e` elapsed the pace is kept exactly if `e ≤ k`. -/
theorem Waiting.paced_iff (h : s.Waiting) (hT : 2 ≤ s.electionTimeout) (hk : k < s.electionTimeout)
    (hR : s.randomElectionTimeout = s.electionTimeout + k) : s.Paced ↔ s.electionElapsed ≤ k := by
  constructor
  · rintro ⟨n, hlo, hhi, hn⟩
    have := hn.unique h.nextElection
    omega
  · intro hle
    exact ⟨_, by omega, by omega, h.nextElection⟩

/-- The state in which a started election leaves the node. -/
theorem StartsElection.spec (h : s.StartsElection c) (hsize : s.prs.size ≠ 1)
    (hcall : s.call rand c = some s') :
    s'.Waiting ∧ s'.aside = (if c = .tick then s.aside.restarted rand else s.aside.redrawn rand) := by
  cases c with
  | tick =>
      have htick : s.tick rand = some s' := hcall
      rw [RaftContext.tick_fires h.1 h.2] at htick
      have hsize' : (s.withElapsed 0).prs.size ≠ 1 := hsize
      exact ⟨(doElection_waiting hsize' htick).1, doElection_aside htick⟩
  | step m =>
      have hstep : s.step m rand = some s' := hcall
      rw [Campaigns.step_eq h] at hstep
      have hsize' : (s.observeTerm m).prs.size ≠ 1 := by
        unfold observeTerm
        split_ifs
        · exact hsize
        · exact hsize
      refine ⟨(doElection_waiting hsize' hstep).1, ?_⟩
      rw [doElection_aside hstep, observeTerm_aside]
      rfl

theorem tickHeartbeat_listens (h : s.tickHeartbeat rand = some s') : s.Listens rand s' := by
  unfold tickHeartbeat at h
  dsimp only at h
  split_ifs at h
  · cases step_aside h with
    | listens hlisten => exact hlisten
    | campaign hm _ => rcases hm with ⟨hm, -⟩ | ⟨hm, -⟩ <;> cases hm
    | propose hm _ _ => cases hm
  · cases h
    exact .inl rfl

/-- What a tick does to the timer. -/
theorem tick_aside (h : s.tick rand = some s') : s.Listens rand s' ∨
    (s.electionElapsed + 1 < s.randomElectionTimeout ∧
      s'.aside = { s.aside with electionElapsed := s.electionElapsed + 1 }) := by
  by_cases hstate : s.state = .stateLeader
  · rw [tick, hstate] at h
    refine .inl ((tickHeartbeat_listens h).of_aside ?_)
    obtain ⟨k, j, htransfer⟩ := tickTransfer_eq s
    rw [htransfer]
    split_ifs <;> rfl
  · rcases Nat.lt_or_ge (s.electionElapsed + 1) s.randomElectionTimeout with hin | hover
    · cases (RaftContext.tick_waits hstate hin rand).symm.trans h
      exact .inr ⟨hin, rfl⟩
    · rw [RaftContext.tick_fires hstate hover] at h
      exact .inl (.inr (doElection_aside h))

/-- The timer has not run out, and a new timeout is a 64-bit number. -/
structure Aside.Timed (a : Aside) : Prop where
  timeout : 2 ≤ a.electionTimeout
  range : a.electionTimeout ≤ 2 ^ 63
  elapsed : a.electionElapsed < a.randomElectionTimeout

theorem Aside.Timed.u64Add_randIntn {a : Aside} (h : a.Timed) (rand : Nat) :
    u64Add a.electionTimeout (randIntn a.electionTimeout rand) =
      a.electionTimeout + randIntn a.electionTimeout rand :=
  Eraft.u64Add_randIntn (Nat.lt_of_lt_of_le (by decide) h.timeout) h.range rand

theorem Aside.Timed.restarted {a : Aside} (h : a.Timed) (rand : Nat) : (a.restarted rand).Timed := by
  have := h.timeout
  refine ⟨h.timeout, h.range, ?_⟩
  change 0 < u64Add a.electionTimeout (randIntn a.electionTimeout rand)
  rw [h.u64Add_randIntn]
  omega

/-- A new timeout is long enough if what has elapsed is not more than is drawn. -/
theorem Aside.Timed.redrawn {a : Aside} (h : a.Timed)
    (hdraw : a.electionElapsed ≤ randIntn a.electionTimeout rand) :
    (a.redrawn rand).Timed := by
  have := h.timeout
  refine ⟨h.timeout, h.range, ?_⟩
  change a.electionElapsed < u64Add a.electionTimeout (randIntn a.electionTimeout rand)
  rw [h.u64Add_randIntn]
  omega

theorem Listens.timed (h : s.Listens rand s') (hs : s.aside.Timed) : s'.aside.Timed := by
  rcases h with h | h
  · rw [h]
    exact hs
  · rw [h]
    exact hs.restarted rand

theorem new_timed {config : Config} {te pc : Nat} (hrange : config.electionTick ≤ 2 ^ 63)
    (h : new config rand te pc = some s) : s.aside.Timed := by
  have hvalid := (new_spec h).valid
  unfold new at h
  rw [if_pos hvalid] at h
  obtain ⟨l, -, h⟩ := Option.bind_eq_some_iff.mp h
  cases h
  simp only [Config.validate, Bool.and_eq_true, decide_eq_true_eq] at hvalid
  refine ⟨?_, hrange, ?_⟩
  · change 2 ≤ config.electionTick
    omega
  · change 0 < u64Add config.electionTick (randIntn config.electionTick rand)
    rw [u64Add_randIntn (by omega) hrange]
    omega

theorem addNode_timer (s : RaftContext) (id : Nat) :
    (s.addNode id).aside = { s.aside with pendingConfIndex := NONE } := by
  unfold addNode
  cases s.progress id <;> rfl

theorem removeNode_timer {id : Nat} (h : s.removeNode id = some s') :
    s'.aside = { s.aside with pendingConfIndex := NONE } := by
  cases hpr : s.progress id with
  | none =>
      rw [removeNode_of_none hpr] at h
      cases h
      rfl
  | some pr =>
      rw [removeNode_of_some hpr] at h
      obtain ⟨t, ht, rfl⟩ := Option.map_eq_some_iff.mp h
      have hsame : t.aside = s.aside := by
        split_ifs at ht
        · exact (leaderCommit_aside ht).trans rfl
        · cases ht
          rfl
      change { t.aside with pendingConfIndex := NONE } = _
      rw [hsame]

end RaftContext

namespace RawNode

open RaftContext

/-- What an application does to a node; the label of a cycle says how it saves what it reads. -/
inductive Input where
  | call (c : Call) (rand : Nat)
  | confChange (cc : ConfChange)
  | ready (save : Save)

/-- The transitions of a node whose application does only what `ok` allows. -/
def Drives (ok : RawNode → Input → Prop) (n : RawNode) (a : Input) (n' : RawNode) : Prop :=
  ok n a ∧ match a with
    | .call c rand => n.call rand c = some n'
    | .confChange cc => ∃ r, n.applyConfChange cc = some (r, n')
    | .ready save => ∃ rd, n.cycle save = some (rd, n')

/-- A message that starts an election finds no more elapsed than is drawn. -/
def OnTime (n : RawNode) : Input → Prop
  | .call .tick _ => True
  | .call (.step m) rand =>
      n.raft.Campaigns m → n.raft.electionElapsed ≤ randIntn n.raft.electionTimeout rand
  | .confChange _ => True
  | .ready _ => True

/-- No two timeouts together exceed the range; `Config::Validate` does not bound the timeout. -/
def rangedStart (c : Config) : Prop := c.electionTick ≤ 2 ^ 63

theorem starts_timed {n : RawNode} (h : Starts rangedStart n) : n.raft.aside.Timed := by
  obtain ⟨config, rand, te, pc, hrange, h⟩ := h
  obtain ⟨raft, hraft, h⟩ := Option.bind_eq_some_iff.mp h
  cases h
  exact new_timed hrange hraft

theorem Drives.timed {n n' : RawNode} {a : Input} (hn : n.raft.aside.Timed) (h : Drives OnTime n a n') :
    n'.raft.aside.Timed := by
  obtain ⟨hok, h⟩ := h
  cases a with
  | call c rand =>
      have hcall := (call_spec h).1
      cases c with
      | tick =>
          rcases tick_aside hcall with hlisten | ⟨hin, hcount⟩
          · exact hlisten.timed hn
          · rw [hcount]
            exact ⟨hn.timeout, hn.range, hin⟩
      | step m =>
          cases step_aside hcall with
          | listens hlisten => exact hlisten.timed hn
          | campaign hm hdraw =>
              rw [hdraw]
              exact hn.redrawn (hok hm)
          | propose _ _ hset =>
              rw [hset]
              exact ⟨hn.timeout, hn.range, hn.elapsed⟩
  | confChange cc =>
      obtain ⟨r, h⟩ := h
      have hset : n'.raft.aside = { n.raft.aside with pendingConfIndex := NONE } := by
        rcases applyConfChange_spec h with ⟨-, hadd⟩ | ⟨-, hremove⟩
        · rw [hadd]
          exact addNode_timer n.raft cc.nodeId
        · exact removeNode_timer hremove
      rw [hset]
      exact ⟨hn.timeout, hn.range, hn.elapsed⟩
  | ready save =>
      obtain ⟨rd, h⟩ := h
      obtain ⟨l, -, hraft⟩ := (cycle_eq_some.mp h).raft
      rw [hraft]
      exact ⟨hn.timeout, hn.range, hn.elapsed⟩

/-- **Elections are paced** as long as no message starts one while more has elapsed than is then drawn: the
timer has not run out in any state, and an election that starts there is followed by the next one after
at least one and less than two timeouts if and only if it meets the condition. -/
theorem elections_paced {moves : List (Move RawNode Input)} {n : RawNode}
    (hrun : Run (Starts rangedStart) (Drives OnTime) moves n) :
    n.raft.electionElapsed < n.raft.randomElectionTimeout ∧
      ∀ c rand s', 1 < n.raft.prs.size → n.raft.StartsElection c → n.raft.call rand c = some s' →
        (s'.Paced ↔ OnTime n (.call c rand)) := by
  have htimed : n.raft.aside.Timed :=
    hrun.induct (I := fun _ n => n.raft.aside.Timed) (fun _ => starts_timed) fun _ _ _ _ _ hn h => h.timed hn
  refine ⟨htimed.elapsed, fun c rand s' hsize hstart hcall => ?_⟩
  obtain ⟨hwait, haside⟩ := hstart.spec hsize.ne' hcall
  have hdraw : randIntn n.raft.electionTimeout rand < n.raft.electionTimeout :=
    Nat.mod_lt _ (Nat.lt_of_lt_of_le (by decide) htimed.timeout)
  have htimeout : s'.electionTimeout = n.raft.electionTimeout := by
    refine (congrArg Aside.electionTimeout haside).trans ?_
    split_ifs <;> rfl
  have hrandom : s'.randomElectionTimeout = s'.electionTimeout + randIntn n.raft.electionTimeout rand := by
    rw [htimeout]
    refine Eq.trans ?_ (htimed.u64Add_randIntn rand)
    refine (congrArg Aside.randomElectionTimeout haside).trans ?_
    split_ifs <;> rfl
  rw [hwait.paced_iff (htimeout ▸ htimed.timeout) (htimeout.symm ▸ hdraw) hrandom]
  cases c with
  | tick =>
      have helapsed : s'.electionElapsed = 0 := congrArg Aside.electionElapsed haside
      exact iff_of_true (helapsed ▸ Nat.zero_le _) trivial
  | step m =>
      have helapsed : s'.electionElapsed = n.raft.electionElapsed := congrArg Aside.electionElapsed haside
      rw [helapsed]
      exact ⟨fun h _ => h, fun h => h hstart⟩

/-- One tick of a script. -/
def tickTurn (n : RawNode) (rand : Nat) : Option (Input × RawNode) :=
  (n.tick rand).map fun n' => (.call .tick rand, n')

theorem tickTurn_drives (n : RawNode) (rand : Nat) (a : Input) (n' : RawNode)
    (h : n.tickTurn rand = some (a, n')) : Drives OnTime n a n' := by
  obtain ⟨t, ht, heq⟩ := Option.map_eq_some_iff.mp h
  cases heq
  exact ⟨trivial, ht⟩

/-- A node of three whose first timeout is 19. -/
def paceStart : Option RawNode := RawNode.new (Cluster.bootConfig [1, 2, 3] 1) 9 0 NONE

theorem paceStart_starts (n : RawNode) (h : paceStart = some n) : Starts rangedStart n :=
  ⟨_, _, _, _, show (Cluster.bootConfig [1, 2, 3] 1).electionTick ≤ 2 ^ 63 by decide, h⟩

/-- A node that is left alone campaigns at the 19-th tick, and then at its own pace. -/
theorem elections_paced_tick : ∃ moves n s', Run (Starts rangedStart) (Drives OnTime) moves n ∧
    n.raft.electionElapsed < n.raft.randomElectionTimeout ∧ n.raft.tick 3 = some s' ∧ s'.Paced := by
  have hplay : (paceStart.bind (play tickTurn (List.replicate 18 0) [])).any (fun r =>
      decide (1 < r.2.raft.prs.size ∧ r.2.raft.state ≠ .stateLeader ∧
        r.2.raft.randomElectionTimeout ≤ r.2.raft.electionElapsed + 1) && (r.2.raft.tick 3).isSome) = true := by
    decide +kernel
  obtain ⟨moves, n, hrun, htest⟩ := exists_run_of_play tickTurn_drives paceStart paceStart_starts _ hplay
  rw [Bool.and_eq_true, decide_eq_true_eq] at htest
  obtain ⟨⟨hsize, hstart⟩, hsome⟩ := htest
  obtain ⟨s', hs'⟩ := Option.isSome_iff_exists.mp hsome
  obtain ⟨helapsed, hpace⟩ := elections_paced hrun
  exact ⟨moves, n, s', hrun, helapsed, hs', (hpace .tick 3 s' hsize hstart hs').mpr trivial⟩

/-- `RawNode::Campaign`. -/
def hup : Message := { msgType := .msgHup }

/-- After twelve ticks the node is told to campaign and draws the timeout 10. The twelve ticks still count:
the timer has run out at once, and the next election comes with the next tick. -/
theorem not_elections_paced_hup : ∃ moves n s', Run (Starts rangedStart) (Drives OnTime) moves n ∧
    1 < n.raft.prs.size ∧ n.raft.StartsElection (.step hup) ∧ n.raft.call 0 (.step hup) = some s' ∧
    s'.state = .stateCandidate ∧ s'.randomElectionTimeout ≤ s'.electionElapsed ∧ s'.NextElection 1 ∧
    s'.electionTimeout = 10 ∧ ¬s'.Paced := by
  have hplay : (paceStart.bind (play tickTurn (List.replicate 12 0) [])).any (fun r =>
      decide (1 < r.2.raft.prs.size ∧ r.2.raft.state ≠ .stateLeader) &&
        (r.2.raft.step hup 0).any fun s' => decide (s'.electionTimeout = 10 ∧ s'.electionElapsed = 12 ∧
          s'.randomElectionTimeout = 10)) = true := by
    decide +kernel
  obtain ⟨moves, n, hrun, htest⟩ := exists_run_of_play tickTurn_drives paceStart paceStart_starts _ hplay
  rw [Bool.and_eq_true, decide_eq_true_eq] at htest
  obtain ⟨⟨hsize, hstate⟩, htest⟩ := htest
  obtain ⟨s', hs', htest⟩ := (Option.any_eq_true _ _).mp htest
  rw [decide_eq_true_eq] at htest
  obtain ⟨htimeout, helapsed, hrandom⟩ := htest
  have hstart : n.raft.StartsElection (.step hup) := hup_campaigns hstate
  obtain ⟨hwait, -⟩ := hstart.spec hsize.ne' hs'
  have hnext := hwait.nextElection
  rw [hrandom, helapsed] at hnext
  refine ⟨moves, n, s', hrun, hsize, hstart, hs', hwait.state, by omega, hnext, htimeout, ?_⟩
  rintro ⟨k, hlo, -, hk⟩
  rw [hk.unique hnext, htimeout] at hlo
  exact absurd hlo (by decide)

end RawNode

end Eraft
