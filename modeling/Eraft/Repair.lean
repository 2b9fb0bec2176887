import Eraft.RepairProbe
import Eraft.ClusterPlay

/-! The repair of a follower's log by a leader, round by round and without losses: `SendAppend` at the
leader, the append at the follower, and a rejection back at the leader. The rounds are those of the
search in `RepairProbe`, so that they end exactly for the logs for which the search does. -/

open Std TermLog Retry

namespace Eraft.Repair

open RaftContext

/-- A leader and a follower, and the draws the follower is going to make. -/
structure Pair where
  leader : RaftContext
  follower : RaftContext
  rand : Nat → Nat

/-- One round; it ends the repair when the follower accepts. -/
def round (x : Pair) : Option (Pair ⊕ RaftContext) := do
  let s ← x.leader.sendAppend x.follower.id
  let m ← s.msgs.getLast?
  let f ← x.follower.step m (x.rand 0)
  let r ← f.msgs.getLast?
  if r.reject then
    let s ← s.step r 0
    return .inl { leader := s, follower := f, rand := fun i => x.rand (i + 1) }
  else return .inr f

theorem lastIdx_eq_none {p : Entry → Bool} {l : List Entry} (h : ∀ e ∈ l, p e = false) :
    lastIdx p l = none := by
  induction l using List.reverseRecOn with
  | nil => rfl
  | append_singleton l e ih =>
      rw [lastIdx_concat, h e (by simp), if_neg (by decide)]
      exact ih fun e' he' => h e' (List.mem_append_left _ he')

/-- The follower's search stops at the entry whose term it looks for. -/
theorem lastIdx_take {l : List Entry} {p : Nat} (hp : p < l.length) :
    lastIdx (fun e => e.term == termAt l (p + 1)) (l.take (p + 1)) = some p := by
  rw [termAt, lastTerm_take_succ hp, List.take_succ_eq_append_getElem hp, lastIdx_concat, if_pos (by simp),
    List.length_take_of_le hp.le]

/-- The leader's search stops at its last entry, if at all. -/
theorem lastIdx_last {l : List Entry} (hne : l ≠ []) (hsorted : Sorted Entry.term l) (t : Nat) :
    lastIdx (fun e => t < e.term) l =
      if t < termAt l l.length then some (l.length - 1) else none := by
  have hlast : termAt l l.length = lastTerm Entry.term l := by rw [termAt, List.take_length]
  rw [hlast]
  split_ifs with hlt
  · obtain ⟨l, e, rfl⟩ := List.eq_nil_or_concat' l |>.resolve_left hne
    rw [lastTerm_concat] at hlt
    rw [lastIdx_concat, if_pos (decide_eq_true hlt), List.length_append, List.length_singleton,
      Nat.add_sub_cancel]
  · refine lastIdx_eq_none fun e he => decide_eq_false fun hlate => hlt ?_
    exact Nat.lt_of_lt_of_le hlate (hsorted.term_le_lastTerm he)

/-! ### The leader -/

variable {s s' f f' : RaftContext} {m r : Message} {pr : Progress} {L F : List Entry} {p rand : Nat}

theorem term_eq_termAt {l : RaftLog} (hlog : l.FromOne) {i : Nat} (hi : i ≤ l.entries.length) :
    l.term i = some (termAt l.entries i, true) := hlog.term_eq hi

/-- The append with which the leader `s` probes a peer at `p`. -/
def probeMsg (s : RaftContext) (peer p : Nat) : Message :=
  { msgType := .msgAppend, fromId := s.id, toId := peer, term := s.term, commit := s.raftLog.commited
    logTerm := termAt s.raftLog.entries p, index := p, entries := s.raftLog.entries.drop p }

theorem sendAppend_eq {peer : Nat} (hlog : s.raftLog.FromOne) (hpr : s.progress peer = some pr)
    (hnext : pr.next = p + 1) (hp : p ≤ s.raftLog.entries.length) :
    s.sendAppend peer = some (s.push (probeMsg s peer p)) := by
  have hprev : u64Sub pr.next 1 = p := by
    rw [hnext, u64Sub_of_le (by omega), Nat.add_sub_cancel]
  unfold sendAppend
  rw [hpr]
  dsimp only [Option.bind_eq_bind, Option.bind_some]
  rw [hprev, hlog.term_eq hp]
  dsimp only [Option.bind_some]
  rw [if_neg (by decide), hlog.toSliceIndex_succ]
  rfl

/-- The `next` that a rejection leads to. -/
theorem rejectHint_eq (hlog : s.raftLog.FromOne) (hne : s.raftLog.entries ≠ [])
    (hsorted : Sorted Entry.term s.raftLog.entries) :
    s.rejectHint r = if r.logTerm = NONE then some r.index
      else if termAt s.raftLog.entries s.raftLog.entries.length ≤ r.logTerm then none
      else if r.logTerm = termAt s.raftLog.entries (s.raftLog.entries.length - 1) then
        some s.raftLog.entries.length
      else some r.index := by
  have hlen : 0 < s.raftLog.entries.length := List.length_pos_of_ne_nil hne
  unfold rejectHint
  by_cases hzero : r.logTerm = NONE
  · rw [if_neg (not_not.mpr hzero), if_pos hzero]
  rw [if_pos hzero, if_neg hzero, lastIdx_last hne hsorted]
  by_cases hlt : r.logTerm < termAt s.raftLog.entries s.raftLog.entries.length
  swap
  · rw [if_neg hlt, if_pos (Nat.le_of_not_lt hlt)]
    rfl
  rw [if_pos hlt, if_neg (Nat.not_le.mpr hlt)]
  dsimp only [Option.bind_eq_bind, Option.bind_some]
  by_cases hone : 0 < s.raftLog.entries.length - 1
  · obtain ⟨k, hk⟩ : ∃ k, s.raftLog.entries.length = k + 2 := Nat.exists_eq_add_of_le' (by omega)
    have hbefore : k < s.raftLog.entries.length := by omega
    have hterm : termAt s.raftLog.entries (k + 1) = s.raftLog.entries[k].term :=
      lastTerm_take_succ hbefore
    rw [if_pos hone, hk]
    show (s.raftLog.entries[k]?.bind fun e =>
        some (if e.term = r.logTerm then s.raftLog.toEntryIndex (k + 1) else r.index)) =
      if r.logTerm = termAt s.raftLog.entries (k + 1) then some (k + 2) else some r.index
    rw [List.getElem?_eq_getElem hbefore, Option.bind_some, hterm, RaftLog.toEntryIndex, hlog.firstIndex]
    by_cases hjump : r.logTerm = s.raftLog.entries[k].term
    · rw [if_pos hjump.symm, if_pos hjump]
    · rw [if_neg (Ne.symm hjump), if_neg hjump]
  · -- the only entry has no entry before it, and no rejection is of term 0
    have hfront : termAt s.raftLog.entries (s.raftLog.entries.length - 1) = NONE := by
      rw [Nat.eq_zero_of_not_pos hone]
      rfl
    rw [if_neg hone, hfront, if_neg hzero]
    rfl

/-- A rejection at the leader. -/
theorem step_rejection (hstate : s.state = .stateLeader) (hr : r.msgType = .msgAppendResponse)
    (hterm : r.term = s.term) (hreject : r.reject = true) (hpr : s.progress r.fromId = some pr) :
    s.step r rand = if r.index = NONE then some s else (s.rejectHint r).bind fun next =>
      (s.setProgress r.fromId { pr with next := next }).sendAppend r.fromId := by
  have hobs : s.observeTerm r = s := observeTerm_of_le hterm.le
  rw [step_leader (fun h => by cases hr.symm.trans h) (hobs.symm ▸ hstate), hobs]
  unfold stepLeader
  rw [hr]
  dsimp only
  unfold handleAppendEntriesResponse
  rw [if_neg (by rw [hterm]; exact fun h => Nat.lt_irrefl _ h.2), if_pos hreject, hpr]
  rfl

/-! ### The follower -/

/-- The follower once it has heard from the leader. -/
def hearer (f : RaftContext) (m : Message) (rand : Nat) : RaftContext :=
  { redraw { f.observeTerm m with electionElapsed := 0 } rand with lead := m.fromId }

theorem hearer_raftLog (f : RaftContext) (m : Message) (rand : Nat) :
    (hearer f m rand).raftLog = f.raftLog := observeTerm_raftLog f m

theorem hearer_id (f : RaftContext) (m : Message) (rand : Nat) : (hearer f m rand).id = f.id :=
  observeTerm_id f m

theorem hearer_term (rand : Nat) (hterm : f.term ≤ m.term) : (hearer f m rand).term = m.term := by
  rcases observeTerm_cases f m with ⟨hle, hobs⟩ | ⟨_, hobs, _⟩
  · exact (congrArg RaftContext.term hobs).trans (Nat.le_antisymm hterm hle)
  · exact hobs

theorem hearer_state (m : Message) (rand : Nat) (hstate : f.state = .stateFollower) :
    (hearer f m rand).state = .stateFollower := by
  rcases observeTerm_cases f m with ⟨_, hobs⟩ | ⟨_, _, _, hobs, _⟩
  · exact (congrArg RaftContext.state hobs).trans hstate
  · exact hobs

/-- An append at the follower. -/
theorem step_append (hstate : f.state = .stateFollower) (hm : m.msgType = .msgAppend)
    (hterm : f.term ≤ m.term) :
    f.step m rand = if f.raftLog.lastIndex < m.index then
        some ((hearer f m rand).sendAppendResponse m.fromId true NONE (f.raftLog.lastIndex + 1))
      else if f.raftLog.firstIndex ≤ m.index then (do
        let resPair ← f.raftLog.term m.index
        if resPair.1 ≠ m.logTerm then (hearer f m rand).rejectAppend m resPair.1
        else (hearer f m rand).acceptAppend m)
      else (hearer f m rand).acceptAppend m := by
  have hobs : (f.observeTerm m).state = .stateFollower := hearer_state m rand hstate
  have hcur : (f.observeTerm m).term = m.term := hearer_term rand hterm
  unfold step
  rw [if_neg (by rw [hm]; exact fun h => absurd h.2 (by decide))]
  dsimp only
  rw [hobs]
  dsimp only
  unfold stepFollower
  rw [hm]
  dsimp only
  unfold handleAppendEntries
  rw [if_neg (by rw [hcur]; exact fun h => Nat.lt_irrefl _ h.2), ← hearer_raftLog f m rand]
  rfl

/-- The rejection of an append: the log stays, and the answer has this hint. -/
structure Rejects (f : RaftContext) (m : Message) (logTerm index : Nat) (f' : RaftContext) : Prop where
  id : f'.id = f.id
  state : f'.state = .stateFollower
  term : f'.term = m.term
  raftLog : f'.raftLog = f.raftLog
  msg : f'.msgs.getLast? = some
    { msgType := .msgAppendResponse, fromId := f.id, toId := m.fromId, term := m.term, reject := true
      logTerm := logTerm, index := index }

theorem Rejects.of_send (hstate : f.state = .stateFollower) (hterm : f.term ≤ m.term)
    (rand logTerm index : Nat) :
    Rejects f m logTerm index ((hearer f m rand).sendAppendResponse m.fromId true logTerm index) := by
  refine ⟨hearer_id f m rand, hearer_state m rand hstate, hearer_term rand hterm,
    hearer_raftLog f m rand, ?_⟩
  rw [sendAppendResponse, push, List.getLast?_concat, hearer_id, hearer_term rand hterm]

section Answers

variable (rand) (hstate : f.state = .stateFollower) (hm : m.msgType = .msgAppend) (hterm : f.term ≤ m.term)
  (hlog : f.raftLog.FromOne)

include hstate hm hterm hlog

theorem answer_beyond (hbeyond : f.raftLog.entries.length < m.index) : ∃ f', f.step m rand = some f' ∧
    Rejects f m NONE (f.raftLog.entries.length + 1) f' := by
  refine ⟨_, ?_, .of_send hstate hterm rand _ _⟩
  rw [step_append hstate hm hterm, hlog.lastIndex_eq, if_pos hbeyond]

theorem answer_conflict (hpos : 0 < m.index) (hle : m.index ≤ f.raftLog.entries.length)
    (hconf : termAt f.raftLog.entries m.index ≠ m.logTerm) : ∃ f', f.step m rand = some f' ∧
    Rejects f m (termAt f.raftLog.entries m.index) (m.index - 1) f' := by
  obtain ⟨p, hp⟩ : ∃ p, m.index = p + 1 := Nat.exists_eq_add_of_le' hpos
  have hsearch : (lastIdx (fun e => e.term == termAt f.raftLog.entries m.index)
      (f.raftLog.entries.take m.index)).getD 0 = m.index - 1 := by
    rw [hp, lastIdx_take (by omega)]
    rfl
  refine ⟨_, ?_, .of_send hstate hterm rand _ _⟩
  rw [step_append hstate hm hterm, hlog.lastIndex_eq, if_neg (by omega),
    if_pos (by rw [hlog.firstIndex]; exact hpos), term_eq_termAt hlog hle]
  dsimp only [Option.bind_eq_bind, Option.bind_some]
  rw [if_pos hconf, rejectAppend, hearer_raftLog, hlog.toSliceIndex_succ]
  dsimp only
  rw [if_pos hle, hsearch]

/-- An accepted append leaves the sender's log, unless the follower's already extends it. -/
theorem answer_accept (hcarries : Carries m L) (hL : Contiguous L)
    (hmatch : Matching Entry.term f.raftLog.entries L) (hle : m.index ≤ f.raftLog.entries.length)
    (hagree : m.index = 0 ∨ termAt f.raftLog.entries m.index = m.logTerm) :
    ∃ f', f.step m rand = some f' ∧ (∃ r, f'.msgs.getLast? = some r ∧ r.reject = false) ∧
      ((L <+: f.raftLog.entries ∧ f'.raftLog.entries = f.raftLog.entries) ∨
        (¬L <+: f.raftLog.entries ∧ f'.raftLog.entries = L)) := by
  have hsame : f.raftLog.firstIndex ≤ m.index → termAt f.raftLog.entries m.index = m.logTerm := by
    intro hfirst
    rw [hlog.firstIndex] at hfirst
    exact hagree.resolve_left (by omega)
  have haccept : f.step m rand = (hearer f m rand).acceptAppend m := by
    rw [step_append hstate hm hterm, hlog.lastIndex_eq, if_neg (Nat.not_lt.mpr hle), term_eq_termAt hlog hle]
    split_ifs with hfirst
    · dsimp only [Option.bind_eq_bind, Option.bind_some]
      rw [if_neg (not_not.mpr (hsame hfirst))]
    · rfl
  obtain ⟨stabled, hloop⟩ := appendLoop_all hlog hle (hcarries.index_eq hL)
  rw [haccept, acceptAppend, hearer_raftLog, hloop]
  refine ⟨_, rfl, ⟨_, List.getLast?_concat, rfl⟩, ?_⟩
  refine (Accepts.merged_log ⟨hm, .inr hterm, hlog.lastIndex_eq ▸ hle, fun hfirst => ?_, _, hloop, rfl⟩ hlog
    hcarries hL hmatch).entries
  exact ⟨true, by rw [term_eq_termAt hlog hle, hsame hfirst]⟩

end Answers

/-! ### The rounds -/

/-- The leader is about to probe the follower at `p`. -/
structure Probing (L F : List Entry) (x : Pair) (p : Nat) : Prop where
  lead : x.leader.state = .stateLeader
  follow : x.follower.state = .stateFollower
  term : x.follower.term ≤ x.leader.term
  progress : ∃ pr, x.leader.progress x.follower.id = some pr ∧ pr.next = p + 1
  inside : p ≤ L.length
  leaderLog : x.leader.raftLog.FromOne
  leaderEntries : x.leader.raftLog.entries = L
  followerLog : x.follower.raftLog.FromOne
  followerEntries : x.follower.raftLog.entries = F

/-- The follower's log after the repair. -/
def Merges (L F : List Entry) (f : RaftContext) (_ : Unit) : Prop :=
  (L <+: F ∧ f.raftLog.entries = F) ∨ (¬L <+: F ∧ f.raftLog.entries = L)

variable {x : Pair} {logTerm index : Nat}

theorem Probing.sends (hx : Probing L F x p) : x.leader.sendAppend x.follower.id =
    some (x.leader.push (probeMsg x.leader x.follower.id p)) := by
  obtain ⟨pr, hpr, hnext⟩ := hx.progress
  exact sendAppend_eq hx.leaderLog hpr hnext (hx.leaderEntries ▸ hx.inside)

/-- A round is decided by the follower's answer. -/
theorem Probing.round_eq (hx : Probing L F x p)
    (hstep : x.follower.step (probeMsg x.leader x.follower.id p) (x.rand 0) = some f')
    (hmsg : f'.msgs.getLast? = some r) :
    round x = if r.reject then ((x.leader.push (probeMsg x.leader x.follower.id p)).step r 0).map
        fun s => .inl { leader := s, follower := f', rand := fun i => x.rand (i + 1) }
      else some (.inr f') := by
  unfold round
  rw [hx.sends]
  dsimp only [Option.bind_eq_bind, Option.bind_some]
  rw [push, List.getLast?_concat]
  dsimp only [Option.bind_some]
  rw [hstep]
  dsimp only [Option.bind_some]
  rw [hmsg, Option.map_eq_bind]
  rfl

/-- A rejection leaves the follower as it was, in the leader's term. -/
theorem Probing.after (hx : Probing L F x p)
    (hrej : Rejects x.follower (probeMsg x.leader x.follower.id p) logTerm index f') {p' : Nat}
    (hsame : SameCore { x.leader with prs := s.prs } s)
    (hprogress : ∃ pr, s.progress x.follower.id = some pr ∧ pr.next = p' + 1) (hp' : p' ≤ L.length)
    (rand : Nat → Nat) : Probing L F { leader := s, follower := f', rand := rand } p' where
  lead := hsame.state.trans hx.lead
  follow := hrej.state
  term := (hrej.term.trans hsame.term.symm).le
  progress := by rwa [hrej.id]
  inside := hp'
  leaderLog := hsame.raftLog ▸ hx.leaderLog
  leaderEntries := (congrArg RaftLog.entries hsame.raftLog).trans hx.leaderEntries
  followerLog := hrej.raftLog ▸ hx.followerLog
  followerEntries := (congrArg RaftLog.entries hrej.raftLog).trans hx.followerEntries

section Rejected

variable (hx : Probing L F x p)
  (hstep : x.follower.step (probeMsg x.leader x.follower.id p) (x.rand 0) = some f')
  (hrej : Rejects x.follower (probeMsg x.leader x.follower.id p) logTerm index f')

include hx hstep hrej

/-- The leader's reaction to the rejection. -/
theorem Probing.reacts : ∃ pr : Progress, round x = (if index = NONE then some (x.leader.push
      (probeMsg x.leader x.follower.id p)) else
    (x.leader.rejectHint { logTerm := logTerm, index := index }).bind fun next =>
      ((x.leader.push (probeMsg x.leader x.follower.id p)).setProgress x.follower.id
        { pr with next := next }).sendAppend x.follower.id).map
    fun s => .inl { leader := s, follower := f', rand := fun i => x.rand (i + 1) } := by
  obtain ⟨pr, hpr, _⟩ := hx.progress
  refine ⟨pr, ?_⟩
  rw [hx.round_eq hstep hrej.msg, if_pos rfl]
  exact congrArg (Option.map _) (step_rejection (s := x.leader.push _) hx.lead rfl rfl rfl hpr)

/-- The leader ignores a rejection with index 0. -/
theorem Probing.stuck (hindex : index = NONE) :
    ∃ x', round x = some (.inl x') ∧ Probing L F x' p := by
  obtain ⟨pr, hround⟩ := hx.reacts hstep hrej
  rw [if_pos hindex] at hround
  refine ⟨_, hround, ?_⟩
  exact hx.after (s := x.leader.push _) hrej {} hx.progress hx.inside _

/-- A hint takes the leader to another index. -/
theorem Probing.retry (hindex : index ≠ NONE) {p' : Nat} (hp' : p' ≤ L.length)
    (hhint : x.leader.rejectHint { logTerm := logTerm, index := index } = some (p' + 1)) :
    ∃ x', round x = some (.inl x') ∧ Probing L F x' p' := by
  obtain ⟨pr, hround⟩ := hx.reacts hstep hrej
  have hprogress : ((x.leader.push (probeMsg x.leader x.follower.id p)).setProgress x.follower.id
      { pr with next := p' + 1 }).progress x.follower.id = some { pr with next := p' + 1 } := by
    rw [progress_setProgress, if_pos rfl]
  have hle : p' ≤ x.leader.raftLog.entries.length := hx.leaderEntries ▸ hp'
  have hsend := sendAppend_eq (s := (x.leader.push _).setProgress _ _) hx.leaderLog hprogress rfl hle
  rw [if_neg hindex, hhint, Option.bind_some, hsend] at hround
  have hpushed : ∀ m, (((x.leader.push (probeMsg x.leader x.follower.id p)).setProgress x.follower.id
      { pr with next := p' + 1 }).push m).progress x.follower.id = some { pr with next := p' + 1 } :=
    fun _ => hprogress
  exact ⟨_, hround, hx.after hrej {} ⟨_, hpushed _, rfl⟩ hp' _⟩

/-- Without a hint the leader reads a variable that is not set. -/
theorem Probing.undefined (hindex : index ≠ NONE)
    (hhint : x.leader.rejectHint { logTerm := logTerm, index := index } = none) : round x = none := by
  obtain ⟨pr, hround⟩ := hx.reacts hstep hrej
  rwa [if_neg hindex, hhint] at hround

end Rejected

theorem Probing.hint_eq (hx : Probing L F x p) (hne : L ≠ []) (hsorted : Sorted Entry.term L)
    (logTerm index : Nat) : x.leader.rejectHint { logTerm := logTerm, index := index } =
      if logTerm = 0 then some index
      else if termAt L L.length ≤ logTerm then none
      else if logTerm = termAt L (L.length - 1) then some L.length
      else some index := by
  rw [← hx.leaderEntries] at hne hsorted ⊢
  exact rejectHint_eq hx.leaderLog hne hsorted

theorem Probing.logTerm_eq (hx : Probing L F x p) :
    (probeMsg x.leader x.follower.id p).logTerm = termAt L p := by
  rw [← hx.leaderEntries]
  rfl

/-- The round and the probe have the same outcome. -/
def SameOutcome (L F : List Entry) : Option (Pair ⊕ RaftContext) → Option (Nat ⊕ Unit) → Prop :=
  Option.Rel (Sum.LiftRel (Probing L F) (Merges L F))

theorem Probing.beyond (hx : Probing L F x p) (hne : L ≠ []) (hsorted : Sorted Entry.term L)
    (hbeyond : F.length < p) : SameOutcome L F (round x) (probe L F p) := by
  have hinside := hx.inside
  obtain ⟨f', hstep, hrej⟩ := answer_beyond (m := probeMsg x.leader x.follower.id p) (x.rand 0) hx.follow
    rfl hx.term hx.followerLog (by rw [hx.followerEntries]; exact hbeyond)
  rw [hx.followerEntries] at hrej
  obtain ⟨x', hround, hx'⟩ :=
    hx.retry hstep hrej (Nat.succ_ne_zero _) (by omega) (hx.hint_eq hne hsorted _ _)
  rw [hround, probe, if_pos hbeyond]
  exact .some (.inl hx')

theorem Probing.agrees (hx : Probing L F x p) (hmatch : Matching Entry.term F L) (hle : p ≤ F.length)
    (hagree : p = 0 ∨ termAt F p = termAt L p) : SameOutcome L F (round x) (probe L F p) := by
  have hcarries : Carries (probeMsg x.leader x.follower.id p) L := by
    have hinside := hx.inside
    rw [← hx.leaderEntries] at hinside ⊢
    exact ⟨hinside, rfl, rfl⟩
  have hF := hx.followerEntries
  obtain ⟨f', hstep, ⟨r, hmsg, hreject⟩, hmerged⟩ := answer_accept (x.rand 0) hx.follow rfl hx.term
    hx.followerLog hcarries (hx.leaderEntries ▸ hx.leaderLog.contiguous) (hF ▸ hmatch) (hF ▸ hle)
    (by rw [hF, hx.logTerm_eq]; exact hagree)
  rw [hF] at hmerged
  rw [hx.round_eq hstep hmsg, if_neg (by rw [hreject]; decide), probe, if_neg (Nat.not_lt.mpr hle),
    if_pos hagree]
  exact .some (.inr hmerged)

theorem Probing.conflicts (hx : Probing L F x p) (hne : L ≠ []) (hsorted : Sorted Entry.term L)
    (hle : p ≤ F.length) (hdiffer : ¬(p = 0 ∨ termAt F p = termAt L p)) :
    SameOutcome L F (round x) (probe L F p) := by
  have hinside := hx.inside
  have hlen : 0 < L.length := List.length_pos_of_ne_nil hne
  have hF := hx.followerEntries
  obtain ⟨f', hstep, hrej⟩ := answer_conflict (m := probeMsg x.leader x.follower.id p) (x.rand 0) hx.follow
    rfl hx.term hx.followerLog (Nat.pos_of_ne_zero fun hzero => hdiffer (.inl hzero)) (hF ▸ hle)
    (by rw [hF, hx.logTerm_eq]; exact fun heq => hdiffer (.inr heq))
  rw [hF] at hrej
  rw [probe, if_neg (Nat.not_lt.mpr hle), if_neg hdiffer]
  by_cases hone : p = 1
  · subst hone
    obtain ⟨x', hround, hx'⟩ := hx.stuck hstep hrej rfl
    rw [hround, if_pos rfl]
    exact .some (.inl hx')
  have hindex : p - 1 ≠ NONE := fun hzero : p - 1 = 0 => hdiffer (.inl (by omega))
  have hretry : ∀ {p'}, p' ≤ L.length →
      x.leader.rejectHint { logTerm := termAt F p, index := p - 1 } = some (p' + 1) →
      SameOutcome L F (round x) (some (.inl p')) := by
    intro p' hp' hhint
    obtain ⟨x', hround, hx'⟩ := hx.retry hstep hrej hindex hp' hhint
    rw [hround]
    exact .some (.inl hx')
  have hhint := hx.hint_eq hne hsorted (termAt F p) (p - 1)
  have hdown : p - 1 = p - 2 + 1 := by omega
  rw [if_neg hone]
  split_ifs at hhint ⊢
  · exact hretry (by omega) (hhint.trans (congrArg some hdown))
  · rw [hx.undefined hstep hrej hindex hhint]
    exact .none
  · exact hretry (Nat.sub_le _ _) (hhint.trans (congrArg some (Nat.succ_pred_eq_of_pos hlen).symm))
  · exact hretry (by omega) (hhint.trans (congrArg some hdown))

/-- **The rounds simulate the search.** -/
theorem round_simulates (hne : L ≠ []) (hsorted : Sorted Entry.term L)
    (hmatch : Matching Entry.term F L) :
    Simulates round (probe L F) (Probing L F) (Merges L F) := by
  intro x p hx
  rcases Nat.lt_or_ge F.length p with hbeyond | hle
  · exact hx.beyond hne hsorted hbeyond
  · by_cases hagree : p = 0 ∨ termAt F p = termAt L p
    · exact hx.agrees hmatch hle hagree
    · exact hx.conflicts hne hsorted hle hagree

/-- A leader and a follower with whole logs from index 1 on that match, and `next` inside the leader's
log or right behind it. -/
structure Diverged (x : Pair) (pr : Progress) : Prop where
  lead : x.leader.state = .stateLeader
  follow : x.follower.state = .stateFollower
  term : x.follower.term ≤ x.leader.term
  progress : x.leader.progress x.follower.id = some pr
  next : 1 ≤ pr.next ∧ pr.next ≤ x.leader.raftLog.lastIndex + 1
  leaderLog : x.leader.raftLog.FromOne
  followerLog : x.follower.raftLog.FromOne
  nonempty : x.leader.raftLog.entries ≠ []
  sorted : Sorted Entry.term x.leader.raftLog.entries
  matching : Matching Entry.term x.follower.raftLog.entries x.leader.raftLog.entries

theorem Diverged.probing (h : Diverged x pr) :
    Probing x.leader.raftLog.entries x.follower.raftLog.entries x (pr.next - 1) := by
  have hnext := h.next
  rw [h.leaderLog.lastIndex_eq] at hnext
  exact ⟨h.lead, h.follow, h.term, ⟨pr, h.progress, by omega⟩, by omega, h.leaderLog, rfl,
    h.followerLog, rfl⟩

/-- The rounds come to an end with the leader's log at the follower. -/
def Repairs (x : Pair) : Prop :=
  ∃ k f, loop round k x = some f ∧ f.raftLog.entries = x.leader.raftLog.entries

theorem Diverged.repairs_iff (h : Diverged x pr) : Repairs x ↔
    (x.leader.raftLog.entries <+: x.follower.raftLog.entries →
      x.follower.raftLog.entries = x.leader.raftLog.entries) ∧
    Ends (probe x.leader.raftLog.entries x.follower.raftLog.entries) (pr.next - 1) () := by
  have hsim := round_simulates h.nonempty h.sorted h.matching
  constructor
  · rintro ⟨k, f, hloop, hlog⟩
    obtain ⟨⟨⟩, hends, hmerged⟩ := hsim.ends h.probing (.of_loop hloop)
    refine ⟨fun hpre => ?_, hends⟩
    rcases hmerged with ⟨_, heq⟩ | ⟨hnot, _⟩
    · exact heq.symm.trans hlog
    · exact absurd hpre hnot
  · rintro ⟨hlonger, hends⟩
    obtain ⟨f, hends, hmerged⟩ := hsim.flip.ends h.probing hends
    obtain ⟨k, hloop⟩ := hends.exists_loop
    refine ⟨k, f, hloop, ?_⟩
    rcases hmerged with ⟨hpre, heq⟩ | ⟨_, heq⟩
    · exact heq.trans (hlonger hpre)
    · exact heq

/-- **Log repair.** The rounds end with the leader's log at the follower exactly if the follower's log
does not go on beyond the leader's, and the search from the first probe inside the follower's log is
repairable. -/
theorem repair_terminates_iff (h : Diverged x pr) : Repairs x ↔
    (x.leader.raftLog.entries <+: x.follower.raftLog.entries →
      x.follower.raftLog.entries = x.leader.raftLog.entries) ∧
    Repairable x.leader.raftLog.entries x.follower.raftLog.entries
      (min (pr.next - 1) x.follower.raftLog.entries.length) := by
  rw [h.repairs_iff, ends_probe_iff h.matching h.probing.inside]

/-- A log whose entries have these terms. -/
def entriesOf (terms : List Nat) : List Entry :=
  terms.mapIdx fun i t => { term := t, index := i + 1 }

theorem contiguous_entriesOf (terms : List Nat) : Contiguous (entriesOf terms) := by
  intro i e he
  rw [entriesOf, List.getElem?_mapIdx] at he
  obtain ⟨t, _, rfl⟩ := Option.map_eq_some_iff.mp he
  rfl

/-- The node `i` of two, with a log of these terms. -/
def nodeOf (i term : Nat) (terms : List Nat) : RaftContext :=
  { Cluster.bootNode [1, 2] i with
    term := term
    raftLog := { (Cluster.bootNode [1, 2] i).raftLog with entries := entriesOf terms } }

theorem nodeOf_fromOne (i term : Nat) (terms : List Nat) : (nodeOf i term terms).raftLog.FromOne :=
  ⟨rfl, contiguous_entriesOf terms, fun _ => rfl, rfl, rfl⟩

/-- Node 1 leads with a log of the terms `ls`, and node 2 has a log of the terms `fs`. -/
def pairOf (ls fs : List Nat) (term next : Nat) : Pair where
  leader := { (nodeOf 1 term ls).setProgress 2 { next := next } with state := .stateLeader, lead := 1 }
  follower := nodeOf 2 term fs
  rand := fun _ => 0

theorem pairOf_diverged {ls fs : List Nat} (term : Nat) {next : Nat}
    (hnext : 1 ≤ next ∧ next ≤ (entriesOf ls).length + 1) (hne : entriesOf ls ≠ [])
    (hsorted : Sorted Entry.term (entriesOf ls))
    (hmatch : Matching Entry.term (entriesOf fs) (entriesOf ls)) :
    Diverged (pairOf ls fs term next) { next := next } where
  lead := rfl
  follow := rfl
  term := le_rfl
  progress := (progress_setProgress (nodeOf 1 term ls) 2 2 _).trans (if_pos rfl)
  next := by
    have hlog : (pairOf ls fs term next).leader.raftLog.FromOne := nodeOf_fromOne 1 term ls
    rw [hlog.lastIndex_eq]
    exact hnext
  leaderLog := nodeOf_fromOne 1 term ls
  followerLog := nodeOf_fromOne 2 term fs
  nonempty := hne
  sorted := hsorted
  matching := hmatch

/-- Matching logs, by evaluation. -/
theorem matching_of_forall {F L : List Entry} (h : ∀ i ≤ F.length, 0 < i → i ≤ L.length →
    lastTerm Entry.term (F.take i) = lastTerm Entry.term (L.take i) → F.take i = L.take i) :
    Matching Entry.term F L := fun i hpos hF hL => h i hF hpos hL

/-- A follower that differs from the third entry on is probed at 3 and at 1. -/
theorem repair_terminates_iff_third : Diverged (pairOf [1, 1, 3, 4] [1, 1, 2] 4 4) { next := 4 } ∧
    Repairs (pairOf [1, 1, 3, 4] [1, 1, 2] 4 4) := by
  have h : Diverged (pairOf [1, 1, 3, 4] [1, 1, 2] 4 4) { next := 4 } :=
    pairOf_diverged 4 (by decide) (by decide) (by unfold Sorted; decide)
      (matching_of_forall (by decide))
  exact ⟨h, (repair_terminates_iff h).mpr ⟨by decide +kernel, by decide +kernel⟩⟩

/-- A leader of term 3 with the log 2, 3 never gets it to a follower with the log 1: its first probe, at
the index before its first entry of term 3, is rejected with the index 0, which it ignores. -/
theorem not_repair_terminates_first : Diverged (pairOf [2, 3] [1] 3 2) { next := 2 } ∧
    lastTerm Entry.term (pairOf [2, 3] [1] 3 2).leader.raftLog.entries = 3 ∧
    (∀ e ∈ (pairOf [2, 3] [1] 3 2).follower.raftLog.entries, e.term ≤ 3) ∧
    ¬Repairs (pairOf [2, 3] [1] 3 2) := by
  have h : Diverged (pairOf [2, 3] [1] 3 2) { next := 2 } :=
    pairOf_diverged 3 (by decide) (by decide) (by unfold Sorted; decide)
      (matching_of_forall (by decide))
  refine ⟨h, by decide +kernel, by decide +kernel, fun hrepairs => ?_⟩
  have hsearch := (ends_probe_iff h.matching h.probing.inside).mp (h.repairs_iff.mp hrepairs).2
  exact absurd hsearch (by decide +kernel)

end Eraft.Repair
