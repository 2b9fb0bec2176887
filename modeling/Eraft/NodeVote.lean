import Eraft.NodeRole
import Eraft.NodeStart

/-! How often a node votes. Over any sequence of calls of `Step` and `Tick`, a node casts at most one
vote in each term, its vote for itself included, unless a candidate falls back to follower in its own
term: `BecomeFollower` then clears `vote_`, and the node votes again. -/

open Std Runs

namespace Eraft.RaftContext

/-- The calls a node gets: anything but a snapshot, where a request for a vote names its sender. -/
def Admissible : Call → Prop
  | .tick => True
  | .step m => m.msgType ≠ .msgSnapshot ∧ (m.msgType = .msgRequestVote → m.fromId ≠ NONE)

/-- The message turns a candidate into a follower of the term it is a candidate in: it hears from a
leader of that term, or the message is the refusal that costs it the election. -/
def FallsBack (s : RaftContext) (m : Message) : Prop :=
  s.state = .stateCandidate ∧
    (((m.msgType = .msgHeartbeat ∨ m.msgType = .msgAppend) ∧ m.term = s.term) ∨
      (m.msgType = .msgRequestVoteResponse ∧ (m.term = NONE ∨ m.term = s.term) ∧
        (s.recordVote m).Loses))

/-- The call turns no candidate into a follower of its own term. -/
def NoFallback (s : RaftContext) : Call → Prop
  | .tick => True
  | .step m => ¬FallsBack s m

instance (c : Call) : Decidable (Admissible c) := by
  cases c <;> unfold Admissible <;> infer_instance

instance (s : RaftContext) (c : Call) : Decidable (NoFallback s c) := by
  cases c <;> unfold NoFallback <;> (try unfold FallsBack) <;> infer_instance

/-- The calls of a node, each with the random draw it makes, under a condition `ok` on the state and
the call. -/
def CallNext (ok : RaftContext → Call → Prop) (s : RaftContext) (e : Nat × Call) (s' : RaftContext) :
    Prop :=
  Admissible e.2 ∧ ok s e.2 ∧ s.call e.1 e.2 = some s'

/-- The messages a call pushed. -/
def pushed (move : Move RaftContext (Nat × Call)) : List Message :=
  move.after.msgs.drop move.before.msgs.length

/-- In every term all votes are for the same node. -/
def OneVotePerTerm (moves : List (Move RaftContext (Nat × Call))) : Prop :=
  ∀ a ∈ moves, ∀ b ∈ moves, ∀ t v w, Casts a.before (pushed a) a.after t v →
    Casts b.before (pushed b) b.after t w → v = w

variable {s s' : RaftContext} {m : Message} {rand : Nat} {c : Call}

theorem Handled.admissible (h : Handled c m) (hadm : Admissible c) :
    m.msgType ≠ .msgSnapshot ∧ (m.msgType = .msgRequestVote → m.fromId ≠ NONE) := by
  cases h with
  | step => exact hadm
  | ignored m hm => exact hadm
  | hup => exact ⟨by decide, fun h => by cases h⟩
  | beat => exact ⟨by decide, fun h => by cases h⟩

theorem Handled.not_fallsBack (h : Handled c m) (hok : NoFallback s c) : ¬FallsBack s m := by
  cases h with
  | step => exact hok
  | ignored m hm =>
      rintro ⟨_, ⟨h | h, _⟩ | ⟨h, _⟩⟩ <;> exact absurd (hm.symm.trans h) (by decide)
  | hup => rintro ⟨_, ⟨h | h, _⟩ | ⟨h, _⟩⟩ <;> cases h
  | beat => rintro ⟨_, ⟨h | h, _⟩ | ⟨h, _⟩⟩ <;> cases h

/-- While the term stays, a vote stays, unless a candidate falls back. -/
theorem RoleStep.vote_eq (h : RoleStep s m s') (hback : ¬FallsBack s m) (hterm : s'.term = s.term)
    (hle : m.term ≤ s.term) (hvote : s.vote ≠ NONE) : s'.vote = s.vote := by
  cases h with
  | keep h => exact h.vote
  | follow hm _ h =>
      have hfall : s.fallback m = s := if_neg fun hc => hback ⟨hc.1, .inl ⟨hm, hc.2⟩⟩
      rw [hfall] at h
      exact h.vote
  | campaign _ h =>
      rw [h.term] at hterm
      exact absurd hterm (Nat.succ_ne_self _)
  | alone _ _ h =>
      rw [h.term] at hterm
      exact absurd hterm (Nat.succ_ne_self _)
  | grant _ hfree _ h => exact h.vote.trans (hfree.resolve_left hvote).symm
  | record _ _ _ h => exact h.vote
  | lose hm hstate hcur hlost _ =>
      refine absurd ⟨hstate, .inr ⟨hm, ?_, hlost⟩⟩ hback
      exact hcur.imp_right fun hge => Nat.le_antisymm hle hge
  | win _ _ _ _ h => exact h.vote

/-- A node that is in a later term after a call, and not a follower, has voted for itself. -/
theorem RoleStep.self_vote (h : RoleStep (s.observeTerm m) m s') (hterm : s.term < s'.term)
    (hstate : s'.state ≠ .stateFollower) : s'.vote = s'.id := by
  -- with the term observed, only a candidacy still raises it; otherwise the node is a follower
  have hfollower : s'.term = (s.observeTerm m).term → (s.observeTerm m).state = .stateFollower := by
    intro heq
    rcases observeTerm_cases s m with ⟨_, hobs⟩ | ⟨_, _, _, hobs, _⟩
    · rw [heq, hobs] at hterm
      exact absurd hterm (Nat.lt_irrefl _)
    · exact hobs
  cases h with
  | keep h => exact absurd (h.state.trans (hfollower h.term)) hstate
  | follow _ _ h =>
      have hobs := hfollower (h.term.trans fallback_term)
      have hfall : (s.observeTerm m).fallback m = s.observeTerm m :=
        fallback_of_ne (by rw [hobs]; decide)
      rw [hfall] at h
      exact absurd (h.state.trans hobs) hstate
  | campaign _ h => exact h.vote.trans h.id.symm
  | alone _ _ h => exact h.vote.trans h.id.symm
  | grant _ _ _ h => exact absurd (h.state.trans (hfollower h.term)) hstate
  | record _ hcand _ h => exact absurd ((hfollower h.term).symm.trans hcand) (by decide)
  | lose _ hcand _ _ h => exact absurd ((hfollower h.term).symm.trans hcand) (by decide)
  | win _ hcand _ _ h => exact absurd ((hfollower h.term).symm.trans hcand) (by decide)

/-- What one call does to the vote: it keeps a vote while the term stays, and a vote it casts is in
the term it leaves and for the node in `vote_`. -/
theorem call_vote (hadm : Admissible c) (hok : NoFallback s c) (hid : s.id ≠ NONE)
    (h : s.call rand c = some s') :
    s'.id = s.id ∧ s.term ≤ s'.term ∧ (s'.term = s.term → s.vote ≠ NONE → s'.vote = s.vote) ∧
      ∀ t v, Casts s (s'.msgs.drop s.msgs.length) s' t v → s'.term = t ∧ s'.vote = v ∧ v ≠ NONE := by
  obtain ⟨m, hm, hcore, ms, hmsgs, hms⟩ := call_outcome h
  obtain ⟨hsnap, hfrom⟩ := hm.admissible hadm
  have hrole := hcore.role hsnap
  have hle := (le_observeTerm s m).1.trans hrole.term_le
  have hid' : s'.id = s.id := hrole.id_eq.trans (observeTerm_id s m)
  refine ⟨hid', hle, ?_, ?_⟩
  · intro hterm hvote
    rcases observeTerm_cases s m with ⟨hmle, hobs⟩ | ⟨hlt, hobs, _⟩
    · rw [hobs] at hrole
      exact hrole.vote_eq (hm.not_fallsBack hok) hterm hmle hvote
    · have := hrole.term_le
      omega
  · intro t v hcast
    rw [hmsgs, observeTerm_msgs, List.drop_left] at hcast
    rcases hcast with ⟨x, hx, hgrant, hxt, hxv⟩ | ⟨hlt, hterm, hstate, rfl⟩
    · obtain ⟨hreq, _, _, hvote, _, _, hto, hterm⟩ := (hms x hx).grant_inv hsnap hgrant
      have hv : m.fromId = v := hto.symm.trans hxv
      exact ⟨hterm.symm.trans hxt, hvote.vote.trans hv, hv ▸ hfrom hreq⟩
    · have hself := hrole.self_vote (by rwa [hterm]) hstate
      exact ⟨hterm, hself, by rwa [hid']⟩

/-- What holds along a run: a vote cast in the current term is the one in `vote_`. -/
structure VoteInv (moves : List (Move RaftContext (Nat × Call))) (s : RaftContext) : Prop where
  idPos : s.id ≠ NONE
  cast : ∀ a ∈ moves, ∀ t v, Casts a.before (pushed a) a.after t v →
    t ≤ s.term ∧ (t = s.term → s.vote = v ∧ v ≠ NONE)
  unique : OneVotePerTerm moves

theorem VoteInv.step {moves : List (Move RaftContext (Nat × Call))} {e : Nat × Call}
    (hinv : VoteInv moves s) (hnext : CallNext NoFallback s e s') :
    VoteInv (⟨s, e, s'⟩ :: moves) s' := by
  obtain ⟨hadm, hok, hcall⟩ := hnext
  obtain ⟨hid, hle, hkeep, hnew⟩ := call_vote hadm hok hinv.idPos hcall
  have hcast : ∀ a ∈ (⟨s, e, s'⟩ :: moves : List (Move RaftContext (Nat × Call))), ∀ t v,
      Casts a.before (pushed a) a.after t v → t ≤ s'.term ∧ (t = s'.term → s'.vote = v ∧ v ≠ NONE) := by
    intro a ha t v hv
    rcases List.mem_cons.mp ha with rfl | ha
    · obtain ⟨hterm, hvote, hne⟩ := hnew t v hv
      exact ⟨hterm.ge, fun _ => ⟨hvote, hne⟩⟩
    · obtain ⟨hold, hcur⟩ := hinv.cast a ha t v hv
      refine ⟨hold.trans hle, fun heq => ?_⟩
      obtain ⟨hvote, hne⟩ := hcur (Nat.le_antisymm hold (heq ▸ hle))
      exact ⟨(hkeep (by omega) (hvote ▸ hne)).trans hvote, hne⟩
  refine ⟨by rw [hid]; exact hinv.idPos, hcast, ?_⟩
  -- a vote of the new call is in the current term, where all votes are the one in `vote_`
  have hboth : ∀ b ∈ (⟨s, e, s'⟩ :: moves : List (Move RaftContext (Nat × Call))), ∀ t v w,
      Casts s (s'.msgs.drop s.msgs.length) s' t v → Casts b.before (pushed b) b.after t w → v = w := by
    intro b hb t v w hv hw
    obtain ⟨hterm, hvote, _⟩ := hnew t v hv
    exact hvote.symm.trans ((hcast b hb t w hw).2 hterm.symm).1
  intro a ha b hb t v w hv hw
  rcases List.mem_cons.mp ha with rfl | ha'
  · exact hboth b hb t v w hv hw
  · rcases List.mem_cons.mp hb with rfl | hb'
    · exact (hboth a ha t w v hw hv).symm
    · exact hinv.unique a ha' b hb' t v w hv hw

/-- **One vote per term.** A node casts at most one vote in a term, in every sequence of calls in
which no candidate falls back to follower in its own term. -/
theorem one_vote_per_term {moves : List (Move RaftContext (Nat × Call))} {s : RaftContext}
    (hrun : Run Built (CallNext NoFallback) moves s) : OneVotePerTerm moves := by
  have hinv : VoteInv moves s := hrun.induct
    (fun s ⟨_, _, _, _, h⟩ => ⟨(new_spec h).id_ne, by simp, by simp [OneVotePerTerm]⟩)
    fun _ _ _ _ _ hinv hnext => hinv.step hnext
  exact hinv.unique

instance (s : RaftContext) (ms : List Message) (s' : RaftContext) (t v : Nat) :
    Decidable (Casts s ms s' t v) := inferInstanceAs (Decidable (_ ∨ _))

/-- `CallNext` as a function, for a condition that can be decided. -/
def callNext (ok : RaftContext → Call → Prop) [∀ s c, Decidable (ok s c)] (s : RaftContext)
    (e : Nat × Call) : Option ((Nat × Call) × RaftContext) :=
  if Admissible e.2 ∧ ok s e.2 then (s.call e.1 e.2).map (e, ·) else none

theorem callNext_spec {ok : RaftContext → Call → Prop} [∀ s c, Decidable (ok s c)]
    (s : RaftContext) (p e : Nat × Call) (s' : RaftContext) (h : callNext ok s p = some (e, s')) :
    CallNext ok s e s' := by
  unfold callNext at h
  split_ifs at h with hok
  obtain ⟨s₁, hcall, h⟩ := Option.map_eq_some_iff.mp h
  cases h
  exact ⟨hok.1, hok.2, hcall⟩

/-- The first node of a cluster of three. -/
def firstOfThree : Config :=
  { id := 1, peers := [1, 2, 3], electionTick := 10, heartbeatTick := 1, storage := .new }

theorem firstOfThree_built (s : RaftContext) (h : new firstOfThree 0 0 0 = some s) : Built s :=
  ⟨firstOfThree, 0, 0, 0, h⟩

/-- A candidacy and the answers of the two peers. -/
def candidacy (reject : Bool) : List (Nat × Call) :=
  [(0, .step { msgType := .msgHup }),
   (0, .step { msgType := .msgRequestVoteResponse, fromId := 2, toId := 1, term := 1, reject := reject }),
   (0, .step { msgType := .msgRequestVoteResponse, fromId := 3, toId := 1, term := 1, reject := reject })]

/-- A candidate that wins, and is then asked for its vote in the same term. -/
theorem one_vote_per_term_winner : ∃ moves s, Run Built (CallNext NoFallback) moves s ∧
    (∃ a ∈ moves, Casts a.before (pushed a) a.after 1 1) ∧ OneVotePerTerm moves := by
  have hplay : ((new firstOfThree 0 0 0).bind (play (callNext NoFallback) (candidacy false ++
      [(0, .step { msgType := .msgRequestVote, fromId := 2, toId := 1, term := 1 })]) [])).any
      (fun r => r.1.any fun a => Casts a.before (pushed a) a.after 1 1) = true := by
    decide +kernel
  obtain ⟨moves, s, hrun, hp⟩ := exists_run_of_play callNext_spec _ firstOfThree_built _ hplay
  simp only [List.any_eq_true, decide_eq_true_eq] at hp
  exact ⟨moves, s, hrun, hp, one_vote_per_term hrun⟩

/-- A candidate that loses its election votes for itself and, back to follower in the same term, for
a rival. -/
theorem not_one_vote_per_term_loser : ∃ moves s, Run Built (CallNext fun _ _ => True) moves s ∧
    ¬OneVotePerTerm moves := by
  have hplay : ((new firstOfThree 0 0 0).bind (play (callNext fun _ _ => True) (candidacy true ++
      [(0, .step { msgType := .msgRequestVote, fromId := 2, toId := 1, term := 1 })]) [])).any
      (fun r => (r.1.any fun a => Casts a.before (pushed a) a.after 1 1) &&
        r.1.any fun a => Casts a.before (pushed a) a.after 1 2) = true := by
    decide +kernel
  obtain ⟨moves, s, hrun, hp⟩ := exists_run_of_play callNext_spec _ firstOfThree_built _ hplay
  simp only [Bool.and_eq_true, List.any_eq_true, decide_eq_true_eq] at hp
  obtain ⟨⟨a, ha, hself⟩, b, hb, hrival⟩ := hp
  refine ⟨moves, s, hrun, fun hone => ?_⟩
  exact absurd (hone a ha b hb 1 1 2 hself hrival) (by decide)

end Eraft.RaftContext
