import Eraft.ConfMembers
import Eraft.ReadyRun

/-! The `next` of the peers of a leader, which `SendAppend` uses without a check. It is written from the
answers of followers and by membership changes. An answer of a follower that has its entries of the
leader's term from the leader keeps it inside the log; `AddNode` sets it to 6, whatever the log is. -/

open Std Runs TermLog

namespace Eraft

namespace RaftContext

/-- Every peer has a progress with a `next` inside the log or right behind it. -/
def NextInside (s : RaftContext) : Prop :=
  ∀ p ∈ s.peers, ∃ pr, s.progress p = some pr ∧ 1 ≤ pr.next ∧ pr.next ≤ s.raftLog.lastIndex + 1

theorem NextInside.sendAppend {s : RaftContext} {p : Nat} (h : s.NextInside) (hlog : s.raftLog.FromOne)
    (hp : p ∈ s.peers) : (s.sendAppend p).isSome = true := by
  obtain ⟨pr, hpr, hlo, hhi⟩ := h p hp
  have hprev : u64Sub pr.next 1 ≤ s.raftLog.entries.length := by
    rw [u64Sub_of_le hlo, ← hlog.lastIndex_eq]
    omega
  unfold RaftContext.sendAppend
  rw [hpr]
  dsimp only [Option.bind_eq_bind, Option.bind_some]
  rw [hlog.term_eq hprev]
  rfl

/-- A follower of the leader of term `t`, whose log is `L`: its log is a log, it knows the terms of its
entries, and those of term `t` are the leader's. -/
structure Genuine (t : Nat) (L : List Entry) (f : RaftContext) : Prop where
  fromOne : f.raftLog.FromOne
  sorted : Sorted Entry.term f.raftLog.entries
  lastTerm_le : lastTerm Entry.term f.raftLog.entries ≤ f.term
  fromLeader : ∀ (i : Nat) (e : Entry), f.raftLog.entries[i]? = some e → e.term = t → L[i]? = some e

/-- What the leader of term `t` with the log `L` has sent in its appends: its log at that time. -/
structure FromLog (t : Nat) (L : List Entry) (m : Message) : Prop where
  term : m.term = t
  carries : ∃ G, G <+: L ∧ lastTerm Entry.term G = t ∧ Carries m G

variable {s s' f f' : RaftContext} {m x : Message} {t : Nat} {L G : List Entry}

theorem FromLog.mono {L' : List Entry} (h : FromLog t L m) (hL : L <+: L') : FromLog t L' m := by
  obtain ⟨G, hG, hlast, hcarries⟩ := h.carries
  exact ⟨h.term, G, hG.trans hL, hlast, hcarries⟩

/-- A log that ends in the leader's term is no longer than the leader's. -/
theorem Genuine.length_le (hf : Genuine t L f) (hterm : f.term ≤ t) (hpos : 0 < t) {k : Nat}
    (hk : lastTerm Entry.term (f.raftLog.entries.take k) = t) : f.raftLog.entries.length ≤ L.length := by
  have hle := hf.sorted.lastTerm_le (List.take_prefix k f.raftLog.entries)
  have hlast : lastTerm Entry.term f.raftLog.entries = t := by
    have := hf.lastTerm_le
    omega
  have hne : f.raftLog.entries ≠ [] :=
    ne_nil_of_lastTerm_pos (show 0 < lastTerm Entry.term f.raftLog.entries by omega)
  rw [lastTerm, List.getLast?_eq_getLast_of_ne_nil hne, Option.map_some, Option.getD_some] at hlast
  have hget : f.raftLog.entries[f.raftLog.entries.length - 1]? = some (f.raftLog.entries.getLast hne) := by
    rw [← List.getLast?_eq_getElem?, List.getLast?_eq_getLast_of_ne_nil hne]
  obtain ⟨hlt, _⟩ := List.getElem?_eq_some_iff.mp (hf.fromLeader _ _ hget hlast)
  omega

/-- **A follower never gets ahead of its leader.** Where the append finds all its entries in the log, the
log ends in the leader's term, and its last entry is the leader's. -/
theorem Accepts.length_le (h : Accepts f m f') (hf : Genuine t L f) (hterm : f.term ≤ t) (hpos : 0 < t)
    (hL : Contiguous L) (hm : FromLog t L m) : f'.raftLog.entries.length ≤ L.length := by
  obtain ⟨G, hpre, hlast, hcarries⟩ := hm.carries
  have hne : G ≠ [] := ne_nil_of_lastTerm_pos (show 0 < lastTerm Entry.term G by rw [hlast]; exact hpos)
  have hG : Contiguous G := List.prefix_iff_eq_take.mp hpre ▸ hL.take _
  have hreach : m.index ≤ f.raftLog.entries.length := hf.fromOne.lastIndex_eq ▸ h.reach
  have hindex := hcarries.index
  have hentries := h.entries_eq hf.fromOne (hcarries.index_eq hG)
  rw [hcarries.entries] at hentries
  rcases @splice_cases _ Entry.term (f.raftLog.entries.drop m.index) (G.drop m.index) with
    hlen | ⟨hsame, hterms⟩
  · rw [hentries, List.length_append, hlen, List.length_take, List.length_drop, Nat.min_eq_left hreach]
    have := hpre.length_le
    omega
  · rw [hsame, List.take_append_drop] at hentries
    rw [hentries]
    rcases Nat.lt_or_eq_of_le hindex with hlt | hend
    · -- the last entry of the message
      have hget : (G.drop m.index)[G.length - 1 - m.index]? = some (G.getLast hne) := by
        rw [List.getElem?_drop, show m.index + (G.length - 1 - m.index) = G.length - 1 by omega,
          ← List.getLast?_eq_getElem?, List.getLast?_eq_getLast_of_ne_nil hne]
      have hfound := hterms _ _ hget
      rw [List.getElem?_drop, Option.map_eq_some_iff] at hfound
      obtain ⟨e, he, hterm'⟩ := hfound
      obtain ⟨hlt', rfl⟩ := List.getElem?_eq_some_iff.mp he
      refine hf.length_le hterm hpos (k := m.index + (G.length - 1 - m.index) + 1) ?_
      rw [lastTerm_take_succ hlt', hterm']
      rwa [lastTerm, List.getLast?_eq_getLast_of_ne_nil hne] at hlast
    · -- the entry in front of an empty message
      have hzero : 0 < m.index := by
        have := List.length_pos_of_ne_nil hne
        omega
      obtain ⟨found, hagrees⟩ := h.agrees (by rw [hf.fromOne.firstIndex]; exact hzero)
      rw [hf.fromOne.term_eq hreach, hcarries.logTerm, hend, List.take_length, hlast] at hagrees
      exact hf.length_le hterm hpos (congrArg Prod.fst (Option.some.inj hagrees))

/-! ### Answers -/

/-- A message that a follower of the leader of term `t` can get, when `sent` is what that leader has
sent: nobody else sends appends of this term. -/
structure Hears (t : Nat) (sent : List Message) (m : Message) : Prop where
  noSnapshot : m.msgType ≠ .msgSnapshot
  append : m.msgType = .msgAppend → m.term ≠ NONE ∧ (m.term = t → m ∈ sent)

/-- The message `x` is pushed by a genuine follower when it handles what it hears. -/
def Answers (t : Nat) (L : List Entry) (sent : List Message) (x : Message) : Prop :=
  ∃ f m rand f' ms, Genuine t L f ∧ Hears t sent m ∧ f.step m rand = some f' ∧
    f'.msgs = f.msgs ++ ms ∧ x ∈ ms

theorem Genuine.observe (h : Genuine t L f) (m : Message) : Genuine t L (f.observeTerm m) := by
  have hlog : (f.observeTerm m).raftLog = f.raftLog := observeTerm_raftLog f m
  refine ⟨hlog ▸ h.fromOne, hlog ▸ h.sorted, ?_, hlog ▸ h.fromLeader⟩
  rw [hlog]
  exact h.lastTerm_le.trans (le_observeTerm f m).1

theorem FromLog.regular (h : FromLog t L m) (hL : Contiguous L) (hm : m.msgType = .msgAppend) :
    Regular m := by
  obtain ⟨G, hpre, _, hcarries⟩ := h.carries
  have hG : Contiguous G := List.prefix_iff_eq_take.mp hpre ▸ hL.take _
  refine ⟨fun _ => map_index_iff.mpr fun i e he => ?_, fun hp => ?_, fun hs => ?_⟩
  · rw [hcarries.index_eq hG i e he]
    omega
  · cases hm.symm.trans hp
  · cases hm.symm.trans hs

/-- An append leaves the term as it is, once it was observed. -/
theorem CoreStep.term_of_append (h : CoreStep s m s') (hm : m.msgType = .msgAppend) :
    s'.term = s.term := by
  have hother : ∀ {ty : MessageType}, m.msgType = ty → ty ≠ .msgAppend → False :=
    fun hty hne => hne (hty.symm.trans hm)
  cases h with
  | same h => exact h.term
  | follow _ _ h => exact h.term.trans fallback_term
  | append _ h => exact h.term.trans fallback_term
  | campaign hm' | alone hm' => rcases hm' with hm' | hm' <;> exact (hother hm' (by decide)).elim
  | grant hm' | record hm' | lose hm' | win hm' | propose hm' | nack hm' | ack hm' | commit hm'
  | phantom hm' | snapshot hm' => exact (hother hm' (by decide)).elim

/-- An append response that means anything has a term, and if that is the leader's it points into the
leader's log. -/
def PointsInside (t : Nat) (L : List Entry) (x : Message) : Prop :=
  x.index = NONE ∨ (x.term ≠ NONE ∧ (x.term = t → x.index ≤ L.length))

/-- The index that a conflict is answered with is found in front of it. -/
theorem conflict_index_le {l : RaftLog} (hlog : l.FromOne) (i : Nat) (p : Entry → Bool) :
    (lastIdx p (l.entries.take (l.toSliceIndex (i + 1)))).getD 0 ≤ i := by
  rw [hlog.toSliceIndex_succ]
  cases hidx : lastIdx p (l.entries.take i) with
  | none => exact Nat.zero_le i
  | some k =>
      have hlt := lastIdx_lt hidx
      rw [List.length_take] at hlt
      rw [Option.getD_some]
      omega

/-- **Answers point into the leader's log.** -/
theorem Sent.pointsInside (h : Sent f m f' x) (hcore : CoreStep f m f') (hf : Genuine t L f)
    (hpos : 0 < t) (hL : Contiguous L) (hsnap : m.msgType ≠ .msgSnapshot)
    (hm : m.msgType = .msgAppend → Current f m →
      m.term ≠ NONE ∧ f.term = m.term ∧ (m.term = t → FromLog t L m))
    (hx : x.msgType = .msgAppendResponse) : PointsInside t L x := by
  -- the append it answers is the leader's own
  have hown : m.msgType = .msgAppend → Current f m → x.term = f'.term →
      (f.term = t → FromLog t L m → x.index ≤ L.length) → PointsInside t L x := by
    intro hty hcur hterm hindex
    obtain ⟨hne, hfm, hlog⟩ := hm hty hcur
    have hxf : x.term = f.term := hterm.trans (hcore.term_of_append hty)
    refine .inr ⟨by rw [hxf, hfm]; exact hne, fun hxt => ?_⟩
    have hft : f.term = t := hxf.symm.trans hxt
    exact hindex hft (hlog (hfm.symm.trans hft))
  have hindex : FromLog t L m → m.index ≤ L.length := by
    rintro ⟨_, G, hpre, _, hcarries⟩
    exact hcarries.index.trans hpre.length_le
  cases h with
  | accept hacc hx' _ =>
      subst hx'
      refine hown hacc.msgType hacc.current rfl fun hft hlog => ?_
      have hfrom := hcore.fromOne hf.fromOne (hlog.regular hL hacc.msgType)
      show f'.raftLog.lastIndex ≤ L.length
      rw [hfrom.lastIndex_eq]
      exact hacc.length_le hf hft.le hpos hL hlog
  | stale hx' =>
      subst hx'
      exact .inl rfl
  | beyond hty hcur _ hlt hx' =>
      subst hx'
      exact hown hty hcur rfl fun _ hlog => Nat.succ_le_of_lt (hlt.trans_le (hindex hlog))
  | @conflict u k found hty hcur _ _ _ _ _ hsearch hx' =>
      subst hx'
      have hk : k ≤ m.index := hsearch ▸ conflict_index_le hf.fromOne m.index _
      exact hown hty hcur rfl fun _ hlog => hk.trans (hindex hlog)
  | append hx' => cases hx'.msgType.symm.trans hx
  | transfer hty hx' =>
      subst hx'
      cases hty.symm.trans hx
  | confChange hty hx' =>
      subst hx'
      cases hty.symm.trans hx
  | snapshot hty => exact absurd hty hsnap
  | heartbeat hx' | requestVote hx' | heartbeatResponse hx' | timeoutNow hx' | refuse hx' =>
      subst hx'
      cases hx
  | grant _ _ hx' =>
      subst hx'
      cases hx

theorem Answers.pointsInside {sent : List Message} (h : Answers t L sent x) (hpos : 0 < t)
    (hL : Contiguous L) (hsent : ∀ m ∈ sent, m.msgType = .msgAppend → FromLog t L m)
    (hx : x.msgType = .msgAppendResponse) : PointsInside t L x := by
  obtain ⟨f, m, rand, f', ms, hf, hhears, hstep, hms, hmem⟩ := h
  rcases step_outcome hstep with ⟨hcore, ms', hms', hpushed⟩ | ⟨rfl, _⟩
  · rw [observeTerm_msgs, hms, List.append_cancel_left_eq] at hms'
    subst hms'
    refine (hpushed x hmem).pointsInside hcore (hf.observe m) hpos hL hhears.noSnapshot ?_ hx
    intro hty hcur
    obtain ⟨hne, hown⟩ := hhears.append hty
    exact ⟨hne, hcur.term_eq hne, fun hmt => hsent m (hown hmt) hty⟩
  · rw [List.self_eq_append_right] at hms
    rw [hms] at hmem
    exact absurd hmem List.not_mem_nil

/-! ### The leader -/

theorem NextInside.of_prs (h : NextInside s) (hprs : s'.prs = s.prs)
    (hlast : s.raftLog.lastIndex ≤ s'.raftLog.lastIndex) : NextInside s' := by
  intro p hp
  rw [peers, hprs] at hp
  obtain ⟨pr, hpr, hlo, hhi⟩ := h p hp
  refine ⟨pr, ?_, hlo, by omega⟩
  rw [progress, hprs]
  exact hpr

theorem NextInside.setProgress (h : NextInside s) {p : Nat} {pr : Progress} (hlo : 1 ≤ pr.next)
    (hhi : pr.next ≤ s.raftLog.lastIndex + 1) : NextInside (s.setProgress p pr) := by
  intro q hq
  rw [progress_setProgress]
  by_cases heq : p = q
  · rw [if_pos heq]
    exact ⟨pr, rfl, hlo, hhi⟩
  · rw [if_neg heq]
    refine h q ?_
    rw [mem_peers, RaftContext.setProgress, ExtTreeMap.mem_insert, Nat.compare_eq_eq] at hq
    exact mem_peers.mpr (hq.resolve_left heq)

/-- Where a rejection that points into the log leads to is inside the log. -/
theorem rejectHint_le (hlog : s.raftLog.FromOne) (hx : x.index ≤ s.raftLog.entries.length)
    (hne : x.index ≠ NONE) {k : Nat} (h : s.rejectHint x = some k) :
    1 ≤ k ∧ k ≤ s.raftLog.entries.length := by
  have hpos : 1 ≤ x.index := Nat.one_le_iff_ne_zero.mpr hne
  unfold rejectHint at h
  split_ifs at h
  · obtain ⟨i, hi, h⟩ := Option.bind_eq_some_iff.mp h
    split_ifs at h
    · obtain ⟨e, _, h⟩ := Option.bind_eq_some_iff.mp h
      split_ifs at h <;> cases h
      · have hlt := lastIdx_lt hi
        rw [RaftLog.toEntryIndex, hlog.firstIndex]
        omega
      · exact ⟨hpos, hx⟩
    · cases h
      exact ⟨hpos, hx⟩
  · cases h
    exact ⟨hpos, hx⟩

/-- A leader of term `t` that has sent `sent`. -/
structure Leads (t : Nat) (sent : List Message) (s : RaftContext) : Prop where
  term : s.term = t
  fromOne : s.raftLog.FromOne
  ends : lastTerm Entry.term s.raftLog.entries = t
  next : NextInside s
  sent : ∀ m ∈ sent, m.msgType = .msgAppend → FromLog t s.raftLog.entries m

/-- The messages a leader handles here: answers that point into its log, proposals of one entry and its
own timers. -/
structure Expected (s : RaftContext) (m : Message) : Prop where
  msgType : m.msgType = .msgHup ∨ m.msgType = .msgBeat ∨ m.msgType = .msgPropose ∨
    m.msgType = .msgAppendResponse ∨ m.msgType = .msgHeartbeatResponse ∨
    m.msgType = .msgRequestVoteResponse
  hup : m.msgType = .msgHup → m.term = NONE
  propose : m.msgType = .msgPropose → m.entries.length = 1
  index : m.msgType = .msgAppendResponse → PointsInside s.term s.raftLog.entries m

variable {sent : List Message}

theorem Expected.regular (h : Expected s m) : Regular m := by
  refine ⟨fun hty => ?_, h.propose, fun hty => ?_⟩ <;>
  · have := h.msgType
    rw [hty] at this
    simp at this

theorem Expected.ne {ty : MessageType} (h : Expected s m)
    (hty : ty ∉ [.msgHup, .msgBeat, .msgPropose, .msgAppendResponse, .msgHeartbeatResponse,
      .msgRequestVoteResponse]) : m.msgType ≠ ty := by
  rintro rfl
  have hcases := h.msgType
  simp only [List.mem_cons, List.not_mem_nil, or_false] at hty
  exact hty hcases

/-- A leader that hears of a later term is none afterwards. -/
theorem Expected.not_later (h : Expected s m) (hcore : CoreStep (s.observeTerm m) m s')
    (hstate' : s'.state = .stateLeader) : s.observeTerm m = s := by
  rcases observeTerm_cases s m with ⟨_, heq⟩ | ⟨hlt, _, _, hfollower, _⟩
  · exact heq
  · have hne : (s.observeTerm m).state ≠ .stateLeader := by rw [hfollower]; decide
    exfalso
    cases hcore with
    | same h => exact hne (h.state.symm.trans hstate')
    | follow hm' => rcases hm' with hm' | hm' <;> exact h.ne (by decide) hm'
    | append hacc => exact h.ne (by decide) hacc.msgType
    | campaign hm' | alone hm' =>
        rcases hm' with hm' | hm'
        · rw [h.hup hm'] at hlt
          exact Nat.not_lt_zero _ hlt
        · exact h.ne (by decide) hm'
    | grant hm' | phantom hm' | snapshot hm' => exact h.ne (by decide) hm'
    | record _ hc | lose _ hc | win _ hc => cases hfollower.symm.trans hc
    | propose _ hl | nack _ hl | ack _ hl | commit _ hl => exact hne hl

/-- A proposal adds at most one entry, which is of the leader's term. -/
theorem Leads.propose (h : Leads t sent s) (hone : m.entries.length = 1) (hfrom : s'.raftLog.FromOne)
    (hs : SameCore (s.proposed m.entries) s') :
    NextInside s' ∧ s'.term = t ∧ s.raftLog.entries <+: s'.raftLog.entries ∧
      lastTerm Entry.term s'.raftLog.entries = t := by
  obtain ⟨_, added, hloop, hlen, hadded⟩ := proposeLoop_spec s.raftLog.lastIndex m.entries s
  rw [hone] at hlen
  have hentries : s'.raftLog.entries = s.raftLog.entries ++ added := by
    rw [hs.raftLog]
    show (proposeLoop s.raftLog.lastIndex m.entries s).raftLog.entries = _
    rw [hloop.raftLog]
  have hlast : s'.raftLog.lastIndex = (proposeLoop s.raftLog.lastIndex m.entries s).raftLog.lastIndex := by
    rw [hs.raftLog]
    rfl
  have hmore : s.raftLog.lastIndex ≤ s'.raftLog.lastIndex := by
    rw [h.fromOne.lastIndex_eq, hfrom.lastIndex_eq, hentries, List.length_append]
    exact Nat.le_add_right _ _
  have hnext : NextInside (proposeLoop s.raftLog.lastIndex m.entries s) :=
    h.next.of_prs hloop.prs (hlast ▸ hmore)
  refine ⟨(hnext.setProgress (Nat.le_add_left 1 _) le_rfl).of_prs hs.prs hlast.ge,
    (hs.term.trans hloop.term).trans h.term, ?_, ?_⟩
  · rw [hentries]
    exact List.prefix_append _ _
  · rw [hentries]
    match added, hlen, hadded with
    | [], _, _ => rw [List.append_nil]; exact h.ends
    | [e], _, hadded =>
        rw [lastTerm_concat, (hadded e (List.mem_singleton.mpr rfl)).1]
        exact h.term

/-- An append carries the log of the leader that sends it. -/
theorem AppendOf.fromLog (h : AppendOf s x) (hlog : s.raftLog.FromOne) (hterm : s.term = t)
    (hends : lastTerm Entry.term s.raftLog.entries = t) (hpos : 0 < t) :
    FromLog t s.raftLog.entries x := by
  have hne : s.raftLog.entries ≠ [] :=
    ne_nil_of_lastTerm_pos (show 0 < lastTerm Entry.term s.raftLog.entries by rw [hends]; exact hpos)
  exact ⟨h.term.trans hterm, _, List.prefix_rfl, hends, h.carries hlog hne⟩

/-- The `next` and the log after a leader has handled an expected message. -/
theorem Leads.core (h : Leads t sent s) (hm : Expected s m) (hle : m.term ≤ s.term)
    (hcore : CoreStep s m s') (hstate : s.state = .stateLeader) :
    NextInside s' ∧ s'.term = t ∧ s.raftLog.entries <+: s'.raftLog.entries ∧
      lastTerm Entry.term s'.raftLog.entries = t := by
  have hfrom := hcore.fromOne h.fromOne hm.regular
  have hlast := h.fromOne.lastIndex_eq
  have hkeep : ∀ {u : RaftContext}, SameCore u s' → NextInside u → u.term = s.term →
      u.raftLog.entries = s.raftLog.entries →
      NextInside s' ∧ s'.term = t ∧ s.raftLog.entries <+: s'.raftLog.entries ∧
        lastTerm Entry.term s'.raftLog.entries = t := by
    intro u hu hnext hterm hentries
    have hentries' : s'.raftLog.entries = s.raftLog.entries := by rw [hu.raftLog, hentries]
    refine ⟨hnext.of_prs hu.prs (by rw [hu.raftLog]), hu.term.trans (hterm.trans h.term), ?_, ?_⟩
    · rw [hentries']
    · rw [hentries']
      exact h.ends
  -- an answer that is used points into the log
  have hpoints : m.msgType = .msgAppendResponse → Current s m → m.index ≠ NONE →
      m.index ≤ s.raftLog.entries.length := by
    intro hresponse hcur hne
    obtain ⟨hterm, hindex⟩ := (hm.index hresponse).resolve_left hne
    exact hindex (Nat.le_antisymm hle (hcur.resolve_left hterm))
  have hack : ∀ {pr : Progress}, m.msgType = .msgAppendResponse → Current s m → pr.matchIdx < m.index →
      NextInside (s.setProgress m.fromId { matchIdx := m.index, next := m.index + 1 }) := by
    intro pr hresponse hcur hlt
    refine h.next.setProgress (Nat.le_add_left 1 _) (Nat.succ_le_succ ?_)
    rw [hlast]
    exact hpoints hresponse hcur (Nat.ne_of_gt (Nat.zero_lt_of_lt hlt))
  cases hcore with
  | same hs => exact hkeep hs h.next rfl rfl
  | nack hresponse _ hcur _ hne hhint _ hs =>
      have hk := rejectHint_le h.fromOne (hpoints hresponse hcur hne) hne hhint
      refine hkeep hs (h.next.setProgress hk.1 ?_) rfl rfl
      rw [hlast]
      exact hk.2.trans (Nat.le_succ _)
  | ack hresponse _ hcur _ _ hlt hs => exact hkeep hs (hack hresponse hcur hlt) rfl rfl
  | commit hresponse _ hcur _ _ hlt _ hs =>
      exact hkeep hs ((hack hresponse hcur hlt).of_prs rfl le_rfl) rfl rfl
  | propose hpropose _ hs => exact h.propose (hm.propose hpropose) hfrom hs
  | follow hm' => rcases hm' with hm' | hm' <;> exact absurd hm' (hm.ne (by decide))
  | append hacc => exact absurd hacc.msgType (hm.ne (by decide))
  | grant hm' | phantom hm' | snapshot hm' => exact absurd hm' (hm.ne (by decide))
  | campaign _ hne | alone _ hne => exact absurd hstate hne
  | record _ hc | lose _ hc | win _ hc => cases hstate.symm.trans hc

/-- **One call of a leader.** -/
theorem Leads.step (h : Leads t sent s) (hm : Expected s m) (hstate : s.state = .stateLeader)
    (hout : Outcome (s.observeTerm m) m s') (hstate' : s'.state = .stateLeader) (hpos : 0 < t) :
    ∃ ms, s'.msgs = s.msgs ++ ms ∧ Leads t (sent ++ ms) s' := by
  obtain ⟨hcore, ms, hms, hpushed⟩ := hout
  have hsame := hm.not_later hcore hstate'
  have hle : m.term ≤ s.term := hsame ▸ (le_observeTerm s m).2
  rw [hsame] at hcore hms hpushed
  obtain ⟨hnext, hterm, hpre, hends⟩ := h.core hm hle hcore hstate
  have hfrom := hcore.fromOne h.fromOne hm.regular
  refine ⟨ms, hms, hterm, hfrom, hends, hnext, fun x hx hxm => ?_⟩
  rcases List.mem_append.mp hx with hx | hx
  · exact (h.sent x hx hxm).mono hpre
  · have hconf : m.msgType ≠ .msgEntryConfChange := by
      intro hty
      have := hm.msgType
      rw [hty] at this
      simp at this
    obtain ⟨happend, _⟩ := (hpushed x hx).append_inv ⟨hm.regular.noSnapshot, hconf⟩ hxm
    exact happend.fromLog hfrom hterm hends hpos

theorem addNode_core (s : RaftContext) (id : Nat) :
    (s.addNode id).term = s.term ∧ (s.addNode id).raftLog = s.raftLog ∧ (s.addNode id).msgs = s.msgs := by
  unfold addNode
  cases s.progress id <;> exact ⟨rfl, rfl, rfl⟩

/-- A member can always be added again, a new one if the log has at least five entries. -/
theorem Leads.addNode (h : Leads t sent s) {id : Nat}
    (hid : id ∈ s.peers ∨ 5 ≤ s.raftLog.lastIndex) : Leads t sent (s.addNode id) := by
  obtain ⟨hterm, hlog, _⟩ := addNode_core s id
  have hprs := addNode_prs s id
  refine ⟨hterm.trans h.term, hlog ▸ h.fromOne, hlog ▸ h.ends, ?_, hlog ▸ h.sent⟩
  cases hpr : s.progress id with
  | none =>
      have hlast : 5 ≤ s.raftLog.lastIndex := by
        refine hid.resolve_left fun hmem => ?_
        obtain ⟨pr, hpr', _⟩ := h.next id hmem
        cases hpr.symm.trans hpr'
      rw [hpr] at hprs
      have hnew : NextInside (s.setProgress id { next := 6 }) :=
        h.next.setProgress (by decide) (Nat.succ_le_succ hlast)
      exact hnew.of_prs hprs (by rw [hlog]; rfl)
  | some pr =>
      rw [hpr] at hprs
      exact h.next.of_prs hprs (by rw [hlog])

theorem NextInside.erase (h : NextInside s) (id : Nat) : NextInside (s.erase id) := by
  intro p hp
  rw [mem_peers, RaftContext.erase, ExtTreeMap.mem_erase] at hp
  obtain ⟨pr, hpr, hrange⟩ := h p (mem_peers.mpr hp.2)
  refine ⟨pr, ?_, hrange⟩
  rw [progress, RaftContext.erase, ExtTreeMap.getElem?_erase, if_neg hp.1]
  exact hpr

/-- Removing a member leaves the other ones as they are. -/
theorem Leads.removeNode (h : Leads t sent s) (hpos : 0 < t) {id : Nat} (hid : id ∈ s.peers)
    (hremove : s.removeNode id = some s') : ∃ ms, s'.msgs = s.msgs ++ ms ∧ Leads t (sent ++ ms) s' := by
  obtain ⟨pr, hpr, _⟩ := h.next id hid
  have hnext := h.next.erase id
  have hquiet : ∃ ms, s.msgs = s.msgs ++ ms ∧
      Leads t (sent ++ ms) { s.erase id with pendingConfIndex := NONE } := by
    refine ⟨[], (List.append_nil _).symm, h.term, h.fromOne, h.ends, hnext.of_prs rfl le_rfl, ?_⟩
    rw [List.append_nil]
    exact h.sent
  rw [removeNode_of_some hpr] at hremove
  obtain ⟨u, hu, rfl⟩ := Option.map_eq_some_iff.mp hremove
  split_ifs at hu
  · rcases leaderCommit_spec hu with rfl | ⟨k, ms, _, rfl, hms⟩
    · exact hquiet
    · have hfrom : ({ s.raftLog with commited := k } : RaftLog).FromOne := h.fromOne.commit
      refine ⟨ms, rfl, h.term, hfrom, h.ends, hnext.of_prs rfl le_rfl, fun x hx hxm => ?_⟩
      rcases List.mem_append.mp hx with hx | hx
      · exact h.sent x hx hxm
      · exact (hms x hx).1.fromLog hfrom h.term h.ends hpos
  · cases hu
    exact hquiet

/-- A new leader sets every `next` to the end of its old log. -/
theorem NextInside.elected (hall : s.prs.toList.all (·.2.isSome)) (hcore : SameCore s.elected s')
    (hlast : s'.raftLog.lastIndex = s.raftLog.lastIndex + 1) : NextInside s' := by
  intro p hp
  rw [peers, hcore.prs] at hp
  have hp' : p ∈ s.leaderState.peers := hp
  rw [peers_leaderState, mem_peers, ExtTreeMap.mem_iff_isSome_getElem?, Option.isSome_iff_exists] at hp'
  obtain ⟨v, hv⟩ := hp'
  have hsome := List.all_eq_true.mp hall (p, v) (ExtTreeMap.mem_toList_iff_getElem?_eq_some.mpr hv)
  obtain ⟨pr, hpr⟩ := Option.isSome_iff_exists.mp hsome
  have hprogress : s.progress p = some pr := by
    rw [progress, hv]
    exact hpr
  have hled := progress_leaderState s p
  rw [hprogress, Option.map_some] at hled
  have hprogress' : s'.progress p = s.leaderState.progress p := by
    rw [progress, hcore.prs]
    rfl
  refine ⟨_, hprogress'.trans hled, ?_⟩
  rw [hlast]
  split_ifs <;> dsimp only <;> omega

/-- **A new leader** starts with every `next` at the end of its old log. -/
theorem Leads.elected (hlog : s.raftLog.FromOne) (hlead : s.becomeLeader = some s') :
    ∃ ms, s'.msgs = s.msgs ++ ms ∧ Leads s.term ms s' := by
  obtain ⟨hcore, ms, hms, hpushed⟩ := becomeLeader_spec hlead
  unfold becomeLeader at hlead
  split_ifs at hlead with hall
  have hentries : s'.raftLog.entries = s.raftLog.entries ++ [s.noopEntry] := by
    rw [hcore.raftLog]
    rfl
  have hends : lastTerm Entry.term s'.raftLog.entries = s.term := by
    rw [hentries, lastTerm_concat]
    rfl
  have hfrom : s'.raftLog.FromOne := by
    rw [hcore.raftLog]
    refine hlog.concat ?_
    show s.raftLog.lastIndex + 1 = _
    rw [hlog.lastIndex_eq]
  have hlast : s'.raftLog.lastIndex = s.raftLog.lastIndex + 1 := by
    rw [hfrom.lastIndex_eq, hentries, List.length_append, List.length_singleton, hlog.lastIndex_eq]
  refine ⟨ms, hms, hcore.term, hfrom, hends, .elected hall hcore hlast, fun x hx _ => ?_⟩
  have hne : s'.raftLog.entries ≠ [] := by
    rw [hentries]
    simp
  have happend := (hpushed x hx).1
  exact ⟨happend.term.trans hcore.term, _, List.prefix_rfl, hends, happend.carries hfrom hne⟩

end RaftContext

/-! ### Runs of a leader -/

/-- A leader, and what it has sent since it was elected. -/
structure Leader where
  node : RawNode
  sent : List Message

/-- What happens to a leader: a proposal, a tick, an answer of a peer or a membership change. -/
inductive LeaderAct where
  | propose (entryType : EntryType) (data : Bytes) (rand : Nat)
  | tick (rand : Nat)
  | answer (m : Message) (rand : Nat)
  | confChange (cc : ConfChange)

namespace Leader

open RaftContext

/-- After each call the messages of the node are read and sent. -/
def took (w : Leader) (n : RawNode) : Leader where
  node := { n with raft := n.raft.readMessage.2 }
  sent := w.sent ++ n.raft.readMessage.1

def run (n : RawNode) : LeaderAct → Option RawNode
  | .propose entryType data rand => n.proposeEntry entryType data rand
  | .tick rand => n.tick rand
  | .answer m rand => n.step m rand
  | .confChange cc => (n.applyConfChange cc).map Prod.snd

/-- The answers of peers are responses of genuine followers. -/
def Possible (w : Leader) : LeaderAct → Prop
  | .answer x _ => Answers w.node.raft.term w.node.raft.raftLog.entries w.sent x ∧
      (x.msgType = .msgAppendResponse ∨ x.msgType = .msgHeartbeatResponse ∨
        x.msgType = .msgRequestVoteResponse)
  | _ => True

/-- The steps of a node as long as it leads. -/
def Next (ok : RawNode → LeaderAct → Prop) (w : Leader) (a : LeaderAct) (w' : Leader) : Prop :=
  w.node.raft.state = .stateLeader ∧ ok w.node a ∧ w.Possible a ∧ ∃ n, run w.node a = some n ∧ w' = w.took n

/-- A node that has just been elected: its log starts at index 1 and `BecomeLeader` has run. -/
def Elected (w : Leader) : Prop :=
  ∃ (s raft : RaftContext) (prevHardSt : HardState), s.raftLog.FromOne ∧ 0 < s.term ∧ s.msgs = [] ∧
    s.becomeLeader = some raft ∧
    w = took ⟨⟨raft, prevHardSt⟩, []⟩ ⟨raft, prevHardSt⟩

/-- Only members are removed, and new members are added only to a log of at least five entries. -/
def InRange (n : RawNode) : LeaderAct → Prop
  | .confChange ⟨.addNode, peer⟩ => peer ∈ n.raft.peers ∨ 5 ≤ n.raft.raftLog.lastIndex
  | .confChange ⟨.removeNode, peer⟩ => peer ∈ n.raft.peers
  | _ => True

/-- What holds as long as the node leads. -/
structure Inv (w : Leader) : Prop where
  idle : w.node.raft.msgs = []
  leads : w.node.raft.state = .stateLeader → 0 < w.node.raft.term ∧ Leads w.node.raft.term w.sent w.node.raft

variable {w w' : Leader} {n : RawNode} {moves : List (Move Leader LeaderAct)}

theorem Leads.drain {t : Nat} {sent : List Message} {s : RaftContext} (h : Leads t sent s) :
    Leads t sent s.readMessage.2 :=
  ⟨h.term, h.fromOne, h.ends, h.next.of_prs rfl le_rfl, h.sent⟩

/-- The node has made a step in which it has stayed leader. -/
theorem Inv.took {t : Nat} (hidle : w.node.raft.msgs = []) (hpos : 0 < t)
    (h : n.raft.state = .stateLeader →
      ∃ ms, n.raft.msgs = w.node.raft.msgs ++ ms ∧ Leads t (w.sent ++ ms) n.raft) :
    Inv (w.took n) := by
  refine ⟨rfl, fun hstate => ?_⟩
  obtain ⟨ms, hms, hleads⟩ := h hstate
  rw [hidle, List.nil_append] at hms
  have hterm : (w.took n).node.raft.term = t := hleads.term
  rw [hterm]
  refine ⟨hpos, ?_⟩
  show Leads t (w.sent ++ n.raft.msgs) n.raft.readMessage.2
  rw [hms]
  exact Leads.drain hleads

theorem Elected.inv (h : Elected w) : Inv w := by
  obtain ⟨s, raft, prevHardSt, hlog, hpos, hmsgs, hlead, rfl⟩ := h
  obtain ⟨ms, hms, hleads⟩ := Leads.elected hlog hlead
  refine ⟨rfl, fun _ => ?_⟩
  have hterm : raft.term = s.term := hleads.term
  rw [hmsgs, List.nil_append] at hms
  show 0 < raft.term ∧ Leads raft.term ([] ++ raft.msgs) raft.readMessage.2
  rw [hterm, hms, List.nil_append]
  exact ⟨hpos, Leads.drain hleads⟩

theorem Inv.call {c : Call} {rand : Nat} (h : Inv w) (hstate : w.node.raft.state = .stateLeader)
    (hm : ∀ m, Handled c m → Expected w.node.raft m) (hcall : w.node.call rand c = some n) :
    Inv (w.took n) := by
  obtain ⟨hpos, hleads⟩ := h.leads hstate
  obtain ⟨m, hhandled, hout⟩ := call_outcome (RawNode.call_spec hcall).1
  exact .took h.idle hpos fun hstate' => hleads.step (hm m hhandled) hstate hout hstate' hpos

/-- **A step of a leader** leaves every `next` inside its log. -/
theorem Next.inv {a : LeaderAct} (h : Inv w) (hnext : Next InRange w a w') : Inv w' := by
  obtain ⟨hstate, hok, hpossible, n, hrun, rfl⟩ := hnext
  obtain ⟨hpos, hleads⟩ := h.leads hstate
  cases a with
  | propose entryType data rand =>
      refine h.call (c := .step _) hstate (fun m hm => ?_) hrun
      cases hm with
      | step => exact ⟨by simp, nofun, fun _ => rfl, nofun⟩
      | ignored _ hty => cases hty
  | tick rand =>
      refine h.call (c := .tick) hstate (fun m hm => ?_) hrun
      cases hm with
      | hup => exact ⟨by simp, fun _ => rfl, nofun, nofun⟩
      | beat => exact ⟨by simp, nofun, nofun, nofun⟩
  | answer x rand =>
      obtain ⟨hanswers, hty⟩ := hpossible
      refine h.call (c := .step x) hstate (fun m hm => ?_) hrun
      cases hm with
      | step =>
          refine ⟨by tauto, fun hhup => ?_, fun hpropose => ?_, fun hresponse => ?_⟩
          · rw [hhup] at hty
            simp at hty
          · rw [hpropose] at hty
            simp at hty
          · exact hanswers.pointsInside hpos hleads.fromOne.contiguous hleads.sent hresponse
      | ignored _ hty' =>
          rw [hty'] at hty
          simp at hty
  | confChange cc =>
      obtain ⟨⟨confState, n'⟩, happly, rfl⟩ := Option.map_eq_some_iff.mp hrun
      refine .took h.idle hpos fun _ => ?_
      obtain ⟨ty, peer⟩ := cc
      rcases RawNode.applyConfChange_spec happly with ⟨hty, hraft⟩ | ⟨hty, hraft⟩
      · cases hty
        show ∃ ms, n'.raft.msgs = _ ∧ _
        rw [hraft]
        refine ⟨[], ?_, ?_⟩
        · rw [(addNode_core _ _).2.2, List.append_nil]
        · rw [List.append_nil]
          exact hleads.addNode hok
      · cases hty
        exact hleads.removeNode hpos hok hraft

/-- **`next` stays inside the log.** In every state of a run in which a node leads, the `next` of every
peer points into its log or right behind it, and an append to the peer can be sent. -/
theorem next_stays_inside (hrun : Run Elected (Next InRange) moves w)
    (hstate : w.node.raft.state = .stateLeader) :
    w.node.raft.NextInside ∧ ∀ p ∈ w.node.raft.peers, (w.node.raft.sendAppend p).isSome = true := by
  have hinv : Inv w := Run.induct (I := fun _ w => Inv w) (fun _ h => h.inv)
    (fun _ _ _ _ _ h hnext => hnext.inv h) hrun
  obtain ⟨_, hleads⟩ := hinv.leads hstate
  exact ⟨hleads.next, fun p hp => hleads.next.sendAppend hleads.fromOne hp⟩

instance : ∀ n a, Decidable (InRange n a)
  | n, .confChange ⟨.addNode, peer⟩ =>
      inferInstanceAs (Decidable (peer ∈ n.raft.peers ∨ 5 ≤ n.raft.raftLog.lastIndex))
  | n, .confChange ⟨.removeNode, peer⟩ => inferInstanceAs (Decidable (peer ∈ n.raft.peers))
  | _, .propose _ _ _ => inferInstanceAs (Decidable True)
  | _, .tick _ => inferInstanceAs (Decidable True)
  | _, .answer _ _ => inferInstanceAs (Decidable True)

/-- A script proposes, changes the membership, or lets a follower with an empty log answer the first
append that was sent to it. -/
inductive Turn where
  | propose
  | confChange (cc : ConfChange)
  | hear (follower : Nat)

/-- The answer of a follower with an empty log. -/
def hear (w : Leader) (i : Nat) : Option Message := do
  let m ← w.sent.find? fun m => m.msgType == .msgAppend && (m.toId == i && m.term != NONE)
  let f ← (Cluster.bootNode [1, 2, 3] i).step m 0
  f.msgs.getLast?

def Turn.act (w : Leader) : Turn → Option LeaderAct
  | .propose => some (.propose .entryNormal [] 0)
  | .confChange cc => some (.confChange cc)
  | .hear i => ((w.hear i).filter fun x => x.msgType == .msgAppendResponse).map (.answer · 0)

def turn (ok : RawNode → LeaderAct → Prop) [∀ n a, Decidable (ok n a)] (w : Leader) (p : Turn) :
    Option (LeaderAct × Leader) :=
  (p.act w).bind fun a =>
    if w.node.raft.state = .stateLeader ∧ ok w.node a then (run w.node a).map fun n => (a, w.took n)
    else none

theorem bootNode_genuine (peers : List Nat) (i t : Nat) (L : List Entry) :
    Genuine t L (Cluster.bootNode peers i) :=
  ⟨⟨rfl, nofun, fun _ => rfl, rfl, rfl⟩, .nil, Nat.zero_le _, nofun⟩

theorem hear_answers {i t : Nat} {L : List Entry} {x : Message} (h : w.hear i = some x) :
    Answers t L w.sent x := by
  obtain ⟨m, hm, h⟩ := Option.bind_eq_some_iff.mp h
  obtain ⟨f', hf', h⟩ := Option.bind_eq_some_iff.mp h
  have htest := List.find?_some hm
  simp only [Bool.and_eq_true, beq_iff_eq, bne_iff_ne] at htest
  refine ⟨_, m, 0, f', f'.msgs, bootNode_genuine _ i t L, ⟨by rw [htest.1]; decide,
    fun _ => ⟨htest.2.2, fun _ => List.mem_of_find?_eq_some hm⟩⟩, hf', rfl, ?_⟩
  exact List.mem_of_getLast? h

theorem turn_spec {ok : RawNode → LeaderAct → Prop} [∀ n a, Decidable (ok n a)] (w : Leader) (p : Turn)
    (a : LeaderAct) (w' : Leader) (h : turn ok w p = some (a, w')) : Next ok w a w' := by
  obtain ⟨a', ha', h⟩ := Option.bind_eq_some_iff.mp h
  split_ifs at h with hok
  obtain ⟨n, hn, h⟩ := Option.map_eq_some_iff.mp h
  cases h
  refine ⟨hok.1, hok.2, ?_, n, hn, rfl⟩
  cases p with
  | propose =>
      cases ha'
      exact trivial
  | confChange cc =>
      cases ha'
      exact trivial
  | hear i =>
      obtain ⟨x, hx, ha'⟩ := Option.map_eq_some_iff.mp ha'
      cases ha'
      obtain ⟨hx, hty⟩ := Option.filter_eq_some_iff.mp hx
      exact ⟨hear_answers hx, .inl (beq_iff_eq.mp hty)⟩

/-- The first of three nodes, with the votes of a majority in term 1. -/
def candidate : RaftContext := { Cluster.bootNode [1, 2, 3] 1 with term := 1, vote := 1 }

def start : Option Leader := candidate.becomeLeader.map fun raft => took ⟨⟨raft, {}⟩, []⟩ ⟨raft, {}⟩

theorem start_elected (w : Leader) (h : start = some w) : Elected w := by
  obtain ⟨raft, hraft, rfl⟩ := Option.map_eq_some_iff.mp h
  exact ⟨candidate, raft, {}, ⟨rfl, nofun, fun _ => rfl, rfl, rfl⟩, Nat.one_pos, rfl, hraft, rfl⟩

/-- A leader that has five entries, one of them acknowledged, gets a fourth node and loses the third. -/
theorem next_stays_inside_swap : ∃ moves w, Run Elected (Next InRange) moves w ∧
    w.node.raft.prs.keys = [1, 2, 4] ∧ w.node.raft.NextInside := by
  have hplay : (start.bind (play (turn InRange) [.hear 2, .propose, .propose, .propose, .propose,
      .confChange ⟨.addNode, 4⟩, .confChange ⟨.removeNode, 3⟩] [])).any
      (fun r => r.2.node.raft.state == .stateLeader && r.2.node.raft.prs.keys == [1, 2, 4]) = true := by
    decide +kernel
  obtain ⟨moves, w, hrun, hp⟩ := exists_run_of_play turn_spec _ start_elected _ hplay
  obtain ⟨hstate, hkeys⟩ := Bool.and_eq_true_iff.mp hp
  exact ⟨moves, w, hrun, beq_iff_eq.mp hkeys, (next_stays_inside hrun (beq_iff_eq.mp hstate)).1⟩

/-- A leader with one entry gets a fourth node: an append to it cannot be sent. -/
theorem not_next_stays_inside_new : ∃ moves w pr, Run Elected (Next fun _ _ => True) moves w ∧
    w.node.raft.state = .stateLeader ∧ w.node.raft.progress 4 = some pr ∧
    w.node.raft.raftLog.lastIndex + 1 < pr.next ∧ (w.node.raft.sendAppend 4).isSome = false := by
  have hplay : (start.bind (play (turn fun _ _ => True) [.confChange ⟨.addNode, 4⟩] [])).any
      (fun r => r.2.node.raft.state == .stateLeader && (r.2.node.raft.progress 4 == some { next := 6 } &&
        (r.2.node.raft.raftLog.lastIndex == 1 && (r.2.node.raft.sendAppend 4).isSome == false))) = true := by
    decide +kernel
  obtain ⟨moves, w, hrun, hp⟩ := exists_run_of_play turn_spec _ start_elected _ hplay
  simp only [Bool.and_eq_true, beq_iff_eq] at hp
  obtain ⟨hstate, hpr, hlast, hsend⟩ := hp
  exact ⟨moves, w, _, hrun, hstate, hpr, by rw [hlast]; decide, hsend⟩

end Leader

end Eraft
