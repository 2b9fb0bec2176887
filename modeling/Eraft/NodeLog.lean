import Eraft.NodeRole
import Eraft.BaseTermLog

/-! What a step does to the log of a node. A node that was started on an empty storage and has seen no
snapshot holds its whole log in memory, from index 1 on; for such a log the loop of
`HandleAppendEntries` is a splice. -/

open Std TermLog

namespace Eraft

/-- Entries with the indices 1, 2, 3, … -/
def Contiguous (es : List Entry) : Prop := ∀ i e, es[i]? = some e → e.index = i + 1

theorem Contiguous.take {es : List Entry} (h : Contiguous es) (n : Nat) : Contiguous (es.take n) := by
  intro i e he
  rw [List.getElem?_take] at he
  split_ifs at he
  exact h i e he

theorem Contiguous.concat {es : List Entry} {e : Entry} (h : Contiguous es)
    (he : e.index = es.length + 1) : Contiguous (es ++ [e]) := by
  intro i e' he'
  rcases Nat.lt_trichotomy i es.length with hlt | rfl | hgt
  · rw [List.getElem?_append_left hlt] at he'
    exact h i e' he'
  · rw [List.getElem?_concat_length] at he'
    cases he'
    exact he
  · rw [List.getElem?_eq_none (by rw [List.length_append, List.length_singleton]; omega)] at he'
    cases he'

namespace RaftLog

/-- The log is in memory from index 1 on, over a storage that starts there too. -/
structure FromOne (l : RaftLog) : Prop where
  firstIndex : l.firstIndex = 1
  contiguous : Contiguous l.entries
  empty : l.entries = [] → l.storage.lastIndex = 0
  termZero : l.storage.term 0 = (0, true)
  snapshot : isEmptySnap l.pendingSnapshot = true

variable {l : RaftLog}

theorem FromOne.wellFormed (h : l.FromOne) : l.WellFormed := by
  refine ⟨h.firstIndex.ge, fun i hi => ?_, fun hnil => ?_⟩
  · rw [h.contiguous i _ (List.getElem?_eq_getElem hi), h.firstIndex, Nat.add_comm]
  · rw [h.empty hnil, h.firstIndex]

theorem FromOne.lastIndex_eq (h : l.FromOne) : l.lastIndex = l.entries.length := by
  have hsucc := h.wellFormed.lastIndex_succ
  rw [h.firstIndex] at hsucc
  omega

theorem FromOne.toSliceIndex_succ (h : l.FromOne) (i : Nat) : l.toSliceIndex (i + 1) = i := by
  rw [WellFormed.toSliceIndex_eq (by rw [h.firstIndex]; omega), h.firstIndex]
  omega

theorem term_eq_lastTerm (hfirst : l.firstIndex = 1) {i : Nat} (hpos : 0 < i) (hi : i ≤ l.entries.length) :
    l.term i = some (lastTerm Entry.term (l.entries.take i), true) := by
  obtain ⟨i, rfl⟩ := Nat.exists_eq_succ_of_ne_zero hpos.ne'
  rw [WellFormed.term_eq (by rw [hfirst]; omega) (by rw [hfirst]; omega), lastTerm_take_succ hi]
  simp [hfirst]

/-- Inside the log `Term` is the term of the entry, and 0 in front of it. -/
theorem FromOne.term_eq (h : l.FromOne) {i : Nat} (hi : i ≤ l.entries.length) :
    l.term i = some (lastTerm Entry.term (l.entries.take i), true) := by
  rcases Nat.eq_zero_or_pos i with rfl | hpos
  · unfold term
    rw [if_neg (by rw [h.firstIndex]; omega)]
    simp [h.termZero, h.snapshot]
  · exact term_eq_lastTerm h.firstIndex hpos hi

/-- Other entries in the same log. -/
theorem FromOne.withEntries (h : l.FromOne) {es : List Entry} {commited stabled : Nat}
    (hes : Contiguous es) (hempty : es = [] → l.entries = []) :
    FromOne { l with entries := es, commited := commited, stabled := stabled } :=
  ⟨h.firstIndex, hes, fun hnil => h.empty (hempty hnil), h.termZero, h.snapshot⟩

theorem FromOne.concat (h : l.FromOne) {e : Entry} {commited : Nat}
    (he : e.index = l.entries.length + 1) :
    FromOne { l with entries := l.entries ++ [e], commited := commited } :=
  h.withEntries (h.contiguous.concat he) (by simp)

theorem FromOne.commit (h : l.FromOne) {commited : Nat} : FromOne { l with commited := commited } :=
  h.withEntries h.contiguous fun hnil => hnil

end RaftLog

namespace RaftContext

theorem lastIdx_concat (p : Entry → Bool) (l : List Entry) (e : Entry) :
    lastIdx p (l ++ [e]) = if p e then some l.length else lastIdx p l := by
  simp [lastIdx, List.zipIdx_append]

theorem lastIdx_lt {p : Entry → Bool} {l : List Entry} {k : Nat} (h : lastIdx p l = some k) :
    k < l.length := by
  induction l using List.reverseRecOn with
  | nil => cases h
  | append_singleton l e ih =>
      rw [lastIdx_concat] at h
      rw [List.length_append, List.length_singleton]
      split_ifs at h
      · cases h
        exact Nat.lt_succ_self _
      · exact (ih h).trans (Nat.lt_succ_self _)

/-- **The append loop is a splice.** `rest` is what is left of the entries `ents` of the message after
`count` of them, and starts with index `q + 1`. -/
theorem appendLoop_splice {ents rest : List Entry} {count q : Nat} {l : RaftLog} (hl : l.FromOne)
    (hrest : rest = ents.drop count) (hq : q ≤ l.entries.length)
    (hindex : ∀ i e, rest[i]? = some e → e.index = q + i + 1) :
    ∃ stabled, appendLoop ents rest count l = some { l with
      entries := l.entries.take q ++ splice Entry.term (l.entries.drop q) rest
      stabled := stabled } := by
  -- induction on the entries that are left; either the log reaches the next one or it is at its end
  induction rest generalizing count q l with
  | nil =>
      refine ⟨l.stabled, ?_⟩
      rw [splice_nil_right, List.take_append_drop]
      rfl
  | cons e rest ih =>
      have he : e.index = q + 1 := hindex 0 e rfl
      have hrest' : rest = ents.drop (count + 1) := by
        rw [← List.tail_drop, ← hrest]
        rfl
      have hindex' : ∀ i e, rest[i]? = some e → e.index = q + 1 + i + 1 := by
        intro i e' he'
        rw [hindex (i + 1) e' he']
        omega
      have hfirst : ¬e.index < l.firstIndex := by
        rw [he, hl.firstIndex]
        omega
      unfold appendLoop
      rw [if_neg hfirst, hl.lastIndex_eq]
      rcases Nat.lt_or_eq_of_le hq with hlt | hend
      · have hterm : l.term e.index = some (l.entries[q].term, true) := by
          rw [he, hl.term_eq hlt, lastTerm_take_succ hlt]
        have hdrop := List.drop_eq_getElem_cons hlt
        rw [if_pos (by omega), hterm, hdrop, splice]
        dsimp only [Option.bind_eq_bind, Option.bind_some]
        by_cases hsame : l.entries[q].term = e.term
        · rw [if_neg (not_not.mpr hsame), if_pos hsame]
          obtain ⟨stabled, hloop⟩ := ih hl hrest' hlt hindex'
          refine ⟨stabled, ?_⟩
          rw [hloop, List.take_succ_eq_append_getElem hlt, List.append_assoc]
          rfl
        · -- the rest of the log goes, and the loop ends with the next entry
          rw [if_pos hsame, if_neg hsame, he, hl.toSliceIndex_succ, if_pos hlt]
          have hlen : (l.entries.take q ++ [e]).length = q + 1 := by
            rw [List.length_append, List.length_take, List.length_singleton, Nat.min_eq_left hq]
          have hcut : Contiguous (l.entries.take q ++ [e]) :=
            (hl.contiguous.take q).concat (by rw [he, List.length_take, Nat.min_eq_left hq])
          obtain ⟨stabled, hloop⟩ := ih (hl.withEntries hcut (by simp)) hrest' hlen.ge hindex'
          refine ⟨stabled, hloop.trans ?_⟩
          dsimp only
          rw [List.take_of_length_le hlen.le, List.drop_of_length_le hlen.le, splice_nil_left,
            List.append_assoc]
          rfl
      · refine ⟨l.stabled, ?_⟩
        rw [if_neg (by omega), ← hrest, List.take_of_length_le hend.ge, List.drop_of_length_le hend.ge,
          splice_nil_left]

theorem appendLoop_all {ents : List Entry} {q : Nat} {l : RaftLog} (hl : l.FromOne)
    (hq : q ≤ l.entries.length) (hindex : ∀ i e, ents[i]? = some e → e.index = q + i + 1) :
    ∃ stabled, appendLoop ents ents 0 l = some { l with
      entries := l.entries.take q ++ splice Entry.term (l.entries.drop q) ents
      stabled := stabled } :=
  appendLoop_splice hl List.drop_zero.symm hq hindex

variable {s s' : RaftContext} {m : Message} {G : List Entry}

/-- The append carries everything of the log `G` behind its index. -/
structure Carries (m : Message) (G : List Entry) : Prop where
  index : m.index ≤ G.length
  logTerm : m.logTerm = lastTerm Entry.term (G.take m.index)
  entries : m.entries = G.drop m.index

theorem Carries.index_eq (h : Carries m G) (hG : Contiguous G) :
    ∀ i e, m.entries[i]? = some e → e.index = m.index + i + 1 := by
  intro i e he
  rw [h.entries, List.getElem?_drop] at he
  exact hG _ e he

theorem Carries.length_eq (h : Carries m G) : m.index + m.entries.length = G.length := by
  rw [h.entries, List.length_drop, Nat.add_sub_cancel' h.index]

/-- `SendAppend` always sends the log to its end. -/
theorem AppendOf.carries (h : AppendOf s m) (hlog : s.raftLog.FromOne)
    (hne : s.raftLog.entries ≠ []) : Carries m s.raftLog.entries := by
  have hindex : m.index ≤ s.raftLog.entries.length := by
    by_contra hbeyond
    have hterm := h.logTerm
    unfold RaftLog.term at hterm
    rw [if_pos ⟨List.length_pos_of_ne_nil hne, by rw [hlog.firstIndex]; omega⟩,
      List.getElem?_eq_none (by rw [hlog.firstIndex]; omega)] at hterm
    cases hterm
  have hterm := h.logTerm
  rw [hlog.term_eq hindex] at hterm
  refine ⟨hindex, ?_, ?_⟩
  · exact (congrArg Prod.fst (Option.some.inj hterm)).symm
  · rw [h.entries, hlog.toSliceIndex_succ]

/-- The log an accepted append leaves: the sender's, unless the receiver's already extends it. -/
structure Merged (G : List Entry) (commit : Nat) (l l' : RaftLog) : Prop where
  fromOne : l'.FromOne
  entries : (G <+: l.entries ∧ l'.entries = l.entries) ∨ (¬G <+: l.entries ∧ l'.entries = G)
  commited : l'.commited = if l.commited < commit then min commit (G.length % 2 ^ 64) else l.commited

/-- **An accepted append.** The two logs agree up to the index of the message, and matching logs are
spliced into one of them. -/
theorem Accepts.merged_log (h : Accepts s m s') (hlog : s.raftLog.FromOne) (hm : Carries m G)
    (hG : Contiguous G) (hmatch : Matching Entry.term s.raftLog.entries G) :
    Merged G m.commit s.raftLog s'.raftLog := by
  classical
  have hreach : m.index ≤ s.raftLog.entries.length := hlog.lastIndex_eq ▸ h.reach
  have hprefix : s.raftLog.entries.take m.index = G.take m.index := by
    rcases Nat.eq_zero_or_pos m.index with hzero | hpos
    · rw [hzero, List.take_zero, List.take_zero]
    · obtain ⟨found, hterm⟩ := h.agrees (by rw [hlog.firstIndex]; exact hpos)
      rw [hlog.term_eq hreach, hm.logTerm] at hterm
      exact hmatch m.index hpos hreach hm.index (congrArg Prod.fst (Option.some.inj hterm))
  obtain ⟨stabled, hloop⟩ := appendLoop_all hlog hreach (hm.index_eq hG)
  rw [hm.entries, splice_matching hmatch hreach hm.index hprefix, ← hm.entries] at hloop
  obtain ⟨l, hl, hs'⟩ := h.merged
  rw [← Option.some.inj (hloop.symm.trans hl)] at hs'
  have hmerged : s'.raftLog = { s.raftLog with
      entries := if G <+: s.raftLog.entries then s.raftLog.entries else G
      stabled := stabled
      commited := if s.raftLog.commited < m.commit then min m.commit (G.length % 2 ^ 64)
        else s.raftLog.commited } := by
    rw [hs', followCommit, u64Add, hm.length_eq]
    split_ifs <;> rfl
  refine ⟨?_, ?_, by rw [hmerged]⟩
  · rw [hmerged]
    refine hlog.withEntries ?_ ?_
    · split_ifs
      · exact hlog.contiguous
      · exact hG
    · split_ifs with hpre
      · exact fun hnil => hnil
      · exact fun hnil => absurd (hnil ▸ List.nil_prefix) hpre
  · rw [hmerged]
    by_cases hpre : G <+: s.raftLog.entries
    · exact .inl ⟨hpre, if_pos hpre⟩
    · exact .inr ⟨hpre, if_neg hpre⟩

/-- A log that a vote request is not behind of is no more up to date than the candidate's. -/
theorem NotAhead.upToDate (h : NotAhead s m) (hlog : s.raftLog.FromOne) {elog : List Entry}
    (hterm : m.logTerm = lastTerm Entry.term elog) (hindex : m.index = elog.length) :
    UpToDate Entry.term s.raftLog.entries elog := by
  obtain ⟨t, found, hlast, hnot⟩ := h
  rw [hlog.lastIndex_eq, hlog.term_eq le_rfl, List.take_length] at hlast
  have ht : lastTerm Entry.term s.raftLog.entries = t := congrArg Prod.fst (Option.some.inj hlast)
  rw [hterm, hindex, hlog.lastIndex_eq] at hnot
  unfold UpToDate
  omega

/-- What a message can do to the log of the node that handles it. -/
inductive LogStep (s : RaftContext) (m : Message) (s' : RaftContext) : Prop
  | keep (hstate : s'.state = .stateLeader → s.state = .stateLeader) (h : s'.raftLog = s.raftLog)
  | append (hacc : Accepts s m s') (hterm : s'.term = s.term) (hstate : s'.state = (s.fallback m).state)
  | lead (hstate : s.state ≠ .stateLeader) (hstate' : s'.state = .stateLeader)
      (h : s'.raftLog = { s.raftLog with
        entries := s.raftLog.entries ++ [{ term := s'.term, index := s.raftLog.lastIndex + 1 }]
        commited := if s.prs.size = 1 then s.raftLog.lastIndex + 1 else s.raftLog.commited })
  | propose {added : List Entry} (hm : m.msgType = .msgPropose) (hstate : s.state = .stateLeader)
      (hlen : added.length ≤ m.entries.length)
      (hadded : ∀ e ∈ added, e.term = s.term ∧ e.index = s.raftLog.lastIndex + 1)
      (h : s'.raftLog = { s.raftLog with
        entries := s.raftLog.entries ++ added
        commited := if s.prs.size = 1 then s'.raftLog.lastIndex else s.raftLog.commited })
  | commit {n : Nat} (hm : m.msgType = .msgAppendResponse) (hstate : s.state = .stateLeader)
      (hraise : Raises { s with prs := s'.prs } n)
      (h : s'.raftLog = { s.raftLog with commited := n })

theorem proposed_raftLog (hid : s.id ∈ s.peers) (entries : List Entry) :
    (s.proposed entries).raftLog = { (proposeLoop s.raftLog.lastIndex entries s).raftLog with
      commited := if s.prs.size = 1 then (proposeLoop s.raftLog.lastIndex entries s).raftLog.lastIndex
        else s.raftLog.commited } := by
  obtain ⟨_, added, hloop, _⟩ := proposeLoop_spec s.raftLog.lastIndex entries s
  have hpeers : (proposeLoop s.raftLog.lastIndex entries s).peers = s.peers := by
    rw [peers, hloop.prs]
    rfl
  have hsize : ∀ pr, ((proposeLoop s.raftLog.lastIndex entries s).setProgress
      (proposeLoop s.raftLog.lastIndex entries s).id pr).prs.size = s.prs.size := by
    intro pr
    rw [← card_peers, peers_setProgress _ (by rw [hpeers, hloop.id]; exact hid), hpeers, card_peers]
  have hcommit : (proposeLoop s.raftLog.lastIndex entries s).raftLog.commited = s.raftLog.commited := by
    rw [hloop.raftLog]
  unfold proposed
  dsimp only
  rw [hsize, ← hcommit]
  rfl

theorem CoreStep.log (h : CoreStep s m s') (hid : s.id ∈ s.peers) (hsnap : m.msgType ≠ .msgSnapshot) :
    LogStep s m s' := by
  have hkeep : ∀ {t : RaftContext}, SameCore t s' → (t.state = .stateLeader → s.state = .stateLeader) →
      t.raftLog = s.raftLog → LogStep s m s' := fun h hstate hlog =>
    .keep (fun hleader => hstate (h.state.symm.trans hleader)) (h.raftLog.trans hlog)
  cases h with
  | same h | grant _ _ _ h | record _ _ _ h | nack _ _ _ _ _ _ _ h | ack _ _ _ _ _ _ h
  | phantom _ _ _ h => exact hkeep h (fun hstate => hstate) rfl
  | follow _ _ h => exact hkeep h fallback_leader fallback_raftLog
  | append hacc h => exact .append hacc (h.term.trans fallback_term) h.state
  | campaign _ _ _ h | lose _ _ _ _ _ h => exact hkeep h nofun rfl
  | alone _ hstate _ h =>
      refine .lead hstate h.state (h.raftLog.trans ?_)
      rw [h.term]
      rfl
  | win _ hcand _ _ h =>
      refine .lead (by rw [hcand]; decide) h.state (h.raftLog.trans ?_)
      rw [h.term]
      rfl
  | propose hm hstate h =>
      obtain ⟨_, added, hloop, hlen, hadded⟩ := proposeLoop_spec s.raftLog.lastIndex m.entries s
      have hlast : s'.raftLog.lastIndex =
          (proposeLoop s.raftLog.lastIndex m.entries s).raftLog.lastIndex := by
        rw [h.raftLog]
        rfl
      refine .propose hm hstate hlen hadded (h.raftLog.trans ?_)
      rw [hlast, proposed_raftLog hid, hloop.raftLog]
  | commit hm hstate _ _ _ _ hraise h =>
      refine .commit hm hstate ?_ h.raftLog
      rw [h.prs]
      exact hraise
  | snapshot hm => exact absurd hm hsnap

end RaftContext

end Eraft
