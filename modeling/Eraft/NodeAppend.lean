import Eraft.NodeLog

/-! `HandleAppendEntries` in full, for logs that start at any index. The loop over the entries of the
message passes over those in front of `firstIndex_` without counting them, although the position from
which the rest of the message is pushed is read off the counter. -/

open Std TermLog

namespace Eraft

namespace RaftLog

variable {l : RaftLog} {e : Entry}

/-- The entry is in memory, with the same term. -/
def Holds (l : RaftLog) (e : Entry) : Prop :=
  l.firstIndex ≤ e.index ∧ (l.entries[e.index - l.firstIndex]?).map Entry.term = some e.term

theorem WellFormed.le_lastIndex_iff (hl : l.WellFormed) (hfirst : l.firstIndex ≤ e.index) :
    e.index ≤ l.lastIndex ↔ e.index - l.firstIndex < l.entries.length := by
  have hlast := hl.lastIndex_succ
  omega

theorem WellFormed.term_of_holds (hl : l.WellFormed) (h : l.Holds e) :
    e.index ≤ l.lastIndex ∧ l.term e.index = some (e.term, true) := by
  obtain ⟨o, ho, hterm⟩ := Option.map_eq_some_iff.mp h.2
  obtain ⟨hlt, hget⟩ := List.getElem?_eq_some_iff.mp ho
  refine ⟨(hl.le_lastIndex_iff h.1).mpr hlt, ?_⟩
  rw [WellFormed.term_eq h.1 hlt, hget, hterm]

/-- An entry in reach that the log does not hold meets another one of another term. -/
theorem WellFormed.term_of_not_holds (hl : l.WellFormed) (hfirst : l.firstIndex ≤ e.index)
    (hin : e.index ≤ l.lastIndex) (h : ¬l.Holds e) :
    ∃ t, l.term e.index = some (t, true) ∧ t ≠ e.term := by
  have hlt := (hl.le_lastIndex_iff hfirst).mp hin
  refine ⟨_, WellFormed.term_eq hfirst hlt, fun hterm => h ⟨hfirst, ?_⟩⟩
  rw [List.getElem?_eq_getElem hlt, Option.map_some, hterm]

/-- The log cut off in front of `e`, then `e`. -/
def overwrite (l : RaftLog) (e : Entry) : RaftLog :=
  { l with entries := l.entries.take (e.index - l.firstIndex) ++ [e], stabled := min l.stabled (e.index - 1) }

@[simp] theorem lastIndex_overwrite : (l.overwrite e).lastIndex = e.index := by
  simp [overwrite, lastIndex]

/-- Consecutive entries may follow the beginning of a log. -/
theorem WellFormed.append (hl : l.WellFormed) {j stabled commited : Nat} {es : List Entry}
    (hj : j ≤ l.entries.length) (hne : es ≠ [])
    (hes : ∀ i x, es[i]? = some x → x.index = l.firstIndex + j + i) :
    WellFormed { l with entries := l.entries.take j ++ es, stabled := stabled, commited := commited } := by
  refine ⟨hl.firstPos, fun i hi => ?_, fun hnil => absurd (List.append_eq_nil_iff.mp hnil).2 hne⟩
  dsimp only at hi ⊢
  have hlen : (l.entries.take j).length = j := by rw [List.length_take, Nat.min_eq_left hj]
  by_cases hlt : i < j
  · rw [List.getElem_append_left (by omega), List.getElem_take]
    exact hl.contiguous i (by omega)
  · rw [List.getElem_append_right (by omega)]
    rw [hes (i - (l.entries.take j).length) _ (List.getElem?_eq_getElem _), hlen]
    omega

end RaftLog

namespace RaftContext

variable {s s' : RaftContext} {m : Message} {l l' : RaftLog} {e : Entry} {ents pre post : List Entry}

/-- The append passes the checks of `HandleAppendEntries`. -/
structure Acceptable (s : RaftContext) (m : Message) : Prop where
  current : Current s m
  reach : m.index ≤ s.raftLog.lastIndex
  agrees : s.raftLog.firstIndex ≤ m.index → ∃ found, s.raftLog.term m.index = some (m.logTerm, found)

/-- The node that has heard from the sender of `m`. -/
def heard (s : RaftContext) (m : Message) (rand : Nat) : RaftContext :=
  { redraw { s with electionElapsed := 0 } rand with lead := m.fromId }

theorem handleAppendEntries_eq (s : RaftContext) (m : Message) (rand : Nat) :
    s.handleAppendEntries m rand =
      if m.term ≠ NONE ∧ m.term < s.term then some (s.sendAppendResponse m.fromId true NONE NONE)
      else if s.raftLog.lastIndex < m.index then
        some ((s.heard m rand).sendAppendResponse m.fromId true NONE (s.raftLog.lastIndex + 1))
      else if s.raftLog.firstIndex ≤ m.index then
        (s.raftLog.term m.index).bind fun resPair =>
          if resPair.1 ≠ m.logTerm then (s.heard m rand).rejectAppend m resPair.1
          else (s.heard m rand).acceptAppend m
      else (s.heard m rand).acceptAppend m := rfl

theorem Acceptable.handleAppendEntries (h : Acceptable s m) (rand : Nat) :
    s.handleAppendEntries m rand = (s.heard m rand).acceptAppend m := by
  have hcurrent : ¬(m.term ≠ NONE ∧ m.term < s.term) := by
    rintro ⟨hnone, hlt⟩
    exact h.current.elim hnone (Nat.not_le.mpr hlt)
  rw [handleAppendEntries_eq, if_neg hcurrent, if_neg (Nat.not_lt.mpr h.reach)]
  by_cases hfirst : s.raftLog.firstIndex ≤ m.index
  · obtain ⟨found, hterm⟩ := h.agrees hfirst
    rw [if_pos hfirst, hterm]
    exact if_neg (not_not.mpr rfl)
  · rw [if_neg hfirst]

/-- Every role hands an append on; a candidate follows the sender first, if the term is its own. -/
theorem step_msgAppend (hm : m.msgType = .msgAppend) (rand : Nat) :
    s.step m rand = ((s.observeTerm m).fallback m).handleAppendEntries m rand := by
  unfold step
  rw [if_neg (by rw [hm]; exact fun hc => nomatch hc.2)]
  cases hstate : (s.observeTerm m).state with
  | stateFollower | stateLeader =>
      rw [fallback_of_ne (by rw [hstate]; decide)]
      simp only [hstate, stepFollower, stepLeader, hm]
  | stateCandidate => simp only [hstate, stepCandidate, fallback, hm, true_and]

/-- The state and the answer of a node that accepts the append. -/
theorem acceptAppend_eq (h : appendLoop m.entries m.entries 0 s.raftLog = some l) :
    s.acceptAppend m = some (RaftContext.sendAppendResponse { s with raftLog := followCommit l m }
      m.fromId false NONE (followCommit l m).lastIndex) := by
  rw [acceptAppend, h]
  rfl

/-- Entries that are in memory already, or lie in front of it, are passed over; the latter are not
counted. -/
theorem appendLoop_held (hl : l.WellFormed) (hpre : ∀ x ∈ pre, l.firstIndex ≤ x.index → l.Holds x)
    (post : List Entry) (count : Nat) : appendLoop ents (pre ++ post) count l =
      appendLoop ents post (count + pre.countP fun x => decide (l.firstIndex ≤ x.index)) l := by
  induction pre generalizing count with
  | nil => rfl
  | cons x pre ih =>
      have hrest := ih fun y hy => hpre y (List.mem_cons_of_mem x hy)
      rw [List.cons_append, appendLoop]
      by_cases hbelow : x.index < l.firstIndex
      · rw [if_pos hbelow, hrest, List.countP_cons_of_neg (by simpa using hbelow)]
      · have hholds := hpre x List.mem_cons_self (Nat.le_of_not_lt hbelow)
        obtain ⟨hin, hterm⟩ := hl.term_of_holds hholds
        rw [if_neg hbelow, if_pos hin, hterm, List.countP_cons_of_pos (by simpa using hholds.1)]
        simp only [Option.bind_eq_bind, Option.bind_some, ne_eq, not_true_eq_false, if_false]
        rw [hrest, Nat.add_assoc, Nat.add_comm 1]

theorem appendLoop_absent (hfirst : l.firstIndex ≤ e.index) (habsent : l.lastIndex < e.index)
    (post : List Entry) (count : Nat) : appendLoop ents (e :: post) count l =
      some { l with entries := l.entries ++ ents.drop count } := by
  rw [appendLoop, if_neg (Nat.not_lt.mpr hfirst), if_neg (Nat.not_le.mpr habsent)]

theorem appendLoop_conflict (hl : l.WellFormed) (hfirst : l.firstIndex ≤ e.index)
    (hin : e.index ≤ l.lastIndex) (hnot : ¬l.Holds e) (post : List Entry) (count : Nat) :
    appendLoop ents (e :: post) count l = appendLoop ents post (count + 1) (l.overwrite e) := by
  obtain ⟨t, hterm, hne⟩ := hl.term_of_not_holds hfirst hin hnot
  have hpos : 1 ≤ e.index := hl.firstPos.trans hfirst
  rw [appendLoop, if_neg (Nat.not_lt.mpr hfirst), if_pos hin, hterm]
  simp only [Option.bind_eq_bind, Option.bind_some, ne_eq, hne, not_false_eq_true, if_true]
  rw [RaftLog.WellFormed.toSliceIndex_eq hfirst, if_pos ((hl.le_lastIndex_iff hfirst).mp hin),
    u64Sub_of_le hpos]
  rfl

/-- The entries of the message follow its index. -/
def Consecutive (m : Message) : Prop := ∀ i e, m.entries[i]? = some e → e.index = m.index + 1 + i

/-- The log with the message merged into it. Entries that are there already stay; from the first one on
that is absent, or of another term, the log is replaced. -/
structure Spliced (l : RaftLog) (m : Message) (l' : RaftLog) : Prop where
  firstIndex : l'.firstIndex = l.firstIndex
  wellFormed : l'.WellFormed
  kept : (∀ x ∈ m.entries, l.firstIndex ≤ x.index → l.Holds x) →
    l'.entries = l.entries ∧ l'.stabled = l.stabled
  replaced : ∀ pre e post, m.entries = pre ++ e :: post →
    (∀ x ∈ pre, l.firstIndex ≤ x.index → l.Holds x) → l.firstIndex ≤ e.index → ¬l.Holds e →
    l'.entries = l.entries.take (e.index - l.firstIndex) ++ e :: post ∧
      l'.stabled = if e.index ≤ l.lastIndex then min l.stabled (e.index - 1) else l.stabled

/-- The message is in memory as a whole, or the loop can push from the right position, or it has no need
to push. -/
def PushesRight (l : RaftLog) (m : Message) : Prop :=
  (m.entries = [] ∨ l.firstIndex ≤ m.index + 1) ∨
    (m.index + m.entries.length ≤ l.lastIndex ∧
      ∀ x ∈ m.entries.dropLast, l.firstIndex ≤ x.index → l.Holds x)

/-- `e` is the first entry of the message that is new to the log. -/
structure FirstNew (l : RaftLog) (m : Message) (pre : List Entry) (e : Entry) (post : List Entry) : Prop where
  entries : m.entries = pre ++ e :: post
  held : ∀ x ∈ pre, l.firstIndex ≤ x.index → l.Holds x
  first : l.firstIndex ≤ e.index
  isNew : ¬l.Holds e

theorem held_or_firstNew (l : RaftLog) (m : Message) :
    (∀ x ∈ m.entries, l.firstIndex ≤ x.index → l.Holds x) ∨ ∃ pre e post, FirstNew l m pre e post := by
  classical
  cases hfind : m.entries.find? fun x => decide (l.firstIndex ≤ x.index ∧ ¬l.Holds x) with
  | none =>
      refine .inl fun x hx hfirst => by_contra fun hnot => ?_
      exact absurd (decide_eq_true (p := l.firstIndex ≤ x.index ∧ ¬l.Holds x) ⟨hfirst, hnot⟩)
        (List.find?_eq_none.mp hfind x hx)
  | some e =>
      obtain ⟨he, pre, post, heq, hpre⟩ := List.find?_eq_some_iff_append.mp hfind
      obtain ⟨hfirst, hnot⟩ := of_decide_eq_true he
      refine .inr ⟨pre, e, post, heq, fun x hx hle => by_contra fun hnot => ?_, hfirst, hnot⟩
      simpa [hle, hnot] using hpre x hx

theorem FirstNew.index_eq (h : FirstNew l m pre e post) (hm : Consecutive m) :
    e.index = m.index + 1 + pre.length := by
  refine hm pre.length e ?_
  rw [h.entries, List.getElem?_append_right le_rfl, Nat.sub_self]
  rfl

theorem FirstNew.index_pre (h : FirstNew l m pre e post) (hm : Consecutive m) {i : Nat} {x : Entry}
    (hx : pre[i]? = some x) : x.index = m.index + 1 + i := by
  refine hm i x ?_
  rw [h.entries, List.getElem?_append_left (List.getElem?_eq_some_iff.mp hx).1]
  exact hx

/-- The first new entry is at most one behind the log. -/
theorem FirstNew.index_le (h : FirstNew l m pre e post) (hl : l.WellFormed) (hm : Consecutive m)
    (hreach : m.index ≤ l.lastIndex) : e.index ≤ l.lastIndex + 1 := by
  have he := h.index_eq hm
  have hlast := hl.lastIndex_succ
  rcases Nat.eq_zero_or_pos pre.length with hzero | hpos
  · omega
  · have hget := List.getElem?_eq_getElem (show pre.length - 1 < pre.length by omega)
    have hx := h.index_pre hm hget
    by_cases hfirst : l.firstIndex ≤ (pre[pre.length - 1]).index
    · have hin := (hl.term_of_holds (h.held _ (List.getElem_mem _) hfirst)).1
      omega
    · omega

/-- What the loop puts in the place of `e` and what follows, when it has counted `count` entries. -/
def inPlace (l : RaftLog) (ents : List Entry) (count : Nat) (e : Entry) (post : List Entry) : List Entry :=
  if e.index ≤ l.lastIndex then e :: (if post = [] then [] else ents.drop (count + 1)) else ents.drop count

/-- **The loop**: `e` is the first new entry, and the entries in front of `firstIndex_` were not
counted. -/
theorem FirstNew.appendLoop (h : FirstNew l m pre e post) (hl : l.WellFormed) (hm : Consecutive m)
    (hreach : m.index ≤ l.lastIndex) : appendLoop m.entries m.entries 0 l = some { l with
      entries := l.entries.take (e.index - l.firstIndex) ++
        inPlace l m.entries (pre.countP fun x => decide (l.firstIndex ≤ x.index)) e post
      stabled := if e.index ≤ l.lastIndex then min l.stabled (e.index - 1) else l.stabled } := by
  have hloop : RaftContext.appendLoop m.entries m.entries 0 l = RaftContext.appendLoop m.entries (e :: post)
      (0 + pre.countP fun x => decide (l.firstIndex ≤ x.index)) l := by
    rw [← appendLoop_held hl h.held, ← h.entries]
  rw [hloop, Nat.zero_add]
  by_cases hin : e.index ≤ l.lastIndex
  · rw [appendLoop_conflict hl h.first hin h.isNew, inPlace, if_pos hin, if_pos hin]
    cases post with
    | nil => rfl
    | cons x post =>
        -- the next entry lies behind the log, which now ends with `e`
        have hx : x.index = e.index + 1 := by
          rw [h.index_eq hm, hm (pre.length + 1) x]
          · rfl
          · rw [h.entries, List.getElem?_append_right (Nat.le_add_right _ 1), Nat.add_sub_cancel_left]
            rfl
        have hfirst : (l.overwrite e).firstIndex ≤ x.index := hx ▸ h.first.trans (Nat.le_succ _)
        rw [appendLoop_absent hfirst (by rw [RaftLog.lastIndex_overwrite]; omega),
          if_neg (List.cons_ne_nil _ _)]
        simp only [RaftLog.overwrite, List.append_assoc, List.singleton_append]
  · have hlast := hl.lastIndex_succ
    have hend := h.index_le hl hm hreach
    rw [appendLoop_absent h.first (Nat.lt_of_not_le hin), inPlace, if_neg hin, if_neg hin,
      List.take_of_length_le (by omega)]

theorem FirstNew.inPlace_eq_iff (h : FirstNew l m pre e post) {count : Nat} (hcount : count ≤ pre.length) :
    inPlace l m.entries count e post = e :: post ↔
      count = pre.length ∨ (e.index ≤ l.lastIndex ∧ post = []) := by
  have hlen := congrArg List.length h.entries
  rw [List.length_append, List.length_cons] at hlen
  have hdrop : m.entries.drop pre.length = e :: post := by rw [h.entries, List.drop_left]
  have hdrop' : m.entries.drop (pre.length + 1) = post := by rw [← List.tail_drop, hdrop, List.tail_cons]
  unfold inPlace
  split_ifs with hin hnil
  · simp [hin, hnil]
  · rw [List.cons_inj_right]
    constructor
    · intro heq
      have := congrArg List.length heq
      rw [List.length_drop] at this
      have := List.length_pos_of_ne_nil hnil
      omega
    · rintro (rfl | ⟨_, h⟩)
      · exact hdrop'
      · exact absurd h hnil
  · constructor
    · intro heq
      have := congrArg List.length heq
      rw [List.length_drop, List.length_cons] at this
      omega
    · rintro (rfl | ⟨h, _⟩)
      · exact hdrop
      · exact absurd h hin

theorem FirstNew.count_eq_iff (h : FirstNew l m pre e post) (hm : Consecutive m) :
    (pre.countP fun x => decide (l.firstIndex ≤ x.index)) = pre.length ↔ l.firstIndex ≤ m.index + 1 := by
  rw [List.countP_eq_length]
  constructor
  · intro hall
    cases pre with
    | nil => exact h.index_eq hm ▸ h.first
    | cons x pre =>
        rw [← h.index_pre (i := 0) hm rfl]
        exact of_decide_eq_true (hall x List.mem_cons_self)
  · intro hfirst x hx
    obtain ⟨i, hi⟩ := List.mem_iff_getElem?.mp hx
    have hindex := h.index_pre hm hi
    exact decide_eq_true (by omega)

theorem FirstNew.pushesRight_iff (h : FirstNew l m pre e post) (hm : Consecutive m) :
    PushesRight l m ↔ inPlace l m.entries (pre.countP fun x => decide (l.firstIndex ≤ x.index)) e post =
      e :: post := by
  have hlen := congrArg List.length h.entries
  rw [List.length_append, List.length_cons] at hlen
  have he := h.index_eq hm
  have hne : m.entries ≠ [] := List.ne_nil_of_length_pos (by omega)
  rw [h.inPlace_eq_iff List.countP_le_length, h.count_eq_iff hm, PushesRight]
  simp only [hne, false_or]
  refine or_congr Iff.rfl ⟨fun ⟨hin, hall⟩ => ?_, fun ⟨hin, hnil⟩ => ?_⟩
  · refine ⟨by omega, by_contra fun hpost => h.isNew (hall e ?_ h.first)⟩
    rw [h.entries, List.dropLast_append_of_ne_nil (List.cons_ne_nil _ _), List.dropLast_cons_of_ne_nil hpost]
    exact List.mem_append_right _ List.mem_cons_self
  · subst hnil
    rw [List.length_nil] at hlen
    refine ⟨by omega, ?_⟩
    rw [h.entries, List.dropLast_concat]
    exact h.held

/-- Nothing has to be pushed if the log holds the message. -/
theorem pushesRight_of_held (hl : l.WellFormed) (hm : Consecutive m)
    (hheld : ∀ x ∈ m.entries, l.firstIndex ≤ x.index → l.Holds x) : PushesRight l m := by
  by_cases hne : m.entries = []
  · exact .inl (.inl hne)
  · have hpos := List.length_pos_of_ne_nil hne
    have hget := List.getElem?_eq_getElem (show m.entries.length - 1 < m.entries.length by omega)
    have hx := hm _ _ hget
    have hlast := hl.lastIndex_succ
    refine .inr ⟨?_, fun x hx => hheld x (List.mem_of_mem_dropLast hx)⟩
    by_cases hfirst : l.firstIndex ≤ (m.entries[m.entries.length - 1]).index
    · have hin := (hl.term_of_holds (hheld _ (List.getElem_mem _) hfirst)).1
      omega
    · omega

theorem appendLoop_of_held (hl : l.WellFormed)
    (hheld : ∀ x ∈ m.entries, l.firstIndex ≤ x.index → l.Holds x) :
    appendLoop m.entries m.entries 0 l = some l := by
  have hloop : appendLoop m.entries (m.entries ++ []) 0 l = some l := appendLoop_held hl hheld [] 0
  rwa [List.append_nil] at hloop

theorem exists_appendLoop_eq (hl : l.WellFormed) (hm : Consecutive m) (hreach : m.index ≤ l.lastIndex) :
    ∃ l', appendLoop m.entries m.entries 0 l = some l' := by
  rcases held_or_firstNew l m with hheld | ⟨pre, e, post, h⟩
  · exact ⟨l, appendLoop_of_held hl hheld⟩
  · exact ⟨_, h.appendLoop hl hm hreach⟩

/-- The loop merges the message into the log exactly if it pushes from the right position. -/
theorem appendLoop_spliced_iff (hl : l.WellFormed) (hm : Consecutive m) (hreach : m.index ≤ l.lastIndex)
    (hloop : appendLoop m.entries m.entries 0 l = some l') : Spliced l m l' ↔ PushesRight l m := by
  constructor
  · intro h
    rcases held_or_firstNew l m with hheld | ⟨pre, e, post, hnew⟩
    · exact pushesRight_of_held hl hm hheld
    · have hl' := Option.some.inj (hloop.symm.trans (hnew.appendLoop hl hm hreach))
      have hentries := (h.replaced pre e post hnew.entries hnew.held hnew.first hnew.isNew).1
      rw [hl'] at hentries
      exact (hnew.pushesRight_iff hm).mpr (List.append_cancel_left hentries)
  · intro hright
    have hkept : (∀ x ∈ m.entries, l.firstIndex ≤ x.index → l.Holds x) → l' = l := fun hheld =>
      Option.some.inj (hloop.symm.trans (appendLoop_of_held hl hheld))
    have hreplaced : ∀ {pre e post}, FirstNew l m pre e post → l' = { l with
        entries := l.entries.take (e.index - l.firstIndex) ++ e :: post
        stabled := if e.index ≤ l.lastIndex then min l.stabled (e.index - 1) else l.stabled } := by
      intro pre e post hnew
      have hl' := Option.some.inj (hloop.symm.trans (hnew.appendLoop hl hm hreach))
      rwa [(hnew.pushesRight_iff hm).mp hright] at hl'
    refine ⟨?_, ?_, fun hheld => by rw [hkept hheld]; exact ⟨rfl, rfl⟩, ?_⟩
    · rcases held_or_firstNew l m with hheld | ⟨pre, e, post, hnew⟩
      · rw [hkept hheld]
      · rw [hreplaced hnew]
    · rcases held_or_firstNew l m with hheld | ⟨pre, e, post, hnew⟩
      · rw [hkept hheld]
        exact hl
      · rw [hreplaced hnew]
        have hlast := hl.lastIndex_succ
        have hend := hnew.index_le hl hm hreach
        have hfirst := hnew.first
        refine hl.append (by omega) (List.cons_ne_nil _ _) fun i x hx => ?_
        have he := hnew.index_eq hm
        have hindex := hm (pre.length + i) x (by
          rw [hnew.entries, List.getElem?_append_right (Nat.le_add_right _ _), Nat.add_sub_cancel_left]
          exact hx)
        omega
    · intro pre e post hentries hheld hfirst hnot
      rw [hreplaced ⟨hentries, hheld, hfirst, hnot⟩]
      exact ⟨rfl, rfl⟩

theorem Spliced.followCommit_iff : Spliced l m (followCommit l' m) ↔ Spliced l m l' := by
  unfold followCommit
  split_ifs
  · exact ⟨fun h => ⟨h.firstIndex, ⟨h.wellFormed.firstPos, h.wellFormed.contiguous, h.wellFormed.base⟩, h.kept,
      h.replaced⟩, fun h => ⟨h.firstIndex, ⟨h.wellFormed.firstPos, h.wellFormed.contiguous, h.wellFormed.base⟩,
      h.kept, h.replaced⟩⟩
  · exact Iff.rfl

/-- **An append is merged into the log**, unless entries in front of the log's first index make the loop
push from too early a position. -/
theorem handleAppendEntries_spliced_iff (hlog : s.raftLog.WellFormed) (hterm : m.term = s.term)
    (hm : Consecutive m) (hreach : m.index ≤ s.raftLog.lastIndex)
    (hagrees : s.raftLog.firstIndex ≤ m.index → ∃ found, s.raftLog.term m.index = some (m.logTerm, found))
    (rand : Nat) :
    (∃ s', s.handleAppendEntries m rand = some s' ∧ Spliced s.raftLog m s'.raftLog) ↔
      PushesRight s.raftLog m := by
  obtain ⟨l', hloop⟩ := exists_appendLoop_eq hlog hm hreach
  have hloop' : appendLoop m.entries m.entries 0 (s.heard m rand).raftLog = some l' := hloop
  have haccept : Acceptable s m := ⟨.inr hterm.ge, hreach, hagrees⟩
  rw [haccept.handleAppendEntries, acceptAppend_eq hloop', ← appendLoop_spliced_iff hlog hm hreach hloop,
    ← Spliced.followCommit_iff]
  constructor
  · rintro ⟨s', hs', h⟩
    cases hs'
    exact h
  · intro h
    exact ⟨_, rfl, h⟩

/-- A follower whose log starts at index 5. -/
def compactedFollower : RaftContext :=
  { prs := .ofList ([(1, some {}), (2, some {})] : List (Nat × Option Progress))
    id := 1, term := 1, vote := 2, state := .stateFollower, votes := ∅
    raftLog := { storage := { ents := [{ term := 1, index := 4 }, { term := 1, index := 5 }]
                              entsPos := List.cons_ne_nil _ _ }
                 pendingSnapshot := {}, commited := 5, applied := 5, stabled := 5
                 firstIndex := 5, entries := [{ term := 1, index := 5 }] }
    lead := 2, msgs := [], heartbeatTimeout := 1, electionTimeout := 10
    randomElectionTimeout := 10, heartbeatElapsed := 0, electionElapsed := 0, transferElapsed := 0
    leadTransferee := NONE, pendingConfIndex := NONE }

/-- The entries of term 1 behind `index` up to 6. -/
def upToSix (index : Nat) : Message :=
  { msgType := .msgAppend, fromId := 2, term := 1, logTerm := 1, index := index
    entries := (List.range' (index + 1) (6 - index)).map fun i => { term := 1, index := i } }

theorem consecutive_upToSix (index : Nat) : Consecutive (upToSix index) := by
  intro i e he
  obtain ⟨k, hk, rfl⟩ := Option.map_eq_some_iff.mp (List.getElem?_map.symm.trans he)
  obtain ⟨hlt, rfl⟩ := List.getElem?_eq_some_iff.mp hk
  rw [List.getElem_range', Nat.one_mul]
  rfl

theorem compactedFollower_wellFormed : compactedFollower.raftLog.WellFormed :=
  ⟨by decide, by decide, by decide⟩

theorem handleAppendEntries_spliced_five : ∃ s', compactedFollower.handleAppendEntries (upToSix 5) 0 = some s' ∧
    Spliced compactedFollower.raftLog (upToSix 5) s'.raftLog :=
  (handleAppendEntries_spliced_iff compactedFollower_wellFormed rfl (consecutive_upToSix 5) (by decide)
    (fun _ => ⟨true, rfl⟩) 0).mpr (.inl (.inr (by decide)))

/-- Entry 5 is counted and entries 3 and 4 are not, so entry 4 is pushed behind entry 5. -/
theorem not_handleAppendEntries_spliced : compactedFollower.raftLog.WellFormed ∧ Consecutive (upToSix 2) ∧
    ∃ s', compactedFollower.handleAppendEntries (upToSix 2) 0 = some s' ∧
      s'.raftLog.entries.map Entry.index = [5, 4, 5, 6] ∧
      ¬Spliced compactedFollower.raftLog (upToSix 2) s'.raftLog := by
  have hrun : (compactedFollower.handleAppendEntries (upToSix 2) 0).map
      (fun s' => s'.raftLog.entries.map Entry.index) = some [5, 4, 5, 6] := by decide +kernel
  obtain ⟨s', hs', hindex⟩ := Option.map_eq_some_iff.mp hrun
  refine ⟨compactedFollower_wellFormed, consecutive_upToSix 2, s', hs', hindex, fun h => ?_⟩
  have hfirst := h.firstIndex
  have hget := congrArg (fun is : List Nat => is[1]?) hindex
  obtain ⟨e, he, hfour⟩ := Option.map_eq_some_iff.mp (List.getElem?_map.symm.trans hget)
  obtain ⟨hlt, rfl⟩ := List.getElem?_eq_some_iff.mp he
  have hsix := h.wellFormed.contiguous 1 hlt
  rw [hfour, hfirst] at hsix
  exact absurd hsix (by decide)

end RaftContext

end Eraft
