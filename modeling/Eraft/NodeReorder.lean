import Eraft.NodeAppend

/-! Appends that are repeated or change places on the way. What a slice of a log does to a follower
whose log matches depends on two numbers only: how far the slice reaches, and how far the follower agrees
with the log; and after it the follower agrees with the log as far as the slice reaches. -/

open Std TermLog

namespace Eraft.RaftContext

variable {s s' : RaftContext} {m m₁ m₂ : Message} {l l' : RaftLog} {L : List Entry} {c q q₁ q₂ : Nat}

/-- `m` carries the entries of `L` behind its index up to `q`, a 64-bit number, and no later commit
index. -/
structure SliceOf (L : List Entry) (q : Nat) (m : Message) : Prop where
  index_le : m.index ≤ q
  le_length : q ≤ L.length
  logTerm : m.logTerm = lastTerm Entry.term (L.take m.index)
  entries : m.entries = (L.take q).drop m.index
  commit : m.commit ≤ q
  lt : q < 2 ^ 64

/-- The node has handled the append and has not rejected it. -/
def AppendAccepted (s : RaftContext) (m : Message) (rand : Nat) (s' : RaftContext) : Prop :=
  s.handleAppendEntries m rand = some s' ∧ ∃ x, s'.msgs = s.msgs ++ [x] ∧ x.reject = false

theorem AppendAccepted.acceptable {rand : Nat} (h : AppendAccepted s m rand s') : Acceptable s m := by
  obtain ⟨hs', x, hx, hreject⟩ := h
  -- every answer but that of `acceptAppend` is a rejection
  have hrefused : ∀ {t index}, s'.msgs ≠ (s.sendAppendResponse m.fromId true t index).msgs := by
    intro t index hmsgs
    rw [hx] at hmsgs
    cases List.singleton_inj.mp (List.append_cancel_left hmsgs)
    cases hreject
  rw [handleAppendEntries_eq] at hs'
  split_ifs at hs' with hstale hbeyond hfirst
  · cases hs'
    exact absurd rfl hrefused
  · cases hs'
    exact absurd rfl hrefused
  · obtain ⟨⟨t, found⟩, hterm, hs'⟩ := Option.bind_eq_some_iff.mp hs'
    dsimp only at hs'
    split_ifs at hs' with hne
    · unfold rejectAppend at hs'
      dsimp only at hs'
      split_ifs at hs'
      cases hs'
      exact absurd rfl hrefused
    · exact ⟨current_of_not hstale, Nat.le_of_not_lt hbeyond,
        fun _ => ⟨found, by rw [hterm, not_not.mp hne]⟩⟩
  · exact ⟨current_of_not hstale, Nat.le_of_not_lt hbeyond, fun hle => absurd hle hfirst⟩

/-- The log starts at 1, matches `L`, and agrees with it up to `c` and no further. -/
structure Follows (L : List Entry) (c : Nat) (l : RaftLog) : Prop where
  wellFormed : l.WellFormed
  firstIndex : l.firstIndex = 1
  le : c ≤ l.entries.length
  le_length : c ≤ L.length
  take : l.entries.take c = L.take c
  differ : ∀ a b, l.entries[c]? = some a → L[c]? = some b → a.term ≠ b.term
  matching : Matching Entry.term l.entries L

theorem exists_follows (hl : l.WellFormed) (hfirst : l.firstIndex = 1)
    (hmatch : Matching Entry.term l.entries L) : ∃ c, Follows L c l := by
  obtain ⟨c, hle, hleL, htake, hdiffer⟩ := hmatch.exists_common
  exact ⟨c, hl, hfirst, hle, hleL, htake, hdiffer, hmatch⟩

theorem Follows.lastIndex_eq (h : Follows L c l) : l.lastIndex = l.entries.length := by
  have hlast := h.wellFormed.lastIndex_succ
  rw [h.firstIndex] at hlast
  omega

/-- What a slice up to `q` does to a log that agrees with the whole up to `c`. -/
def mergeSlice (L : List Entry) (c q commit : Nat) (l : RaftLog) : RaftLog :=
  { l with entries := if q ≤ c then l.entries else L.take q
           stabled := if c < q ∧ c < l.entries.length then min l.stabled c else l.stabled
           commited := max l.commited commit }

theorem SliceOf.getElem?_entries (h : SliceOf L q m) {i : Nat} :
    m.entries[i]? = if m.index + i < q then L[m.index + i]? else none := by
  rw [h.entries, List.getElem?_drop, List.getElem?_take]

theorem SliceOf.consecutive (h : SliceOf L q m) (hL : Contiguous L) : Consecutive m := by
  intro i e he
  rw [h.getElem?_entries] at he
  split_ifs at he
  rw [hL _ e he]
  omega

theorem SliceOf.length_eq (h : SliceOf L q m) : m.index + m.entries.length = q := by
  have hindex := h.index_le
  rw [h.entries, List.length_drop, List.length_take, Nat.min_eq_left h.le_length]
  omega

/-- An acceptable slice starts where the logs agree. -/
theorem SliceOf.index_le_common (h : SliceOf L q m) (hl : Follows L c s.raftLog) (hacc : Acceptable s m) :
    m.index ≤ c := by
  by_contra hbeyond
  have hreach : m.index ≤ s.raftLog.entries.length := hl.lastIndex_eq ▸ hacc.reach
  have hleL := h.index_le.trans h.le_length
  have htake : s.raftLog.entries.take m.index = L.take m.index := by
    obtain ⟨found, hterm⟩ := hacc.agrees (by rw [hl.firstIndex]; omega)
    refine hl.matching m.index (by omega) hreach hleL ?_
    rw [RaftLog.term_eq_lastTerm hl.firstIndex (by omega) hreach] at hterm
    exact (congrArg Prod.fst (Option.some.inj hterm)).trans h.logTerm
  have hget : s.raftLog.entries[c]? = L[c]? := by
    have hget := congrArg (·[c]?) htake
    rwa [List.getElem?_take_of_lt (by omega), List.getElem?_take_of_lt (by omega)] at hget
  have hc : c < L.length := by omega
  exact hl.differ L[c] L[c] (by rw [hget, List.getElem?_eq_getElem hc]) (List.getElem?_eq_getElem hc) rfl

/-- Conversely, a slice that starts where the logs agree is acceptable. -/
theorem SliceOf.acceptable (h : SliceOf L q m) (hl : Follows L c s.raftLog) (hcurrent : Current s m)
    (hindex : m.index ≤ c) : Acceptable s m := by
  refine ⟨hcurrent, hindex.trans (hl.lastIndex_eq ▸ hl.le), fun hpos => ⟨true, ?_⟩⟩
  rw [hl.firstIndex] at hpos
  have htake : s.raftLog.entries.take m.index = L.take m.index := by
    rw [← Nat.min_eq_left hindex, ← List.take_take, hl.take, List.take_take]
  rw [RaftLog.term_eq_lastTerm hl.firstIndex hpos (hindex.trans hl.le), htake, h.logTerm]

theorem Follows.holds_iff (hl : Follows L c l) (hL : Contiguous L) {i : Nat} {e : Entry} (he : L[i]? = some e) :
    i ≤ c → (l.Holds e ↔ i < c) := by
  intro hi
  have hindex := hL i e he
  unfold RaftLog.Holds
  rw [hl.firstIndex, hindex, Nat.add_sub_cancel]
  constructor
  · rintro ⟨_, hterm⟩
    by_contra hge
    obtain rfl : i = c := by omega
    obtain ⟨a, ha, hterm⟩ := Option.map_eq_some_iff.mp hterm
    exact hl.differ a e ha he hterm
  · intro hlt
    have hget := congrArg (·[i]?) hl.take
    rw [List.getElem?_take_of_lt hlt, List.getElem?_take_of_lt hlt] at hget
    exact ⟨by omega, by rw [hget, he]; rfl⟩

/-- A slice that reaches no further than the logs agree is in memory. -/
theorem Follows.held (hl : Follows L c l) (hL : Contiguous L) (h : SliceOf L q m) (hq : q ≤ c) :
    ∀ x ∈ m.entries, l.firstIndex ≤ x.index → l.Holds x := by
  intro x hx _
  obtain ⟨i, hi⟩ := List.mem_iff_getElem?.mp hx
  rw [h.getElem?_entries] at hi
  split_ifs at hi with hlt
  exact (hl.holds_iff hL hi (by omega)).mpr (by omega)

theorem take_append_cons (hq : c < q) (hc : c < L.length) :
    L.take c ++ L[c] :: (L.take q).drop (c + 1) = L.take q := by
  have hcut : c < (L.take q).length := by
    rw [List.length_take]
    omega
  have htake : (L.take q).take c = L.take c := by rw [List.take_take, Nat.min_eq_left hq.le]
  have hcons : (L.take q).drop c = L[c] :: (L.take q).drop (c + 1) := by
    rw [List.drop_eq_getElem_cons hcut, List.getElem_take]
  rw [← htake, ← hcons, List.take_append_drop]

/-- Else its first new entry is the one behind the common part. -/
theorem Follows.firstNew (hl : Follows L c l) (hL : Contiguous L) (h : SliceOf L q m) (hindex : m.index ≤ c)
    (hq : c < q) (hc : c < L.length) :
    FirstNew l m ((L.take c).drop m.index) L[c] ((L.take q).drop (c + 1)) := by
  have hget := List.getElem?_eq_getElem hc
  have hslice : SliceOf L c { m with entries := (L.take c).drop m.index, commit := 0 } :=
    ⟨hindex, hl.le_length, h.logTerm, rfl, Nat.zero_le c, hq.trans h.lt⟩
  refine ⟨?_, hl.held hL hslice le_rfl, ?_, fun hholds => ?_⟩
  · have hlen : m.index ≤ (L.take c).length := by
      rw [List.length_take]
      omega
    calc m.entries = (L.take q).drop m.index := h.entries
      _ = (L.take c ++ L[c] :: (L.take q).drop (c + 1)).drop m.index := by rw [take_append_cons hq hc]
      _ = _ := List.drop_append_of_le_length hlen
  · rw [hl.firstIndex, hL c _ hget]
    exact Nat.le_add_left 1 c
  · exact absurd ((hl.holds_iff hL hget le_rfl).mp hholds) (Nat.lt_irrefl c)

theorem Follows.appendLoop (hl : Follows L c l) (hL : Contiguous L) (h : SliceOf L q m) (hindex : m.index ≤ c) :
    appendLoop m.entries m.entries 0 l = some { l with
      entries := if q ≤ c then l.entries else L.take q
      stabled := if c < q ∧ c < l.entries.length then min l.stabled c else l.stabled } := by
  by_cases hq : q ≤ c
  · rw [if_pos hq, if_neg (by omega)]
    exact appendLoop_of_held hl.wellFormed (hl.held hL h hq)
  · have hc : c < L.length := (Nat.lt_of_not_le hq).trans_le h.le_length
    have hm := h.consecutive hL
    have hnew := hl.firstNew hL h hindex (Nat.lt_of_not_le hq) hc
    have hright : PushesRight l m := .inl (.inr (by rw [hl.firstIndex]; omega))
    have hreach : m.index ≤ l.lastIndex := hindex.trans (hl.lastIndex_eq ▸ hl.le)
    have hsucc : L[c].index = c + 1 := hL c _ (List.getElem?_eq_getElem hc)
    rw [hnew.appendLoop hl.wellFormed hm hreach, (hnew.pushesRight_iff hm).mp hright, hsucc, hl.firstIndex,
      hl.lastIndex_eq, Nat.add_sub_cancel, if_neg hq, hl.take, take_append_cons (Nat.lt_of_not_le hq) hc]
    simp only [Nat.lt_of_not_le hq, true_and, Nat.succ_le_iff]

theorem followCommit_slice (h : SliceOf L q m) (l : RaftLog) :
    followCommit l m = { l with commited := max l.commited m.commit } := by
  unfold followCommit
  rw [u64Add_of_lt (h.length_eq ▸ h.lt), h.length_eq, Nat.min_eq_left h.commit]
  split_ifs with hlt
  · rw [Nat.max_eq_right hlt.le]
  · rw [Nat.max_eq_left (Nat.le_of_not_lt hlt)]

theorem Follows.mergeSlice {i : Nat} (hl : Follows L c l) (hq : q ≤ L.length)
    (hwell : (mergeSlice L c q i l).WellFormed) : Follows L (max c q) (mergeSlice L c q i l) := by
  unfold RaftContext.mergeSlice at hwell ⊢
  by_cases hle : q ≤ c
  · rw [Nat.max_eq_left hle]
    simp only [if_pos hle] at hwell ⊢
    exact ⟨hwell, hl.firstIndex, hl.le, hl.le_length, hl.take, hl.differ, hl.matching⟩
  · rw [Nat.max_eq_right (Nat.le_of_not_le hle)]
    simp only [if_neg hle] at hwell ⊢
    have hlen : (L.take q).length = q := by rw [List.length_take, Nat.min_eq_left hq]
    refine ⟨hwell, hl.firstIndex, hlen.ge, hq, ?_, fun a b ha _ => ?_, matching_take L q⟩
    · rw [List.take_take, Nat.min_self]
    · rw [List.getElem?_eq_none hlen.le] at ha
      cases ha

/-- **What an acceptable slice does**, and how far the log agrees with the whole afterwards. -/
theorem Follows.merge (hl : Follows L c s.raftLog) (hL : Contiguous L) (h : SliceOf L q m)
    (hacc : Acceptable s m) (rand : Nat) : ∃ s', AppendAccepted s m rand s' ∧ s'.term = s.term ∧
      s'.raftLog = RaftContext.mergeSlice L c q m.commit s.raftLog ∧ Follows L (max c q) s'.raftLog := by
  have hloop := hl.appendLoop hL h (h.index_le_common hl hacc)
  have hloop' : RaftContext.appendLoop m.entries m.entries 0 (s.heard m rand).raftLog = _ := hloop
  have hright : PushesRight s.raftLog m := .inl (.inr (by rw [hl.firstIndex]; omega))
  have hwell :=
    ((appendLoop_spliced_iff hl.wellFormed (h.consecutive hL) hacc.reach hloop).mpr hright).wellFormed
  unfold AppendAccepted
  rw [hacc.handleAppendEntries, acceptAppend_eq hloop', followCommit_slice h]
  exact ⟨_, ⟨rfl, _, rfl, rfl⟩, rfl, rfl,
    hl.mergeSlice h.le_length ⟨hwell.firstPos, hwell.contiguous, hwell.base⟩⟩

/-- Two slices do together what the longer one would do. -/
theorem mergeSlice_mergeSlice (h₁ : q₁ ≤ L.length) (i j : Nat) :
    mergeSlice L (max c q₁) q₂ j (mergeSlice L c q₁ i l) = mergeSlice L c (max q₁ q₂) (max i j) l := by
  have hlen : (L.take q₁).length = q₁ := by rw [List.length_take, Nat.min_eq_left h₁]
  unfold mergeSlice
  simp only [RaftLog.mk.injEq, true_and, Nat.max_assoc]
  rcases Nat.lt_or_ge c q₁ with hc | hc
  · have hnot : ¬q₁ ≤ c := Nat.not_le.mpr hc
    simp only [Nat.max_eq_right hc.le, if_neg hnot, hlen]
    rcases Nat.lt_or_ge q₁ q₂ with hq | hq
    · have hfar : ¬q₂ ≤ q₁ ∧ ¬q₂ ≤ c := by omega
      simp only [Nat.max_eq_right hq.le, Nat.lt_irrefl, and_false, if_false, hfar, hc, hc.trans hq, true_and]
    · have hnear : ¬q₁ < q₂ := Nat.not_lt.mpr hq
      simp only [Nat.max_eq_left hq, hnear, false_and, if_false, hq, if_true, hnot, and_self]
  · have hnot : ¬c < q₁ := Nat.not_lt.mpr hc
    simp only [Nat.max_eq_left hc, if_pos hc, hnot, false_and, if_false]
    rcases Nat.lt_or_ge c q₂ with hq | hq
    · simp only [Nat.max_eq_right (hc.trans hq.le), and_self]
    · have hmax : max q₁ q₂ ≤ c := Nat.max_le.mpr ⟨hc, hq⟩
      simp only [hq, hmax, Nat.not_lt.mpr hq, Nat.not_lt.mpr hmax, false_and, if_false, if_true, and_self]

/-- The log after two accepted slices, in terms of the log before them. -/
theorem Follows.merge_merge {t t' : RaftContext} {r r' : Nat} (hl : Follows L c s.raftLog)
    (hL : Contiguous L) (h₁ : SliceOf L q₁ m₁) (h₂ : SliceOf L q₂ m₂) (ht : AppendAccepted s m₁ r t)
    (ht' : AppendAccepted t m₂ r' t') :
    t'.raftLog = RaftContext.mergeSlice L c (max q₁ q₂) (max m₁.commit m₂.commit) s.raftLog := by
  obtain ⟨u, hu, _, hlog, hfollows⟩ := hl.merge hL h₁ ht.acceptable r
  cases ht.1.symm.trans hu.1
  obtain ⟨u', hu', _, hlog', _⟩ := hfollows.merge hL h₂ ht'.acceptable r'
  cases ht'.1.symm.trans hu'.1
  rw [hlog', hlog, mergeSlice_mergeSlice h₁.le_length]

/-- **Repeated and reordered appends are harmless.** A slice that was accepted changes nothing the
second time, and leaves the same log with a second slice in either order. -/
theorem appends_commute {s₁ : RaftContext} {r₁ : Nat} (hlog : s.raftLog.WellFormed)
    (hfirst : s.raftLog.firstIndex = 1) (hL : Contiguous L)
    (hmatch : Matching Entry.term s.raftLog.entries L) (hm₁ : SliceOf L q₁ m₁)
    (h₁ : AppendAccepted s m₁ r₁ s₁) :
    (∀ rand, ∃ s₁₁, s₁.handleAppendEntries m₁ rand = some s₁₁ ∧ s₁₁.raftLog = s₁.raftLog) ∧
      ∀ {q₂ m₂ r₂ r₁₂ r₂₁ s₂ s₁₂ s₂₁}, SliceOf L q₂ m₂ → AppendAccepted s₁ m₂ r₁₂ s₁₂ →
        AppendAccepted s m₂ r₂ s₂ → AppendAccepted s₂ m₁ r₂₁ s₂₁ → s₁₂.raftLog = s₂₁.raftLog := by
  obtain ⟨c, hfollows⟩ := exists_follows hlog hfirst hmatch
  constructor
  · intro rand
    obtain ⟨u, hu, hterm, hlog, hfollows⟩ := hfollows.merge hL hm₁ h₁.acceptable r₁
    cases h₁.1.symm.trans hu.1
    have hcurrent : Current s₁ m₁ := by
      unfold Current
      rw [hterm]
      exact h₁.acceptable.current
    have hacc := hm₁.acceptable hfollows hcurrent (hm₁.index_le.trans (Nat.le_max_right c q₁))
    obtain ⟨s₁₁, hs₁₁, _, hlog', _⟩ := hfollows.merge hL hm₁ hacc rand
    refine ⟨s₁₁, hs₁₁.1, ?_⟩
    rw [hlog', hlog, mergeSlice_mergeSlice hm₁.le_length, Nat.max_self, Nat.max_self]
  · intro q₂ m₂ r₂ r₁₂ r₂₁ s₂ s₁₂ s₂₁ hm₂ h₁₂ h₂ h₂₁
    rw [hfollows.merge_merge hL hm₁ hm₂ h₁ h₁₂, hfollows.merge_merge hL hm₂ hm₁ h₂ h₂₁, Nat.max_comm q₁,
      Nat.max_comm m₁.commit]

/-- A leader's log of three entries. -/
def leaderLog : List Entry := [{ term := 1, index := 1 }, { term := 2, index := 2 }, { term := 2, index := 3 }]

theorem contiguous_leaderLog : Contiguous leaderLog := by
  intro i e he
  obtain ⟨hlt, rfl⟩ := List.getElem?_eq_some_iff.mp he
  revert i
  decide

/-- A follower whose second entry is of an older term than the leader's. -/
def divergedFollower : RaftContext :=
  { compactedFollower with
      term := 2
      raftLog := { storage := .new, pendingSnapshot := {}, commited := 0, applied := 0, stabled := 2
                   firstIndex := 1, entries := [{ term := 1, index := 1 }, { term := 1, index := 2 }] } }

/-- The entries of the leader's log behind the first up to `q`. -/
def leaderSlice (q : Nat) : Message :=
  { msgType := .msgAppend, fromId := 2, term := 2, logTerm := 1, index := 1, commit := 1
    entries := (leaderLog.take q).drop 1 }

theorem leaderSlice_sliceOf {q : Nat} (hpos : 1 ≤ q) (hq : q ≤ 3) : SliceOf leaderLog q (leaderSlice q) :=
  ⟨hpos, hq, rfl, rfl, hpos, by omega⟩

theorem divergedFollower_follows : Follows leaderLog 1 divergedFollower.raftLog := by
  refine ⟨⟨by decide, by decide, by decide⟩, rfl, by decide, by decide, rfl, fun a b ha hb => ?_, ?_⟩
  · cases ha
    cases hb
    decide
  · intro i hpos hi _ hterm
    have hi : i ≤ 2 := hi
    obtain rfl | rfl : i = 1 ∨ i = 2 := by omega
    · rfl
    · exact absurd hterm (by decide)

theorem appends_commute_diverged : ∃ s₁ s₁₂ s₂ s₂₁,
    AppendAccepted divergedFollower (leaderSlice 2) 0 s₁ ∧ AppendAccepted s₁ (leaderSlice 3) 0 s₁₂ ∧
    AppendAccepted divergedFollower (leaderSlice 3) 0 s₂ ∧ AppendAccepted s₂ (leaderSlice 2) 0 s₂₁ ∧
    (∃ s₁₁, s₁.handleAppendEntries (leaderSlice 2) 0 = some s₁₁ ∧ s₁₁.raftLog = s₁.raftLog) ∧
    s₁₂.raftLog = s₂₁.raftLog := by
  have hstart := divergedFollower_follows
  have hm₂ := leaderSlice_sliceOf (q := 2) (by decide) (by decide)
  have hm₃ := leaderSlice_sliceOf (q := 3) (by decide) (by decide)
  have hL := contiguous_leaderLog
  have htwo : ∀ {m m' q q'}, SliceOf leaderLog q m → SliceOf leaderLog q' m' → m.index = 1 → m'.index = 1 →
      m.term = 2 → m'.term = 2 → ∃ t t', AppendAccepted divergedFollower m 0 t ∧ AppendAccepted t m' 0 t' := by
    intro m m' q q' hm hm' hindex hindex' hterm hterm'
    obtain ⟨t, ht, hsame, _, hfollows⟩ :=
      hstart.merge hL hm (hm.acceptable hstart (.inr hterm.ge) hindex.le) 0
    have hcurrent : Current t m' := .inr (by rw [hsame, hterm']; exact le_rfl)
    have hreach : m'.index ≤ max 1 q := hindex'.le.trans (Nat.le_max_left 1 q)
    obtain ⟨t', ht', _⟩ := hfollows.merge hL hm' (hm'.acceptable hfollows hcurrent hreach) 0
    exact ⟨t, t', ht, ht'⟩
  obtain ⟨s₁, s₁₂, h₁, h₁₂⟩ := htwo hm₂ hm₃ rfl rfl rfl rfl
  obtain ⟨s₂, s₂₁, h₂, h₂₁⟩ := htwo hm₃ hm₂ rfl rfl rfl rfl
  obtain ⟨hrepeat, hreorder⟩ :=
    appends_commute hstart.wellFormed hstart.firstIndex hL hstart.matching hm₂ h₁
  exact ⟨s₁, s₁₂, s₂, s₂₁, h₁, h₁₂, h₂, h₂₁, hrepeat 0, hreorder hm₃ h₁₂ h₂ h₂₁⟩

end Eraft.RaftContext
