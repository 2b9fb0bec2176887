import Eraft.LogTerm
import Eraft.NodeLog

/-! The MsgAppend of a leader, against the whole history of its log: what was compacted away and what
`entries_` still holds. `Term` and `SendAppend` are followed over any storage that keeps to the comments
of `StorageInterface` (`raftcore/include/raftcore/storage.h`), of which `MemoryStorage` is one. -/

open Indexed TermLog

namespace Eraft

/-- `StorageInterface`: the answers of a storage at one moment, as far as sending needs them. `none` is a
call with no defined answer. -/
structure StorageInterface where
  entries : Nat → Nat → Option (List Entry)
  term : Nat → Nat × Bool
  lastIndex : Nat
  firstIndex : Nat

def MemoryStorage.interface (ms : MemoryStorage) : StorageInterface where
  entries := ms.entries
  term := ms.term
  lastIndex := ms.lastIndex
  firstIndex := ms.firstIndex

namespace RaftLog

/-- `RaftLog::LastIndex` over the storage `st`. -/
def lastIndexOver (l : RaftLog) (st : StorageInterface) : Nat :=
  match l.entries.getLast? with
  | some e => e.index
  | none => st.lastIndex

/-- `RaftLog::Term` over the storage `st`. -/
def termOver (l : RaftLog) (st : StorageInterface) (i : Nat) : Option (Nat × Bool) :=
  if 0 < l.entries.length ∧ l.firstIndex ≤ i then
    (l.entries[i - l.firstIndex]?).map fun e => (e.term, true)
  else
    let pair := st.term i
    if pair.2 = false then some (0, false)
    else if pair.1 = 0 ∧ isEmptySnap l.pendingSnapshot = false ∧
        i = l.pendingSnapshot.metadata.index then
      some (l.pendingSnapshot.metadata.index, true)
    else some (pair.1, true)

end RaftLog

/-- `RaftContext::SendAppend` over the storage `st`. -/
def RaftContext.sendAppendOver (s : RaftContext) (st : StorageInterface) (peer : Nat) : Option RaftContext := do
  let pr ← s.progress peer
  let prevIndex := u64Sub pr.next 1
  let resPair ← s.raftLog.termOver st prevIndex
  if resPair.2 = false then
    let entries ← st.entries (prevIndex + 1) (prevIndex + 2)
    match entries with
    | [] => return s
    | ent :: _ =>
        return s.push { msgType := .msgAppend, fromId := s.id, toId := peer, term := s.term,
                        commit := s.raftLog.commited, logTerm := ent.term, index := prevIndex,
                        entries := entries }
  else
    return s.push { msgType := .msgAppend, fromId := s.id, toId := peer, term := s.term,
                    commit := s.raftLog.commited, logTerm := resPair.1, index := prevIndex,
                    entries := s.raftLog.entries.drop (s.raftLog.toSliceIndex (prevIndex + 1)) }

/-- Over the node's own storage these are the functions of the node. -/
theorem RaftContext.sendAppendOver_interface (s : RaftContext) (peer : Nat) :
    s.sendAppendOver s.raftLog.storage.interface peer = s.sendAppend peer := rfl

/-- The term of a history at an index, 0 at index 0. -/
def historyTerm (H : List Entry) (i : Nat) : Nat := lastTerm Entry.term (H.take i)

theorem historyTerm_succ {H : List Entry} {i : Nat} (hi : i < H.length) : historyTerm H (i + 1) = H[i].term :=
  lastTerm_take_succ hi

/-- The comments of `StorageInterface`, for the part of the history `H` below index `n`: `Term` is right from
`FirstIndex() - 1` to `LastIndex()`, and `Entries` gives a slice of the range it is asked for, with at
least one entry if the range is available. -/
structure Honours (st : StorageInterface) (n : Nat) (H : List Entry) : Prop where
  range : st.firstIndex ≤ st.lastIndex + 1
  term : ∀ i, st.firstIndex ≤ i + 1 → i ≤ st.lastIndex → i < n → st.term i = (historyTerm H i, true)
  entries : ∀ lo hi, 1 ≤ lo → lo ≤ hi → hi ≤ st.lastIndex + 1 → hi ≤ n →
    ∃ es, st.entries lo hi = some es ∧ es <+: (H.drop (lo - 1)).take (hi - lo) ∧
      (st.firstIndex ≤ lo → lo < hi → es ≠ [])

/-- The history of a log is its compacted part followed by `entries_`. -/
structure History (st : StorageInterface) (l : RaftLog) (H : List Entry) : Prop where
  contiguous : From Entry.index 1 H
  firstPos : 1 ≤ l.firstIndex
  entries : l.entries = H.drop (l.firstIndex - 1)
  first_le : l.firstIndex ≤ H.length + 1
  stored : l.firstIndex ≤ st.lastIndex + 1
  base : l.entries = [] → st.lastIndex = H.length
  honours : Honours st (max l.firstIndex st.firstIndex) H

/-- The message describes the history around `prev`. -/
structure Describes (H : List Entry) (prev : Nat) (m : Message) : Prop where
  msgType : m.msgType = .msgAppend
  index : m.index = prev
  logTerm : m.logTerm = historyTerm H prev
  entries : m.entries <+: H.drop prev

/-- Sending to a peer, whatever is pushed describes the history. -/
def SendsHistory (s : RaftContext) (st : StorageInterface) (H : List Entry) (peer prev : Nat) : Prop :=
  ∃ ms, s.sendAppendOver st peer = some (s.pushAll ms) ∧ ∀ m ∈ ms, Describes H prev m

/-- The node can find the term at `prev`, or finds out that it cannot. From `FirstIndex() - 1` on the
storage knows it, and only a snapshot that ends at an entry of term 0 is in the way. In front of
that the storage has to answer `false` and have nothing to load (what `SendAppend` loads there is the
next entry), or be right all the same. -/
def TermKnown (st : StorageInterface) (l : RaftLog) (H : List Entry) (prev : Nat) : Prop :=
  ¬l.InMemory prev →
    if st.firstIndex ≤ prev + 1 then ¬(l.PendingAt prev ∧ historyTerm H prev = 0)
    else if (st.term prev).2 = true then l.recovered prev (st.term prev).1 = historyTerm H prev
    else st.entries (prev + 1) (prev + 2) = some [] ∨ historyTerm H (prev + 1) = historyTerm H prev

section

variable {st : StorageInterface} {l : RaftLog} {s : RaftContext} {H : List Entry} {peer prev i : Nat}
  {pr : Progress}

theorem termOver_not_inMemory (h : ¬l.InMemory i) :
    l.termOver st i = if (st.term i).2 = true then some (l.recovered i (st.term i).1, true)
      else some (0, false) := by
  unfold RaftLog.termOver RaftLog.recovered
  rw [if_neg h]
  dsimp only
  cases (st.term i).2
  · rfl
  · rw [if_neg (by decide), if_pos rfl]
    split_ifs with hpending
    · rw [hpending.2.2]
    · rfl

theorem History.lastIndexOver (h : History st l H) : l.lastIndexOver st = H.length := by
  unfold RaftLog.lastIndexOver
  cases hlast : l.entries.getLast? with
  | none => exact h.base (List.getLast?_eq_none_iff.mp hlast)
  | some e =>
      have hne : l.entries ≠ [] := by
        rintro hnil
        rw [hnil] at hlast
        cases hlast
      rw [h.entries] at hlast hne
      have hget : H[H.length - 1]? = some e := by
        rw [← List.getLast?_eq_getElem?, ← hlast, List.getLast?_drop, if_neg]
        exact fun hle => hne (List.drop_eq_nil_iff.mpr hle)
      have := h.contiguous _ e hget
      have := List.length_pos_iff.mpr hne
      rw [List.length_drop] at this
      dsimp only
      omega

/-- An index that is not looked up in `entries_` is in front of it. -/
theorem History.lt_firstIndex (h : History st l H) (hprev : prev ≤ H.length) (hmem : ¬l.InMemory prev) :
    prev < l.firstIndex := by
  by_contra hge
  have hlen : l.entries.length = H.length - (l.firstIndex - 1) := by rw [h.entries, List.length_drop]
  have := h.firstPos
  exact hmem ⟨by omega, by omega⟩

theorem History.termOver_inMemory (h : History st l H) (hprev : prev ≤ H.length) (hmem : l.InMemory prev) :
    l.termOver st prev = some (historyTerm H prev, true) := by
  have hpos := h.firstPos
  obtain ⟨k, rfl⟩ : ∃ k, prev = k + 1 := Nat.exists_eq_add_one_of_ne_zero (by have := hmem.2; omega)
  rw [RaftLog.termOver, if_pos hmem, h.entries, List.getElem?_drop,
    show l.firstIndex - 1 + (k + 1 - l.firstIndex) = k by have := hmem.2; omega,
    List.getElem?_eq_getElem hprev, historyTerm_succ hprev]
  rfl

/-- In the range of the storage only the snapshot's branch changes the answer. -/
theorem recovered_self_iff {t : Nat} : l.recovered i t = t ↔ ¬(l.PendingAt i ∧ t = 0) := by
  unfold RaftLog.recovered
  split_ifs with h
  · obtain ⟨rfl, hsnap, rfl⟩ := h
    refine iff_of_false (fun hzero => ?_) fun hbad => hbad ⟨⟨hsnap, rfl⟩, rfl⟩
    rw [isEmptySnap, hzero] at hsnap
    cases hsnap
  · exact iff_of_true rfl fun hbad => h ⟨hbad.2, hbad.1⟩

/-- The entries behind `prev` that a message carries. In front of `entries_` the position wraps around,
and the loop of `SendAppend` does not start. -/
theorem History.drop_slice (h : History st l H) (hu64 : H.length < 2 ^ 64) (hprev : prev ≤ H.length) :
    l.entries.drop (l.toSliceIndex (prev + 1)) <+: H.drop prev := by
  have hpos := h.firstPos
  rcases Nat.lt_or_ge (prev + 1) l.firstIndex with hlt | hge
  · rw [List.drop_eq_nil_of_le]
    · exact List.nil_prefix
    · rw [RaftLog.toSliceIndex, u64Sub, if_neg (Nat.not_le.mpr hlt), h.entries, List.length_drop]
      have := h.first_le
      omega
  · rw [RaftLog.toSliceIndex, u64Sub_of_le hge, h.entries, List.drop_drop,
      show l.firstIndex - 1 + (prev + 1 - l.firstIndex) = prev by omega]

/-- A MsgAppend of the node. -/
def appendMsg (s : RaftContext) (peer prev t : Nat) (es : List Entry) : Message :=
  { msgType := .msgAppend, fromId := s.id, toId := peer, term := s.term, commit := s.raftLog.commited,
    logTerm := t, index := prev, entries := es }

theorem sendAppendOver_found (hpr : s.progress peer = some pr) (hlo : 1 ≤ pr.next) {t : Nat}
    (hterm : s.raftLog.termOver st (pr.next - 1) = some (t, true)) :
    s.sendAppendOver st peer = some (s.pushAll [appendMsg s peer (pr.next - 1) t
      (s.raftLog.entries.drop (s.raftLog.toSliceIndex (pr.next - 1 + 1)))]) := by
  unfold RaftContext.sendAppendOver
  rw [hpr, Option.bind_eq_bind, Option.bind_some, u64Sub_of_le hlo]
  dsimp only
  rw [hterm]
  rfl

theorem sendAppendOver_missing (hpr : s.progress peer = some pr) (hlo : 1 ≤ pr.next) {es : List Entry}
    (hterm : s.raftLog.termOver st (pr.next - 1) = some (0, false))
    (hes : st.entries (pr.next - 1 + 1) (pr.next - 1 + 2) = some es) :
    s.sendAppendOver st peer =
      some (s.pushAll (es.head?.toList.map fun e => appendMsg s peer (pr.next - 1) e.term es)) := by
  unfold RaftContext.sendAppendOver
  rw [hpr, Option.bind_eq_bind, Option.bind_some, u64Sub_of_le hlo]
  dsimp only
  rw [hterm, Option.bind_eq_bind, Option.bind_some, if_pos rfl, hes]
  cases es with
  | nil =>
      rw [List.head?_nil, Option.toList_none, List.map_nil, RaftContext.pushAll_nil]
      rfl
  | cons e es => rfl

theorem sendsHistory_iff {ms : List Message} (h : s.sendAppendOver st peer = some (s.pushAll ms)) :
    SendsHistory s st H peer prev ↔ ∀ m ∈ ms, Describes H prev m := by
  refine ⟨?_, fun hms => ⟨ms, h, hms⟩⟩
  rintro ⟨ms', h', hms'⟩
  have heq := congrArg RaftContext.msgs (Option.some.inj (h.symm.trans h'))
  rw [List.append_cancel_left heq]
  exact hms'

theorem sendsHistory_found_iff (hlog : History st s.raftLog H) (hu64 : H.length < 2 ^ 64)
    (hpr : s.progress peer = some pr) (hlo : 1 ≤ pr.next) (hprev : pr.next - 1 ≤ H.length) {t : Nat}
    (hterm : s.raftLog.termOver st (pr.next - 1) = some (t, true)) :
    SendsHistory s st H peer (pr.next - 1) ↔ t = historyTerm H (pr.next - 1) := by
  rw [sendsHistory_iff (sendAppendOver_found hpr hlo hterm), List.forall_mem_singleton]
  exact ⟨fun h => h.logTerm, fun h => ⟨rfl, rfl, h, hlog.drop_slice hu64 hprev⟩⟩

/-- What is loaded in front of the storage's range starts with the entry behind `prev`, of which the
message then carries the term. -/
theorem sendsHistory_missing_iff (hlog : History st s.raftLog H) (hpr : s.progress peer = some pr)
    (hlo : 1 ≤ pr.next) (hprev : pr.next - 1 + 1 < st.firstIndex)
    (hterm : s.raftLog.termOver st (pr.next - 1) = some (0, false)) :
    SendsHistory s st H peer (pr.next - 1) ↔ st.entries (pr.next - 1 + 1) (pr.next - 1 + 2) = some [] ∨
      historyTerm H (pr.next - 1 + 1) = historyTerm H (pr.next - 1) := by
  generalize hp : pr.next - 1 = prev at *
  have hrange := hlog.honours.range
  obtain ⟨es, hes, hslice, -⟩ :=
    hlog.honours.entries (prev + 1) (prev + 2) (by omega) (by omega) (by omega) (by omega)
  rw [Nat.add_sub_cancel, show prev + 2 - (prev + 1) = 1 by omega] at hslice
  have hsent := hp ▸ sendAppendOver_missing hpr hlo (hp ▸ hterm) (hp ▸ hes)
  rw [sendsHistory_iff hsent, hes, Option.some_inj]
  cases es with
  | nil =>
      refine iff_of_true ?_ (.inl rfl)
      intro m hm
      cases hm
  | cons e es =>
      have hbehind : e :: es <+: H.drop prev := hslice.trans (by exact List.take_prefix _ _)
      have he : H[prev]? = some e := by
        obtain ⟨rest, hrest⟩ := hbehind
        rw [← List.head?_drop, ← hrest, List.cons_append, List.head?_cons]
      obtain ⟨hlt, rfl⟩ := List.getElem?_eq_some_iff.mp he
      rw [or_iff_right (List.cons_ne_nil _ _), historyTerm_succ hlt]
      constructor
      · exact fun h => (h _ (List.mem_singleton_self _)).logTerm
      · intro h m hm
        rw [List.mem_singleton.mp hm]
        exact ⟨rfl, rfl, h, hbehind⟩

/-- **Every MsgAppend describes the leader's log** exactly where the term in front of it is known: a storage
that answers `(0, true)` for an index it has compacted makes the node send the term 0. -/
theorem sendAppend_describes_iff (hlog : History st s.raftLog H) (hu64 : H.length < 2 ^ 64)
    (hpr : s.progress peer = some pr) (hlo : 1 ≤ pr.next) (hhi : pr.next ≤ s.raftLog.lastIndexOver st + 1) :
    SendsHistory s st H peer (pr.next - 1) ↔ TermKnown st s.raftLog H (pr.next - 1) := by
  rw [hlog.lastIndexOver] at hhi
  have hprev : pr.next - 1 ≤ H.length := by omega
  unfold TermKnown
  by_cases hmem : s.raftLog.InMemory (pr.next - 1)
  · refine iff_of_true ?_ fun hbad => absurd hmem hbad
    have hterm := hlog.termOver_inMemory hprev hmem
    exact (sendsHistory_found_iff hlog hu64 hpr hlo hprev hterm).mpr rfl
  · rw [imp_iff_right hmem]
    have hterm : s.raftLog.termOver st (pr.next - 1) = _ := termOver_not_inMemory hmem
    split_ifs with hrange hfound
    · have hlt := hlog.lt_firstIndex hprev hmem
      have hstored := hlog.stored
      rw [hlog.honours.term _ hrange (by omega) (by omega), if_pos rfl] at hterm
      rw [sendsHistory_found_iff hlog hu64 hpr hlo hprev hterm, recovered_self_iff]
    · rw [if_pos hfound] at hterm
      exact sendsHistory_found_iff hlog hu64 hpr hlo hprev hterm
    · rw [if_neg hfound] at hterm
      exact sendsHistory_missing_iff hlog hpr hlo (by omega) hterm

/-- The stored entries below `n` are those of the history. -/
theorem MemoryStorage.Contiguous.getElem?_eq {ms : MemoryStorage} {n : Nat} (h : ms.Contiguous)
    (hstored : ∀ e ∈ ms.ents.tail, e.index < n → H[e.index - 1]? = some e)
    (hlo : ms.dummy.index < i) (hhi : i ≤ ms.lastIndex) (hn : i < n) :
    ∃ e, ms.ents[i - ms.dummy.index]? = some e ∧ H[i - 1]? = some e := by
  have hpos := ms.length_pos
  have hlen : i - ms.dummy.index < ms.ents.length := by
    unfold MemoryStorage.lastIndex at hhi
    omega
  have hget := List.getElem?_eq_getElem hlen
  have hindex := h _ _ hget
  refine ⟨_, hget, ?_⟩
  have hmem : ms.ents[i - ms.dummy.index] ∈ ms.ents.tail := by
    refine List.mem_of_getElem? (i := i - ms.dummy.index - 1) ?_
    rw [List.getElem?_tail, Nat.sub_add_cancel (by omega), hget]
  have := hstored _ hmem (by omega)
  rw [hindex, Nat.add_sub_cancel' hlo.le] at this
  exact this

theorem MemoryStorage.Contiguous.term_eq {ms : MemoryStorage} {n i : Nat} (h : ms.Contiguous)
    (hdummy : ms.dummy.term = historyTerm H ms.dummy.index)
    (hstored : ∀ e ∈ ms.ents.tail, e.index < n → H[e.index - 1]? = some e)
    (hlo : ms.dummy.index ≤ i) (hhi : i ≤ ms.lastIndex) (hn : i < n) :
    ms.term i = (historyTerm H i, true) := by
  rw [MemoryStorage.term_of_le hlo]
  rcases Nat.lt_or_eq_of_le hlo with hlt | rfl
  · obtain ⟨e, hget, hH⟩ := h.getElem?_eq hstored hlt hhi hn
    obtain ⟨k, rfl⟩ := Nat.exists_eq_add_one_of_ne_zero (Nat.ne_of_gt (Nat.zero_lt_of_lt hlt))
    obtain ⟨hk, rfl⟩ := List.getElem?_eq_some_iff.mp hH
    rw [hget, show historyTerm H (k + 1) = _ from historyTerm_succ hk]
    rfl
  · rw [Nat.sub_self, ms.ents_eq, ← hdummy]
    rfl

/-- The stored entries of a range are those of the history. -/
theorem MemoryStorage.Contiguous.slice_eq {ms : MemoryStorage} {n lo hi : Nat} (h : ms.Contiguous)
    (hstored : ∀ e ∈ ms.ents.tail, e.index < n → H[e.index - 1]? = some e)
    (hlo : ms.dummy.index < lo) (hhi : hi ≤ ms.lastIndex + 1) (hn : hi ≤ n) :
    (ms.ents.take (hi - ms.dummy.index)).drop (lo - ms.dummy.index) = (H.drop (lo - 1)).take (hi - lo) := by
  refine List.ext_getElem? fun j => ?_
  rw [List.getElem?_drop, List.getElem?_take, List.getElem?_take, List.getElem?_drop]
  by_cases hj : j < hi - lo
  · obtain ⟨e, hget, hH⟩ := h.getElem?_eq hstored (i := lo + j) (by omega) (by omega) (by omega)
    rw [if_pos (by omega), if_pos hj, show lo - ms.dummy.index + j = lo + j - ms.dummy.index by omega,
      hget, show lo - 1 + j = lo + j - 1 by omega, hH]
  · rw [if_neg (by omega), if_neg hj]

/-- **`MemoryStorage` keeps to the comments of its interface**, for every history whose compacted part ends
at the dummy entry and that has the stored entries below `n`. -/
theorem MemoryStorage.Contiguous.honours {ms : MemoryStorage} {n : Nat} (h : ms.Contiguous)
    (hdummy : ms.dummy.term = historyTerm H ms.dummy.index)
    (hstored : ∀ e ∈ ms.ents.tail, e.index < n → H[e.index - 1]? = some e) :
    Honours ms.interface n H := by
  refine ⟨ms.firstIndex_le, fun i hlo hhi hn => ?_, fun lo hi hpos hle hhi hn => ?_⟩
  · exact h.term_eq hdummy hstored (Nat.le_of_succ_le_succ hlo) hhi hn
  · change hi ≤ ms.lastIndex + 1 at hhi
    rcases Nat.lt_or_ge ms.dummy.index lo with hlt | hge
    · have hlen := ms.length_pos
      have hlast : ms.lastIndex + 1 - ms.dummy.index = ms.ents.length := by
        unfold MemoryStorage.lastIndex
        omega
      have hlength : ((ms.ents.take (hi - ms.dummy.index)).drop (lo - ms.dummy.index)).length = hi - lo := by
        rw [List.length_drop, List.length_take]
        omega
      refine ⟨(ms.ents.take (hi - ms.dummy.index)).drop (lo - ms.dummy.index), ?_,
        ⟨[], by rw [List.append_nil, h.slice_eq hstored hlt hhi hn]⟩, fun _ hlt' => ?_⟩
      · change ms.entries lo hi = _
        rw [MemoryStorage.entries, if_neg (Nat.not_le.mpr hlt), if_pos ⟨hle, by omega⟩, if_neg]
        rintro ⟨hone, hne⟩
        exact hne (hlength.trans (by omega))
      · rw [← List.length_pos_iff, hlength]
        omega
    · refine ⟨[], ?_, List.nil_prefix, fun hfirst => ?_⟩
      · change ms.entries lo hi = _
        rw [MemoryStorage.entries, if_pos hge]
      · change ms.dummy.index + 1 ≤ lo at hfirst
        omega

end

/-- A leader whose storage has compacted the first five entries; entry 6 is stored, entry 7 in memory. Peer 2
lacks entry 7, peer 3 everything behind entry 3. -/
def compactedLeader : RaftContext :=
  { prs := .ofList ([(1, some ⟨7, 8⟩), (2, some ⟨6, 7⟩), (3, some ⟨3, 4⟩)] : List (Nat × Option Progress))
    id := 1, term := 2, vote := 1, state := .stateLeader, votes := .ofList [(1, true), (2, true)]
    raftLog := RaftLog.shortLog
    lead := 1, msgs := [], heartbeatTimeout := 1, electionTimeout := 10
    randomElectionTimeout := 10, heartbeatElapsed := 0, electionElapsed := 0, transferElapsed := 0
    leadTransferee := NONE, pendingConfIndex := NONE }

def compactedHistory : List Entry := MemoryStorage.batch 1 1 6 ++ [{ index := 7, term := 2 }]

theorem compactedLeader_history :
    History compactedLeader.raftLog.storage.interface compactedLeader.raftLog compactedHistory where
  contiguous := (MemoryStorage.batch_from 1 1 6).append (from_cons.mpr ⟨rfl, From.nil⟩)
  firstPos := by decide
  entries := by decide
  first_le := by decide
  stored := by decide
  base := by decide
  honours := MemoryStorage.compacted_contiguous.honours (by decide) (by decide)

theorem sendAppend_describes_iff_compacted :
    SendsHistory compactedLeader compactedLeader.raftLog.storage.interface compactedHistory 2 6 :=
  (sendAppend_describes_iff compactedLeader_history (by decide)
    (show compactedLeader.progress 2 = some ⟨6, 7⟩ by decide +kernel) (by decide) (by decide)).mpr
    fun _ => by decide

/-- The message to peer 3 has index 3 and log term 0, while the leader's entry 3 has term 1. -/
theorem not_sendAppend_describes : compactedLeader.progress 3 = some ⟨3, 4⟩ ∧ 1 ≤ 4 ∧
    4 ≤ compactedLeader.raftLog.lastIndexOver compactedLeader.raftLog.storage.interface + 1 ∧
    compactedLeader.sendAppend 3 = some (compactedLeader.pushAll [appendMsg compactedLeader 3 3 0 []]) ∧
    historyTerm compactedHistory 3 = 1 ∧
    ¬SendsHistory compactedLeader compactedLeader.raftLog.storage.interface compactedHistory 3 3 := by
  have hpr : compactedLeader.progress 3 = some ⟨3, 4⟩ := by decide +kernel
  have hsent : compactedLeader.sendAppend 3 =
      some (compactedLeader.pushAll [appendMsg compactedLeader 3 3 0 []]) := by
    have hterm : compactedLeader.raftLog.termOver compactedLeader.raftLog.storage.interface 3 =
        some (0, true) := by decide
    rw [← compactedLeader.sendAppendOver_interface 3, sendAppendOver_found hpr (by decide) hterm]
    rfl
  refine ⟨hpr, by decide, by decide, hsent, by decide, ?_⟩
  rw [sendsHistory_iff (compactedLeader.sendAppendOver_interface 3 ▸ hsent), List.forall_mem_singleton]
  intro h
  exact absurd h.logTerm (by decide)

end Eraft
