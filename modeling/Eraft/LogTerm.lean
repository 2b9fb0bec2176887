import Eraft.RaftLog
import Eraft.StorageLog

/-! What `RaftLog::Term` answers, against the log that the three parts of a `RaftLog` stand for: a boundary,
of which only the index and the term are known, and the entries behind it. Before the application has
taken a pending snapshot over into the storage the boundary is that snapshot; otherwise it is the
storage's dummy entry. -/

open Indexed

namespace Eraft

/-- A log as its readers see it. Where nothing has been compacted the boundary has index and term 0. -/
structure LogContent where
  index : Nat
  term : Nat
  entries : List Entry

namespace LogContent

variable (A : LogContent) {i : Nat}

def lastIndex : Nat := A.index + A.entries.length

/-- The term at an index, from the boundary to the last entry. -/
def termAt (i : Nat) : Option Nat :=
  if i < A.index then none else (A.term :: A.entries.map Entry.term)[i - A.index]?

theorem termAt_self : A.termAt A.index = some A.term := by
  rw [termAt, if_neg (Nat.lt_irrefl _), Nat.sub_self, List.getElem?_cons_zero]

theorem termAt_of_gt (h : A.index < i) :
    A.termAt i = (A.entries[i - A.index - 1]?).map Entry.term := by
  obtain ⟨k, rfl⟩ : ∃ k, i = A.index + k + 1 := ⟨i - A.index - 1, by omega⟩
  rw [termAt, if_neg (by omega), show A.index + k + 1 - A.index = k + 1 by omega, List.getElem?_cons_succ,
    List.getElem?_map, Nat.add_sub_cancel]

theorem termAt_isSome : (A.termAt i).isSome ↔ A.index ≤ i ∧ i ≤ A.lastIndex := by
  unfold termAt lastIndex
  split_ifs with h
  · exact iff_of_false (by simp) (by omega)
  · rw [Option.isSome_iff_ne_none, Ne, List.getElem?_eq_none_iff, List.length_cons, List.length_map]
    omega

end LogContent

namespace RaftLog

variable {l : RaftLog} {A : LogContent} {i : Nat}

/-- The index is looked up in `entries_`. -/
abbrev InMemory (l : RaftLog) (i : Nat) : Prop := 0 < l.entries.length ∧ l.firstIndex ≤ i

/-- The pending snapshot ends at the index. -/
abbrev PendingAt (l : RaftLog) (i : Nat) : Prop :=
  isEmptySnap l.pendingSnapshot = false ∧ i = l.pendingSnapshot.metadata.index

/-- What `Term` makes of the storage's answer `t`. -/
def recovered (l : RaftLog) (i t : Nat) : Nat := if t = 0 ∧ l.PendingAt i then i else t

theorem term_inMemory (h : l.InMemory i) :
    l.term i = (l.entries[i - l.firstIndex]?).map fun e => (e.term, true) := if_pos h

theorem term_not_inMemory (h : ¬l.InMemory i) :
    l.term i = some (l.recovered i (l.storage.term i).1, true) := by
  unfold term recovered
  rw [if_neg h]
  dsimp only
  rw [if_neg (by rw [MemoryStorage.term_snd]; decide)]
  split_ifs with hpending
  · rw [hpending.2.2]
  · rfl

/-- The storage up to `entries_`, and from there on `entries_`. -/
def storedContent (l : RaftLog) : LogContent where
  index := l.storage.dummy.index
  term := l.storage.dummy.term
  entries := l.storage.ents.tail.take (l.firstIndex - l.storage.dummy.index - 1) ++
    l.entries.drop (l.storage.dummy.index + 1 - l.firstIndex)

def pendingContent (l : RaftLog) : LogContent where
  index := l.pendingSnapshot.metadata.index
  term := l.pendingSnapshot.metadata.term
  entries := l.entries

/-- The two kinds of logs: one whose snapshots are all in the storage (which may have compacted more
than `entries_`), and one whose pending snapshot is not, so that the storage does not count. -/
inductive Represents (l : RaftLog) : LogContent → Prop
  | stored (hstorage : l.storage.Contiguous) (hentries : From Entry.index l.firstIndex l.entries)
      (hlo : l.storage.dummy.index < l.firstIndex + l.entries.length)
      (hhi : l.firstIndex ≤ l.storage.lastIndex + 1)
      (hend : l.entries = [] → l.firstIndex = l.storage.lastIndex + 1)
      (hsame : ∀ e ∈ l.entries, e.index = l.storage.dummy.index → e.term = l.storage.dummy.term)
      (hpending : ∀ i t, l.PendingAt i → l.storedContent.termAt i = some t →
        t = l.pendingSnapshot.metadata.term) :
      Represents l l.storedContent
  | pending (hstorage : l.storage.Contiguous) (hentries : From Entry.index l.firstIndex l.entries)
      (hpending : isEmptySnap l.pendingSnapshot = false)
      (hfirst : l.firstIndex = l.pendingSnapshot.metadata.index + 1) :
      Represents l l.pendingContent

/-- `Term` gives the term where the log has one, and says so where it has none. -/
def Truthful (l : RaftLog) (A : LogContent) (i : Nat) : Prop :=
  l.term i = some (match A.termAt i with
    | some t => (t, true)
    | none => (0, false))

/-- The storage has an entry of the term `t` at the index. -/
def StoredTerm (l : RaftLog) (i t : Nat) : Prop := ∃ e ∈ l.storage.ents, e.index = i ∧ e.term = t

/-- The term of the pending snapshot is found although its own branch reads the index: it is in the
storage as well, or index and term are the same number. -/
def SnapshotTermKnown (l : RaftLog) : Prop :=
  (l.StoredTerm l.pendingSnapshot.metadata.index l.pendingSnapshot.metadata.term ∧
    l.pendingSnapshot.metadata.term ≠ 0) ∨
  ((∀ t, l.StoredTerm l.pendingSnapshot.metadata.index t → t = 0) ∧
    l.pendingSnapshot.metadata.index = l.pendingSnapshot.metadata.term)

theorem storedTerm_iff (h : l.storage.Contiguous) {t : Nat} :
    l.StoredTerm i t ↔ l.storage.dummy.index ≤ i ∧
      (l.storage.ents[i - l.storage.dummy.index]?).map Entry.term = some t := by
  constructor
  · rintro ⟨e, he, rfl, rfl⟩
    obtain ⟨k, hk⟩ := List.mem_iff_getElem?.mp he
    have hindex := h k e hk
    refine ⟨by omega, ?_⟩
    rw [hindex, Nat.add_sub_cancel_left, hk]
    rfl
  · rintro ⟨hle, hmap⟩
    obtain ⟨e, he, rfl⟩ := Option.map_eq_some_iff.mp hmap
    have hindex := h _ e he
    exact ⟨e, List.mem_of_getElem? he, by omega, rfl⟩

/-- The storage's answer is the term of the entry it has there, and 0 if it has none. -/
theorem storage_term_cases (h : l.storage.Contiguous) (i : Nat) :
    l.StoredTerm i (l.storage.term i).1 ∨ (l.storage.term i).1 = 0 ∧ ∀ t, ¬l.StoredTerm i t := by
  rcases Nat.lt_or_ge i l.storage.dummy.index with hlt | hle
  · refine .inr ⟨by rw [MemoryStorage.term_of_lt hlt], fun t ht => ?_⟩
    have := ((storedTerm_iff h).mp ht).1
    omega
  · rw [MemoryStorage.term_of_le hle]
    cases hterm : (l.storage.ents[i - l.storage.dummy.index]?).map Entry.term with
    | some t => exact .inl ((storedTerm_iff h).mpr ⟨hle, hterm⟩)
    | none =>
        refine .inr ⟨rfl, fun t ht => ?_⟩
        rw [((storedTerm_iff h).mp ht).2] at hterm
        cases hterm

theorem StoredTerm.unique (h : l.storage.Contiguous) {t t' : Nat} (ht : l.StoredTerm i t)
    (ht' : l.StoredTerm i t') : t = t' :=
  Option.some.inj (((storedTerm_iff h).mp ht).2.symm.trans ((storedTerm_iff h).mp ht').2)

theorem recovered_eq_iff (h : l.storage.Contiguous) (hi : l.PendingAt i) :
    l.recovered i (l.storage.term i).1 = l.pendingSnapshot.metadata.term ↔ l.SnapshotTermKnown := by
  unfold SnapshotTermKnown
  rw [← hi.2]
  unfold recovered
  rcases storage_term_cases h i with hstored | ⟨hzero, hnone⟩
  · generalize (l.storage.term i).1 = t at hstored
    by_cases ht : t = 0
    · rw [if_pos ⟨ht, hi⟩]
      constructor
      · exact fun heq => .inr ⟨fun t' ht' => (ht'.unique h hstored).trans ht, heq⟩
      · rintro (⟨hsnap, hne⟩ | ⟨-, heq⟩)
        · exact absurd ((hsnap.unique h hstored).trans ht) hne
        · exact heq
    · rw [if_neg fun hbad => ht hbad.1]
      constructor
      · exact fun heq => .inl ⟨heq ▸ hstored, heq ▸ ht⟩
      · rintro (⟨hsnap, -⟩ | ⟨hall, -⟩)
        · exact hstored.unique h hsnap
        · exact absurd (hall t hstored) ht
  · rw [if_pos ⟨hzero, hi⟩]
    constructor
    · exact fun heq => .inr ⟨fun t ht => absurd ht (hnone t), heq⟩
    · rintro (⟨hsnap, -⟩ | ⟨-, heq⟩)
      · exact absurd hsnap (hnone _)
      · exact heq

theorem length_tail_take (hhi : l.firstIndex ≤ l.storage.lastIndex + 1) :
    (l.storage.ents.tail.take (l.firstIndex - l.storage.dummy.index - 1)).length =
      l.firstIndex - l.storage.dummy.index - 1 := by
  rw [List.length_take, List.length_tail, Nat.min_eq_left]
  unfold MemoryStorage.lastIndex at hhi
  omega

theorem storedContent_inMemory (hentries : From Entry.index l.firstIndex l.entries)
    (hhi : l.firstIndex ≤ l.storage.lastIndex + 1)
    (hlo : l.storage.dummy.index < l.firstIndex + l.entries.length)
    (hsame : ∀ e ∈ l.entries, e.index = l.storage.dummy.index → e.term = l.storage.dummy.term)
    (hi : l.InMemory i) (hle : l.storage.dummy.index ≤ i) :
    l.storedContent.termAt i = (l.entries[i - l.firstIndex]?).map Entry.term := by
  rcases Nat.lt_or_eq_of_le hle with hlt | rfl
  · rw [LogContent.termAt_of_gt _ hlt]
    dsimp only [storedContent]
    rw [List.getElem?_append_right (by rw [length_tail_take hhi]; have := hi.2; omega), length_tail_take hhi,
      List.getElem?_drop]
    congr 2
    have := hi.2
    omega
  · -- the boundary itself is in memory as well
    have hk : l.storage.dummy.index - l.firstIndex < l.entries.length := by omega
    have hindex := hentries _ _ (List.getElem?_eq_getElem hk)
    have hterm := hsame _ (List.getElem_mem hk) (by have := hi.2; omega)
    rw [show l.storage.dummy.index = l.storedContent.index from rfl, LogContent.termAt_self]
    change _ = (l.entries[l.storage.dummy.index - l.firstIndex]?).map Entry.term
    rw [List.getElem?_eq_getElem hk, Option.map_some, hterm]
    rfl

theorem storedContent_not_inMemory (hhi : l.firstIndex ≤ l.storage.lastIndex + 1)
    (hlo : l.storage.dummy.index < l.firstIndex + l.entries.length)
    (hi : ¬l.InMemory i) (hle : l.storage.dummy.index ≤ i) (hlast : i ≤ l.storedContent.lastIndex) :
    l.storedContent.termAt i = (l.storage.ents[i - l.storage.dummy.index]?).map Entry.term := by
  have hlength : l.storedContent.lastIndex = l.storage.dummy.index +
      (l.firstIndex - l.storage.dummy.index - 1 +
        (l.entries.length - (l.storage.dummy.index + 1 - l.firstIndex))) := by
    rw [LogContent.lastIndex, storedContent, List.length_append, length_tail_take hhi, List.length_drop]
  have hlt : i < l.firstIndex := by
    by_contra hge
    have : ¬0 < l.entries.length := fun hpos => hi ⟨hpos, by omega⟩
    omega
  rcases Nat.lt_or_eq_of_le hle with hgt | rfl
  · rw [LogContent.termAt_of_gt _ hgt]
    dsimp only [storedContent]
    obtain ⟨k, rfl⟩ : ∃ k, i = l.storage.dummy.index + k + 1 := ⟨i - l.storage.dummy.index - 1, by omega⟩
    rw [show l.storage.dummy.index + k + 1 - l.storage.dummy.index = k + 1 by omega, Nat.add_sub_cancel,
      List.getElem?_append_left (by rw [length_tail_take hhi]; omega),
      List.getElem?_take_of_lt (by omega), List.getElem?_tail]
  · rw [show l.storage.dummy.index = l.storedContent.index from rfl, LogContent.termAt_self]
    change _ = (l.storage.ents[l.storage.dummy.index - l.storage.dummy.index]?).map Entry.term
    rw [Nat.sub_self, l.storage.ents_eq]
    rfl

/-- In memory the answer is the entry's term, for every index of the content and for no other. -/
theorem Represents.termAt_inMemory (h : l.Represents A) (hi : l.InMemory i) (hle : A.index ≤ i) :
    A.termAt i = (l.entries[i - l.firstIndex]?).map Entry.term := by
  cases h with
  | stored hstorage hentries hlo hhi hend hsame hpending =>
      exact storedContent_inMemory hentries hhi hlo hsame hi hle
  | pending hstorage hentries hpending hfirst =>
      have := hi.2
      rw [LogContent.termAt_of_gt _ (show l.pendingContent.index < i by
        change l.pendingSnapshot.metadata.index < i; omega), hfirst]
      rfl

theorem termAt_pendingAt (hstorage : l.storage.Contiguous) (hi : l.PendingAt i)
    (ht : A.termAt i = some l.pendingSnapshot.metadata.term) :
    A.termAt i = some (l.recovered i (l.storage.term i).1) ↔ (l.PendingAt i → l.SnapshotTermKnown) := by
  rw [ht, Option.some_inj, eq_comm, recovered_eq_iff hstorage hi]
  exact ⟨fun h _ => h, fun h => h hi⟩

/-- Outside memory the answer is right if the storage has the term, or the snapshot's is found. -/
theorem Represents.termAt_not_inMemory (h : l.Represents A) (hi : ¬l.InMemory i) (hle : A.index ≤ i)
    (hlast : i ≤ A.lastIndex) :
    A.termAt i = some (l.recovered i (l.storage.term i).1) ↔ (l.PendingAt i → l.SnapshotTermKnown) := by
  cases h with
  | stored hstorage hentries hlo hhi hend hsame hpending =>
      obtain ⟨t, ht⟩ := Option.isSome_iff_exists.mp (l.storedContent.termAt_isSome.mpr ⟨hle, hlast⟩)
      by_cases hat : l.PendingAt i
      · exact termAt_pendingAt hstorage hat (ht.trans (congrArg some (hpending i t hat ht)))
      · have hanswer : (l.storage.term i).1 = t := by
          rw [MemoryStorage.term_of_le hle, ← storedContent_not_inMemory hhi hlo hi hle hlast, ht]
          rfl
        rw [ht, hanswer, recovered, if_neg fun hbad => hat hbad.2]
        exact iff_of_true rfl fun hbad => absurd hbad hat
  | pending hstorage hentries hpending hfirst =>
      have hat : l.PendingAt i := by
        refine ⟨hpending, Nat.le_antisymm ?_ hle⟩
        by_contra hgt
        change i ≤ l.pendingSnapshot.metadata.index + l.entries.length at hlast
        exact hi ⟨by omega, by omega⟩
      refine termAt_pendingAt hstorage hat ?_
      rw [hat.2]
      exact l.pendingContent.termAt_self

/-- **`Term` tells the truth** about the indices from the boundary to the last entry, unless it has to take
the term from the pending snapshot, and about no other index: past the end it reads outside `entries_`
or answers `(0, true)`, as it does in front of the boundary. -/
theorem term_truthful_iff (h : l.Represents A) (i : Nat) :
    l.Truthful A i ↔ A.index ≤ i ∧ i ≤ A.lastIndex ∧
      (¬l.InMemory i → l.PendingAt i → l.SnapshotTermKnown) := by
  unfold Truthful
  by_cases hrange : A.index ≤ i ∧ i ≤ A.lastIndex
  · obtain ⟨t, ht⟩ := Option.isSome_iff_exists.mp (A.termAt_isSome.mpr hrange)
    rw [ht, and_iff_right hrange.1, and_iff_right hrange.2]
    dsimp only
    by_cases hi : l.InMemory i
    · refine iff_of_true ?_ fun hbad => absurd hi hbad
      have hterm := h.termAt_inMemory hi hrange.1
      rw [ht] at hterm
      obtain ⟨e, he, rfl⟩ := Option.map_eq_some_iff.mp hterm.symm
      rw [term_inMemory hi, he, Option.map_some]
    · have hterm := h.termAt_not_inMemory hi hrange.1 hrange.2
      rw [ht, Option.some_inj] at hterm
      rw [term_not_inMemory hi, Option.some_inj, Prod.mk.injEq, and_iff_left rfl, eq_comm, hterm]
      exact ⟨fun hknown _ => hknown, fun hknown => hknown hi⟩
  · refine iff_of_false ?_ fun hbad => hrange ⟨hbad.1, hbad.2.1⟩
    have hnone : A.termAt i = none := by
      rw [← Option.not_isSome_iff_eq_none, A.termAt_isSome]
      exact hrange
    rw [hnone]
    dsimp only
    by_cases hi : l.InMemory i
    · rw [term_inMemory hi]
      intro hbad
      obtain ⟨e, -, he⟩ := Option.map_eq_some_iff.mp hbad
      exact Bool.noConfusion (congrArg Prod.snd he)
    · rw [term_not_inMemory hi]
      intro hbad
      exact Bool.noConfusion (congrArg Prod.snd (Option.some.inj hbad))

/-- A log whose storage has compacted up to index 5, with one entry in memory. -/
def shortLog : RaftLog where
  storage := MemoryStorage.compacted
  pendingSnapshot := {}
  commited := 6
  applied := 6
  stabled := 6
  firstIndex := 7
  entries := [{ index := 7, term := 2 }]

theorem shortLog_represents : shortLog.Represents shortLog.storedContent :=
  .stored MemoryStorage.compacted_contiguous (from_cons.mpr ⟨rfl, From.nil⟩) (by decide) (by decide)
    (by decide) (by decide) (fun i t hi => absurd hi.1 (by decide))

/-- The boundary, the stored entry and the entry in memory. -/
theorem term_truthful_iff_short : shortLog.Truthful shortLog.storedContent 5 ∧
    shortLog.Truthful shortLog.storedContent 6 ∧ shortLog.Truthful shortLog.storedContent 7 := by
  have hpending : ∀ i, ¬shortLog.PendingAt i := fun i hi => absurd hi.1 (by decide)
  refine ⟨?_, ?_, ?_⟩
  · exact (term_truthful_iff shortLog_represents 5).mpr
      ⟨by decide, by decide, fun _ hi => absurd hi (hpending 5)⟩
  · exact (term_truthful_iff shortLog_represents 6).mpr
      ⟨by decide, by decide, fun _ hi => absurd hi (hpending 6)⟩
  · exact (term_truthful_iff shortLog_represents 7).mpr
      ⟨by decide, by decide, fun _ hi => absurd hi (hpending 7)⟩

/-- A log that has just received a snapshot of index 5 and term 2, over an empty storage. -/
def snapshotLog : RaftLog where
  storage := MemoryStorage.new
  pendingSnapshot := { metadata := { index := 5, term := 2 } }
  commited := 5
  applied := 5
  stabled := 5
  firstIndex := 6
  entries := []

/-- `Term(5)` gives the index of the snapshot for its term. -/
theorem not_term_truthful_snapshot : snapshotLog.Represents snapshotLog.pendingContent ∧
    snapshotLog.pendingContent.termAt 5 = some 2 ∧ snapshotLog.term 5 = some (5, true) ∧
    ¬snapshotLog.Truthful snapshotLog.pendingContent 5 := by
  refine ⟨.pending ?_ From.nil (by decide) rfl, by decide, by decide, ?_⟩
  · exact from_cons.mpr ⟨rfl, From.nil⟩
  · unfold Truthful
    decide

end RaftLog

end Eraft
