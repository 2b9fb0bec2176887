import Eraft.MemoryStorage
import Eraft.BaseIndexed

/-! The log that a storage keeps. In a contiguous storage an entry's index says its position, and every
read is an answer about that log. What the operations that change the log do to it, and for which
arguments this is what they are for. -/

open Indexed

namespace Eraft

namespace MemoryStorage

variable {ms : MemoryStorage} {es : List Entry} {b c : Nat}

/-- The stored entries have consecutive indices, from the dummy's on. -/
def Contiguous (ms : MemoryStorage) : Prop := From Entry.index ms.dummy.index ms.ents

theorem ents_eq (ms : MemoryStorage) : ms.ents = ms.dummy :: ms.ents.tail :=
  (List.cons_head_tail ms.entsPos).symm

theorem length_pos (ms : MemoryStorage) : 0 < ms.ents.length := List.length_pos_iff.mpr ms.entsPos

theorem firstIndex_le (ms : MemoryStorage) : ms.firstIndex ≤ ms.lastIndex + 1 := by
  have := ms.length_pos
  unfold firstIndex lastIndex
  omega

theorem term_of_lt {i : Nat} (h : i < ms.dummy.index) : ms.term i = (0, true) := by
  rw [term, if_pos h]

theorem term_of_le {i : Nat} (h : ms.dummy.index ≤ i) :
    ms.term i = (((ms.ents[i - ms.dummy.index]?).map Entry.term).getD 0, true) := by
  rw [term, if_neg (Nat.not_lt.mpr h)]
  cases ms.ents[i - ms.dummy.index]? <;> rfl

/-- What appending `es`, with the indices from `b` on, is for: the entries below the batch stay, and
behind them comes the batch as far as it has not been compacted away. -/
def Overwrites (ms : MemoryStorage) (b : Nat) (es : List Entry) : Prop :=
  if b + es.length - 1 < ms.firstIndex then (ms.append es).1 = ms
  else (ms.append es).1.Contiguous ∧ (ms.append es).1.dummy = ms.dummy ∧
    (ms.append es).1.ents = ms.ents.filter (fun e => e.index < max ms.firstIndex b) ++
      es.filter (fun e => ms.firstIndex ≤ e.index)

/-- Appending behind the dummy: `es`, with the indices from `b` on, replaces what is stored there. -/
theorem append_of_lt {e : Entry} (he : es.head? = some e) (hlo : ms.dummy.index < e.index)
    (hhi : e.index ≤ ms.lastIndex + 1) :
    (ms.append es).1.ents = ms.ents.take (e.index - ms.dummy.index) ++ es := by
  obtain ⟨rest, rfl⟩ : ∃ rest, es = e :: rest := List.head?_eq_some_iff.mp he
  have hlast : ¬e.index + (e :: rest).length - 1 < ms.firstIndex := by
    rw [firstIndex, List.length_cons]
    omega
  have hfront : ¬e.index < ms.firstIndex := by
    rw [firstIndex]
    omega
  have hoffset : u64Sub e.index ms.dummy.index = e.index - ms.dummy.index := u64Sub_of_le hlo.le
  simp only [append, hlast, hfront, hoffset, List.headD_cons, List.cons_ne_nil, if_false, dite_false]
  split_ifs with hlt hend
  · rfl
  · rw [← hend, List.take_length]
  · have := ms.length_pos
    unfold lastIndex at hhi
    omega

/-- A batch that starts at the dummy is appended without its first entry. -/
theorem append_of_eq {e e' : Entry} {rest : List Entry} (he : e.index = ms.dummy.index)
    (he' : e'.index = ms.firstIndex) :
    ms.append (e :: e' :: rest) = ms.append (e' :: rest) := by
  have hlast : ¬e.index + (e :: e' :: rest).length - 1 < ms.firstIndex := by
    rw [firstIndex, List.length_cons, List.length_cons, he]
    omega
  have hlast' : ¬e'.index + (e' :: rest).length - 1 < ms.firstIndex := by
    rw [he', List.length_cons]
    omega
  have hfront : e.index < ms.firstIndex := by
    rw [firstIndex, he]
    omega
  have herase : (e :: e' :: rest).eraseIdx (ms.firstIndex - e.index - 1) = e' :: rest := by
    rw [firstIndex, he, show ms.dummy.index + 1 - ms.dummy.index - 1 = 0 by omega]
    rfl
  have hfront' : ¬e'.index < ms.firstIndex := by rw [he']; exact Nat.lt_irrefl _
  simp only [append, hlast, hlast', hfront, hfront', herase, if_false, if_true]

/-- A batch that starts further in front keeps its first entry, whose offset then wraps around. -/
theorem append_of_gt {e : Entry} {rest : List Entry} (he : e.index + 2 ≤ ms.firstIndex)
    (hlast : ms.firstIndex ≤ e.index + rest.length) (h64 : ms.lastIndex + 1 < 2 ^ 64) :
    ms.append (e :: rest) = (ms, true) := by
  have hpos := ms.length_pos
  have hbig : ¬e.index + (e :: rest).length - 1 < ms.firstIndex := by
    rw [List.length_cons]
    omega
  have hfront : e.index < ms.firstIndex := by omega
  have herase : (e :: rest).eraseIdx (ms.firstIndex - e.index - 1) =
      e :: rest.eraseIdx (ms.firstIndex - e.index - 2) := by
    rw [show ms.firstIndex - e.index - 1 = ms.firstIndex - e.index - 2 + 1 by omega, List.eraseIdx_cons_succ]
  have hoffset : ms.ents.length < u64Sub e.index ms.dummy.index := by
    unfold firstIndex at he
    unfold lastIndex at h64
    rw [u64Sub, if_neg (by omega)]
    omega
  simp only [append, hbig, hfront, herase, List.headD_cons, List.cons_ne_nil, if_false, if_true, dite_false]
  rw [if_neg hoffset.not_gt, if_neg hoffset.ne]

/-- A batch behind the dummy overwrites from its first index on. -/
theorem Contiguous.overwrites (h : ms.Contiguous) (hes : es ≠ []) (hb : From Entry.index b es)
    (hlo : ms.firstIndex ≤ b) (hhi : b ≤ ms.lastIndex + 1) : Overwrites ms b es := by
  obtain ⟨e, he⟩ := List.isSome_head?.mpr hes |> Option.isSome_iff_exists.mp
  obtain rfl : e.index = b := hb.head? he
  have hlen : 0 < es.length := List.length_pos_iff.mpr hes
  have hpos := ms.length_pos
  have hents := append_of_lt he hlo hhi
  have htake : (ms.ents.take (e.index - ms.dummy.index)).length = e.index - ms.dummy.index := by
    rw [List.length_take, Nat.min_eq_left]
    unfold lastIndex at hhi
    omega
  have hdummy : (ms.append es).1.dummy = ms.dummy := by
    have hne : ms.ents.take (e.index - ms.dummy.index) ≠ [] := by
      rw [← List.length_pos_iff, htake]
      exact Nat.sub_pos_of_lt hlo
    rw [dummy, dummy, List.head_eq_iff_head?_eq_some, hents, List.head?_append_of_ne_nil _ hne, List.head?_take,
      if_neg (Nat.sub_ne_zero_of_lt hlo), List.head?_eq_some_head ms.entsPos]
  unfold Overwrites
  rw [if_neg (by unfold firstIndex at *; omega)]
  refine ⟨?_, hdummy, ?_⟩
  · unfold Contiguous
    rw [hdummy, hents]
    refine (h.take _).append ?_
    rw [htake, Nat.add_sub_cancel' (Nat.le_of_lt hlo)]
    exact hb
  · rw [hents, h.filter_lt, hb.filter_le, Nat.max_eq_right hlo, Nat.sub_eq_zero_of_le hlo, List.drop_zero]

/-- A batch that starts two or more entries in front of the first index and reaches it is dropped. -/
theorem Contiguous.overwrites_dropped_iff {e : Entry} {rest : List Entry} (h : ms.Contiguous)
    (hb : From Entry.index e.index (e :: rest)) (hgt : e.index + 1 < ms.firstIndex)
    (hreach : ms.firstIndex ≤ e.index + (e :: rest).length - 1) (h64 : ms.lastIndex + 1 < 2 ^ 64) :
    Overwrites ms e.index (e :: rest) ↔ ms.ents.tail = (e :: rest).drop (ms.firstIndex - e.index) := by
  have hents := ms.ents_eq
  have htake : ms.ents.take 1 = [ms.dummy] := by
    rw [hents]
    rfl
  rw [Overwrites, if_neg (Nat.not_lt.mpr hreach), append_of_gt hgt (by rwa [List.length_cons] at hreach) h64,
    h.filter_lt, hb.filter_le, Nat.max_eq_left (by omega), firstIndex, Nat.add_sub_cancel_left, htake]
  constructor
  · rintro ⟨-, -, heq⟩
    rw [hents] at heq
    exact (List.cons.inj heq).2
  · intro htail
    refine ⟨h, rfl, ?_⟩
    rw [← htail]
    exact hents

/-- The first entry of a batch that starts at the dummy is dropped, which leaves one that fits. -/
theorem Contiguous.overwrites_dummy {e e' : Entry} {rest : List Entry} (h : ms.Contiguous)
    (hb : From Entry.index e.index (e :: e' :: rest)) (heq : e.index + 1 = ms.firstIndex) :
    Overwrites ms e.index (e :: e' :: rest) := by
  have hb' := (from_cons.mp hb).2
  have hnext := h.overwrites (List.cons_ne_nil e' rest) hb' heq.ge (heq ▸ ms.firstIndex_le)
  have hskip : (e :: e' :: rest).filter (fun x => ms.firstIndex ≤ x.index) =
      (e' :: rest).filter (fun x => ms.firstIndex ≤ x.index) :=
    List.filter_cons_of_neg (by rw [decide_eq_true_eq]; omega)
  rw [Overwrites, if_neg (by rw [List.length_cons]; omega)] at hnext
  rw [Overwrites, if_neg (by rw [List.length_cons, List.length_cons]; omega),
    append_of_eq (by unfold firstIndex at heq; omega) ((from_cons.mp hb').1.trans heq)]
  refine ⟨hnext.1, hnext.2.1, ?_⟩
  rw [hnext.2.2, hskip, heq, Nat.max_self, Nat.max_eq_left (by omega)]

/-- **Appending overwrites from the first new index**, except for a batch that starts two or more entries
in front of the first index and reaches it. Such a batch is dropped, and nothing is missing only where
the storage already ended with the same entries. -/
theorem append_overwrites_iff (h : ms.Contiguous) (hes : es ≠ []) (hb : From Entry.index b es)
    (hhi : b ≤ ms.lastIndex + 1) (h64 : ms.lastIndex + 1 < 2 ^ 64) :
    Overwrites ms b es ↔ b + es.length - 1 < ms.firstIndex ∨ ms.firstIndex ≤ b + 1 ∨
      ms.ents.tail = es.drop (ms.firstIndex - b) := by
  obtain ⟨e, rest, rfl⟩ := List.exists_cons_of_ne_nil hes
  obtain rfl : e.index = b := (from_cons.mp hb).1
  rcases Nat.lt_or_ge (e.index + (e :: rest).length - 1) ms.firstIndex with hold | hreach
  · refine iff_of_true ?_ (.inl hold)
    rw [Overwrites, if_pos hold, append, if_pos hold]
  rcases Nat.lt_trichotomy (e.index + 1) ms.firstIndex with hgt | heq | hlt
  · rw [h.overwrites_dropped_iff hb hgt hreach h64]
    constructor
    · exact fun htail => .inr (.inr htail)
    · rintro (hlast | hfirst | htail)
      · exact absurd hlast (Nat.not_lt.mpr hreach)
      · exact absurd hfirst (Nat.not_le.mpr hgt)
      · exact htail
  · refine iff_of_true ?_ (.inr (.inl heq.ge))
    cases rest with
    | nil =>
        rw [List.length_singleton] at hreach
        omega
    | cons e' rest => exact h.overwrites_dummy hb heq
  · exact iff_of_true (h.overwrites hes hb (by omega) hhi) (.inr (.inl (by omega)))

/-- A storage whose dummy has index 5, and that holds one entry. -/
def compacted : MemoryStorage where
  ents := [{ index := 5, term := 1 }, { index := 6, term := 1 }]
  entsPos := List.cons_ne_nil _ _

/-- Entries with the indices from `b` on, all of one term. -/
def batch (term b count : Nat) : List Entry := (List.range' b count).map fun i => { index := i, term := term }

theorem batch_from (term b count : Nat) : From Entry.index b (batch term b count) := by
  intro i e he
  rw [batch, List.getElem?_map, Option.map_eq_some_iff] at he
  obtain ⟨k, hk, rfl⟩ := he
  obtain ⟨hi, rfl⟩ := List.getElem?_eq_some_iff.mp hk
  rw [List.getElem_range', Nat.one_mul]

theorem compacted_contiguous : compacted.Contiguous := batch_from 1 5 2

/-- A batch that starts with the dummy's index. -/
theorem append_overwrites_iff_compacted : Overwrites compacted 5 (batch 2 5 3) :=
  (append_overwrites_iff compacted_contiguous (by decide) (batch_from 2 5 3) (by decide) (by decide)).mpr
    (.inr (.inl (by decide)))

/-- The batch of the indices 4 to 7 is dropped, although 6 and 7 are behind the dummy. -/
theorem not_overwrites_compacted : compacted.Contiguous ∧ From Entry.index 4 (batch 2 4 4) ∧
    4 ≤ compacted.lastIndex + 1 ∧ compacted.append (batch 2 4 4) = (compacted, true) ∧
      ¬Overwrites compacted 4 (batch 2 4 4) := by
  refine ⟨compacted_contiguous, batch_from 2 4 4, by decide, by decide, fun h => ?_⟩
  rw [Overwrites, if_neg (by decide)] at h
  exact absurd h.2.2 (by decide)

/-- What compacting up to `c` is for: the log goes on as it was, from a dummy at `c`. -/
def KeepsSuffix (ms : MemoryStorage) (c : Nat) : Prop :=
  if c ≤ ms.dummy.index ∨ ms.lastIndex < c then ms.compact c = some (ms, false)
  else ∃ ms', ms.compact c = some (ms', true) ∧ ms'.firstIndex = c + 1 ∧ ms'.lastIndex = ms.lastIndex ∧
    (∀ i, c ≤ i → i ≤ ms.lastIndex → ms'.term i = ms.term i) ∧
    (∀ lo hi, c < lo → lo ≤ hi → hi ≤ ms.lastIndex + 1 → ms'.entries lo hi = ms.entries lo hi) ∧
    ms'.Contiguous ∧ ms'.dummy.index = c

/-- A compaction that does something leaves a default entry in front. -/
theorem dummy_compact {ms' : MemoryStorage} (h : ms.compact c = some (ms', true)) : ms'.dummy = {} := by
  have hpos := ms.length_pos
  unfold compact at h
  dsimp only at h
  split_ifs at h with hlow hhigh hread
  · cases h
  · cases h
  · cases h
    have hsize : 1 + ms.ents.length - (c - ms.dummy.index) ≠ 0 := by
      unfold lastIndex at hhigh
      omega
    obtain ⟨k, hk⟩ := Nat.exists_eq_add_one_of_ne_zero hsize
    rw [dummy, List.head_eq_iff_head?_eq_some]
    dsimp only
    rw [hk, List.replicate_succ, List.cons_append, List.head?_cons]

/-- **Compacting keeps the suffix** only where it refuses to do anything. -/
theorem compact_keepsSuffix_iff (ms : MemoryStorage) (c : Nat) :
    KeepsSuffix ms c ↔ c ≤ ms.dummy.index ∨ ms.lastIndex < c := by
  by_cases hout : c ≤ ms.dummy.index ∨ ms.lastIndex < c
  · refine iff_of_true ?_ hout
    rw [KeepsSuffix, if_pos hout, compact]
    dsimp only
    split_ifs with hlow hhigh
    · rfl
    · rfl
    · exact absurd hout (not_or.mpr ⟨hlow, hhigh⟩)
    · exact absurd hout (not_or.mpr ⟨hlow, hhigh⟩)
  · refine iff_of_false ?_ hout
    rw [KeepsSuffix, if_neg hout]
    rintro ⟨ms', hms', hfirst, -⟩
    rw [firstIndex, dummy_compact hms'] at hfirst
    have hzero : c = 0 := by
      change 0 + 1 = c + 1 at hfirst
      omega
    exact hout (.inl (hzero ▸ Nat.zero_le _))

/-- Three entries in a new storage. -/
def filled : MemoryStorage := (MemoryStorage.new.append (batch 1 1 3)).1

theorem filled_contiguous : filled.Contiguous := by
  have hents : filled.ents = {} :: batch 1 1 3 := by decide
  rw [Contiguous, show filled.dummy.index = 0 by decide, hents]
  exact from_cons.mpr ⟨rfl, batch_from 1 1 3⟩

/-- Compacting them up to the second leaves three default entries and the second entry; the third is
lost. -/
theorem not_keepsSuffix_filled : filled.Contiguous ∧ (filled.compact 2).map (fun r => r.1.ents) =
    some [{}, {}, {}, { index := 2, term := 1 }] ∧ ¬KeepsSuffix filled 2 := by
  refine ⟨filled_contiguous, by decide, ?_⟩
  rw [KeepsSuffix, if_neg (by decide)]
  rintro ⟨ms', hms', hfirst, -⟩
  rw [firstIndex, dummy_compact hms'] at hfirst
  exact absurd hfirst (by decide)

/-- What applying a snapshot is for: the log restarts behind it, and what is appended there can be read. -/
def Resets (ms : MemoryStorage) (snap : Snapshot) : Prop :=
  let s := snap.metadata.index
  if s ≤ ms.snapShot.metadata.index then ms.applySnapshot snap = (ms, false)
  else ∃ ms', ms.applySnapshot snap = (ms', true) ∧ ms'.snapshot = snap ∧ ms'.firstIndex = s + 1 ∧
    ms'.lastIndex = s ∧ ms'.term s = (snap.metadata.term, true) ∧
    ∀ es, es ≠ [] → From Entry.index (s + 1) es →
      (ms'.append es).1.entries (s + 1) ((ms'.append es).1.lastIndex + 1) = some es

/-- **Applying a snapshot resets the log** only where the snapshot is out of date and refused: otherwise the
old entries stay in front of the new one. -/
theorem applySnapshot_resets_iff (ms : MemoryStorage) (snap : Snapshot) :
    Resets ms snap ↔ snap.metadata.index ≤ ms.snapShot.metadata.index := by
  by_cases hold : snap.metadata.index ≤ ms.snapShot.metadata.index
  · refine iff_of_true ?_ hold
    rw [Resets, if_pos hold, applySnapshot, if_pos hold]
  · refine iff_of_false ?_ hold
    rw [Resets, if_neg hold, applySnapshot, if_neg hold]
    rintro ⟨ms', hms', -, hfirst, hlast, -⟩
    cases hms'
    have hpos := ms.length_pos
    rw [firstIndex] at hfirst
    rw [lastIndex, List.length_append, List.length_singleton] at hlast
    omega

/-- A snapshot of index 5 behind the three entries: the first index stays 1, and `Term(5)` finds nothing. -/
theorem not_resets_filled : filled.Contiguous ∧
    (filled.applySnapshot { metadata := { index := 5, term := 2 } }).1.firstIndex = 1 ∧
    ¬Resets filled { metadata := { index := 5, term := 2 } } := by
  refine ⟨filled_contiguous, by decide, ?_⟩
  rw [Resets, if_neg (by decide)]
  rintro ⟨ms', hms', -, hfirst, -⟩
  rw [show ms' = (filled.applySnapshot _).1 from (congrArg Prod.fst hms').symm] at hfirst
  exact absurd hfirst (by decide)

end MemoryStorage

end Eraft
