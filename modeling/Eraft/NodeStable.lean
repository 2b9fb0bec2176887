import Eraft.NodeLog

/-! What a step does to the part of a log that the storage already has. A step never moves `stabled_`
forward; a conflicting append moves it back, to where the old and the new log still agree. -/

open Std TermLog

namespace Eraft

/-- Consecutive indices, one by one. -/
theorem map_index_iff {es : List Entry} {f : Nat} :
    es.map Entry.index = List.range' f es.length ↔
      ∀ (i : Nat) (e : Entry), es[i]? = some e → e.index = f + i := by
  constructor
  · intro h i e he
    have hlt : i < es.length := (List.getElem?_eq_some_iff.mp he).1
    have hindex := congrArg (·[i]?) h
    simp only [List.getElem?_map, he, Option.map_some, List.getElem?_range' hlt, Option.some.injEq] at hindex
    omega
  · intro h
    apply List.ext_getElem?
    intro i
    rw [List.getElem?_map]
    by_cases hi : i < es.length
    · rw [List.getElem?_eq_getElem hi, List.getElem?_range' hi, Option.map_some,
        h i _ (List.getElem?_eq_getElem hi), one_mul]
    · rw [List.getElem?_eq_none (Nat.le_of_not_lt hi), List.getElem?_eq_none (by simpa using hi)]
      rfl

namespace RaftLog

/-- The stable part of the log `l` survives in `l'`. Where `stabled_` has moved back, the new log goes
on behind it. -/
structure KeepsStable (l l' : RaftLog) : Prop where
  le : l'.stabled ≤ l.stabled
  same : l'.entries.take l'.stabled = l.entries.take l'.stabled
  reach : (l'.stabled = l.stabled ∧ l.entries.length ≤ l'.entries.length) ∨
    l'.stabled < l'.entries.length

variable {l l' l'' : RaftLog}

theorem KeepsStable.trans (h : KeepsStable l l') (h' : KeepsStable l' l'') : KeepsStable l l'' := by
  refine ⟨h'.le.trans h.le, ?_, ?_⟩
  · calc l''.entries.take l''.stabled
        = (l'.entries.take l'.stabled).take l''.stabled := by
          rw [h'.same, List.take_take, Nat.min_eq_left h'.le]
      _ = l.entries.take l''.stabled := by
          rw [h.same, List.take_take, Nat.min_eq_left h'.le]
  · rcases h'.reach with ⟨hstabled, hlen⟩ | hlt
    · rcases h.reach with ⟨hstabled', hlen'⟩ | hlt'
      · exact .inl ⟨hstabled.trans hstabled', hlen'.trans hlen⟩
      · right
        omega
    · exact .inr hlt

/-- Entries are added at the end. -/
theorem KeepsStable.extend (hst : l.stabled ≤ l.entries.length) (hstabled : l'.stabled = l.stabled)
    {added : List Entry} (h : l'.entries = l.entries ++ added) : KeepsStable l l' := by
  refine ⟨hstabled.le, ?_, .inl ⟨hstabled, ?_⟩⟩
  · rw [h, hstabled, List.take_append_of_le_length hst]
  · simp [h]

theorem KeepsStable.stabled_le (h : KeepsStable l l') (hst : l.stabled ≤ l.entries.length) :
    l'.stabled ≤ l'.entries.length := by
  rcases h.reach with ⟨hstabled, hlen⟩ | hlt
  · omega
  · exact hlt.le

/-- The two logs agree in what no message but a snapshot changes. -/
structure SameBase (l l' : RaftLog) : Prop where
  storage : l'.storage = l.storage := by rfl
  pendingSnapshot : l'.pendingSnapshot = l.pendingSnapshot := by rfl
  applied : l'.applied = l.applied := by rfl
  firstIndex : l'.firstIndex = l.firstIndex := by rfl

theorem SameBase.trans (h : SameBase l l') (h' : SameBase l' l'') : SameBase l l'' :=
  ⟨h'.storage.trans h.storage, h'.pendingSnapshot.trans h.pendingSnapshot, h'.applied.trans h.applied,
    h'.firstIndex.trans h.firstIndex⟩

end RaftLog

namespace RaftContext

open RaftLog

variable {s s' : RaftContext} {m : Message}

theorem appendLoop_sameBase {ents rest : List Entry} {count : Nat} {l l' : RaftLog}
    (h : appendLoop ents rest count l = some l') : SameBase l l' ∧ l'.commited = l.commited := by
  induction rest generalizing count l with
  | nil =>
      cases h
      exact ⟨{}, rfl⟩
  | cons e rest ih =>
      unfold appendLoop at h
      split_ifs at h
      · exact ih h
      · simp only [Option.bind_eq_bind, Option.bind_eq_some_iff] at h
        obtain ⟨resPair, _, h⟩ := h
        split_ifs at h
        · obtain ⟨hbase, hcommit⟩ := ih h
          exact ⟨SameBase.trans {} hbase, hcommit⟩
        · exact ih h
      · cases h
        exact ⟨{}, rfl⟩

/-- **The append loop keeps the stable part.** -/
theorem appendLoop_keepsStable {ents rest : List Entry} {count : Nat} {l l' : RaftLog}
    (hfirst : l.firstIndex = 1) (hst : l.stabled ≤ l.entries.length)
    (h : appendLoop ents rest count l = some l') : KeepsStable l l' := by
  induction rest generalizing count l with
  | nil =>
      cases h
      exact .extend hst rfl (List.append_nil _).symm
  | cons e rest ih =>
      unfold appendLoop at h
      split_ifs at h with hskip
      · exact ih hfirst hst h
      · simp only [Option.bind_eq_bind, Option.bind_eq_some_iff] at h
        obtain ⟨resPair, _, h⟩ := h
        split_ifs at h with hne hidx
        · -- the log is cut behind the new entry, and what is in front of it was there before
          have hslice : l.toSliceIndex e.index = e.index - 1 := by
            rw [WellFormed.toSliceIndex_eq (Nat.le_of_not_lt hskip), hfirst]
          have hsub : u64Sub e.index 1 = e.index - 1 := u64Sub_of_le (by omega)
          rw [hslice] at hidx h
          rw [hsub] at h
          have hcut : KeepsStable l { l with
              entries := l.entries.take (e.index - 1) ++ [e]
              stabled := min l.stabled (e.index - 1) } := by
            refine ⟨Nat.min_le_left _ _, ?_, .inr ?_⟩
            · dsimp only
              rw [List.take_append_of_le_length (by simp; omega), List.take_take]
              congr 1
              omega
            · show min l.stabled (e.index - 1) < (l.entries.take (e.index - 1) ++ [e]).length
              simp
              omega
          exact hcut.trans (ih hfirst (hcut.stabled_le hst) h)
        · exact ih hfirst hst h
      · cases h
        exact .extend hst rfl rfl

theorem followCommit_sameBase (l : RaftLog) (m : Message) : SameBase l (followCommit l m) := by
  unfold followCommit
  split_ifs <;> exact {}

theorem followCommit_entries (l : RaftLog) (m : Message) :
    (followCommit l m).entries = l.entries ∧ (followCommit l m).stabled = l.stabled := by
  unfold followCommit
  split_ifs <;> exact ⟨rfl, rfl⟩

theorem CoreStep.sameBase (h : CoreStep s m s') (hsnap : m.msgType ≠ .msgSnapshot) :
    SameBase s.raftLog s'.raftLog := by
  have hkeep : ∀ {t : RaftContext}, SameCore t s' → SameBase s.raftLog t.raftLog →
      SameBase s.raftLog s'.raftLog := fun h hbase => h.raftLog ▸ hbase
  cases h with
  | same h | campaign _ _ _ h | grant _ _ _ h | record _ _ _ h | lose _ _ _ _ _ h
  | nack _ _ _ _ _ _ _ h | ack _ _ _ _ _ _ h | commit _ _ _ _ _ _ _ h | phantom _ _ _ h
  | alone _ _ _ h | win _ _ _ _ h => exact hkeep h {}
  | follow _ _ h => exact hkeep h (fallback_raftLog (m := m) ▸ {})
  | append hacc _ =>
      obtain ⟨l, hl, hlog⟩ := hacc.merged
      rw [hlog]
      exact (appendLoop_sameBase hl).1.trans (followCommit_sameBase l m)
  | propose _ _ h =>
      obtain ⟨_, _, hloop, _⟩ := proposeLoop_spec s.raftLog.lastIndex m.entries s
      refine hkeep h ?_
      have hlog : SameBase s.raftLog (proposeLoop s.raftLog.lastIndex m.entries s).raftLog := by
        rw [hloop.raftLog]
        exact {}
      exact hlog.trans {}
  | snapshot hm => exact absurd hm hsnap

/-- The entries after a step: an accepted append has replaced a part of them, or some were added at the
end, each with the next index. -/
theorem CoreStep.entries (h : CoreStep s m s') (hsnap : m.msgType ≠ .msgSnapshot)
    (hone : m.msgType = .msgPropose → m.entries.length = 1) :
    Accepts s m s' ∨ ∃ added, s'.raftLog.entries = s.raftLog.entries ++ added ∧
      s'.raftLog.stabled = s.raftLog.stabled ∧ added.length ≤ 1 ∧
      ∀ e ∈ added, e.index = s.raftLog.lastIndex + 1 := by
  have hadd : ∀ {t : RaftContext} (added : List Entry), SameCore t s' →
      t.raftLog.entries = s.raftLog.entries ++ added → t.raftLog.stabled = s.raftLog.stabled →
      added.length ≤ 1 → (∀ e ∈ added, e.index = s.raftLog.lastIndex + 1) →
      ∃ added, s'.raftLog.entries = s.raftLog.entries ++ added ∧
        s'.raftLog.stabled = s.raftLog.stabled ∧ added.length ≤ 1 ∧
        ∀ e ∈ added, e.index = s.raftLog.lastIndex + 1 :=
    fun added h hentries hstabled hlen hindex =>
      ⟨added, h.raftLog ▸ hentries, h.raftLog ▸ hstabled, hlen, hindex⟩
  cases h with
  | same h | campaign _ _ _ h | grant _ _ _ h | record _ _ _ h | lose _ _ _ _ _ h
  | nack _ _ _ _ _ _ _ h | ack _ _ _ _ _ _ h | commit _ _ _ _ _ _ _ h | phantom _ _ _ h =>
      exact .inr (hadd [] h (List.append_nil _).symm rfl (Nat.zero_le 1) nofun)
  | follow _ _ h =>
      have hlog : (s.fallback m).raftLog = s.raftLog := fallback_raftLog
      exact .inr (hadd [] h (hlog ▸ (List.append_nil _).symm) (hlog ▸ rfl) (Nat.zero_le 1) nofun)
  | append hacc _ => exact .inl hacc
  | alone _ _ _ h | win _ _ _ _ h =>
      refine .inr (hadd [_] h rfl rfl le_rfl fun e he => ?_)
      rw [List.mem_singleton.mp he]
      rfl
  | propose hm _ h =>
      obtain ⟨_, added, hloop, hlen, hindex⟩ := proposeLoop_spec s.raftLog.lastIndex m.entries s
      have hlog : (s.proposed m.entries).raftLog.entries = s.raftLog.entries ++ added ∧
          (s.proposed m.entries).raftLog.stabled = s.raftLog.stabled := by
        refine ⟨?_, ?_⟩
        · show (proposeLoop s.raftLog.lastIndex m.entries s).raftLog.entries = _
          rw [hloop.raftLog]
        · show (proposeLoop s.raftLog.lastIndex m.entries s).raftLog.stabled = _
          rw [hloop.raftLog]
      exact .inr (hadd added h hlog.1 hlog.2 (hone hm ▸ hlen) fun e he => (hindex e he).2)
  | snapshot hm => exact absurd hm hsnap

/-- A message as the callers of a node send it: an append has consecutive entries from the index after
`m.index` on, a proposal has one entry. -/
structure Regular (m : Message) : Prop where
  append : m.msgType = .msgAppend →
    m.entries.map Entry.index = List.range' (m.index + 1) m.entries.length
  propose : m.msgType = .msgPropose → m.entries.length = 1
  noSnapshot : m.msgType ≠ .msgSnapshot

instance (m : Message) : Decidable (Regular m) :=
  decidable_of_iff (_ ∧ _ ∧ _)
    ⟨fun h => ⟨h.1, h.2.1, h.2.2⟩, fun h => ⟨h.append, h.propose, h.noSnapshot⟩⟩

theorem Regular.index_eq (h : Regular m) (hm : m.msgType = .msgAppend) :
    ∀ i e, m.entries[i]? = some e → e.index = m.index + i + 1 := by
  intro i e he
  rw [map_index_iff.mp (h.append hm) i e he]
  omega

theorem Handled.regular {c : Call} (h : Handled c m) (hc : ∀ m, c = .step m → Regular m) : Regular m := by
  cases h with
  | hup => exact ⟨nofun, nofun, nofun⟩
  | beat => exact ⟨nofun, nofun, nofun⟩
  | step => exact hc m rfl
  | ignored m hm =>
      refine ⟨fun ht => ?_, fun ht => ?_, fun ht => ?_⟩ <;> cases hm.symm.trans ht

/-- What a node sends of its log is regular. -/
theorem AppendOf.regular (h : AppendOf s m) (hlog : s.raftLog.FromOne) : Regular m := by
  refine ⟨fun _ => map_index_iff.mpr fun i e he => ?_, fun hprop => ?_, fun hsnap => ?_⟩
  · rw [h.entries, hlog.toSliceIndex_succ, List.getElem?_drop] at he
    rw [hlog.contiguous _ e he]
    omega
  · cases h.msgType.symm.trans hprop
  · cases h.msgType.symm.trans hsnap

/-- The entries an accepted append leaves. -/
theorem Accepts.entries_eq (h : Accepts s m s') (hlog : s.raftLog.FromOne)
    (hindex : ∀ i e, m.entries[i]? = some e → e.index = m.index + i + 1) :
    s'.raftLog.entries = s.raftLog.entries.take m.index ++
      splice Entry.term (s.raftLog.entries.drop m.index) m.entries := by
  have hreach : m.index ≤ s.raftLog.entries.length := hlog.lastIndex_eq ▸ h.reach
  obtain ⟨stabled, hloop⟩ := appendLoop_all hlog hreach hindex
  obtain ⟨l, hl, hs'⟩ := h.merged
  rw [hs', (followCommit_entries l m).1, ← Option.some.inj (hloop.symm.trans hl)]

theorem Accepts.contiguous (h : Accepts s m s') (hlog : s.raftLog.FromOne) (hm : Regular m) :
    Contiguous s'.raftLog.entries := by
  have hreach : m.index ≤ s.raftLog.entries.length := hlog.lastIndex_eq ▸ h.reach
  have hlen : (s.raftLog.entries.take m.index).length = m.index := by
    rw [List.length_take, Nat.min_eq_left hreach]
  intro i e he
  rw [h.entries_eq hlog (hm.index_eq h.msgType), List.getElem?_append, hlen] at he
  split_ifs at he with hi
  · exact hlog.contiguous.take m.index i e he
  · rcases getElem?_splice he with hold | hnew
    · rw [List.getElem?_drop] at hold
      rw [hlog.contiguous _ e hold]
      omega
    · rw [hm.index_eq h.msgType _ e hnew]
      omega

/-- **A log from index 1 on stays one**, whatever regular message its node handles. -/
theorem CoreStep.fromOne (h : CoreStep s m s') (hlog : s.raftLog.FromOne) (hm : Regular m) :
    s'.raftLog.FromOne := by
  have hbase := h.sameBase hm.noSnapshot
  have hkeep : Contiguous s'.raftLog.entries → (s'.raftLog.entries = [] → s.raftLog.entries = []) →
      s'.raftLog.FromOne := fun hcont hnil =>
    ⟨hbase.firstIndex.trans hlog.firstIndex, hcont,
      fun hempty => hbase.storage ▸ hlog.empty (hnil hempty), hbase.storage ▸ hlog.termZero,
      hbase.pendingSnapshot ▸ hlog.snapshot⟩
  rcases h.entries hm.noSnapshot hm.propose with hacc | ⟨added, hentries, _, hlen, hindex⟩
  · refine hkeep (hacc.contiguous hlog hm) fun hnil => ?_
    rw [hacc.entries_eq hlog (hm.index_eq hacc.msgType), List.append_eq_nil_iff] at hnil
    rw [← List.take_append_drop m.index s.raftLog.entries, hnil.1, splice_eq_nil hnil.2]
    rfl
  · refine hkeep ?_ fun hnil => (List.append_eq_nil_iff.mp (hentries ▸ hnil)).1
    rw [hentries]
    match added, hlen, hindex with
    | [], _, _ => rw [List.append_nil]; exact hlog.contiguous
    | [e], _, hindex =>
        refine hlog.contiguous.concat ?_
        rw [hindex e (List.mem_singleton.mpr rfl), hlog.lastIndex_eq]

/-- **A step keeps the stable part of the log.** -/
theorem CoreStep.keepsStable (h : CoreStep s m s') (hfirst : s.raftLog.firstIndex = 1)
    (hst : s.raftLog.stabled ≤ s.raftLog.entries.length) (hm : Regular m) :
    KeepsStable s.raftLog s'.raftLog := by
  rcases h.entries hm.noSnapshot hm.propose with hacc | ⟨added, hentries, hstabled, _⟩
  · obtain ⟨l, hl, hs'⟩ := hacc.merged
    have hloop := appendLoop_keepsStable hfirst hst hl
    have hfollow := followCommit_entries l m
    have hentries : s'.raftLog.entries = l.entries ++ [] := by
      rw [hs', hfollow.1, List.append_nil]
    have hstabled : s'.raftLog.stabled = l.stabled := by rw [hs', hfollow.2]
    exact hloop.trans (.extend (hloop.stabled_le hst) hstabled hentries)
  · exact .extend hst hstabled hentries

end RaftContext

end Eraft
