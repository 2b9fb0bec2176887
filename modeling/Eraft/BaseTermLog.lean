import Mathlib.Tactic

/-! Replicated logs whose entries carry a term. `led t` is the set of logs that the leader of term
`t` has held. Logs all of whose prefixes go back to such a leader agree as far as their terms say
they do (`Attributed.matching`), splicing a leader's log into one of them gives one of the two
(`splice_matching`), and a prefix that every later winner's voter held is in the log of every later
leader (`leader_completeness`). The entries are of any type, and nothing here depends on how logs
are exchanged. -/

namespace TermLog

variable {α : Type*} (term : α → Nat)

/-- The term of the last entry, 0 for the empty log. -/
def lastTerm (l : List α) : Nat := (l.getLast?.map term).getD 0

/-- Terms never decrease along the log. -/
def Sorted (l : List α) : Prop := l.Pairwise (fun a b => term a ≤ term b)

/-- Where both logs have an entry of the same term, they agree up to there. -/
def Matching (l₁ l₂ : List α) : Prop :=
  ∀ i, 0 < i → i ≤ l₁.length → i ≤ l₂.length →
    lastTerm term (l₁.take i) = lastTerm term (l₂.take i) → l₁.take i = l₂.take i

/-- `l'` is at least as up to date as `l`: its last term is later, or the same in a log no shorter. -/
def UpToDate (l l' : List α) : Prop :=
  lastTerm term l < lastTerm term l' ∨
    (lastTerm term l = lastTerm term l' ∧ l.length ≤ l'.length)

variable {term}

@[simp] theorem lastTerm_nil : lastTerm term ([] : List α) = 0 := rfl

@[simp] theorem lastTerm_concat (l : List α) (e : α) : lastTerm term (l ++ [e]) = term e := by
  simp [lastTerm]

theorem lastTerm_take_succ {l : List α} {i : Nat} (hi : i < l.length) :
    lastTerm term (l.take (i + 1)) = term l[i] := by
  rw [List.take_succ_eq_append_getElem hi, lastTerm_concat]

theorem ne_nil_of_lastTerm_pos {l : List α} (h : 0 < lastTerm term l) : l ≠ [] := by
  rintro rfl
  exact Nat.lt_irrefl 0 h

theorem Sorted.ofPrefix {l l' : List α} (h : Sorted term l') (hp : l <+: l') : Sorted term l :=
  h.sublist hp.sublist

theorem Sorted.term_le_lastTerm {l : List α} (h : Sorted term l) {e : α} (he : e ∈ l) :
    term e ≤ lastTerm term l := by
  induction l using List.reverseRecOn with
  | nil => exact absurd he List.not_mem_nil
  | append_singleton l x ih =>
      rw [lastTerm_concat]
      rcases List.mem_append.mp he with he | he
      · exact (List.pairwise_append.mp h).2.2 e he x (List.mem_singleton.mpr rfl)
      · rw [List.mem_singleton.mp he]

theorem Sorted.lastTerm_le {l l' : List α} (h : Sorted term l') (hp : l <+: l') :
    lastTerm term l ≤ lastTerm term l' := by
  induction l using List.reverseRecOn with
  | nil => exact Nat.zero_le _
  | append_singleton l x _ =>
      rw [lastTerm_concat]
      exact h.term_le_lastTerm (hp.subset (List.mem_append_right _ (List.mem_singleton.mpr rfl)))

theorem Sorted.concat {l : List α} {e : α} (h : Sorted term l) (hle : lastTerm term l ≤ term e) :
    Sorted term (l ++ [e]) := by
  refine List.pairwise_append.mpr ⟨h, List.pairwise_singleton _ _, ?_⟩
  intro a ha b hb
  rw [List.mem_singleton.mp hb]
  exact (h.term_le_lastTerm ha).trans hle

variable (term)

/-- The entries `es` are merged into the log `rest`: as long as the terms agree the log is kept, and
from the first entry that is absent or of another term on it is replaced. -/
def splice : List α → List α → List α
  | rest, [] => rest
  | [], e :: es => e :: es
  | r :: rest, e :: es => if term r = term e then r :: splice rest es else e :: es

variable {term}

@[simp] theorem splice_nil_left (es : List α) : splice term [] es = es := by
  cases es <;> rfl

@[simp] theorem splice_nil_right (rest : List α) : splice term rest [] = rest := by
  cases rest <;> rfl

/-- What is in the result stands in the same place in one of the two. -/
theorem getElem?_splice {rest es : List α} {i : Nat} {e : α} (h : (splice term rest es)[i]? = some e) :
    rest[i]? = some e ∨ es[i]? = some e := by
  induction rest generalizing es i with
  | nil =>
      rw [splice_nil_left] at h
      exact .inr h
  | cons r rest ih =>
      cases es with
      | nil => exact .inl h
      | cons x es =>
          unfold splice at h
          split_ifs at h
          · cases i with
            | zero => exact .inl h
            | succ i => exact ih (by simpa using h)
          · exact .inr h

theorem length_le_splice (rest es : List α) : es.length ≤ (splice term rest es).length := by
  induction rest generalizing es with
  | nil => rw [splice_nil_left]
  | cons r rest ih =>
      cases es with
      | nil => exact Nat.zero_le _
      | cons x es =>
          unfold splice
          split_ifs
          · exact Nat.succ_le_succ (ih es)
          · exact le_rfl

/-- As far as the terms agree, the log is kept. -/
theorem take_splice {rest es : List α} {k : Nat} (hk : k ≤ rest.length)
    (hterm : ∀ i, i < k → ∀ e, es[i]? = some e → rest[i]?.map term = some (term e)) :
    (splice term rest es).take k = rest.take k := by
  induction rest generalizing es k with
  | nil =>
      rw [List.length_nil, Nat.le_zero] at hk
      rw [hk, List.take_zero, List.take_zero]
  | cons r rest ih =>
      cases es with
      | nil => rw [splice_nil_right]
      | cons x es =>
          cases k with
          | zero => rw [List.take_zero, List.take_zero]
          | succ k =>
              have hhead : term r = term x := Option.some.inj (hterm 0 (Nat.succ_pos k) x rfl)
              unfold splice
              rw [if_pos hhead, List.take_succ_cons, List.take_succ_cons]
              congr 1
              apply ih (Nat.le_of_succ_le_succ hk)
              intro i hi e he
              exact hterm (i + 1) (Nat.succ_lt_succ hi) e he

/-- Either the result is as long as `es`, or the log had an entry of the same term for each of `es` and
is kept. -/
theorem splice_cases (rest es : List α) : (splice term rest es).length = es.length ∨
    (splice term rest es = rest ∧ ∀ (i : Nat) e, es[i]? = some e → rest[i]?.map term = some (term e)) := by
  induction rest generalizing es with
  | nil =>
      rw [splice_nil_left]
      exact .inl rfl
  | cons r rest ih =>
      cases es with
      | nil => exact .inr ⟨rfl, nofun⟩
      | cons x es =>
          unfold splice
          split_ifs with hhead
          · rcases ih es with hlen | ⟨hsame, hterm⟩
            · exact .inl (congrArg Nat.succ hlen)
            · refine .inr ⟨by rw [hsame], fun i e he => ?_⟩
              cases i with
              | zero =>
                  cases he
                  exact congrArg some hhead
              | succ i => exact hterm i e he
          · exact .inl rfl

theorem splice_eq_nil {rest es : List α} (h : splice term rest es = []) : rest = [] := by
  cases rest with
  | nil => rfl
  | cons r rest =>
      cases es with
      | nil => exact h
      | cons x es =>
          unfold splice at h
          split_ifs at h

/-- **Splicing a matching log gives one of the two.** The tail of `G` behind a common prefix of
length `p` is spliced into `F`: the result is `F` when that already extends `G`, and `G` otherwise. -/
theorem splice_matching {F G : List α} (hmatch : Matching term F G) {p : Nat} (hpF : p ≤ F.length)
    (hpG : p ≤ G.length) (heq : F.take p = G.take p) [Decidable (G <+: F)] :
    F.take p ++ splice term (F.drop p) (G.drop p) = if G <+: F then F else G := by
  -- induction on what is left of `G`; the common prefix grows by one entry at a time
  induction hn : G.length - p generalizing p with
  | zero =>
      have hp : p = G.length := by omega
      have hpre : G <+: F := by
        have htake := List.take_prefix p F
        rwa [heq, hp, List.take_length] at htake
      rw [if_pos hpre, List.drop_eq_nil_of_le (show G.length ≤ p by omega), splice_nil_right,
        List.take_append_drop]
  | succ n ih =>
      have hltG : p < G.length := by omega
      have hGdrop := List.drop_eq_getElem_cons hltG
      by_cases hltF : p < F.length
      · have hFdrop := List.drop_eq_getElem_cons hltF
        rw [hFdrop, hGdrop, splice]
        by_cases hterm : term F[p] = term G[p]
        · have htake : F.take (p + 1) = G.take (p + 1) :=
            hmatch (p + 1) (Nat.succ_pos p) hltF hltG (by
              rw [lastTerm_take_succ hltF, lastTerm_take_succ hltG, hterm])
          rw [if_pos hterm, ← ih hltF hltG htake (by omega),
            List.take_succ_eq_append_getElem hltF, List.append_assoc]
          rfl
        · have hnot : ¬G <+: F := by
            intro hpre
            apply hterm
            rw [hpre.getElem hltG]
          rw [if_neg hterm, if_neg hnot, heq, ← hGdrop, List.take_append_drop]
      · have hnot : ¬G <+: F := fun hpre => by
          have := hpre.length_le
          omega
        have hFnil : F.drop p = [] := List.drop_eq_nil_of_le (by omega)
        rw [if_neg hnot, hFnil, splice_nil_left, heq, List.take_append_drop]

/-- A prefix matches the whole. -/
theorem matching_take (L : List α) (q : Nat) : Matching term (L.take q) L := by
  intro i _ hi _ _
  rw [List.take_take, Nat.min_eq_left (hi.trans (by rw [List.length_take]; exact Nat.min_le_left q _))]

/-- Matching logs agree up to some point and have entries of different terms there, if both go on. -/
theorem Matching.exists_common {F L : List α} (h : Matching term F L) :
    ∃ c ≤ F.length, c ≤ L.length ∧ F.take c = L.take c ∧
      ∀ a b, F[c]? = some a → L[c]? = some b → term a ≠ term b := by
  classical
  let agree : Nat → Prop := fun k => k ≤ F.length ∧ k ≤ L.length ∧ F.take k = L.take k
  obtain ⟨hle, hleL, htake⟩ : agree (Nat.findGreatest agree F.length) :=
    Nat.findGreatest_spec (Nat.zero_le F.length) ⟨Nat.zero_le _, Nat.zero_le _, rfl⟩
  refine ⟨_, hle, hleL, htake, fun a b ha hb hterm => ?_⟩
  obtain ⟨hlt, rfl⟩ := List.getElem?_eq_some_iff.mp ha
  obtain ⟨hltL, rfl⟩ := List.getElem?_eq_some_iff.mp hb
  have hsucc : agree (Nat.findGreatest agree F.length + 1) := by
    refine ⟨hlt, hltL, h _ (Nat.succ_pos _) hlt hltL ?_⟩
    rw [lastTerm_take_succ hlt, lastTerm_take_succ hltL, hterm]
  exact Nat.findGreatest_is_greatest (Nat.lt_succ_self _) hlt hsucc

variable (term) (led : Nat → Set (List α))

/-- Every prefix of the log was held by the leader of the term of its last entry. -/
def Attributed (l : List α) : Prop :=
  ∀ i, 0 < i → i ≤ l.length → ∃ q ∈ led (lastTerm term (l.take i)), l.take i <+: q

/-- The logs of the leaders: those of one term are prefixes of each other, and each goes back to the
leaders of the terms of its entries. -/
structure LeaderLogs : Prop where
  chain : ∀ t, ∀ p ∈ led t, ∀ q ∈ led t, p <+: q ∨ q <+: p
  attributed : ∀ t, ∀ q ∈ led t, Attributed term led q
  sorted : ∀ t, ∀ q ∈ led t, Sorted term q

variable {term led}

theorem Attributed.nil : Attributed term led [] := by
  intro i hi hle
  rw [List.length_nil] at hle
  omega

theorem Attributed.mono {led' : Nat → Set (List α)} (hsub : ∀ t, led t ⊆ led' t) {l : List α}
    (h : Attributed term led l) : Attributed term led' l := by
  intro i hi hle
  obtain ⟨q, hq, hpre⟩ := h i hi hle
  exact ⟨q, hsub _ hq, hpre⟩

/-- A log that was held by the leader of its last term, after an attributed one, is attributed. -/
theorem Attributed.concat {l : List α} {e : α} (h : Attributed term led l)
    (he : l ++ [e] ∈ led (term e)) : Attributed term led (l ++ [e]) := by
  intro i hi hle
  by_cases hlt : i ≤ l.length
  · rw [List.take_append_of_le_length hlt]
    exact h i hi hlt
  · rw [List.length_append, List.length_singleton] at hle
    have htake : (l ++ [e]).take i = l ++ [e] := List.take_of_length_le (by
      rw [List.length_append, List.length_singleton]
      omega)
    rw [htake, lastTerm_concat]
    exact ⟨_, he, List.prefix_rfl⟩

theorem Attributed.of_mem {l : List α} {e : α} (h : Attributed term led l) (he : e ∈ l) :
    ∃ q ∈ led (term e), e ∈ q := by
  obtain ⟨k, hk, rfl⟩ := List.mem_iff_getElem.mp he
  obtain ⟨q, hq, hpre⟩ := h (k + 1) (Nat.succ_pos k) hk
  rw [lastTerm_take_succ hk] at hq
  refine ⟨q, hq, hpre.subset ?_⟩
  exact List.mem_take_iff_getElem.mpr ⟨k, by omega, rfl⟩

theorem Attributed.self {l : List α} (h : Attributed term led l) (hne : l ≠ []) :
    ∃ q ∈ led (lastTerm term l), l <+: q := by
  have hself := h l.length (List.length_pos_of_ne_nil hne) le_rfl
  rwa [List.take_length] at hself

/-- Two prefixes of logs of one term's leader are prefixes of one log. -/
theorem LeaderLogs.common (h : LeaderLogs term led) {t : Nat} {p q l l' : List α} (hp : p ∈ led t)
    (hq : q ∈ led t) (hl : l <+: p) (hl' : l' <+: q) : ∃ r ∈ led t, l <+: r ∧ l' <+: r := by
  rcases h.chain t p hp q hq with hpq | hqp
  · exact ⟨q, hq, hl.trans hpq, hl'⟩
  · exact ⟨p, hp, hl, hl'.trans hqp⟩

/-- **Log matching.** -/
theorem Attributed.matching (hled : LeaderLogs term led) {l₁ l₂ : List α}
    (h₁ : Attributed term led l₁) (h₂ : Attributed term led l₂) : Matching term l₁ l₂ := by
  intro i hi hle₁ hle₂ hterm
  obtain ⟨q₁, hq₁, hpre₁⟩ := h₁ i hi hle₁
  obtain ⟨q₂, hq₂, hpre₂⟩ := h₂ i hi hle₂
  rw [hterm] at hq₁
  obtain ⟨r, _, hr₁, hr₂⟩ := hled.common hq₁ hq₂ hpre₁ hpre₂
  have hlen : (l₁.take i).length = (l₂.take i).length := by
    rw [List.length_take, List.length_take, Nat.min_eq_left hle₁, Nat.min_eq_left hle₂]
  exact (List.prefix_of_prefix_length_le hr₁ hr₂ hlen.le).eq_of_length hlen

/-- A log at least as up to date as one that holds `P` holds `P` too, if the leaders of the terms
between that of `P` and its own do. -/
theorem UpToDate.carries (hled : LeaderLogs term led) {P glog elog : List α} (hP : P ≠ [])
    (hpre : P <+: glog) (hsorted : Sorted term glog) (hglog : Attributed term led glog)
    (helog : Attributed term led elog) (hup : UpToDate term glog elog)
    (hlater : lastTerm term P < lastTerm term elog →
      ∀ q ∈ led (lastTerm term elog), P <+: q) : P <+: elog := by
  have hle : lastTerm term P ≤ lastTerm term glog := hsorted.lastTerm_le hpre
  have hgne : glog ≠ [] := by
    rintro rfl
    exact hP (List.prefix_nil.mp hpre)
  rcases hup with hlt | ⟨heq, hlen⟩
  · -- the last entry of `elog` is of a later term, whose leader held `P`
    have hne : elog ≠ [] := ne_nil_of_lastTerm_pos (Nat.lt_of_le_of_lt (Nat.zero_le _) hlt)
    obtain ⟨q, hq, hqpre⟩ := helog.self hne
    have hPq := hlater (Nat.lt_of_le_of_lt hle hlt) q hq
    rcases List.prefix_or_prefix_of_prefix hPq hqpre with h | h
    · exact h
    · have hback := ((hled.sorted _ q hq).ofPrefix hPq).lastTerm_le h
      omega
  · -- both logs end in the same term, and the longer one contains the shorter
    have hne : elog ≠ [] := by
      rintro rfl
      exact hgne (List.length_eq_zero_iff.mp (Nat.le_zero.mp hlen))
    obtain ⟨p, hp, hppre⟩ := hglog.self hgne
    obtain ⟨q, hq, hqpre⟩ := helog.self hne
    rw [heq] at hp
    obtain ⟨r, _, hr, hr'⟩ := hled.common hp hq hppre hqpre
    exact hpre.trans (List.prefix_of_prefix_length_le hr hr' hlen)

/-- **Leader completeness.** Let `P` end in an entry of the term `t` whose leader held it. Suppose
that behind every leader of a later term `T` there is a log `elog` it was elected with and a voter
with a log `glog` no more up to date than `elog`, and that the voter held `P`, unless a leader
between `t` and `T` did not. Then every leader of a later term holds `P`. -/
theorem leader_completeness (hled : LeaderLogs term led) {P : List α} (hP : P ≠ [])
    (hwin : ∀ T, lastTerm term P < T → (led T).Nonempty → ∃ elog glog,
      (∀ q ∈ led T, elog <+: q) ∧ lastTerm term elog < T ∧ Attributed term led elog ∧
      Attributed term led glog ∧ Sorted term glog ∧ UpToDate term glog elog ∧
      (P <+: glog ∨ ∃ u, lastTerm term P < u ∧ u < T ∧ ∃ q ∈ led u, ¬P <+: q)) :
    ∀ T, lastTerm term P < T → ∀ q ∈ led T, P <+: q := by
  intro T
  induction T using Nat.strong_induction_on with
  | _ T ih =>
      intro hT q hq
      obtain ⟨elog, glog, hext, hlast, helog, hglog, hsorted, hup, hheld⟩ := hwin T hT ⟨q, hq⟩
      have hpre : P <+: glog := by
        rcases hheld with h | ⟨u, hu, huT, r, hr, hnot⟩
        · exact h
        · exact absurd (ih u huT hu r hr) hnot
      exact (UpToDate.carries hled hP hpre hsorted hglog helog hup
        (fun hlt r hr => ih _ hlast hlt r hr)).trans (hext q hq)

end TermLog
