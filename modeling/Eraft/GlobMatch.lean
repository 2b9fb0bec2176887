import Eraft.BaseGlob
import Eraft.GlobRegex

/-! What `glob_match` decides. A pattern is read as a list of tokens; `TryMatch` follows it through the text
and tries what stands behind a star at one place after the other. A bracket class is tried even where
the text has ended. As long as that does not happen, the text is matched as it should be. -/

namespace Eraft.GlobRegex

open Glob

/-- What the pattern is made of. A `[` without its `]` accepts nothing. -/
inductive GlobToken where
  | star
  | char (accepts : UInt8 → Bool)
  | bracket (s : GlobClass)

/-- What the token stands for. -/
def GlobToken.meaning : GlobToken → Token UInt8
  | star => .star
  | char accepts => .one accepts
  | bracket s => .one s.accepts

def tokens (pattern : Bytes) : List GlobToken :=
  match pattern with
  | [] => []
  | c :: rest =>
      if c = 42 then .star :: tokens rest
      else if c = 63 then .char (fun _ => true) :: tokens rest
      else if c = 91 then
        match _hclass : parseBracket rest with
        | none => [.char fun _ => false]
        | some (s, pattern) => .bracket s :: tokens pattern
      else if c = 92 ∧ rest.head? = some 91 then .char (· == 91) :: tokens rest.tail
      else .char (· == c) :: tokens rest
termination_by pattern.length
decreasing_by
  · exact Nat.lt_succ_self _
  · exact Nat.lt_succ_self _
  · exact Nat.lt_succ_of_lt (length_parseBracket _hclass)
  · have htail : rest.tail.length = rest.length - 1 := List.length_tail
    rw [htail, List.length_cons]
    omega
  · exact Nat.lt_succ_self _

/-- The text is of the form of the pattern. -/
def Accepts (ts : List GlobToken) (t : Bytes) : Prop := Matches (ts.map GlobToken.meaning) t

/-- The search comes to a bracket class when no text is left: at once, after a byte that is accepted, or
behind a star, at a place in front of which there is no match. -/
def Overruns : List GlobToken → Bytes → Prop
  | [], _ => False
  | .star :: ts, t => ∃ i < t.length, Overruns ts (t.drop i) ∧ ∀ j < i, ¬Accepts ts (t.drop j)
  | .char _ :: _, [] => False
  | .char accepts :: ts, x :: t => accepts x = true ∧ Overruns ts t
  | .bracket _ :: _, [] => True
  | .bracket s :: ts, x :: t => s.accepts x = true ∧ Overruns ts t

/-- The text is read in front of its end, and `tOff_` is not behind it. -/
def Access.Within (tLen : Nat) : Access → Prop
  | .read i => i < tLen
  | .move i => i ≤ tLen

/-- The call returns whether `m`, and stays within the text. -/
def Decides (tLen : Nat) (result : GlobResult) (m : Prop) : Prop :=
  ∃ matched log, result = .ok (matched, log) ∧ (matched = true ↔ m) ∧ ∀ a ∈ log, Access.Within tLen a

/-- The call does not return, or it has left the text. -/
def Strays (tLen : Nat) (result : GlobResult) : Prop :=
  ∀ matched log, result = .ok (matched, log) → ∃ a ∈ log, ¬Access.Within tLen a

variable {tLen tOff : Nat} {text pattern rest : Bytes} {result : GlobResult} {log : List Access} {m : Prop}

theorem Decides.logged (h : Decides tLen result m) (hlog : ∀ a ∈ log, Access.Within tLen a) :
    Decides tLen (logged log result) m := by
  obtain ⟨matched, log', rfl, hm, hlog'⟩ := h
  exact ⟨matched, log ++ log', rfl, hm, List.forall_mem_append.mpr ⟨hlog, hlog'⟩⟩

theorem Strays.logged (h : Strays tLen result) (log : List Access) : Strays tLen (logged log result) := by
  rintro matched log' heq
  cases result with
  | error e => cases heq
  | ok r =>
      cases heq
      obtain ⟨a, ha, hout⟩ := h r.1 r.2 rfl
      exact ⟨a, List.mem_append_right log ha, hout⟩

theorem strays_logged {a : Access} (ha : a ∈ log) (hout : ¬Access.Within tLen a) (result : GlobResult) :
    Strays tLen (logged log result) := by
  rintro matched log' heq
  cases result with
  | error e => cases heq
  | ok r =>
      cases heq
      exact ⟨a, List.mem_append_left r.2 ha, hout⟩

theorem decides_false (hm : ¬m) (hlog : ∀ a ∈ log, Access.Within tLen a) :
    Decides tLen (.ok (false, log)) m :=
  ⟨false, log, rfl, by simp [hm], hlog⟩

theorem logged_logged (log log' : List Access) (result : GlobResult) :
    logged log (logged log' result) = logged (log ++ log') result := by
  cases result with
  | error e => rfl
  | ok r => simp [logged, Except.map]

theorem logged_nil (result : GlobResult) : logged [] result = result := by
  cases result <;> rfl

/-! ### One equation for each kind of token -/

theorem tryMatch_nil : tryMatch text [] tOff = .ok (decide (tOff = text.length), []) := by
  rw [tryMatch]

theorem tryMatch_star_nil : tryMatch text [42] tOff = .ok (true, []) := by
  simp [tryMatch]

theorem tryMatch_star_star : tryMatch text (42 :: 42 :: rest) tOff = tryMatch text (42 :: rest) tOff := by
  rw [tryMatch, tryMatch]
  simp

theorem tryMatch_star (hne : rest ≠ []) (hhead : rest.head? ≠ some 42) :
    tryMatch text (42 :: rest) tOff = processStar (tryMatch text rest) (text.length - tOff) tOff := by
  obtain ⟨c, rest, rfl⟩ := List.exists_cons_of_ne_nil hne
  have hc : (c == 42) = false := by simpa using hhead
  rw [tryMatch]
  simp [hc]

/-- A run of `?` is passed at once. -/
theorem tryMatch_processQuestion :
    ((processQuestion text.length pattern tOff).2 = none →
      tryMatch text pattern tOff = .ok (false, (processQuestion text.length pattern tOff).1)) ∧
    (∀ p t, (processQuestion text.length pattern tOff).2 = some (p, t) →
      tryMatch text pattern tOff = logged (processQuestion text.length pattern tOff).1 (tryMatch text p t)) := by
  cases pattern with
  | nil =>
      refine ⟨fun hnone => absurd hnone (Option.some_ne_none _), ?_⟩
      rintro p t ⟨⟩
      exact (logged_nil _).symm
  | cons c rest =>
      by_cases hc : c = 63
      · subst hc
        rw [tryMatch, if_neg (by decide), dif_pos rfl]
        dsimp only
        split
        · next hnone => simp [hnone]
        · next p t hsome => simp [hsome]
      · have hnone : processQuestion text.length (c :: rest) tOff = ([], some (c :: rest, tOff)) := if_pos hc
        rw [hnone]
        refine ⟨fun hnone => absurd hnone (Option.some_ne_none _), ?_⟩
        rintro p t ⟨⟩
        exact (logged_nil _).symm

theorem tryMatch_question : tryMatch text (63 :: rest) tOff =
    if tOff = text.length then .ok (false, [])
    else logged [.move (tOff + 1)] (tryMatch text rest (tOff + 1)) := by
  obtain ⟨hnone, hsome⟩ := @tryMatch_processQuestion tOff text (63 :: rest)
  obtain ⟨hnone', hsome'⟩ := @tryMatch_processQuestion (tOff + 1) text rest
  split_ifs with hend
  · have hstop : processQuestion text.length (63 :: rest) tOff = ([], none) := by simp [processQuestion, hend]
    rw [hstop] at hnone
    exact hnone rfl
  · have hgo : processQuestion text.length (63 :: rest) tOff =
        (.move (tOff + 1) :: (processQuestion text.length rest (tOff + 1)).1,
          (processQuestion text.length rest (tOff + 1)).2) := by
      simp [processQuestion, hend]
    rw [hgo] at hnone hsome
    cases hleft : (processQuestion text.length rest (tOff + 1)).2 with
    | none =>
        rw [hnone hleft, hnone' hleft]
        rfl
    | some left =>
        rw [hsome left.1 left.2 hleft, hsome' left.1 left.2 hleft, logged_logged]
        rfl

theorem tryMatch_unclosed (h : parseBracket rest = none) : tryMatch text (91 :: rest) tOff = .ok (false, []) := by
  rw [tryMatch, if_neg (by decide), dif_neg (by decide), if_pos rfl]
  split
  · rfl
  · next hsome => cases h.symm.trans hsome

theorem tryMatch_bracket {s : GlobClass} {x : UInt8} (h : parseBracket rest = some (s, pattern))
    (hx : byteAt (text ++ [0]) tOff = .ok x) :
    tryMatch text (91 :: rest) tOff =
      if s.accepts x then logged [.read tOff, .move (tOff + 1)] (tryMatch text pattern (tOff + 1))
      else .ok (false, [.read tOff]) := by
  rw [tryMatch, if_neg (by decide), dif_neg (by decide), if_pos rfl]
  split
  · next hnone => cases h.symm.trans hnone
  · next s' pattern' hsome =>
      cases h.symm.trans hsome
      rw [hx, ok_bind]

section Char

variable {c c' : UInt8} (hstar : c ≠ 42) (hquestion : c ≠ 63) (hbracket : c ≠ 91)

include hstar hquestion hbracket

theorem tryMatch_char_end (hend : text.length ≤ tOff) : tryMatch text (c :: rest) tOff = .ok (false, []) := by
  rw [tryMatch, if_neg hstar, dif_neg hquestion, if_neg hbracket, if_pos hend]

/-- A byte that stands for itself, in front of `pattern`. -/
theorem tryMatch_char {x : UInt8} (hc' : (if c = 92 ∧ rest.head? = some 91 then 91 else c) = c')
    (hpattern : (if c = 92 ∧ rest.head? = some 91 then rest.tail else rest) = pattern)
    (hlt : tOff < text.length) (hx : byteAt (text ++ [0]) tOff = .ok x) :
    tryMatch text (c :: rest) tOff =
      if x == c' then logged [.read tOff, .move (tOff + 1)] (tryMatch text pattern (tOff + 1))
      else .ok (false, [.read tOff]) := by
  rw [tryMatch, if_neg hstar, dif_neg hquestion, if_neg hbracket, if_neg (Nat.not_le.mpr hlt), hx, ok_bind]
  simp only [decide_eq_true_eq, hc', hpattern, ne_eq, ite_not, beq_iff_eq, @eq_comm _ x]

end Char

/-! ### The search behind a star -/

theorem processStar_succ {attempt : Nat → GlobResult} {rounds : Nat} {matched : Bool}
    (h : attempt tOff = .ok (matched, log)) : processStar attempt (rounds + 1) tOff =
      if matched then .ok (true, log)
      else logged (log ++ [.move tOff, .move (tOff + 1)]) (processStar attempt rounds (tOff + 1)) := by
  rw [processStar, h, ok_bind]

section Star

variable {attempt : Nat → GlobResult} {bad found : Nat → Prop} {rounds : Nat}

/-- The search strays: at some place it does, and there is no match in front of it. -/
def StarStrays (tLen : Nat) (bad found : Nat → Prop) (tOff : Nat) : Prop :=
  ∃ i, tOff ≤ i ∧ i < tLen ∧ bad i ∧ ∀ j, tOff ≤ j → j < i → ¬found j

theorem starStrays_of_bad (hlt : tOff < tLen) (hbad : bad tOff) : StarStrays tLen bad found tOff :=
  ⟨tOff, le_rfl, hlt, hbad, fun _ hle hlt => absurd hlt (Nat.not_lt.mpr hle)⟩

theorem starStrays_iff (hgood : ¬bad tOff) :
    StarStrays tLen bad found tOff ↔ ¬found tOff ∧ StarStrays tLen bad found (tOff + 1) := by
  constructor
  · rintro ⟨i, hle, hlt, hbad, hnone⟩
    have hne : tOff ≠ i := by
      rintro rfl
      exact hgood hbad
    exact ⟨hnone tOff le_rfl (by omega), i, by omega, hlt, hbad, fun j hj => hnone j (by omega)⟩
  · rintro ⟨hfirst, i, hle, hlt, hbad, hnone⟩
    refine ⟨i, by omega, hlt, hbad, ?_⟩
    intro j hj hji
    rcases Nat.eq_or_lt_of_le hj with rfl | hj
    · exact hfirst
    · exact hnone j hj hji

theorem exists_found_iff (hnot : ¬found tOff) :
    (∃ i, tOff ≤ i ∧ i < tLen ∧ found i) ↔ ∃ i, tOff + 1 ≤ i ∧ i < tLen ∧ found i := by
  constructor
  · rintro ⟨i, hle, hlt, hfound⟩
    rcases Nat.eq_or_lt_of_le hle with rfl | hle
    · exact absurd hfound hnot
    · exact ⟨i, hle, hlt, hfound⟩
  · rintro ⟨i, hle, hlt, hfound⟩
    exact ⟨i, by omega, hlt, hfound⟩

theorem processStar_strays (h : Strays tLen (attempt tOff)) :
    Strays tLen (processStar attempt (rounds + 1) tOff) := by
  cases hresult : attempt tOff with
  | error e =>
      rw [processStar, hresult]
      rintro matched log ⟨⟩
  | ok r =>
      obtain ⟨a, ha, hout⟩ := h r.1 r.2 hresult
      rw [processStar_succ hresult]
      split_ifs
      · rintro matched log ⟨⟩
        exact ⟨a, ha, hout⟩
      · exact strays_logged (List.mem_append_left _ ha) hout _

/-- What stands behind a star is tried from `tOff` to the end of the text. At each place the attempt is
right unless it strays, and the first match ends the search. -/
theorem processStar_spec (hrounds : tOff + rounds = tLen)
    (hattempt : ∀ i < tLen, (¬bad i → Decides tLen (attempt i) (found i)) ∧ (bad i → Strays tLen (attempt i))) :
    (¬StarStrays tLen bad found tOff →
      Decides tLen (processStar attempt rounds tOff) (∃ i, tOff ≤ i ∧ i < tLen ∧ found i)) ∧
    (StarStrays tLen bad found tOff → Strays tLen (processStar attempt rounds tOff)) := by
  induction rounds generalizing tOff with
  | zero =>
      refine ⟨fun _ => decides_false ?_ (by simp), ?_⟩
      · rintro ⟨i, hle, hlt, _⟩
        omega
      · rintro ⟨i, hle, hlt, _⟩
        omega
  | succ rounds ih =>
      obtain ⟨hdecides, hstrays⟩ := hattempt tOff (by omega)
      obtain ⟨ihdecides, ihstrays⟩ := @ih (tOff + 1) (by omega)
      by_cases hbad : bad tOff
      · refine ⟨fun hgood => absurd (starStrays_of_bad (by omega) hbad) hgood, fun _ => ?_⟩
        exact processStar_strays (hstrays hbad)
      · obtain ⟨matched, log, hresult, hmatched, hlog⟩ := hdecides hbad
        rw [starStrays_iff hbad, processStar_succ hresult]
        split_ifs with htrue
        · have hfound : found tOff := hmatched.mp htrue
          refine ⟨fun _ => ⟨true, log, rfl, ?_, hlog⟩, fun h => absurd hfound h.1⟩
          exact iff_of_true rfl ⟨tOff, le_rfl, by omega, hfound⟩
        · have hnot : ¬found tOff := fun h => htrue (hmatched.mpr h)
          have hlog' : ∀ a ∈ log ++ [.move tOff, .move (tOff + 1)], Access.Within tLen a := by
            simp only [List.mem_append, List.mem_cons, List.not_mem_nil, or_false]
            rintro a (ha | rfl | rfl)
            · exact hlog a ha
            · exact Nat.le_of_lt (by omega)
            · show tOff + 1 ≤ tLen
              omega
          rw [exists_found_iff hnot]
          exact ⟨fun h => (ihdecides fun hstar => h ⟨hnot, hstar⟩).logged hlog', fun h => (ihstrays h.2).logged _⟩

end Star

/-! ### The whole search -/

theorem tokens_star : tokens (42 :: rest) = .star :: tokens rest := by
  rw [tokens, if_pos rfl]

theorem accepts_star_star {ts : List GlobToken} {t : Bytes} :
    Accepts (.star :: .star :: ts) t ↔ Accepts (.star :: ts) t := matches_star_star

theorem overruns_star_star {ts : List GlobToken} {t : Bytes} :
    Overruns (.star :: .star :: ts) t ↔ Overruns (.star :: ts) t := by
  constructor
  · rintro ⟨i, hi, ⟨k, hk, hover, hnone⟩, hnone'⟩
    rw [List.length_drop] at hk
    rw [List.drop_drop] at hover
    refine ⟨i + k, by omega, hover, ?_⟩
    intro j hj haccepts
    by_cases hji : j < i
    · exact hnone' j hji ⟨0, Nat.zero_le _, haccepts⟩
    · apply hnone (j - i) (by omega)
      rwa [List.drop_drop, Nat.add_sub_cancel' (Nat.le_of_not_lt hji)]
  · intro h
    exact ⟨0, (Nat.zero_le _).trans_lt h.choose_spec.1, h, fun j hj => absurd hj (Nat.not_lt_zero j)⟩

/-- A pattern that does not begin with a star begins with what stands for one byte. -/
theorem tokens_one {c : UInt8} (hc : c ≠ 42) :
    ∃ p q, (tokens (c :: rest)).map GlobToken.meaning = .one p :: q := by
  rw [tokens, if_neg hc]
  split_ifs
  · exact ⟨_, _, rfl⟩
  · split
    · exact ⟨_, _, rfl⟩
    · exact ⟨_, _, rfl⟩
  · exact ⟨_, _, rfl⟩
  · exact ⟨_, _, rfl⟩

/-- Places in what is left of the text, counted from its beginning. -/
theorem exists_drop_iff {tOff : Nat} (found : Bytes → Prop) :
    (∃ i < (text.drop tOff).length, found ((text.drop tOff).drop i)) ↔
      ∃ i, tOff ≤ i ∧ i < text.length ∧ found (text.drop i) := by
  simp only [List.length_drop, List.drop_drop]
  constructor
  · rintro ⟨i, hi, h⟩
    exact ⟨tOff + i, by omega, by omega, h⟩
  · rintro ⟨i, hle, hlt, h⟩
    refine ⟨i - tOff, by omega, ?_⟩
    rwa [Nat.add_sub_cancel' hle]

theorem overruns_star_iff {ts : List GlobToken} : Overruns (.star :: ts) (text.drop tOff) ↔
    StarStrays text.length (fun i => Overruns ts (text.drop i)) (fun i => Accepts ts (text.drop i)) tOff := by
  simp only [Overruns, StarStrays, List.length_drop, List.drop_drop]
  constructor
  · rintro ⟨i, hi, hover, hnone⟩
    refine ⟨tOff + i, by omega, by omega, hover, ?_⟩
    intro j hle hlt
    have hj := hnone (j - tOff) (by omega)
    rwa [Nat.add_sub_cancel' hle] at hj
  · rintro ⟨i, hle, hlt, hover, hnone⟩
    refine ⟨i - tOff, by omega, ?_, fun j hj => hnone (tOff + j) (by omega) (by omega)⟩
    rwa [Nat.add_sub_cancel' hle]

theorem exists_byteAt (h : tOff < text.length) :
    ∃ x, text.drop tOff = x :: text.drop (tOff + 1) ∧ byteAt (text ++ [0]) tOff = .ok x := by
  refine ⟨text[tOff], List.drop_eq_getElem_cons h, ?_⟩
  rw [byteAt, List.getElem?_append_left h, List.getElem?_eq_getElem h]

theorem byteAt_end (text : Bytes) : byteAt (text ++ [0]) text.length = .ok 0 := by
  rw [byteAt, List.getElem?_concat_length]

/-- The search for the pattern, from any place in the text on, is right unless it strays. -/
def Searches (text pattern : Bytes) : Prop :=
  ∀ tOff ≤ text.length,
    (¬Overruns (tokens pattern) (text.drop tOff) →
      Decides text.length (tryMatch text pattern tOff) (Accepts (tokens pattern) (text.drop tOff))) ∧
    (Overruns (tokens pattern) (text.drop tOff) → Strays text.length (tryMatch text pattern tOff))

theorem Searches.star_one (h : Searches text rest) (hne : rest ≠ []) (hhead : rest.head? ≠ some 42) :
    Searches text (42 :: rest) := by
  intro tOff hle
  obtain ⟨c, rest', rfl⟩ := List.exists_cons_of_ne_nil hne
  obtain ⟨p, q, hmeaning⟩ := @tokens_one rest' c (by simpa using hhead)
  have haccepts : Accepts (.star :: tokens (c :: rest')) (text.drop tOff) ↔
      ∃ i, tOff ≤ i ∧ i < text.length ∧ Accepts (tokens (c :: rest')) (text.drop i) := by
    rw [← exists_drop_iff, Accepts, List.map_cons, hmeaning]
    simp only [Accepts, hmeaning]
    exact matches_star_one
  rw [tokens_star, tryMatch_star hne hhead, haccepts, overruns_star_iff]
  exact processStar_spec (by omega) fun i hi => h i hi.le

theorem Searches.star (h : Searches text rest) : Searches text (42 :: rest) := by
  by_cases hhead : rest.head? = some 42
  · obtain ⟨rest, rfl⟩ := List.head?_eq_some_iff.mp hhead
    intro tOff hle
    have hrest := h tOff hle
    rw [tokens_star] at hrest
    rw [tokens_star, tokens_star, tryMatch_star_star, accepts_star_star, overruns_star_star]
    exact hrest
  · by_cases hne : rest = []
    · subst hne
      intro tOff _
      rw [tokens_star, tokens, tryMatch_star_nil]
      refine ⟨fun _ => ⟨true, [], rfl, iff_of_true rfl (matches_star_nil _), by simp⟩, ?_⟩
      rintro ⟨i, _, hover, _⟩
      exact hover.elim
    · exact h.star_one hne hhead

/-- The step over one byte. -/
theorem Searches.byte (h : Searches text rest) (hlt : tOff < text.length) (accepted : Bool)
    (hlog : ∀ a ∈ log, Access.Within text.length a) {log' : List Access}
    (hlog' : ∀ a ∈ log', Access.Within text.length a)
    (hresult : result = if accepted then logged log (tryMatch text rest (tOff + 1)) else .ok (false, log')) :
    (¬(accepted = true ∧ Overruns (tokens rest) (text.drop (tOff + 1))) →
      Decides text.length result (accepted = true ∧ Accepts (tokens rest) (text.drop (tOff + 1)))) ∧
    (accepted = true ∧ Overruns (tokens rest) (text.drop (tOff + 1)) → Strays text.length result) := by
  obtain ⟨hdecides, hstrays⟩ := h (tOff + 1) hlt
  subst hresult
  cases accepted with
  | false =>
      refine ⟨fun _ => decides_false ?_ hlog', ?_⟩ <;> simp
  | true =>
      simp only [true_and, if_true]
      exact ⟨fun hgood => (hdecides hgood).logged hlog, fun hover => (hstrays hover).logged log⟩

theorem searches_nil : Searches text [] := by
  intro tOff hle
  rw [tokens, tryMatch_nil]
  refine ⟨fun _ => ⟨_, [], rfl, ?_, by simp⟩, False.elim⟩
  rw [decide_eq_true_eq, Accepts, List.map_nil, Matches, List.drop_eq_nil_iff]
  omega

theorem Searches.question (h : Searches text rest) : Searches text (63 :: rest) := by
  intro tOff hle
  have htokens : tokens (63 :: rest) = .char (fun _ => true) :: tokens rest := by
    rw [tokens, if_neg (by decide), if_pos rfl]
  rw [htokens, tryMatch_question]
  rcases Nat.eq_or_lt_of_le hle with rfl | hlt
  · rw [if_pos rfl, List.drop_length]
    exact ⟨fun _ => decides_false id (by simp), False.elim⟩
  · obtain ⟨x, hdrop, _⟩ := exists_byteAt hlt
    rw [if_neg hlt.ne, hdrop]
    have hnothing : ∀ a ∈ ([] : List Access), Access.Within text.length a := by simp
    exact h.byte hlt true (by simpa [Access.Within] using hlt) hnothing (if_pos rfl).symm

/-- The positions of a byte that is read and passed. -/
theorem within_read (hlt : tOff < tLen) : ∀ a ∈ [.read tOff, .move (tOff + 1)], Access.Within tLen a := by
  simp only [List.mem_cons, List.not_mem_nil, or_false]
  rintro a (rfl | rfl)
  · exact hlt
  · exact hlt

theorem Searches.char {c c' : UInt8} (h : Searches text pattern) (hstar : c ≠ 42) (hquestion : c ≠ 63)
    (hbracket : c ≠ 91) (hc' : (if c = 92 ∧ rest.head? = some 91 then 91 else c) = c')
    (hpattern : (if c = 92 ∧ rest.head? = some 91 then rest.tail else rest) = pattern) :
    Searches text (c :: rest) := by
  intro tOff hle
  have htokens : tokens (c :: rest) = .char (· == c') :: tokens pattern := by
    rw [tokens, if_neg hstar, if_neg hquestion, if_neg hbracket, ← hc', ← hpattern]
    split_ifs <;> rfl
  rw [htokens]
  rcases Nat.eq_or_lt_of_le hle with rfl | hlt
  · rw [tryMatch_char_end hstar hquestion hbracket le_rfl, List.drop_length]
    exact ⟨fun _ => decides_false id (by simp), False.elim⟩
  · obtain ⟨x, hdrop, hx⟩ := exists_byteAt hlt
    rw [hdrop]
    exact h.byte hlt (x == c') (within_read hlt) (by simpa [Access.Within] using hlt)
      (tryMatch_char hstar hquestion hbracket hc' hpattern hlt hx)

theorem searches_unclosed (hclass : parseBracket rest = none) : Searches text (91 :: rest) := by
  intro tOff _
  have htokens : tokens (91 :: rest) = [.char fun _ => false] := by
    rw [tokens, if_neg (by decide), if_neg (by decide), if_pos rfl]
    split
    · rfl
    · next hsome => cases hclass.symm.trans hsome
  rw [htokens, tryMatch_unclosed hclass]
  cases text.drop tOff with
  | nil => exact ⟨fun _ => decides_false id (by simp), False.elim⟩
  | cons x t =>
      exact ⟨fun _ => decides_false (fun h => Bool.false_ne_true h.1) (by simp),
        fun h => absurd h.1 Bool.false_ne_true⟩

theorem tokens_bracket {s : GlobClass} (hclass : parseBracket rest = some (s, pattern)) :
    tokens (91 :: rest) = .bracket s :: tokens pattern := by
  rw [tokens, if_neg (by decide), if_neg (by decide), if_pos rfl]
  split
  · next hnone => cases hclass.symm.trans hnone
  · next hsome =>
      cases hclass.symm.trans hsome
      rfl

theorem Searches.bracket {s : GlobClass} (h : Searches text pattern)
    (hclass : parseBracket rest = some (s, pattern)) : Searches text (91 :: rest) := by
  intro tOff hle
  rw [tokens_bracket hclass]
  rcases Nat.eq_or_lt_of_le hle with rfl | hlt
  · -- the NUL behind the text is read
    rw [tryMatch_bracket hclass (byteAt_end text), List.drop_length]
    refine ⟨fun hgood => absurd trivial hgood, fun _ => ?_⟩
    have hout : ¬Access.Within text.length (.read text.length) := Nat.lt_irrefl _
    split_ifs
    · exact strays_logged List.mem_cons_self hout _
    · rintro matched log ⟨⟩
      exact ⟨.read text.length, List.mem_singleton_self _, hout⟩
  · obtain ⟨x, hdrop, hx⟩ := exists_byteAt hlt
    rw [hdrop]
    exact h.byte hlt (s.accepts x) (within_read hlt) (by simpa [Access.Within] using hlt)
      (tryMatch_bracket hclass hx)

/-- **The search is right unless it strays**, and it strays where it overruns the text. -/
theorem searches (text pattern : Bytes) : Searches text pattern := by
  induction pattern using tokens.induct with
  | case1 => exact searches_nil
  | case2 rest ih => exact ih.star
  | case3 rest _ ih => exact ih.question
  | case4 rest hnone => exact searches_unclosed hnone
  | case5 rest s pattern hclass _ _ ih => exact ih.bracket hclass
  | case6 c rest hstar hquestion hbracket hescaped ih =>
      exact ih.char hstar hquestion hbracket (if_pos hescaped) (if_pos hescaped)
  | case7 c rest hstar hquestion hbracket hplain ih =>
      exact ih.char hstar hquestion hbracket (if_neg hplain) (if_neg hplain)

theorem decides_globMatch (h : ¬Overruns (tokens pattern) text) :
    Decides text.length (tryMatch text pattern 0) (Accepts (tokens pattern) text) :=
  (searches text pattern 0 (Nat.zero_le _)).1 h

theorem globMatch_of_decides (h : Decides text.length (tryMatch text pattern 0) m) :
    ∃ matched, globMatch pattern text = .ok matched ∧ (matched = true ↔ m) := by
  obtain ⟨matched, log, hresult, hmatched, _⟩ := h
  exact ⟨matched, congrArg (Except.map Prod.fst) hresult, hmatched⟩

/-! ### Patterns without brackets -/

/-- What a byte of the pattern stands for: a star for any bytes, a question mark for one, and every other
byte for itself. -/
def ByteStands (c : UInt8) (part : Bytes) : Prop :=
  if c = 42 then True else if c = 63 then part.length = 1 else part = [c]

def byteToken (c : UInt8) : GlobToken :=
  if c = 42 then .star else if c = 63 then .char fun _ => true else .char (· == c)

theorem stands_byteToken (c : UInt8) (part : Bytes) : Stands (byteToken c).meaning part ↔ ByteStands c part := by
  unfold byteToken ByteStands
  split_ifs
  · rfl
  · simp [GlobToken.meaning, Stands, List.length_eq_one_iff]
  · simp [GlobToken.meaning, Stands]

theorem tokens_eq_map (h : 91 ∉ pattern) : tokens pattern = pattern.map byteToken := by
  induction pattern with
  | nil => rw [tokens, List.map_nil]
  | cons c rest ih =>
      have hc : c ≠ 91 := fun heq => h (heq ▸ List.mem_cons_self)
      have hrest : 91 ∉ rest := fun hmem => h (List.mem_cons_of_mem c hmem)
      have hhead : ¬(c = 92 ∧ rest.head? = some 91) := fun hboth => hrest (List.mem_of_head? hboth.2)
      rw [tokens, if_neg hc, if_neg hhead, ih hrest, List.map_cons, byteToken]
      split_ifs <;> rfl

theorem not_overruns_map (pattern t : Bytes) : ¬Overruns (pattern.map byteToken) t := by
  induction pattern generalizing t with
  | nil => exact id
  | cons c rest ih =>
      rw [List.map_cons, byteToken]
      split_ifs
      · rintro ⟨i, _, hover, _⟩
        exact ih _ hover
      · cases t with
        | nil => exact id
        | cons x t => exact fun hover => ih t hover.2
      · cases t with
        | nil => exact id
        | cons x t => exact fun hover => ih t hover.2

/-- **Star matching is sound and complete.** Without a bracket, `glob_match` returns whether the text can be
split among the bytes of the pattern, with nothing left over. -/
theorem globMatch_iff_split (h : 91 ∉ pattern) (text : Bytes) :
    ∃ matched, globMatch pattern text = .ok matched ∧
      (matched = true ↔ ∃ parts, List.Forall₂ ByteStands pattern parts ∧ text = parts.flatten) := by
  have htokens := tokens_eq_map h
  have hgood : ¬Overruns (tokens pattern) text := by
    rw [htokens]
    exact not_overruns_map pattern text
  obtain ⟨matched, hresult, hmatched⟩ := globMatch_of_decides (decides_globMatch hgood)
  refine ⟨matched, hresult, hmatched.trans ?_⟩
  rw [Accepts, htokens, matches_iff_split]
  simp only [List.map_map, List.forall₂_map_left_iff, Function.comp_apply, stands_byteToken]

example : globMatch [97, 42, 63, 100] [97, 98, 99, 100] = .ok true := by decide +kernel

/-- Two stars and a backslash. -/
theorem globMatch_iff_split_stars :
    let pattern : Bytes := [42, 97, 42, 92]
    91 ∉ pattern ∧ globMatch pattern [97, 98, 92] = .ok true ∧
      ∃ parts, List.Forall₂ ByteStands pattern parts ∧ [97, 98, 92] = parts.flatten := by
  intro pattern
  have hbracket : 91 ∉ pattern := by decide
  obtain ⟨matched, hresult, hmatched⟩ := globMatch_iff_split hbracket [97, 98, 92]
  have htrue : globMatch pattern [97, 98, 92] = .ok true := by decide +kernel
  cases htrue.symm.trans hresult
  exact ⟨hbracket, htrue, hmatched.mp rfl⟩

/-- The matcher stays within the text and decides whether it is of the form of the pattern; in particular,
a class in front of `q` is matched by one byte that it accepts, and `q` by the rest. -/
def Confined (pattern text : Bytes) : Prop :=
  ∃ matched log, tryMatch text pattern 0 = .ok (matched, log) ∧
    (∀ a ∈ log, Access.Within text.length a) ∧ (matched = true ↔ Accepts (tokens pattern) text) ∧
    ∀ rest s q, pattern = 91 :: rest → parseBracket rest = some (s, q) → matched = true →
      ∃ x t, text = x :: t ∧ s.accepts x = true ∧ globMatch q t = .ok true

/-- A class that matches takes one byte. -/
theorem exists_byte_of_bracket {s : GlobClass} (hclass : parseBracket rest = some (s, pattern))
    (hgood : ¬Overruns (tokens (91 :: rest)) text) (haccepts : Accepts (tokens (91 :: rest)) text) :
    ∃ x t, text = x :: t ∧ s.accepts x = true ∧ globMatch pattern t = .ok true := by
  rw [tokens_bracket hclass] at hgood haccepts
  obtain ⟨x, t, rfl, hx, hmatches⟩ := matches_one_iff.mp haccepts
  have hgood' : ¬Overruns (tokens pattern) t := fun hover => hgood ⟨hx, hover⟩
  obtain ⟨matched, hresult, hmatched⟩ := globMatch_of_decides (decides_globMatch hgood')
  refine ⟨x, t, rfl, hx, ?_⟩
  rw [hresult, hmatched.mpr hmatches]

/-- **A class consumes one byte** unless the search comes to it at the end of the text. -/
theorem confined_iff (pattern text : Bytes) : Confined pattern text ↔ ¬Overruns (tokens pattern) text := by
  constructor
  · rintro ⟨matched, log, hresult, hlog, _⟩ hover
    obtain ⟨a, ha, hout⟩ := (searches text pattern 0 (Nat.zero_le _)).2 hover matched log hresult
    exact hout (hlog a ha)
  · intro hgood
    obtain ⟨matched, log, hresult, hmatched, hlog⟩ := decides_globMatch hgood
    refine ⟨matched, log, hresult, hlog, hmatched, ?_⟩
    rintro rest s q rfl hclass htrue
    exact exists_byte_of_bracket hclass hgood (hmatched.mp htrue)

/-- `[^a]*` matches the empty text: the class takes the NUL behind it. -/
theorem not_confined : globMatch [91, 94, 97, 93, 42] [] = .ok true ∧ ¬Confined [91, 94, 97, 93, 42] [] := by
  have hrun : tryMatch [] [91, 94, 97, 93, 42] 0 = .ok (true, [.read 0, .move 1]) := by decide +kernel
  refine ⟨congrArg (Except.map Prod.fst) hrun, ?_⟩
  rintro ⟨matched, log, hresult, hlog, _⟩
  cases hrun.symm.trans hresult
  exact Nat.lt_irrefl 0 (hlog (.read 0) List.mem_cons_self)

end Eraft.GlobRegex
