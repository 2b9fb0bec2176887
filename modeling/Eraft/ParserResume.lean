import Eraft.ProtoParser

/-! A request that arrives in two parts. The parser keeps what it has read of the first part and is given
the rest of it again, followed by the second. A string's length is read again from its mark, but the mark
of the number of strings stays skipped; and either number is taken for complete if the first part ends
after three of its digits. -/

namespace Eraft

variable {s part more line bytes rest str result : Bytes} {ptr n : Nat}

/-- Of two beginnings of the same list one goes on with the other. -/
theorem append_cut {α : Type} {a b c d : List α} (h : a ++ b = c ++ d) :
    (a.length ≤ c.length ∧ ∃ e, c = a ++ e ∧ b = e ++ d) ∨
    (c.length < a.length ∧ ∃ e, e ≠ [] ∧ a = c ++ e ∧ d = e ++ b) := by
  rcases List.append_eq_append_iff.mp h with ⟨e, rfl, rfl⟩ | ⟨e, rfl, rfl⟩
  · refine .inl ⟨?_, e, rfl, rfl⟩
    rw [List.length_append]
    exact Nat.le_add_right _ _
  · cases e with
    | nil =>
        refine .inl ⟨?_, [], ?_, rfl⟩
        · rw [List.append_nil]
        · rw [List.append_nil, List.append_nil]
    | cons x e =>
        refine .inr ⟨?_, x :: e, List.cons_ne_nil x e, rfl, rfl⟩
        rw [List.length_append, List.length_cons]
        omega

/-! ### A number that is cut off -/

theorem cut_line (h : decimal n ++ crlf = line ++ more) (hmore : more ≠ []) :
    (∃ digits, decimal n = line ++ digits) ∨ line = decimal n ++ [13] := by
  rcases List.append_eq_append_iff.mp h with ⟨tail, rfl, htail⟩ | ⟨digits, hdigits, _⟩
  · cases tail with
    | nil =>
        refine .inl ⟨[], ?_⟩
        rw [List.append_nil, List.append_nil]
    | cons c tail =>
        obtain ⟨rfl, hlf⟩ := List.cons.inj htail
        cases tail with
        | nil => exact .inr rfl
        | cons c tail =>
            have hnil := (List.cons.inj hlf).2
            exact absurd (List.append_eq_nil_iff.mp hnil.symm).2 hmore
  · exact .inl ⟨digits, hdigits⟩

/-- The first digits of a number are read as a number. -/
theorem intLoop_cut {digits : Bytes} (h : decimal n = line ++ digits) (hn : n < 2 ^ 31) :
    ∃ v ≤ n, intLoop line 0 0 = .ok (.ok, line.length, ((v : Nat) : Int)) := by
  obtain ⟨ds, ds', hds, rfl, _⟩ := List.map_eq_append_iff.mp h
  have hle : Decimal.value ds 0 ≤ n := by
    have hvalue := @Decimal.value_le_append 0 ds ds'
    rwa [← hds, Decimal.value_digits] at hvalue
  have hlt : ∀ d ∈ ds, d < 10 := by
    intro d hd
    refine Decimal.lt_of_mem_digits (n := n) ?_
    rw [hds]
    exact List.mem_append_left _ hd
  refine ⟨Decimal.value ds 0, hle, ?_⟩
  have hloop := @intLoop_digits [] ds 0 0 hlt (by omega)
  rw [List.append_nil, Nat.zero_add] at hloop
  rw [List.length_map]
  exact hloop

/-- A number that is cut off is waited for, unless three digits are there and no end of the line. -/
theorem getIntUntilCRLF_cut (h : decimal n ++ crlf = line ++ more) (hmore : more ≠ []) (hn : n < 2 ^ 31)
    (val : Int) :
    (¬(3 ≤ line.length ∧ line.length ≤ (decimal n).length) ∧
      getIntUntilCRLF ptr line val = .ok (.wait, ptr, val)) ∨
    ((3 ≤ line.length ∧ line.length ≤ (decimal n).length) ∧
      ∃ v ≤ n, getIntUntilCRLF ptr line val = .ok (.ok, ptr + line.length + 2, ((v : Nat) : Int))) := by
  by_cases hshort : line.length < 3
  · exact .inl ⟨by omega, if_pos hshort⟩
  · rw [getIntUntilCRLF, if_neg hshort]
    rcases cut_line h hmore with ⟨digits, hdigits⟩ | rfl
    · have hle : line.length ≤ (decimal n).length := by
        rw [hdigits, List.length_append]
        exact Nat.le_add_right _ _
      obtain ⟨v, hv, hloop⟩ := intLoop_cut hdigits hn
      refine .inr ⟨⟨by omega, hle⟩, v, hv, ?_⟩
      rw [hloop]
      rfl
    · refine .inl ⟨?_, ?_⟩
      · rw [List.length_append, List.length_singleton]
        omega
      · rw [intLoop_decimal hn]
        rfl

namespace ProtoParser

variable {p : ProtoParser}

/-! ### A string that is cut off -/

theorem parseStr_of_wait (hlen : p.paramLen = -1) (h : parseStrlen s ptr (-1) = .ok (.wait, ptr, -1)) :
    p.parseStr s ptr result = .ok (.wait, ptr, p, result) := by
  have hback : { p with paramLen := -1 } = p := by rw [← hlen]
  rw [parseStr, if_pos hlen, hlen, h, ok_bind]
  dsimp only
  rw [if_neg (by decide), if_pos (by decide), hback]
  rfl

theorem parseStr_short (hlen : p.paramLen = -1) (h : (s.length : Int) - ptr < 3) :
    p.parseStr s ptr result = .ok (.wait, ptr, p, result) := parseStr_of_wait hlen (if_pos h)

theorem parseStrval_short (hlen : p.paramLen = n) (hn : n + 2 < 2 ^ 31)
    (h : toInt (s.length - ptr) < (n + 2 : Nat)) :
    p.parseStrval s ptr result = .ok (.wait, ptr, p, result) := by
  have hneed : checkInt (p.paramLen + 2) = .ok ((n + 2 : Nat) : Int) := by
    rw [show p.paramLen + 2 = (n + 2 : Nat) by omega]
    exact checkInt_of_lt hn
  rw [parseStrval, require_of (by omega), hneed, ok_bind, ok_bind, if_pos h]
  rfl

/-- A cut after `cut` bytes of a string that is between the third digit of its length and the end of the
line. -/
def Misread (str : Bytes) (cut : Nat) : Prop := 4 ≤ cut ∧ cut ≤ 1 + (decimal str.length).length

/-- The length of a string is cut off. -/
theorem parseStr_cut_line (h : At s ptr (36 :: line)) (hline : decimal str.length ++ crlf = line ++ more)
    (hmore : more ≠ []) (hlen : p.paramLen = -1) (hsmall : str.length + 2 < 2 ^ 31) :
    (¬Misread str (line.length + 1) ∧ p.parseStr s ptr result = .ok (.wait, ptr, p, result)) ∨
    (Misread str (line.length + 1) ∧
      ∃ p', p.parseStr s ptr result = .ok (.wait, s.length + 2, p', result)) := by
  by_cases hshort : (s.length : Int) - ptr < 3
  · refine .inl ⟨fun hcut => ?_, parseStr_short hlen hshort⟩
    rw [h.length, List.length_cons] at hshort
    have hfour := hcut.1
    omega
  · have hmark : s[ptr]? = some 36 := h.head?
    have hend : s.length = ptr + 1 + line.length := by
      have hlength := h.length
      rw [List.length_cons] at hlength
      omega
    rcases @getIntUntilCRLF_cut more line (ptr + 1) str.length hline hmore (by omega) (-1) with
      ⟨hcut, hint⟩ | ⟨hcut, v, hv, hint⟩
    · have hread : parseStrlen s ptr (-1) = .ok (.wait, ptr, -1) := by
        rw [parseStrlen, if_neg hshort, if_neg (not_not_intro hmark), h.tail.drop, hint]
        rfl
      refine .inl ⟨fun hmis => hcut ⟨?_, ?_⟩, parseStr_of_wait hlen hread⟩
      · have hfour := hmis.1
        omega
      · have hle := hmis.2
        omega
    · have hread : parseStrlen s ptr (-1) = .ok (.ok, ptr + 1 + line.length + 2, (v : Int)) := by
        rw [parseStrlen, if_neg hshort, if_neg (not_not_intro hmark), h.tail.drop, hint]
        rfl
      refine .inr ⟨⟨by omega, by omega⟩, { p with paramLen := v }, ?_⟩
      rw [parseStr_of_ok hlen hread, hend]
      -- the number of bytes that are left is -2
      refine parseStrval_short rfl (by omega) ?_
      rw [hend, toInt, Int.bmod_eq_of_le] <;> omega

/-- Where the parts of a string can end. -/
theorem cut_bulk (h : bulk str = part ++ more) :
    part = [] ∨ (∃ line digits, part = 36 :: line ∧ digits ≠ [] ∧
      decimal str.length ++ crlf = line ++ digits) ∨
    ∃ value, part = 36 :: (decimal str.length ++ crlf ++ value) ∧ str ++ crlf = value ++ more := by
  cases part with
  | nil => exact .inl rfl
  | cons c tail =>
      obtain ⟨rfl, htail⟩ := List.cons.inj h
      rcases append_cut htail with ⟨_, value, rfl, hvalue⟩ | ⟨_, digits, hne, hdigits, _⟩
      · exact .inr (.inr ⟨value, rfl, hvalue⟩)
      · exact .inr (.inl ⟨tail, digits, rfl, hne, hdigits⟩)

/-- **A string that is cut off is waited for**, from its mark or from its value on; but if its length is
misread, the parser goes past the end. -/
theorem parseStr_cut (h : At s ptr part) (hpart : bulk str = part ++ more) (hmore : more ≠ [])
    (hlen : p.paramLen = -1) (hsmall : (bulk str).length < 2 ^ 31) :
    (¬Misread str part.length ∧ p.parseStr s ptr result = .ok (.wait, ptr, p, result)) ∨
    (¬Misread str part.length ∧ ∃ value, part = 36 :: (decimal str.length ++ crlf ++ value) ∧
      str ++ crlf = value ++ more ∧
      p.parseStr s ptr result = .ok (.wait, ptr + 1 + (decimal str.length ++ crlf).length,
        { p with paramLen := str.length }, result)) ∨
    (Misread str part.length ∧
      ∃ p', p.parseStr s ptr result = .ok (.wait, s.length + 2, p', result)) := by
  have hstr := lt_length_bulk str
  rcases cut_bulk hpart with rfl | ⟨line, digits, rfl, hdigits, hline⟩ | ⟨value, rfl, hvalue⟩
  · refine .inl ⟨fun hmis => absurd hmis.1 (by decide), parseStr_short hlen ?_⟩
    rw [h.length]
    decide
  · rcases @parseStr_cut_line s digits line str result ptr p h hline hdigits hlen (by omega) with
      hwait | hmis
    · exact .inl hwait
    · exact .inr (.inr hmis)
  · refine .inr (.inl ⟨fun hmis => ?_, value, rfl, hvalue, ?_⟩)
    · have hle := hmis.2
      rw [List.length_cons, List.length_append, List.length_append, crlf, List.length_cons] at hle
      omega
    · have hshort : value.length < str.length + 2 := by
        have hpos := List.length_pos_of_ne_nil hmore
        have hsum := congrArg List.length hvalue
        rw [List.length_append, List.length_append, crlf, List.length_cons, List.length_singleton] at hsum
        omega
      rw [parseStr_of_ok hlen (parseStrlen_decimal h (by omega) _)]
      refine parseStrval_short rfl (by omega) ?_
      rw [h.tail.skip.length, toInt_of_lt (by omega)]
      omega

/-! ### A list of strings that is cut off -/

variable {multi rounds : Nat} {params kept front back strs : List Bytes}

/-- The strings that have arrived are taken. -/
theorem strlistLoop_front (h : At s ptr (front.flatMap bulk ++ rest))
    (hsmall : (front.flatMap bulk ++ rest).length < 2 ^ 31) (hle : params.length + front.length ≤ multi)
    (hmulti : multi < 2 ^ 31) : ∃ kept', strlistLoop s (front.length + rounds) (reading multi params kept) ptr =
      strlistLoop s rounds (reading multi (params ++ front) kept') (ptr + (front.flatMap bulk).length) := by
  induction front generalizing params kept ptr with
  | nil =>
      refine ⟨kept, ?_⟩
      rw [List.append_nil, List.length_nil, Nat.zero_add]
      rfl
  | cons str front ih =>
      rw [List.flatMap_cons, List.append_assoc] at h hsmall
      rw [List.length_append] at hsmall
      rw [List.length_cons] at hle
      have hstr := lt_length_bulk str
      have hround : strlistLoop s (front.length + rounds + 1) (reading multi params kept) ptr =
          strlistLoop s (front.length + rounds) (reading multi (params ++ [str]) kept.tail)
            (ptr + (bulk str).length) := by
        rcases @strlistLoop_succ s _ ptr str (front.length + rounds) multi params kept h (by omega) (by omega)
          hmulti with ⟨hwait, _⟩ | ⟨_, hres⟩
        · rw [toInt_of_lt (by omega)] at hwait
          omega
        · exact hres
      have hnext : (params ++ [str]).length + front.length ≤ multi := by
        rw [List.length_append, List.length_singleton]
        omega
      obtain ⟨kept', hres⟩ := @ih _ (params ++ [str]) kept.tail h.skip (by omega) hnext
      refine ⟨kept', ?_⟩
      rw [List.length_cons, Nat.add_right_comm, hround, hres, List.flatMap_cons, List.length_append,
        Nat.add_assoc, List.append_assoc]
      rfl

/-- The round in which the bytes run out. -/
theorem strlistLoop_cut (h : At s ptr part) (hpart : bulk str = part ++ more) (hmore : more ≠ [])
    (hsmall : (bulk str).length < 2 ^ 31) (hlt : params.length < multi) (hmulti : multi < 2 ^ 31) :
    (¬Misread str part.length ∧ ∃ kept', strlistLoop s (rounds + 1) (reading multi params kept) ptr =
      .ok (.wait, ptr, reading multi params kept')) ∨
    (¬Misread str part.length ∧ ∃ value kept', part = 36 :: (decimal str.length ++ crlf ++ value) ∧
      str ++ crlf = value ++ more ∧ strlistLoop s (rounds + 1) (reading multi params kept) ptr =
        .ok (.wait, ptr + 1 + (decimal str.length ++ crlf).length, midway multi params kept' str.length)) ∨
    (Misread str part.length ∧ ∃ p', strlistLoop s (rounds + 1) (reading multi params kept) ptr =
      .ok (.wait, s.length + 2, p')) := by
  rcases @parseStr_cut s part more str (kept.headD []) ptr
    (midway multi params (kept.headD [] :: kept.tail) (-1)) h hpart hmore rfl hsmall with
    ⟨hmis, hstr⟩ | ⟨hmis, value, hvalue, hrest, hstr⟩ | ⟨hmis, p', hstr⟩
  · exact .inl ⟨hmis, _, strlistLoop_wait hlt hmulti hstr⟩
  · exact .inr (.inl ⟨hmis, value, _, hvalue, hrest, strlistLoop_wait hlt hmulti hstr⟩)
  · refine .inr (.inr ⟨hmis, ?_⟩)
    have hround := @strlistLoop_round s ptr rounds multi params kept (-1) hlt hmulti
    rw [hstr, ok_bind] at hround
    exact ⟨_, hround⟩

/-- Parsing goes on with the strings that are missing. -/
theorem parseRequest_midway {len : Int} (h : params.length + rounds = multi) (hmulti : multi < 2 ^ 31) :
    (midway multi params kept len).parseRequest s ptr =
      strlistLoop s rounds (midway multi params kept len) ptr := by
  have hrounds : ((multi : Int) - toInt params.length).toNat = rounds := by
    rw [toInt_of_lt (by omega)]
    omega
  have hknown : ¬(midway multi params kept len).multi = -1 := by
    show ¬(multi : Int) = -1
    omega
  rw [parseRequest, if_neg hknown, parseStrlist]
  show strlistLoop s ((multi : Int) - toInt params.length).toNat _ ptr = _
  rw [hrounds]

theorem parseRequest_reading (h : params.length + strs.length = multi) (hmulti : multi < 2 ^ 31)
    (hsmall : (strs.flatMap bulk).length < 2 ^ 31) :
    (reading multi params kept).parseRequest (strs.flatMap bulk) 0 =
      .ok (.ok, (strs.flatMap bulk).length, reading multi (params ++ strs) []) := by
  refine (@parseRequest_midway _ _ multi strs.length params kept (-1) h hmulti).trans ?_
  have hres := @strlistLoop_bulks_of_lt _ 0 multi strs params kept At.start h hmulti hsmall
  rwa [Nat.zero_add] at hres

/-- The length of the next string is known already. -/
theorem parseRequest_value (h : params.length + (back.length + 1) = multi) (hmulti : multi < 2 ^ 31)
    (hsmall : (str ++ crlf ++ back.flatMap bulk).length < 2 ^ 31) :
    (midway multi params kept str.length).parseRequest (str ++ crlf ++ back.flatMap bulk) 0 =
      .ok (.ok, (str ++ crlf ++ back.flatMap bulk).length, reading multi (params ++ str :: back) []) := by
  have hsize : (str ++ crlf ++ back.flatMap bulk).length = str.length + 2 + (back.flatMap bulk).length := by
    rw [List.length_append, List.length_append]
    rfl
  have hvalue : (midway multi params (kept.headD [] :: kept.tail) str.length).parseStr
      (str ++ crlf ++ back.flatMap bulk) 0 (kept.headD []) =
      .ok (.ok, (str ++ crlf).length, reading multi params (kept.headD [] :: kept.tail), str) := by
    have hknown : ¬(midway multi params (kept.headD [] :: kept.tail) str.length).paramLen = -1 := by
      show ¬(str.length : Int) = -1
      omega
    rw [parseStr, if_neg hknown, parseStrval_value At.start rfl (by omega), toInt_of_lt (by omega),
      if_neg (by omega), Nat.zero_add]
    rfl
  have hat : At (str ++ crlf ++ back.flatMap bulk) (str ++ crlf).length (back.flatMap bulk) :=
    ⟨str ++ crlf, rfl, rfl⟩
  have hnext : (params ++ [str]).length + back.length = multi := by
    rw [List.length_append, List.length_singleton]
    omega
  rw [parseRequest_midway h hmulti, strlistLoop_ok (by omega) hmulti hvalue,
    strlistLoop_bulks_of_lt hat hnext hmulti (by omega), List.append_assoc,
    @List.length_append _ (str ++ crlf)]
  rfl

/-! ### A header that is cut off -/

theorem strlistLoop_past (h : (s.length : Int) - ptr < 3) (hn : n < 2 ^ 31) :
    ∃ ret p', strlistLoop s n (reading n [] kept) ptr = .ok (ret, ptr, p') := by
  cases n with
  | zero => exact ⟨_, _, rfl⟩
  | succ n =>
      have hpos : ([] : List Bytes).length < n + 1 := Nat.succ_pos n
      have hshort := @parseStr_short s (kept.headD []) ptr
        (midway (n + 1) [] (kept.headD [] :: kept.tail) (-1)) rfl h
      have hwait : strlistLoop s (n + 1) (midway (n + 1) [] kept (-1)) ptr =
          .ok (.wait, ptr, midway (n + 1) [] (kept.headD [] :: kept.tail) (-1)) :=
        strlistLoop_wait hpos hn hshort
      exact ⟨_, _, hwait⟩

/-- If a header is cut off after the third byte, its mark is lost or the parser goes past the end. -/
theorem parseRequest_header_cut (h : multiBulk n = s ++ more) (hmore : more ≠ []) (hn : n < 2 ^ 31)
    (hthree : 3 ≤ s.length) : p.reset.parseRequest s 0 = .ok (.wait, 1, p.reset) ∨
      ∃ ret p', p.reset.parseRequest s 0 = .ok (ret, s.length + 2, p') := by
  cases s with
  | nil => exact absurd hthree (by decide)
  | cons c line =>
      obtain ⟨rfl, hline⟩ := List.cons.inj h
      have hmulti : parseMulti (42 :: line) 0 (-1) = getIntUntilCRLF 1 line (-1) := by
        rw [parseMulti, if_neg (by omega)]
        rfl
      rcases @getIntUntilCRLF_cut more line 1 n hline hmore hn (-1) with ⟨_, hint⟩ | ⟨_, v, hv, hint⟩
      · exact .inl (parseRequest_of_ne_ok (by decide) (hmulti.trans hint))
      · refine .inr ?_
        rw [parseRequest_of_ok (by omega) (hmulti.trans hint), List.length_cons, Nat.add_comm 1]
        exact strlistLoop_past (by rw [List.length_cons]; omega) (by omega)

theorem parseRequest_unmarked : p.reset.parseRequest (decimal n ++ crlf ++ rest) 0 =
    .ok (.error, 0, p.reset) := by
  have hmark : (decimal n ++ crlf ++ rest)[0]? ≠ some 42 := by
    obtain ⟨d, ds, hds⟩ := List.exists_cons_of_ne_nil (@Decimal.digits_ne_nil n)
    have hd : d < 10 := Decimal.lt_of_mem_digits (n := n) (hds ▸ List.mem_cons_self)
    have hfirst : (decimal n ++ crlf ++ rest)[0]? = some (digitByte d) := by
      rw [decimal, hds]
      rfl
    rw [hfirst]
    interval_cases d <;> decide
  have hlong : ¬((decimal n ++ crlf ++ rest).length : Int) - (0 : Nat) < 3 := by
    have hpos := @decimal_pos n
    rw [List.length_append, List.length_append, crlf, List.length_cons, List.length_singleton]
    omega
  refine parseRequest_of_ne_ok (by decide) ?_
  rw [parseMulti, if_neg hlong, if_pos hmark]

/-- The parser waits after the first part, and the rest of it together with the second part gives the
same parameters as the whole, with nothing left over. -/
def Resumes (p : ProtoParser) (s₁ s₂ : Bytes) : Prop :=
  ∃ c p₁, p.reset.parseRequest s₁ 0 = .ok (.wait, c, p₁) ∧ c ≤ s₁.length ∧
    ∃ p₂ whole, p₁.parseRequest (s₁.drop c ++ s₂) 0 = .ok (.ok, (s₁.drop c ++ s₂).length, p₂) ∧
      p.reset.parseRequest (s₁ ++ s₂) 0 = .ok (.ok, (s₁ ++ s₂).length, whole) ∧
      p₂.params = whole.params

/-- A cut after `cut` bytes that is in the number of strings, except in its first three bytes, or between
the third digit of a string's length and the end of the line. -/
def CutsNumber (strs : List Bytes) (cut : Nat) : Prop :=
  (3 ≤ cut ∧ cut < (multiBulk strs.length).length) ∨
  ∃ front str back k, strs = front ++ str :: back ∧
    cut = (multiBulk strs.length ++ front.flatMap bulk).length + k ∧ Misread str k

variable {s₁ s₂ : Bytes}

/-- All that is left to show is how the parser goes on with what it is given then. -/
theorem Resumes.intro {c : Nat} {p₁ : ProtoParser} {todo : Bytes} (hlen : (request strs).length < 2 ^ 31)
    (hcut : request strs = s₁ ++ s₂) (hwait : p.reset.parseRequest s₁ 0 = .ok (.wait, c, p₁))
    (hat : At s₁ c rest) (htodo : rest ++ s₂ = todo) (hgo : todo.length < 2 ^ 31 →
      p₁.parseRequest todo 0 = .ok (.ok, todo.length, reading strs.length strs [])) : Resumes p s₁ s₂ := by
  have hwhole := @parseRequest_of_lt p strs [] (by rw [List.append_nil]; exact hlen)
  rw [List.append_nil, hcut] at hwhole
  have hlength := hat.length
  refine ⟨c, p₁, hwait, by omega, reading strs.length strs [], _, ?_, hwhole, rfl⟩
  rw [hat.drop, htodo]
  refine hgo ?_
  rw [hcut, List.length_append] at hlen
  rw [← htodo, List.length_append]
  omega

theorem not_resumes_past {ret : ParseResult} {p' : ProtoParser}
    (h : p.reset.parseRequest s₁ 0 = .ok (ret, s₁.length + 2, p')) : ¬Resumes p s₁ s₂ := by
  rintro ⟨c, p₁, hwait, hc, _⟩
  cases h.symm.trans hwait
  omega

theorem not_resumes_header (h : multiBulk n = s₁ ++ more) (hmore : more ≠ []) (hn : n < 2 ^ 31)
    (hthree : 3 ≤ s₁.length) : ¬Resumes p s₁ (more ++ rest) := by
  rcases @parseRequest_header_cut s₁ more n p h hmore hn hthree with hlost | ⟨ret, p', hpast⟩
  · rintro ⟨c, p₁, hwait, _, p₂, _, hgo, _⟩
    cases hlost.symm.trans hwait
    have hdigits : s₁.drop 1 ++ (more ++ rest) = decimal n ++ crlf ++ rest := by
      rw [← List.append_assoc, ← List.drop_append_of_le_length (by omega), ← h]
      rfl
    rw [hdigits, parseRequest_unmarked] at hgo
    cases hgo
  · exact not_resumes_past hpast

theorem length_lt_of_request (h : (request strs).length < 2 ^ 31) : strs.length < 2 ^ 31 := by
  have hle := length_le_bulks strs
  rw [request, List.length_append] at h
  omega

/-- The header and the strings before the cut are taken. -/
theorem parseRequest_front (hcount : front.length + (back.length + 1) = multi) (hmulti : multi < 2 ^ 31)
    (hsmall : (front.flatMap bulk ++ part).length < 2 ^ 31) : ∃ kept,
      p.reset.parseRequest (multiBulk multi ++ front.flatMap bulk ++ part) 0 =
        strlistLoop (multiBulk multi ++ front.flatMap bulk ++ part) (back.length + 1)
          (reading multi front kept) (multiBulk multi ++ front.flatMap bulk).length := by
  have hat : At (multiBulk multi ++ front.flatMap bulk ++ part) 0
      (multiBulk multi ++ (front.flatMap bulk ++ part)) := ⟨[], List.append_assoc _ _ _, rfl⟩
  obtain ⟨kept, hfront⟩ := @strlistLoop_front _ part _ multi (back.length + 1) [] (p.params.take 3) front
    hat.skip hsmall (by rw [List.length_nil]; omega) hmulti
  refine ⟨kept, ?_⟩
  rw [hcount, Nat.zero_add] at hfront
  rw [parseRequest_header hat hmulti, List.length_append, Nat.zero_add]
  exact hfront

/-- A cut in a string. -/
theorem resumes_string_iff (hlen : (request (front ++ str :: back)).length < 2 ^ 31)
    (hpart : bulk str = part ++ more) (hmore : more ≠ [])
    (hs₁ : s₁ = multiBulk (front ++ str :: back).length ++ front.flatMap bulk ++ part) :
    Resumes p s₁ (more ++ back.flatMap bulk) ↔ ¬Misread str part.length := by
  have hsplit : request (front ++ str :: back) = s₁ ++ (more ++ back.flatMap bulk) := by
    rw [hs₁, request, List.flatMap_append, List.flatMap_cons, hpart]
    simp only [List.append_assoc]
  have hsize := hlen
  rw [hsplit, hs₁] at hsize
  simp only [List.length_append] at hsize
  have hmulti := length_lt_of_request hlen
  have hcount : front.length + (back.length + 1) = (front ++ str :: back).length := by
    rw [List.length_append, List.length_cons]
  have hbulk : (bulk str).length < 2 ^ 31 := by
    rw [hpart, List.length_append]
    omega
  have hat : At s₁ (multiBulk (front ++ str :: back).length ++ front.flatMap bulk).length part :=
    ⟨_, hs₁, rfl⟩
  obtain ⟨kept, hfront⟩ := @parseRequest_front part p _ front back hcount hmulti
    (by rw [List.length_append]; omega)
  rw [← hs₁] at hfront
  rcases @strlistLoop_cut s₁ part more str _ _ back.length front kept hat hpart hmore hbulk (by omega) hmulti
    with ⟨hmis, kept', hwait⟩ | ⟨hmis, value, kept', rfl, hvalue, hwait⟩ | ⟨hmis, p', hpast⟩
  · have htodo : part ++ (more ++ back.flatMap bulk) = (str :: back).flatMap bulk := by
      rw [← List.append_assoc, ← hpart, List.flatMap_cons]
    exact iff_of_true (.intro hlen hsplit (hfront.trans hwait) hat htodo
      fun hsmall => parseRequest_reading hcount hmulti hsmall) hmis
  · have htodo : value ++ (more ++ back.flatMap bulk) = str ++ crlf ++ back.flatMap bulk := by
      rw [← List.append_assoc, ← hvalue]
    exact iff_of_true (.intro hlen hsplit (hfront.trans hwait) hat.tail.skip htodo
      fun hsmall => parseRequest_value hcount hmulti hsmall) hmis
  · exact iff_of_false (not_resumes_past (hfront.trans hpast)) (not_not_intro hmis)

theorem exists_cut (h : strs.flatMap bulk = part ++ s₂) (hs₂ : s₂ ≠ []) :
    ∃ front str back part' more, strs = front ++ str :: back ∧ bulk str = part' ++ more ∧ more ≠ [] ∧
      part = front.flatMap bulk ++ part' ∧ s₂ = more ++ back.flatMap bulk := by
  induction strs generalizing part with
  | nil => exact absurd (List.append_eq_nil_iff.mp h.symm).2 hs₂
  | cons str strs ih =>
      rw [List.flatMap_cons] at h
      rcases append_cut h with ⟨_, tail, rfl, htail⟩ | ⟨_, more, hne, hmore, rfl⟩
      · obtain ⟨front, str', back, part', more, rfl, hpart, hne, rfl, rfl⟩ := ih htail
        refine ⟨str :: front, str', back, part', more, rfl, hpart, hne, ?_, rfl⟩
        rw [List.flatMap_cons, List.append_assoc]
      · exact ⟨[], str, strs, part, more, rfl, hmore, hne, rfl, rfl⟩

theorem CutsNumber.not_resumes (h : CutsNumber strs s₁.length) (hlen : (request strs).length < 2 ^ 31)
    (hcut : request strs = s₁ ++ s₂) : ¬Resumes p s₁ s₂ := by
  rcases h with ⟨hthree, hlt⟩ | ⟨front, str, back, k, rfl, hk, hmis⟩
  · rcases append_cut hcut with ⟨hle, _⟩ | ⟨_, more, hmore, hhead, rfl⟩
    · exact absurd hlt (Nat.not_lt.mpr hle)
    · exact not_resumes_header hhead hmore (length_lt_of_request hlen) hthree
  · have hsplit : multiBulk (front ++ str :: back).length ++ front.flatMap bulk ++
        (bulk str ++ back.flatMap bulk) = s₁ ++ s₂ := by
      rw [← hcut, request, List.flatMap_append, List.flatMap_cons, List.append_assoc]
    rcases append_cut hsplit with ⟨_, part, rfl, hpart⟩ | ⟨hlt, _⟩
    · have hpk : part.length = k := by
        rw [List.length_append] at hk
        omega
      rcases append_cut hpart with ⟨hle, _⟩ | ⟨_, more, hmore, hbulk, rfl⟩
      · -- a misread length is not the whole string
        have hend := hmis.2
        rw [bulk, List.length_cons, List.length_append, List.length_append, crlf, List.length_cons] at hle
        omega
      · rw [resumes_string_iff hlen hbulk hmore rfl, hpk]
        exact not_not_intro hmis
    · omega

theorem resumes_of_not_cutsNumber (h : ¬CutsNumber strs s₁.length) (hlen : (request strs).length < 2 ^ 31)
    (hcut : request strs = s₁ ++ s₂) (hs₂ : s₂ ≠ []) : Resumes p s₁ s₂ := by
  rcases append_cut hcut with ⟨_, part, rfl, hpart⟩ | ⟨hlt, _⟩
  · obtain ⟨front, str, back, part, more, rfl, hbulk, hmore, rfl, rfl⟩ := exists_cut hpart hs₂
    rw [resumes_string_iff hlen hbulk hmore (List.append_assoc _ _ _).symm]
    refine fun hmis => h (.inr ⟨front, str, back, part.length, rfl, ?_, hmis⟩)
    rw [← List.append_assoc, List.length_append]
  · have hshort : s₁.length < 3 := by
      by_contra hthree
      exact h (.inl ⟨by omega, hlt⟩)
    have hwait : p.reset.parseRequest s₁ 0 = .ok (.wait, 0, p.reset) :=
      parseRequest_of_ne_ok (by decide) (if_pos (by omega))
    have hwhole := @parseRequest_of_lt p strs [] (by rw [List.append_nil]; exact hlen)
    rw [List.append_nil] at hwhole
    exact .intro hlen hcut hwait At.start hcut.symm fun _ => hwhole

/-- **A request may arrive in two parts** exactly if it is not cut in a number, the first two bytes of the
header and the first two digits of a string's length excepted. -/
theorem resumes_iff (p : ProtoParser) {strs : List Bytes} {s₁ s₂ : Bytes}
    (hlen : (request strs).length < 2 ^ 31) (hcut : request strs = s₁ ++ s₂) (hs₂ : s₂ ≠ []) :
    Resumes p s₁ s₂ ↔ ¬CutsNumber strs s₁.length :=
  ⟨fun hres hnumber => hnumber.not_resumes hlen hcut hres,
    fun hnumber => resumes_of_not_cutsNumber hnumber hlen hcut hs₂⟩

/-- One string of a hundred bytes, cut after the second digit of its length. -/
theorem resumes_hundred : ∃ s₂, request [List.replicate 100 97] = [42, 49, 13, 10, 36, 49, 48] ++ s₂ ∧
    Resumes { params := [[1], [2], [3], [4]] } [42, 49, 13, 10, 36, 49, 48] s₂ := by
  have hlen : (request [List.replicate 100 97]).length < 2 ^ 31 := by decide +kernel
  have hcut : request [List.replicate 100 97] =
      [42, 49, 13, 10, 36, 49, 48] ++ 48 :: 13 :: 10 :: (List.replicate 100 97 ++ crlf) := by decide +kernel
  have hnumber : ¬CutsNumber [List.replicate 100 97] [(42 : UInt8), 49, 13, 10, 36, 49, 48].length := by
    rintro (⟨_, hlt⟩ | ⟨front, str, back, k, hstrs, hk, hmis⟩)
    · exact absurd hlt (by decide +kernel)
    · have hone : 1 = front.length + (back.length + 1) := by
        have hlength := congrArg List.length hstrs
        rw [List.length_append] at hlength
        exact hlength
      obtain rfl := List.eq_nil_of_length_eq_zero (show front.length = 0 by omega)
      have hthree : 3 = k := Nat.add_left_cancel hk
      exact absurd hmis.1 (by omega)
  exact ⟨_, hcut, (resumes_iff _ hlen hcut (List.cons_ne_nil _ _)).mpr hnumber⟩

/-- The request `*1\r\n$1\r\na\r\n`, cut after its third byte: the parser waits with the mark skipped, and then
finds no mark. -/
theorem not_resumes_cr : request [[97]] = [42, 49, 13] ++ [10, 36, 49, 13, 10, 97, 13, 10] ∧
    ¬Resumes {} [42, 49, 13] [10, 36, 49, 13, 10, 97, 13, 10] := by
  have hwait : parseRequest (reset {}) [42, 49, 13] 0 = .ok (.wait, 1, reset {}) := rfl
  have herror : parseRequest (reset {}) ([49, 13] ++ [10, 36, 49, 13, 10, 97, 13, 10]) 0 =
      .ok (.error, 0, reset {}) := rfl
  refine ⟨by decide +kernel, ?_⟩
  rintro ⟨c, p₁, hparse, _, p₂, whole, hgo, _⟩
  cases hwait.symm.trans hparse
  cases herror.symm.trans hgo

end ProtoParser

end Eraft
