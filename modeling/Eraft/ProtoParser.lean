import Eraft.ReplyFormat

/-! `ProtoParser` (`network/src/proto_parser.cc`), a parser that can stop in the middle of a request. The
memory from the start of the bytes to `end` is a list and `ptr` is a position in it, which may be past
the end: a number that is not followed by anything is taken for complete, and two more bytes are
skipped. A `char` that is negative is not a digit. -/

namespace Eraft

inductive ParseResult where
  | ok
  | wait
  | error
  deriving DecidableEq, Repr

/-- The value of an expression of type `int`. -/
def checkInt (x : Int) : Except Fault Int := if -2 ^ 31 ≤ x ∧ x < 2 ^ 31 then .ok x else .error .overflow

def byteAt (s : Bytes) (i : Nat) : Except Fault UInt8 :=
  match s[i]? with
  | some c => .ok c
  | none => .error .outOfBounds

theorem byteAt_lt {s : Bytes} {i : Nat} {c : UInt8} (h : byteAt s i = .ok c) : i < s.length := by
  unfold byteAt at h
  split at h
  · next hc => exact (List.getElem?_eq_some_iff.mp hc).1
  · cases h

/-- `isdigit`. -/
def isDigit (c : UInt8) : Bool := 48 ≤ c && c ≤ 57

/-- The loop of `GetIntUntilCRLF` on the bytes that are left, with the number of those before them. -/
def intLoop : Bytes → Nat → Int → Except Fault (ParseResult × Nat × Int)
  | [], i, value => .ok (.ok, i, value)
  | c :: rest, i, value =>
      if isDigit c then do
        let value ← checkInt (value * 10)
        let value ← checkInt (value + (c.toNat - 48))
        intLoop rest (i + 1) value
      else if c ≠ 13 ∨ rest.head?.any (· ≠ 10) then .ok (.error, i, value)
      else if rest = [] then .ok (.wait, i, value)
      else .ok (.ok, i, value)

/-- `GetIntUntilCRLF` on the `nBytes` bytes at `ptr`. -/
def getIntUntilCRLF (ptr : Nat) (bytes : Bytes) (val : Int) : Except Fault (ParseResult × Nat × Int) :=
  if bytes.length < 3 then .ok (.wait, ptr, val)
  else do
    let (ret, i, value) ← intLoop bytes 0 0
    return if ret = .ok then (.ok, ptr + i + 2, value) else (ret, ptr, val)

/-- `std::vector<std::string>::resize`. -/
def resize (params : List Bytes) (n : Nat) : List Bytes :=
  params.take n ++ List.replicate (n - params.length) []

structure ProtoParser where
  multi : Int := -1
  paramLen : Int := -1
  numOfParam : Nat := 0
  params : List Bytes := []
  deriving DecidableEq

namespace ProtoParser

/-- `Reset`. The first three parameters are kept. -/
def reset (p : ProtoParser) : ProtoParser :=
  { multi := -1, paramLen := -1, numOfParam := 0, params := p.params.take 3 }

/-- `_ParseMulti`. The mark stays skipped when the number cannot be read. -/
def parseMulti (s : Bytes) (ptr : Nat) (result : Int) : Except Fault (ParseResult × Nat × Int) :=
  if (s.length : Int) - ptr < 3 then .ok (.wait, ptr, result)
  else if s[ptr]? ≠ some 42 then .ok (.error, ptr, result)
  else getIntUntilCRLF (ptr + 1) (s.drop (ptr + 1)) result

/-- `_ParseStrlen`. -/
def parseStrlen (s : Bytes) (ptr : Nat) (result : Int) : Except Fault (ParseResult × Nat × Int) :=
  if (s.length : Int) - ptr < 3 then .ok (.wait, ptr, result)
  else if s[ptr]? ≠ some 36 then .ok (.error, ptr, result)
  else do
    let (ret, next, result) ← getIntUntilCRLF (ptr + 1) (s.drop (ptr + 1)) result
    return (ret, if ret = .ok then next else next - 1, result)

variable (p : ProtoParser)

/-- `_ParseStrval`. The number of bytes there are is cut to an `int`. -/
def parseStrval (s : Bytes) (ptr : Nat) (result : Bytes) :
    Except Fault (ParseResult × Nat × ProtoParser × Bytes) := do
  require (0 ≤ p.paramLen)
  let need ← checkInt (p.paramLen + 2)
  if toInt (s.length - ptr) < need then return (.wait, ptr, p, result)
  else
    let tail := ptr + p.paramLen.toNat
    let c ← byteAt s tail
    if c ≠ 13 then return (.error, ptr, p, result)
    else
      let c ← byteAt s (tail + 1)
      if c ≠ 10 then return (.error, ptr, p, result)
      else return (.ok, tail + 2, { p with paramLen := -1 }, (s.drop ptr).take p.paramLen.toNat)

/-- `_ParseStr`. -/
def parseStr (s : Bytes) (ptr : Nat) (result : Bytes) :
    Except Fault (ParseResult × Nat × ProtoParser × Bytes) :=
  if p.paramLen = -1 then do
    let (ret, ptr, paramLen) ← parseStrlen s ptr p.paramLen
    let p := { p with paramLen := paramLen }
    if ret = .error ∨ paramLen < -1 then return (.error, ptr, p, result)
    else if ret ≠ .ok then return (.wait, ptr, p, result)
    else if paramLen = -1 then return (.ok, ptr, p, [])
    else p.parseStrval s ptr result
  else p.parseStrval s ptr result

/-- The loop of `_ParseStrlist`, of which there are as many rounds as parameters are missing. -/
def strlistLoop (s : Bytes) : Nat → ProtoParser → Nat → Except Fault (ParseResult × Nat × ProtoParser)
  | 0, p, ptr => .ok (.ok, ptr, { p with params := resize p.params p.numOfParam })
  | rounds + 1, p, ptr =>
      if toInt p.numOfParam < p.multi then do
        let params := if p.params.length < p.numOfParam + 1 then resize p.params (p.numOfParam + 1)
          else p.params
        let (ret, ptr, p, str) ←
          { p with params := params }.parseStr s ptr (params.getD p.numOfParam [])
        let p := { p with params := p.params.set p.numOfParam str }
        if ret = .ok then strlistLoop s rounds { p with numOfParam := p.numOfParam + 1 } ptr
        else return (ret, ptr, p)
      else .ok (.ok, ptr, { p with params := resize p.params p.numOfParam })

/-- `_ParseStrlist`. -/
def parseStrlist (s : Bytes) (ptr : Nat) : Except Fault (ParseResult × Nat × ProtoParser) :=
  strlistLoop s (p.multi - toInt p.numOfParam).toNat p ptr

/-- `ParseRequest`. -/
def parseRequest (s : Bytes) (ptr : Nat) : Except Fault (ParseResult × Nat × ProtoParser) :=
  if p.multi = -1 then do
    let (ret, ptr, multi) ← parseMulti s ptr p.multi
    let p := { p with multi := multi }
    if ret = .error ∨ multi < -1 then return (.error, ptr, p)
    else if ret ≠ .ok then return (.wait, ptr, p)
    else p.parseStrlist s ptr
  else p.parseStrlist s ptr

end ProtoParser

/-! ### Reading a number -/

variable {s bytes rest : Bytes} {ptr n : Nat}

theorem checkInt_of_lt {n : Nat} (h : n < 2 ^ 31) : checkInt n = .ok (n : Int) := if_pos (by omega)

theorem isDigit_digitByte {d : Nat} (h : d < 10) : isDigit (digitByte d) = true := by
  interval_cases d <;> rfl

theorem toNat_digitByte {d : Nat} (h : d < 10) : (digitByte d).toNat = 48 + d := by
  interval_cases d <;> rfl

theorem checkInt_of_le {n : Nat} (h : 2 ^ 31 ≤ n) : checkInt n = .error .overflow := if_neg (by omega)

/-- The next digit is taken over, or the `int` overflows. -/
theorem intLoop_digit {d v : Nat} (i : Nat) (hd : d < 10) : intLoop (digitByte d :: rest) i v =
    if v * 10 + d < 2 ^ 31 then intLoop rest (i + 1) (v * 10 + d : Nat) else .error .overflow := by
  have hmul : ((v : Int) * 10) = (v * 10 : Nat) := by push_cast; rfl
  have hadd : ((v * 10 : Nat) : Int) + ((48 + d : Nat) - 48) = (v * 10 + d : Nat) := by omega
  rw [intLoop, if_pos (isDigit_digitByte hd), toNat_digitByte hd, hmul]
  rcases Nat.lt_or_ge (v * 10) (2 ^ 31) with hlt | hge
  · rw [checkInt_of_lt hlt, ok_bind, hadd]
    rcases Nat.lt_or_ge (v * 10 + d) (2 ^ 31) with hlt | hge
    · rw [checkInt_of_lt hlt, if_pos hlt, ok_bind]
    · rw [checkInt_of_le hge, if_neg (Nat.not_lt.mpr hge)]
      rfl
  · rw [checkInt_of_le hge, if_neg (by omega)]
    rfl

/-- A number is read digit by digit; none of the numbers on the way is larger than it. -/
theorem intLoop_digits {ds : List Nat} {v : Nat} (i : Nat) (hds : ∀ d ∈ ds, d < 10)
    (hv : Decimal.value ds v < 2 ^ 31) : intLoop (ds.map digitByte ++ rest) i v =
      intLoop rest (i + ds.length) (Decimal.value ds v : Nat) := by
  induction ds generalizing i v with
  | nil => rfl
  | cons d ds ih =>
      obtain ⟨hd, hds⟩ := List.forall_mem_cons.mp hds
      rw [Decimal.value_cons] at hv ⊢
      have hlt : v * 10 + d < 2 ^ 31 := Decimal.le_value.trans_lt hv
      rw [List.map_cons, List.cons_append, intLoop_digit i hd, if_pos hlt, ih (i + 1) hds hv, List.length_cons,
        Nat.add_assoc, Nat.add_comm 1]

theorem intLoop_decimal (hn : n < 2 ^ 31) :
    intLoop (decimal n ++ rest) 0 0 = intLoop rest (decimal n).length n := by
  have hvalue : Decimal.value (Decimal.digits n) 0 < 2 ^ 31 := by
    rw [Decimal.value_digits]
    exact hn
  have h := @intLoop_digits rest _ 0 0 (fun _ hd => Decimal.lt_of_mem_digits hd) hvalue
  rw [Decimal.value_digits, Nat.zero_add] at h
  rw [decimal, List.length_map]
  exact h

theorem decimal_pos : 0 < (decimal n).length := by
  rw [decimal, List.length_map]
  exact List.length_pos_of_ne_nil Decimal.digits_ne_nil

theorem getIntUntilCRLF_decimal (hn : n < 2 ^ 31) (val : Int) :
    getIntUntilCRLF ptr (decimal n ++ crlf ++ rest) val =
      .ok (.ok, ptr + (decimal n ++ crlf).length, (n : Int)) := by
  have hlen : ¬(decimal n ++ crlf ++ rest).length < 3 := by
    have hpos : 0 < (decimal n).length := decimal_pos
    simp only [List.length_append, crlf, List.length_cons, List.length_nil]
    omega
  rw [getIntUntilCRLF, if_neg hlen, List.append_assoc, intLoop_decimal hn, List.length_append,
    ← Nat.add_assoc]
  rfl

/-- The end of a number is searched for among the bytes there are, and skipped even if it is missing. -/
theorem intLoop_le {i i' : Nat} {value value' : Int} {ret : ParseResult}
    (h : intLoop bytes i value = .ok (ret, i', value')) : i' ≤ i + bytes.length := by
  induction bytes generalizing i value with
  | nil =>
      cases h
      exact le_rfl
  | cons c bytes ih =>
      rw [List.length_cons]
      unfold intLoop at h
      split_ifs at h
      · obtain ⟨v, _, h⟩ := exists_of_bind h
        obtain ⟨v, _, h⟩ := exists_of_bind h
        have hle := ih h
        omega
      all_goals
        cases h
        omega

theorem getIntUntilCRLF_le {ptr' : Nat} {val val' : Int} {ret : ParseResult}
    (h : getIntUntilCRLF ptr bytes val = .ok (ret, ptr', val')) : ptr' ≤ ptr + bytes.length + 2 := by
  unfold getIntUntilCRLF at h
  split_ifs at h
  · cases h
    omega
  · obtain ⟨⟨ret, i, value⟩, hloop, h⟩ := exists_of_bind h
    have hle := intLoop_le hloop
    dsimp only at h
    split_ifs at h <;> cases h <;> omega

/-- What there is from `ptr` to the end. -/
def At (s : Bytes) (ptr : Nat) (bytes : Bytes) : Prop := ∃ front, s = front ++ bytes ∧ front.length = ptr

theorem At.start : At s 0 s := ⟨[], rfl, rfl⟩

theorem At.length (h : At s ptr bytes) : (s.length : Int) - ptr = bytes.length := by
  obtain ⟨front, rfl, rfl⟩ := h
  rw [List.length_append]
  omega

theorem At.drop (h : At s ptr bytes) : s.drop ptr = bytes := by
  obtain ⟨front, rfl, rfl⟩ := h
  exact List.drop_left

theorem At.getElem? (h : At s ptr bytes) (i : Nat) : s[ptr + i]? = bytes[i]? := by
  rw [← h.drop, List.getElem?_drop]

theorem At.head? (h : At s ptr bytes) : s[ptr]? = bytes.head? := by
  rw [List.head?_eq_getElem?]
  exact h.getElem? 0

theorem At.skip (h : At s ptr (bytes ++ rest)) : At s (ptr + bytes.length) rest := by
  obtain ⟨front, rfl, rfl⟩ := h
  exact ⟨front ++ bytes, (List.append_assoc _ _ _).symm, List.length_append⟩

theorem At.tail {c : UInt8} (h : At s ptr (c :: rest)) : At s (ptr + 1) rest := by
  have hskip : At s ptr ([c] ++ rest) := h
  exact hskip.skip

theorem At.byteAt {c : UInt8} (h : At s ptr (bytes ++ c :: rest)) {i : Nat} (hi : i = ptr + bytes.length) :
    byteAt s i = .ok c := by
  rw [hi, Eraft.byteAt, h.skip.head?]
  rfl

namespace ProtoParser

variable {p : ProtoParser} {str result : Bytes}

theorem parseMulti_multiBulk (h : At s ptr (multiBulk n ++ rest)) (hn : n < 2 ^ 31) (val : Int) :
    parseMulti s ptr val = .ok (.ok, ptr + (multiBulk n).length, (n : Int)) := by
  have hlen : ¬(s.length : Int) - ptr < 3 := by
    rw [h.length, List.length_append, multiBulk, List.length_cons, List.length_append, crlf,
      List.length_cons, List.length_singleton]
    omega
  have hmark : s[ptr]? = some 42 := h.head?
  rw [parseMulti, if_neg hlen, if_neg (not_not_intro hmark)]
  have htail : At s (ptr + 1) (decimal n ++ crlf ++ rest) := h.tail
  rw [htail.drop, getIntUntilCRLF_decimal hn, multiBulk, List.length_cons, Nat.add_assoc, Nat.add_comm 1]

theorem parseStrlen_decimal (h : At s ptr (36 :: (decimal n ++ crlf ++ rest))) (hn : n < 2 ^ 31)
    (val : Int) : parseStrlen s ptr val = .ok (.ok, ptr + 1 + (decimal n ++ crlf).length, (n : Int)) := by
  have hlen : ¬(s.length : Int) - ptr < 3 := by
    rw [h.length, List.length_cons, List.length_append, List.length_append, crlf, List.length_cons,
      List.length_singleton]
    omega
  have hmark : s[ptr]? = some 36 := h.head?
  rw [parseStrlen, if_neg hlen, if_neg (not_not_intro hmark)]
  rw [h.tail.drop, getIntUntilCRLF_decimal hn]
  rfl

/-- A value is taken if there are enough bytes, as an `int` counts them. -/
theorem parseStrval_value (h : At s ptr (str ++ crlf ++ rest)) (hstr : p.paramLen = str.length)
    (hsmall : str.length + 2 < 2 ^ 31) : p.parseStrval s ptr result =
      if toInt (str.length + 2 + rest.length : Nat) < (str.length + 2 : Nat) then .ok (.wait, ptr, p, result)
      else .ok (.ok, ptr + (str ++ crlf).length, { p with paramLen := -1 }, str) := by
  have hcr : byteAt s (ptr + str.length) = .ok 13 := by
    have h' : At s ptr (str ++ 13 :: 10 :: rest) := by
      rw [List.append_assoc] at h
      exact h
    exact h'.byteAt rfl
  have hlf : byteAt s (ptr + str.length + 1) = .ok 10 := by
    have h' : At s ptr (str ++ [13] ++ 10 :: rest) := by
      rw [List.append_assoc] at h ⊢
      exact h
    exact h'.byteAt (by rw [List.length_append, List.length_singleton, Nat.add_assoc])
  have hneed : checkInt (p.paramLen + 2) = .ok ((str.length + 2 : Nat) : Int) := by
    rw [show p.paramLen + 2 = (str.length + 2 : Nat) by omega]
    exact checkInt_of_lt hsmall
  have havail : (s.length : Int) - ptr = (str.length + 2 + rest.length : Nat) := by
    rw [h.length, List.length_append, List.length_append]
    rfl
  have htake : (s.drop ptr).take str.length = str := by
    rw [h.drop, List.append_assoc, List.take_left]
  unfold parseStrval
  rw [require_of (by omega), hneed, havail, ok_bind, ok_bind]
  split_ifs with hwait
  · rfl
  · rw [show p.paramLen.toNat = str.length by omega]
    dsimp only
    rw [hcr, htake, ok_bind, if_neg (not_not_intro rfl), hlf, ok_bind, if_neg (not_not_intro rfl),
      List.length_append, ← Nat.add_assoc]
    rfl

theorem parseStr_of_ok {next : Nat} (hlen : p.paramLen = -1)
    (h : parseStrlen s ptr (-1) = .ok (.ok, next, (n : Int))) :
    p.parseStr s ptr result = { p with paramLen := n }.parseStrval s next result := by
  have hread : ¬(ParseResult.ok = .error ∨ (n : Int) < -1) := by
    simp only [reduceCtorEq, false_or]
    omega
  rw [parseStr, if_pos hlen, hlen, h, ok_bind]
  dsimp only
  rw [if_neg hread, if_neg (not_not_intro rfl), if_neg (by omega)]

/-- A string is taken if there are enough bytes for its value. -/
theorem parseStr_bulk (h : At s ptr (bulk str ++ rest)) (hlen : p.paramLen = -1)
    (hsmall : str.length + 2 < 2 ^ 31) : p.parseStr s ptr result =
      if toInt (str.length + 2 + rest.length : Nat) < (str.length + 2 : Nat) then
        .ok (.wait, ptr + 1 + (decimal str.length ++ crlf).length, { p with paramLen := str.length }, result)
      else .ok (.ok, ptr + (bulk str).length, p, str) := by
  have hhead : At s ptr (36 :: (decimal str.length ++ crlf ++ (str ++ crlf ++ rest))) := by
    rw [← List.append_assoc _ _ rest]
    exact h
  have hvalue : At s (ptr + 1 + (decimal str.length ++ crlf).length) (str ++ crlf ++ rest) :=
    hhead.tail.skip
  have hval := @parseStrval_value _ _ _ { p with paramLen := str.length } _ result hvalue rfl hsmall
  have hsize : ptr + 1 + (decimal str.length ++ crlf).length + (str ++ crlf).length =
      ptr + (bulk str).length := by
    rw [bulk, List.length_cons, @List.length_append _ (_ ++ _) (_ ++ _)]
    omega
  have hback : { p with paramLen := -1 } = p := by rw [← hlen]
  rw [hsize, hback] at hval
  exact (parseStr_of_ok hlen (parseStrlen_decimal hhead (by omega) _)).trans hval

/-! ### How far the parser goes -/

theorem parseMulti_le {ptr' : Nat} {val val' : Int} {ret : ParseResult} (hptr : ptr ≤ s.length + 2)
    (h : parseMulti s ptr val = .ok (ret, ptr', val')) : ptr' ≤ s.length + 2 := by
  unfold parseMulti at h
  split_ifs at h
  · cases h
    exact hptr
  · cases h
    exact hptr
  · have hle := getIntUntilCRLF_le h
    rw [List.length_drop] at hle
    omega

theorem parseStrlen_le {ptr' : Nat} {val val' : Int} {ret : ParseResult} (hptr : ptr ≤ s.length + 2)
    (h : parseStrlen s ptr val = .ok (ret, ptr', val')) : ptr' ≤ s.length + 2 := by
  unfold parseStrlen at h
  split_ifs at h
  · cases h
    exact hptr
  · cases h
    exact hptr
  · obtain ⟨⟨ret, next, result⟩, hint, h⟩ := exists_of_bind h
    have hle := getIntUntilCRLF_le hint
    rw [List.length_drop] at hle
    cases h
    split_ifs <;> omega

variable {p' : ProtoParser} {result' : Bytes} {ret : ParseResult} {ptr' : Nat}

/-- A value that is taken ends before the end. -/
theorem parseStrval_le (hptr : ptr ≤ s.length + 2)
    (h : p.parseStrval s ptr result = .ok (ret, ptr', p', result')) : ptr' ≤ s.length + 2 := by
  unfold parseStrval at h
  obtain ⟨_, _, h⟩ := exists_of_bind h
  obtain ⟨need, _, h⟩ := exists_of_bind h
  split_ifs at h
  · cases h
    exact hptr
  · obtain ⟨c, _, h⟩ := exists_of_bind h
    split_ifs at h
    · cases h
      exact hptr
    · obtain ⟨c', hc', h⟩ := exists_of_bind h
      split_ifs at h
      · cases h
        exact hptr
      · cases h
        have hlt := byteAt_lt hc'
        omega

theorem parseStr_le (hptr : ptr ≤ s.length + 2)
    (h : p.parseStr s ptr result = .ok (ret, ptr', p', result')) : ptr' ≤ s.length + 2 := by
  unfold parseStr at h
  split_ifs at h
  · obtain ⟨⟨ret, next, paramLen⟩, hstrlen, h⟩ := exists_of_bind h
    have hnext := parseStrlen_le hptr hstrlen
    dsimp only at h
    split_ifs at h
    · cases h
      exact hnext
    · cases h
      exact hnext
    · cases h
      exact hnext
    · exact parseStrval_le hnext h
  · exact parseStrval_le hptr h

theorem strlistLoop_le {rounds : Nat} (hptr : ptr ≤ s.length + 2)
    (h : strlistLoop s rounds p ptr = .ok (ret, ptr', p')) : ptr' ≤ s.length + 2 := by
  induction rounds generalizing p ptr with
  | zero =>
      cases h
      exact hptr
  | succ rounds ih =>
      unfold strlistLoop at h
      by_cases hmore : toInt p.numOfParam < p.multi
      · rw [if_pos hmore] at h
        obtain ⟨⟨ret, next, p₁, str⟩, hstr, h⟩ := exists_of_bind h
        have hnext := parseStr_le hptr hstr
        dsimp only at h
        split_ifs at h
        · exact ih hnext h
        · cases h
          exact hnext
      · rw [if_neg hmore] at h
        cases h
        exact hptr

/-- **The parser never goes more than two bytes past the end.** -/
theorem parseRequest_le (hptr : ptr ≤ s.length + 2)
    (h : p.parseRequest s ptr = .ok (ret, ptr', p')) : ptr' ≤ s.length + 2 := by
  unfold parseRequest at h
  split_ifs at h
  · obtain ⟨⟨ret, next, multi⟩, hmulti, h⟩ := exists_of_bind h
    have hnext := parseMulti_le hptr hmulti
    dsimp only at h
    split_ifs at h
    · cases h
      exact hnext
    · cases h
      exact hnext
    · exact strlistLoop_le hnext h
  · exact strlistLoop_le hptr h

/-! ### The whole request -/

/-- Where the value of each string starts, there are at least as many bytes up to the end as it needs,
if their number is cut to an `int`. The last argument is the number of bytes after the request. -/
def Seen : List Bytes → Nat → Prop
  | [], _ => True
  | str :: strs, after => ((str.length + 2 : Nat) : Int) ≤
      toInt (str.length + 2 + ((strs.flatMap bulk).length + after) : Nat) ∧ Seen strs after

/-- Parsing a list of `multi` strings, of which some have been read; the list of parameters may go on with
older ones. -/
def reading (multi : Nat) (params kept : List Bytes) : ProtoParser :=
  { multi := multi, numOfParam := params.length, params := params ++ kept }

theorem resize_append (params kept : List Bytes) : resize (params ++ kept) params.length = params := by
  rw [resize, List.take_left, List.length_append, Nat.sub_eq_zero_of_le (Nat.le_add_right _ _)]
  exact List.append_nil params

/-- The same, with what is known of the length of the next string: -1 is nothing. -/
def midway (multi : Nat) (params kept : List Bytes) (len : Int) : ProtoParser :=
  { reading multi params kept with paramLen := len }

/-- A slot for the next parameter, which is an old one if there is one. -/
theorem slot_eq (params kept : List Bytes) :
    (if (params ++ kept).length < params.length + 1 then resize (params ++ kept) (params.length + 1)
      else params ++ kept) = params ++ kept.headD [] :: kept.tail := by
  cases kept with
  | nil =>
      rw [List.append_nil, if_pos (Nat.lt_succ_self _), resize, List.take_of_length_le (Nat.le_succ _),
        Nat.add_sub_cancel_left]
      rfl
  | cons old kept =>
      refine if_neg ?_
      rw [List.length_append, List.length_cons]
      omega

theorem lt_length_bulk (str : Bytes) : str.length + 2 < (bulk str).length := by
  rw [bulk, List.length_cons, List.length_append, @List.length_append _ str crlf, crlf, List.length_cons,
    List.length_singleton]
  omega

theorem length_le_bulks (strs : List Bytes) : strs.length ≤ (strs.flatMap bulk).length := by
  induction strs with
  | nil => exact le_rfl
  | cons str strs ih =>
      have hstr := lt_length_bulk str
      rw [List.flatMap_cons, List.length_append, List.length_cons]
      omega

section Round

variable {rounds multi : Nat} {params kept : List Bytes} {len : Int}

theorem strlistLoop_round (hlt : params.length < multi) (hmulti : multi < 2 ^ 31) :
    strlistLoop s (rounds + 1) (midway multi params kept len) ptr = (do
      let (ret, ptr, p, str) ←
        (midway multi params (kept.headD [] :: kept.tail) len).parseStr s ptr (kept.headD [])
      let p := { p with params := p.params.set p.numOfParam str }
      if ret = .ok then strlistLoop s rounds { p with numOfParam := p.numOfParam + 1 } ptr
      else return (ret, ptr, p)) := by
  have hmore : toInt params.length < (multi : Int) := by
    rw [toInt_of_lt (by omega)]
    omega
  have hget : (params ++ kept.headD [] :: kept.tail).getD params.length [] = kept.headD [] := by
    rw [List.getD_eq_getElem?_getD, List.getElem?_append_right le_rfl, Nat.sub_self]
    rfl
  rw [strlistLoop, midway, reading, if_pos hmore]
  dsimp only
  rw [slot_eq, hget]
  rfl

/-- A round that has to wait gives the slot back as it was. -/
theorem strlistLoop_wait {len' : Int} (hlt : params.length < multi) (hmulti : multi < 2 ^ 31)
    (h : (midway multi params (kept.headD [] :: kept.tail) len).parseStr s ptr (kept.headD []) =
      .ok (.wait, ptr', midway multi params (kept.headD [] :: kept.tail) len', kept.headD [])) :
    strlistLoop s (rounds + 1) (midway multi params kept len) ptr =
      .ok (.wait, ptr', midway multi params (kept.headD [] :: kept.tail) len') := by
  rw [strlistLoop_round hlt hmulti, h, ok_bind]
  dsimp only [midway, reading]
  rw [if_neg (by decide), List.set_append_right _ _ le_rfl, Nat.sub_self, List.set_cons_zero]
  rfl

theorem strlistLoop_ok (hlt : params.length < multi) (hmulti : multi < 2 ^ 31)
    (h : (midway multi params (kept.headD [] :: kept.tail) len).parseStr s ptr (kept.headD []) =
      .ok (.ok, ptr', reading multi params (kept.headD [] :: kept.tail), str)) :
    strlistLoop s (rounds + 1) (midway multi params kept len) ptr =
      strlistLoop s rounds (reading multi (params ++ [str]) kept.tail) ptr' := by
  rw [strlistLoop_round hlt hmulti, h, ok_bind]
  dsimp only [reading]
  rw [if_pos rfl, List.set_append_right _ _ le_rfl, Nat.sub_self, List.set_cons_zero, List.length_append,
    List.length_singleton, List.append_assoc]
  rfl

/-- The next string of a list. -/
theorem strlistLoop_succ (h : At s ptr (bulk str ++ rest)) (hsmall : str.length + 2 < 2 ^ 31)
    (hlt : params.length < multi) (hmulti : multi < 2 ^ 31) :
    (toInt (str.length + 2 + rest.length : Nat) < (str.length + 2 : Nat) ∧
      ∃ ptr' p', strlistLoop s (rounds + 1) (reading multi params kept) ptr = .ok (.wait, ptr', p')) ∨
    ((str.length + 2 : Nat) ≤ toInt (str.length + 2 + rest.length : Nat) ∧
      strlistLoop s (rounds + 1) (reading multi params kept) ptr =
        strlistLoop s rounds (reading multi (params ++ [str]) kept.tail) (ptr + (bulk str).length)) := by
  have hstep := @parseStr_bulk _ _ _ (reading multi params (kept.headD [] :: kept.tail)) str
    (kept.headD []) h rfl hsmall
  split_ifs at hstep with hwait
  · exact .inl ⟨hwait, _, _, strlistLoop_wait hlt hmulti hstep⟩
  · exact .inr ⟨Int.not_lt.mp hwait, strlistLoop_ok hlt hmulti hstep⟩

end Round

theorem Seen.of_lt {strs : List Bytes} {after : Nat}
    (h : (strs.flatMap bulk).length + after < 2 ^ 31) : Seen strs after := by
  induction strs with
  | nil => trivial
  | cons str strs ih =>
      have hstr := lt_length_bulk str
      rw [List.flatMap_cons, List.length_append] at h
      refine ⟨?_, ih (by omega)⟩
      rw [toInt_of_lt (by omega)]
      omega

/-- The strings of a list, if there are enough bytes for each. -/
theorem strlistLoop_bulks {multi : Nat} {strs params kept : List Bytes}
    (h : At s ptr (strs.flatMap bulk ++ rest)) (hmulti : params.length + strs.length = multi)
    (hcount : multi < 2 ^ 31) (hsmall : (strs.flatMap bulk).length < 2 ^ 31) :
    (Seen strs rest.length ∧ strlistLoop s strs.length (reading multi params kept) ptr =
      .ok (.ok, ptr + (strs.flatMap bulk).length, reading multi (params ++ strs) [])) ∨
    (¬Seen strs rest.length ∧
      ∃ ptr' p', strlistLoop s strs.length (reading multi params kept) ptr = .ok (.wait, ptr', p')) := by
  induction strs generalizing params kept ptr with
  | nil =>
      refine .inl ⟨trivial, ?_⟩
      rw [List.length_nil, strlistLoop, reading, resize_append, reading, List.append_nil, List.append_nil]
      rfl
  | cons str strs ih =>
      rw [List.flatMap_cons] at h hsmall ⊢
      rw [List.append_assoc] at h
      rw [List.length_append] at hsmall ⊢
      rw [List.length_cons] at hmulti ⊢
      have hstr := lt_length_bulk str
      have hafter : (strs.flatMap bulk ++ rest).length = (strs.flatMap bulk).length + rest.length :=
        List.length_append
      rcases @strlistLoop_succ _ _ _ str strs.length multi params kept h (by omega) (by omega) hcount with
        ⟨hwait, hres⟩ | ⟨hgo, hres⟩
      · rw [hafter] at hwait
        exact .inr ⟨fun hseen => absurd hseen.1 (Int.not_le.mpr hwait), hres⟩
      · rw [hafter] at hgo
        have hnext : (params ++ [str]).length + strs.length = multi := by
          rw [List.length_append, List.length_singleton]
          omega
        rw [hres]
        rcases @ih _ (params ++ [str]) kept.tail h.skip hnext (by omega) with ⟨hseen, hres'⟩ | ⟨hseen, hres'⟩
        · refine .inl ⟨⟨hgo, hseen⟩, ?_⟩
          rw [hres', List.append_assoc, Nat.add_assoc]
          rfl
        · exact .inr ⟨fun hall => hseen hall.2, hres'⟩

/-- There are enough bytes if an `int` can count them. -/
theorem strlistLoop_bulks_of_lt {multi : Nat} {strs params kept : List Bytes}
    (h : At s ptr (strs.flatMap bulk)) (hmulti : params.length + strs.length = multi) (hcount : multi < 2 ^ 31)
    (hsmall : (strs.flatMap bulk).length < 2 ^ 31) :
    strlistLoop s strs.length (reading multi params kept) ptr =
      .ok (.ok, ptr + (strs.flatMap bulk).length, reading multi (params ++ strs) []) := by
  rw [← List.append_nil (strs.flatMap bulk)] at h
  rcases @strlistLoop_bulks _ _ _ multi strs params kept h hmulti hcount hsmall with ⟨_, hres⟩ | ⟨hseen, _⟩
  · exact hres
  · exact absurd (Seen.of_lt hsmall) hseen

theorem parseRequest_of_ok {next : Nat} (hn : n < 2 ^ 31)
    (h : parseMulti s ptr (-1) = .ok (.ok, next, (n : Int))) :
    p.reset.parseRequest s ptr = strlistLoop s n (reading n [] (p.params.take 3)) next := by
  have hread : ¬(ParseResult.ok = .error ∨ (n : Int) < -1) := by
    simp only [reduceCtorEq, false_or]
    omega
  have hrounds : ((n : Int) - toInt (0 : Nat)).toNat = n := by
    rw [toInt_of_lt (by decide)]
    omega
  rw [parseRequest, reset, if_pos rfl, h, ok_bind]
  dsimp only
  rw [if_neg hread, if_neg (not_not_intro rfl), parseStrlist, hrounds]
  rfl

theorem parseRequest_of_ne_ok {next : Nat} (hret : ret ≠ .ok)
    (h : parseMulti s ptr (-1) = .ok (ret, next, -1)) :
    p.reset.parseRequest s ptr = .ok (ret, next, p.reset) := by
  rw [parseRequest, reset, if_pos rfl, h, ok_bind]
  cases ret with
  | ok => exact absurd rfl hret
  | wait => rfl
  | error => rfl

theorem parseRequest_header (h : At s ptr (multiBulk n ++ rest)) (hn : n < 2 ^ 31) :
    p.reset.parseRequest s ptr =
      strlistLoop s n (reading n [] (p.params.take 3)) (ptr + (multiBulk n).length) :=
  parseRequest_of_ok hn (parseMulti_multiBulk h hn _)

/-- A request is read if there are enough bytes for each value; else the parser waits. -/
theorem parseRequest_request (strs : List Bytes) (rest : Bytes) (hlen : (request strs).length < 2 ^ 31) :
    (Seen strs rest.length ∧ p.reset.parseRequest (request strs ++ rest) 0 =
      .ok (.ok, (request strs).length, reading strs.length strs [])) ∨
    (¬Seen strs rest.length ∧
      ∃ ptr' p', p.reset.parseRequest (request strs ++ rest) 0 = .ok (.wait, ptr', p')) := by
  have hat : At (request strs ++ rest) 0 (multiBulk strs.length ++ (strs.flatMap bulk ++ rest)) :=
    ⟨[], List.append_assoc _ _ _, rfl⟩
  have hsize : (request strs).length = (multiBulk strs.length).length + (strs.flatMap bulk).length :=
    List.length_append
  have hcount := length_le_bulks strs
  rw [parseRequest_header hat (by omega), Nat.zero_add, hsize]
  have hbulks := hat.skip
  rw [Nat.zero_add] at hbulks
  exact strlistLoop_bulks hbulks (Nat.zero_add _) (by omega) (by omega)

/-- A request is read, whatever follows. -/
theorem parseRequest_of_lt {p : ProtoParser} {strs : List Bytes} {rest : Bytes}
    (h : (request strs ++ rest).length < 2 ^ 31) : p.reset.parseRequest (request strs ++ rest) 0 =
      .ok (.ok, (request strs).length, reading strs.length strs []) := by
  rw [List.length_append] at h
  have hsize : (request strs).length = (multiBulk strs.length).length + (strs.flatMap bulk).length :=
    List.length_append
  rcases @parseRequest_request p strs rest (by omega) with ⟨_, hres⟩ | ⟨hseen, _⟩
  · exact hres
  · exact absurd (Seen.of_lt (by omega)) hseen

/-- **Decoding undoes encoding** exactly if no value is followed by so many bytes that their number, cut
to an `int`, is too small for it. -/
theorem parseRequest_encode_iff (p : ProtoParser) (strs : List Bytes) (rest : Bytes)
    (hlen : (request strs).length < 2 ^ 31) : ∃ reply, encode strs = .ok reply ∧
      ((∃ p', p.reset.parseRequest (reply.content ++ rest) 0 = .ok (.ok, reply.content.length, p') ∧
        p'.params = strs) ↔ Seen strs rest.length) := by
  obtain ⟨reply, hreply, hcontent⟩ := @encode_spec strs (by omega)
  refine ⟨reply, hreply, ?_⟩
  rw [hcontent]
  rcases @parseRequest_request p strs rest hlen with ⟨hseen, hres⟩ | ⟨hseen, ptr', p', hres⟩
  · refine ⟨fun _ => hseen, fun _ => ⟨_, hres, ?_⟩⟩
    exact List.append_nil strs
  · refine ⟨?_, fun h => absurd h hseen⟩
    rintro ⟨p'', hok, _⟩
    cases hres.symm.trans hok

/-- A string that is a line end, an empty one, and a part of the next request behind them. -/
theorem parseRequest_encode_crlf : (request [[13, 10], []]).length < 2 ^ 31 ∧
    ∃ reply, encode [[13, 10], []] = .ok reply ∧ ∃ p',
      ProtoParser.parseRequest (ProtoParser.reset { params := [[1], [2], [3], [4]] })
        (reply.content ++ [42, 49]) 0 = .ok (.ok, reply.content.length, p') ∧ p'.params = [[13, 10], []] := by
  have hlen : (request [[13, 10], []]).length < 2 ^ 31 := by decide +kernel
  have hseen : Seen [[13, 10], []] [(42 : UInt8), 49].length :=
    ⟨by decide +kernel, by decide +kernel, trivial⟩
  obtain ⟨reply, hreply, hiff⟩ :=
    parseRequest_encode_iff { params := [[1], [2], [3], [4]] } [[13, 10], []] [42, 49] hlen
  exact ⟨hlen, reply, hreply, hiff.mpr hseen⟩

/-- An empty string that 2 GiB follow: `2 ^ 31` bytes are a negative number of bytes, and the parser waits
for more. -/
theorem not_parseRequest_encode : ∃ (strs : List Bytes) (rest : Bytes), (request strs).length < 2 ^ 31 ∧
    ∃ reply, encode strs = .ok reply ∧ ¬∃ p',
      ProtoParser.parseRequest (ProtoParser.reset {}) (reply.content ++ rest) 0 =
        .ok (.ok, reply.content.length, p') ∧ p'.params = strs := by
  have hlen : (request [[]]).length < 2 ^ 31 := by decide +kernel
  obtain ⟨reply, hreply, hcontent⟩ := @encode_spec [[]] (by omega)
  refine ⟨[[]], List.replicate (2 ^ 31 - 2) 0, hlen, reply, hreply, ?_⟩
  rintro ⟨p', hok, _⟩
  rw [hcontent] at hok
  rcases @parseRequest_request {} [[]] (List.replicate (2 ^ 31 - 2) 0) hlen with
    ⟨hseen, _⟩ | ⟨_, ptr', p'', hwait⟩
  · rw [List.length_replicate] at hseen
    exact absurd hseen.1 (by decide +kernel)
  · cases hwait.symm.trans hok

end ProtoParser

end Eraft
