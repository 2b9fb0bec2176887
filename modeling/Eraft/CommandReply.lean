import Eraft.BaseCode
import Eraft.ProtoParser

/-! The replies of the server: the error texts and the other formatters of `network/src/common.cc`. A
client can see where each reply ends. -/

namespace Eraft

open Code

/-- A string literal of the source. -/
def ascii (text : String) : Bytes := text.toList.map fun c => UInt8.ofNat c.toNat

/-- `Error`. -/
inductive Error where
  | nop
  | ok
  | type
  | exist
  | notExists
  | param
  | unknowCmd
  | nan
  | syntaxError
  deriving DecidableEq, Repr

/-- `g_errorInfo`. There is nothing in front of it for `Error_nop`. -/
def errorInfo : Error → Option Bytes
  | .nop => none
  | .ok => some (ascii "+OK\r\n")
  | .type => some (ascii "-ERR Operation against a key holding the wrong kind of value" ++ crlf)
  | .exist => some (ascii "-ERR already exist")
  | .notExists => some (ascii "-ERR no such key" ++ crlf)
  | .param => some (ascii "-ERR wrong number of arguments" ++ crlf)
  | .unknowCmd => some (ascii "-ERR Unknown command" ++ crlf)
  | .nan => some (ascii "-ERR value is not an integer or out of range" ++ crlf)
  | .syntaxError => some (ascii "-ERR syntax error" ++ crlf)

def replyError (err : Error) (reply : UnboundedBuffer) : Except Fault UnboundedBuffer :=
  match errorInfo err with
  | some errorStr => (reply.pushData errorStr).map Prod.snd
  | none => .error .outOfBounds

/-- A formatter that writes a fixed text. -/
def formatText (text : Bytes) (reply : UnboundedBuffer) : Except Fault (Nat × UnboundedBuffer) := do
  let oldSize := reply.readableSize
  let (_, reply) ← reply.pushData text
  return (u64Sub reply.readableSize oldSize, reply)

def formatOK : UnboundedBuffer → Except Fault (Nat × UnboundedBuffer) := formatText (ascii "+OK\r\n")

def formatNull : UnboundedBuffer → Except Fault (Nat × UnboundedBuffer) := formatText (ascii "$-1\r\n")

/-- The number as `%ld` prints it. -/
def signedDecimal (value : Int) : Bytes :=
  if value < 0 then 45 :: decimal value.natAbs else decimal value.natAbs

def formatInt (value : Int) (reply : UnboundedBuffer) : Except Fault (Nat × UnboundedBuffer) := do
  let oldSize := reply.readableSize
  let (_, reply) ← reply.pushData [58]
  let (_, reply) ← reply.pushData (signedDecimal value ++ crlf)
  return (u64Sub reply.readableSize oldSize, reply)

variable {reply : UnboundedBuffer} {written : Bytes} {err : Error}

theorem Holds.clear (h : Holds reply written) : Holds reply.clear [] :=
  ⟨h.valid.clear.1, h.grown, h.valid.clear.2⟩

theorem Holds.replyError {errorStr : Bytes} (h : Holds reply written) (herr : errorInfo err = some errorStr)
    (hlen : (written ++ errorStr).length ≤ 2 ^ 62) :
    ∃ reply', Eraft.replyError err reply = .ok reply' ∧ Holds reply' (written ++ errorStr) := by
  obtain ⟨reply', hpush, h'⟩ := h.pushData hlen
  refine ⟨reply', ?_, h'⟩
  rw [Eraft.replyError, herr]
  dsimp only
  rw [hpush]
  rfl

theorem Holds.formatText {text : Bytes} (h : Holds reply written) (hlen : (written ++ text).length ≤ 2 ^ 62) :
    ∃ reply', Eraft.formatText text reply = .ok (text.length, reply') ∧ Holds reply' (written ++ text) := by
  obtain ⟨reply', hpush, h'⟩ := h.pushData hlen
  refine ⟨reply', ?_, h'⟩
  rw [← h.added h', Eraft.formatText, hpush]
  rfl

theorem Holds.formatInt {value : Int} (h : Holds reply written)
    (hlen : (written ++ (58 :: (signedDecimal value ++ crlf))).length ≤ 2 ^ 62) : ∃ reply',
      Eraft.formatInt value reply = .ok ((58 :: (signedDecimal value ++ crlf)).length, reply') ∧
      Holds reply' (written ++ (58 :: (signedDecimal value ++ crlf))) := by
  rw [List.append_cons] at hlen
  obtain ⟨r₁, hr₁, h₁⟩ := h.pushData (length_le_of_append hlen)
  obtain ⟨r₂, hr₂, h₂⟩ := h₁.pushData hlen
  rw [← List.append_cons] at h₂
  refine ⟨r₂, ?_, h₂⟩
  rw [← h.added h₂, Eraft.formatInt, hr₁, ok_bind]
  dsimp only
  rw [hr₂]
  rfl

/-- The loop over the strings of a list. -/
theorem Holds.formatBulks {strs : List Bytes} (h : Holds reply written)
    (hlen : (written ++ strs.flatMap bulk).length ≤ 2 ^ 62) : ∃ reply',
      strs.foldlM (fun reply str => (Eraft.formatBulk str reply).map Prod.snd) reply = .ok reply' ∧
      Holds reply' (written ++ strs.flatMap bulk) := by
  induction strs generalizing reply written with
  | nil => exact ⟨reply, rfl, (List.append_nil written).symm ▸ h⟩
  | cons str strs ih =>
      rw [List.flatMap_cons, ← List.append_assoc] at hlen ⊢
      obtain ⟨r₁, hr₁, h₁⟩ := h.formatBulk (length_le_of_append hlen)
      obtain ⟨r₂, hr₂, h₂⟩ := ih h₁ hlen
      refine ⟨r₂, ?_, h₂⟩
      rw [List.foldlM_cons, hr₁]
      exact hr₂

/-- A reply. A string may be the null string. -/
inductive Reply where
  | ok
  | error (err : Error)
  | int (value : Int)
  | bulk (str : Option Bytes)
  | page (cursor : Nat) (strs : List Bytes)
  deriving DecidableEq

namespace Reply

/-- The bytes of a reply. -/
def bytes : Reply → Bytes
  | ok => ascii "+OK\r\n"
  | error err => (errorInfo err).getD []
  | int value => 58 :: (signedDecimal value ++ crlf)
  | bulk none => ascii "$-1\r\n"
  | bulk (some str) => Eraft.bulk str
  | page cursor strs => multiBulk 2 ++ (Eraft.bulk (decimal cursor) ++ request strs)

/-- What the command returns with the reply. -/
def status : Reply → Error
  | error err => err
  | _ => .ok

/-- An error has a text that says so and ends a line. -/
def Proper : Reply → Prop
  | error err => err ∉ [Error.nop, .ok, .exist]
  | _ => True

/-- How a reply begins. -/
def mark : Reply → UInt8
  | ok => 43
  | error _ => 45
  | int _ => 58
  | bulk _ => 36
  | page _ _ => 42

variable {r r' : Reply}

/-- The text of an error is one line. -/
theorem error_line {err : Error} (h : (error err).Proper) :
    ∃ line, (error err).bytes = line ++ crlf ∧ line.head? = some 45 ∧ 13 ∉ line := by
  have hproper : err ∉ [Error.nop, .ok, .exist] := h
  cases err <;> first | exact ⟨_, rfl, by decide +kernel, by decide +kernel⟩ | exact absurd hproper (by decide)

theorem Proper.head?_bytes (h : r.Proper) : r.bytes.head? = some r.mark := by
  cases r with
  | ok => rfl
  | error err =>
      obtain ⟨line, hline, hmark, _⟩ := error_line h
      rw [hline, List.head?_append, hmark]
      rfl
  | int value => rfl
  | bulk str => cases str <;> rfl
  | page cursor strs => rfl

theorem Proper.bytes_ne_nil (h : r.Proper) : r.bytes ≠ [] := by
  intro hnil
  have hhead := h.head?_bytes
  rw [hnil] at hhead
  cases hhead

end Reply

theorem decimal_not_cr (n : Nat) : 13 ∉ decimal n := by
  intro h
  obtain ⟨d, hd, heq⟩ := List.mem_map.mp h
  have hnat := toNat_digitByte (Decimal.lt_of_mem_digits hd)
  rw [heq] at hnat
  have hcr : (13 : UInt8).toNat = 13 := rfl
  omega

theorem decimal_inj {m n : Nat} (h : decimal m = decimal n) : m = n := by
  have hread : ∀ k, (decimal k).map (fun c => c.toNat - 48) = Decimal.digits k := by
    intro k
    rw [decimal, List.map_map]
    refine (List.map_congr_left fun d hd => ?_).trans (List.map_id _)
    show (digitByte d).toNat - 48 = d
    rw [toNat_digitByte (Decimal.lt_of_mem_digits hd), Nat.add_sub_cancel_left]
  rw [← @Decimal.value_digits m, ← hread m, h, hread n, Decimal.value_digits]

theorem signedDecimal_not_cr (value : Int) : 13 ∉ signedDecimal value := by
  unfold signedDecimal
  split_ifs
  · exact List.not_mem_cons_of_ne_of_not_mem (by decide) (decimal_not_cr _)
  · exact decimal_not_cr _

theorem decimal_head?_ne (n : Nat) : (decimal n).head? ≠ some 45 := by
  intro h
  obtain ⟨d, hd, heq⟩ := List.mem_map.mp (List.mem_of_mem_head? h)
  have hnat := toNat_digitByte (Decimal.lt_of_mem_digits hd)
  rw [heq] at hnat
  have hminus : (45 : UInt8).toNat = 45 := rfl
  omega

theorem signedDecimal_inj {v w : Int} (h : signedDecimal v = signedDecimal w) : v = w := by
  unfold signedDecimal at h
  split_ifs at h with hv hw hw
  · have habs := decimal_inj (List.cons.inj h).2
    omega
  · exact absurd (by rw [← h]; rfl) (decimal_head?_ne w.natAbs)
  · exact absurd (by rw [h]; rfl) (decimal_head?_ne v.natAbs)
  · have habs := decimal_inj h
    omega

/-- A line ends with the first `CR`. -/
theorem line_inj {a b x y : Bytes} (ha : 13 ∉ a) (hb : 13 ∉ b) (h : a ++ crlf ++ x = b ++ crlf ++ y) :
    a = b ∧ x = y := by
  rw [List.append_assoc, List.append_assoc] at h
  obtain ⟨hab, hxy⟩ := append_sep_inj ha hb h
  exact ⟨hab, (List.cons.inj hxy).2⟩

theorem multiBulk_delimited : Delimited (fun _ => True) multiBulk := by
  intro m n _ _ x y h
  obtain ⟨hmn, hxy⟩ := line_inj (decimal_not_cr m) (decimal_not_cr n) (List.cons.inj h).2
  exact ⟨decimal_inj hmn, hxy⟩

theorem bulk_delimited : Delimited (fun _ => True) bulk := by
  intro s t _ _ x y h
  have hline : decimal s.length ++ crlf ++ (s ++ crlf ++ x) = decimal t.length ++ crlf ++ (t ++ crlf ++ y) := by
    rw [← List.append_assoc, ← List.append_assoc _ _ y]
    exact (List.cons.inj h).2
  obtain ⟨hlen, hrest⟩ := line_inj (decimal_not_cr _) (decimal_not_cr _) hline
  rw [List.append_assoc, List.append_assoc] at hrest
  obtain ⟨hst, hxy⟩ := List.append_inj hrest (decimal_inj hlen)
  exact ⟨hst, List.append_cancel_left hxy⟩

theorem request_delimited : Delimited (fun _ => True) request := by
  intro strs strs' _ _ x y h
  rw [request, request, List.append_assoc, List.append_assoc] at h
  obtain ⟨hlen, hrest⟩ := multiBulk_delimited _ _ trivial trivial _ _ h
  exact bulk_delimited.flatMap (fun _ _ => trivial) (fun _ _ => trivial) hlen hrest

namespace Reply

/-- The length of each text. -/
def errorLen : Error → Nat
  | .nop => 0
  | .ok => 5
  | .type => 62
  | .exist => 18
  | .notExists => 18
  | .param => 32
  | .unknowCmd => 22
  | .nan => 46
  | .syntaxError => 19

theorem length_error (err : Error) : (error err).bytes.length = errorLen err := by
  cases err <;> decide +kernel

/-- The texts differ in their lengths. -/
theorem error_inj {err err' : Error} (h : (error err).Proper) (h' : (error err').Proper)
    (heq : (error err).bytes = (error err').bytes) : err = err' := by
  have hall : ∀ err err', err ∉ [Error.nop, .ok, .exist] → err' ∉ [Error.nop, .ok, .exist] →
      errorLen err = errorLen err' → err = err' := by
    intro err err'
    cases err <;> cases err' <;> decide
  refine hall err err' h h' ?_
  rw [← length_error, ← length_error, heq]

/-- The null string looks like none of the others. -/
theorem null_ne_bulk (str x y : Bytes) : (bulk none).bytes ++ x ≠ (bulk (some str)).bytes ++ y := by
  intro heq
  have hsecond := congrArg List.head? (List.cons.inj heq).2
  change some 45 = (decimal str.length ++ crlf ++ (str ++ crlf) ++ y).head? at hsecond
  rw [List.append_assoc, List.append_assoc,
    List.head?_append_of_ne_nil _ (List.ne_nil_of_length_pos decimal_pos)] at hsecond
  exact decimal_head?_ne _ hsecond.symm

theorem string_delimited : Delimited (fun _ => True) fun str => (bulk str).bytes := by
  intro str str' _ _ x y heq
  cases str with
  | none =>
      cases str' with
      | none => exact ⟨rfl, List.append_cancel_left heq⟩
      | some t => exact absurd heq (null_ne_bulk t x y)
  | some s =>
      cases str' with
      | none => exact absurd heq.symm (null_ne_bulk s y x)
      | some t => exact (bulk_delimited s t trivial trivial x y heq).imp_left (congrArg some)

theorem page_delimited : Delimited (fun _ => True) fun r : Nat × List Bytes => (page r.1 r.2).bytes := by
  intro r r' _ _ x y heq
  obtain ⟨_, heq⟩ := multiBulk_delimited 2 2 trivial trivial _ _
    (((List.append_assoc _ _ _).symm.trans heq).trans (List.append_assoc _ _ _))
  rw [List.append_assoc, List.append_assoc] at heq
  obtain ⟨hcursor, heq⟩ := bulk_delimited _ _ trivial trivial _ _ heq
  obtain ⟨hstrs, hxy⟩ := request_delimited _ _ trivial trivial _ _ heq
  exact ⟨Prod.ext (decimal_inj hcursor) hstrs, hxy⟩

/-- **A client sees where a reply ends.** -/
theorem delimited : Delimited Proper bytes := by
  intro r r' h h' x y heq
  have hmark : r.mark = r'.mark := by
    have hhead := congrArg List.head? heq
    rw [List.head?_append, List.head?_append, h.head?_bytes, h'.head?_bytes] at hhead
    exact Option.some.inj hhead
  cases r with
  | ok =>
      cases r' with
      | ok => exact ⟨rfl, List.append_cancel_left heq⟩
      | _ => simp [mark] at hmark
  | error err =>
      cases r' with
      | error err' =>
          obtain ⟨line, hline, _, hcr⟩ := error_line h
          obtain ⟨line', hline', _, hcr'⟩ := error_line h'
          rw [hline, hline'] at heq
          obtain ⟨htext, hxy⟩ := line_inj hcr hcr' heq
          rw [htext, ← hline'] at hline
          exact ⟨congrArg error (error_inj h h' hline), hxy⟩
      | _ => simp [mark] at hmark
  | int value =>
      cases r' with
      | int value' =>
          obtain ⟨hvalue, hxy⟩ := line_inj (signedDecimal_not_cr value) (signedDecimal_not_cr value')
            (List.cons.inj heq).2
          exact ⟨congrArg int (signedDecimal_inj hvalue), hxy⟩
      | _ => simp [mark] at hmark
  | bulk str =>
      cases r' with
      | bulk str' => exact (string_delimited str str' trivial trivial x y heq).imp_left (congrArg bulk)
      | _ => simp [mark] at hmark
  | page cursor strs =>
      cases r' with
      | page cursor' strs' =>
          obtain ⟨hpage, hxy⟩ := page_delimited (cursor, strs) (cursor', strs') trivial trivial x y heq
          cases hpage
          exact ⟨rfl, hxy⟩
      | _ => simp [mark] at hmark

end Reply

end Eraft
