import Eraft.ProtoParser

/-! `QGlobRegex` (`network/src/regex.cc`, `network/include/network/regex.h`). What is left of the pattern
from `pOff_` on is a list; `tOff_` is a position in the text, which is followed by a NUL. A call is
recorded: the positions at which `text_` is read, and the values that `tOff_` takes. `_ProcessBracket`
reads the text without a comparison of `tOff_` with `tLen_`. -/

namespace Eraft

/-- What the matcher does with the text. -/
inductive Access where
  /-- `text_[i]`. -/
  | read (i : Nat)
  /-- `tOff_` becomes `i`. -/
  | move (i : Nat)
  deriving DecidableEq, Repr

/-- What a call returns, after what it has done. -/
abbrev GlobResult := Except Fault (Bool × List Access)

/-- The call goes on with `result`, after what has been done before. -/
def logged (log : List Access) (result : GlobResult) : GlobResult := result.map fun r => (r.1, log ++ r.2)

/-- The value of a `char` as an `int`. -/
def charValue (c : UInt8) : Int := if c < 128 then c.toNat else c.toNat - 256

/-- The set between two brackets. -/
structure GlobClass where
  included : Bool
  chars : List UInt8
  spans : List (Int × Int)
  deriving DecidableEq, Repr

namespace GlobClass

/-- The character is one of `chars` or in one of `spans`. -/
def has (s : GlobClass) (c : UInt8) : Bool :=
  s.chars.contains c || s.spans.any fun pair => pair.1 ≤ charValue c && charValue c ≤ pair.2

def accepts (s : GlobClass) (c : UInt8) : Bool := s.has c == s.included

end GlobClass

namespace GlobRegex

/-- The loop of `_ProcessBracket`, which ends behind the `]`; `none` if there is none. A range needs a byte
behind it, its bounds may be in any order, and its second one may be a `]`. -/
def classLoop (pattern : Bytes) (chars : List UInt8) (spans : List (Int × Int)) :
    Option (List UInt8 × List (Int × Int) × Bytes) :=
  match pattern with
  | [] => none
  | c :: rest =>
      if c = 93 then some (chars, spans, rest)
      else if 2 < rest.length ∧ rest.head? = some 45 then
        let start := charValue c
        let stop := charValue (rest.getD 1 0)
        if start = stop then classLoop (rest.drop 2) (c :: chars) spans
        else classLoop (rest.drop 2) chars ((min start stop, max start stop) :: spans)
      else classLoop rest (c :: chars) spans
termination_by pattern.length
decreasing_by all_goals (simp only [List.length_cons, List.length_drop]; omega)

/-- The class behind a `[`, and what follows it. A `]` at the beginning belongs to the class. -/
def parseBracket (pattern : Bytes) : Option (GlobClass × Bytes) :=
  if pattern = [] then none
  else
    let included := decide (pattern.head? ≠ some 94)
    let pattern := if included then pattern else pattern.tail
    let leading := decide (pattern.head? = some 93)
    let chars := if leading then [93] else []
    let pattern := if leading then pattern.tail else pattern
    (classLoop pattern chars []).map fun r => (⟨included, r.1, r.2.1⟩, r.2.2)

/-- `_ProcessQuestion`, with what it does and what is left if it returns true. -/
def processQuestion (tLen : Nat) : Bytes → Nat → List Access × Option (Bytes × Nat)
  | [], tOff => ([], some ([], tOff))
  | c :: rest, tOff =>
      if c ≠ 63 then ([], some (c :: rest, tOff))
      else if tOff = tLen then ([], none)
      else (.move (tOff + 1) :: (processQuestion tLen rest (tOff + 1)).1, (processQuestion tLen rest (tOff + 1)).2)

/-- The loop of `_ProcessStar`, of which there are as many rounds as bytes are left. `tOff_` is set back
after an attempt, and moves on. -/
def processStar (attempt : Nat → GlobResult) : Nat → Nat → GlobResult
  | 0, _ => .ok (false, [])
  | rounds + 1, tOff => do
      let (matched, log) ← attempt tOff
      if matched then .ok (true, log)
      else logged (log ++ [.move tOff, .move (tOff + 1)]) (processStar attempt rounds (tOff + 1))

theorem length_classLoop {pattern rest : Bytes} {chars chars' : List UInt8} {spans spans' : List (Int × Int)}
    (h : classLoop pattern chars spans = some (chars', spans', rest)) : rest.length < pattern.length := by
  fun_induction classLoop pattern chars spans with
  | case1 => cases h
  | case2 =>
      cases h
      exact Nat.lt_succ_self _
  | case3 chars spans c rest _ _ _ _ _ ih | case4 chars spans c rest _ _ _ _ _ ih =>
      have hlt := ih h
      rw [List.length_drop] at hlt
      rw [List.length_cons]
      omega
  | case5 chars spans c rest _ _ ih => exact Nat.lt_succ_of_lt (ih h)

theorem length_parseBracket {pattern rest : Bytes} {s : GlobClass} (h : parseBracket pattern = some (s, rest)) :
    rest.length < pattern.length := by
  have htail : pattern.tail.length = pattern.length - 1 := List.length_tail
  have htail' : pattern.tail.tail.length = pattern.tail.length - 1 := List.length_tail
  unfold parseBracket at h
  dsimp only at h
  split_ifs at h
  all_goals
    obtain ⟨⟨chars, spans, rest'⟩, hloop, heq⟩ := Option.map_eq_some_iff.mp h
    obtain ⟨_, hrest⟩ := Prod.mk.inj heq
    cases hrest
    have hlt := length_classLoop hloop
    dsimp only
    omega

theorem length_processQuestion {tLen tOff tOff' : Nat} {pattern rest : Bytes}
    (h : (processQuestion tLen pattern tOff).2 = some (rest, tOff')) : rest.length ≤ pattern.length := by
  induction pattern generalizing tOff with
  | nil =>
      cases h
      exact le_rfl
  | cons c pattern ih =>
      unfold processQuestion at h
      split_ifs at h
      · cases h
        exact le_rfl
      · exact (ih h).trans (Nat.le_succ _)

/-- The `?` at the front is taken. -/
theorem length_processQuestion_cons {tLen tOff tOff' : Nat} {c : UInt8} {pattern rest : Bytes} (hc : c = 63)
    (h : (processQuestion tLen (c :: pattern) tOff).2 = some (rest, tOff')) :
    rest.length < pattern.length + 1 := by
  rw [processQuestion, if_neg (not_not.mpr hc)] at h
  split_ifs at h
  exact Nat.lt_succ_of_le (length_processQuestion h)

/-- `TryMatch`, from any positions on. -/
def tryMatch (text pattern : Bytes) (tOff : Nat) : GlobResult :=
  match pattern with
  | [] => .ok (decide (tOff = text.length), [])
  | c :: rest =>
      if c = 42 then
        let pattern := rest.dropWhile (· == 42)
        if pattern = [] then .ok (true, [])
        else processStar (fun tOff => tryMatch text pattern tOff) (text.length - tOff) tOff
      else if hc : c = 63 then
        let log := (processQuestion text.length (c :: rest) tOff).1
        match _hleft : (processQuestion text.length (c :: rest) tOff).2 with
        | none => .ok (false, log)
        | some (pattern, tOff) => logged log (tryMatch text pattern tOff)
      else if c = 91 then
        match _hclass : parseBracket rest with
        | none => .ok (false, [])
        | some (s, pattern) => do
            let x ← byteAt (text ++ [0]) tOff
            if s.accepts x then logged [.read tOff, .move (tOff + 1)] (tryMatch text pattern (tOff + 1))
            else .ok (false, [.read tOff])
      else
        let escaped := decide (c = 92 ∧ rest.head? = some 91)
        let pattern := if escaped then rest.tail else rest
        if text.length ≤ tOff then .ok (false, [])
        else do
          let x ← byteAt (text ++ [0]) tOff
          if (if escaped then 91 else c) ≠ x then .ok (false, [.read tOff])
          else logged [.read tOff, .move (tOff + 1)] (tryMatch text pattern (tOff + 1))
termination_by pattern.length
decreasing_by
  · exact Nat.lt_succ_of_le (List.dropWhile_sublist _).length_le
  · exact length_processQuestion_cons hc _hleft
  · exact Nat.lt_succ_of_lt (length_parseBracket _hclass)
  · have htail : rest.tail.length = rest.length - 1 := List.length_tail
    show (if _ then rest.tail else rest).length < rest.length + 1
    split_ifs <;> omega

/-- `glob_match`. -/
def globMatch (pattern text : Bytes) : Except Fault Bool := (tryMatch text pattern 0).map Prod.fst

end GlobRegex

end Eraft
