import Eraft.GlobRegex

/-! The command `SCAN` (`network/src/cmd_string.cc`). The cursor counts keys where the command skips them, and
keys that match where it goes on; the page is limited by `i`, which counts two for a key. A `long` is an integer
here. The engine is not part of the repository: its iterators are a parameter, of which nothing is assumed, and
beside them stand iterators that walk over a list of entries. -/

namespace Eraft

/-- A string from its `data()` or `c_str()`. -/
def cString (s : Bytes) : Bytes := s.takeWhile (· ≠ 0)

/-- `isspace`. -/
def isSpace (c : UInt8) : Bool := c == 32 || (9 ≤ c && c ≤ 13)

/-- `>>` from a string stream to a `long` that had the value `old`. Text without a number gives 0, and no
text leaves the value. -/
def readLong (text : Bytes) (old : Int) : Int :=
  let text := text.dropWhile isSpace
  if text = [] then old
  else
    let negative := decide (text.head? = some 45)
    let digits := if negative ∨ text.head? = some 43 then text.tail else text
    let value := Decimal.value ((digits.takeWhile isDigit).map fun c => c.toNat - 48) 0
    if negative then -value else value

def toLower (c : UInt8) : UInt8 := if 65 ≤ c ∧ c ≤ 90 then c + 32 else c

/-- `strncasecmp` finds no difference to a word of the same size, which is in small letters. -/
def isWord (word name : Bytes) : Bool := name.map toLower == word

/-- `"match"` -/
def matchWord : Bytes := [109, 97, 116, 99, 104]

/-- `"count"` -/
def countWord : Bytes := [99, 111, 117, 110, 116]

/-- The loop of `ParseScanOption`; `none` is `Error_param`. An option may be given once, but a count of -1
counts as none. -/
def parseScanOption : List Bytes → Int → Option Bytes → Except Fault (Option (Int × Option Bytes))
  | [], count, pattern => .ok (some (count, pattern))
  | name :: rest, count, pattern =>
      if isWord matchWord name ∧ pattern = none then
        match rest with
        | [] => .error .outOfBounds
        | value :: rest => parseScanOption rest count (some (cString value))
      else if isWord countWord name ∧ count = -1 then
        match rest with
        | [] => .error .outOfBounds
        | value :: rest => parseScanOption rest (readLong value count) pattern
      else .ok none

/-- The calls of `pmem::kv` that `scan` makes: `σ` is the state of the engine, `ι` that of an iterator. A
`result` is `none` where `get_value` throws, and of a status only matters whether it is `OK`. -/
structure Iterators (σ ι : Type) where
  newWriteIterator : σ → Option ι
  seekHigherEq : ι → Bytes → ι
  next : ι → Bool × ι
  prev : ι → ι
  key : ι → Option Bytes
  readRange : ι → Option Bytes

/-- `get_value`. -/
def getValue {α : Type} : Option α → Except Fault α
  | none => .error .outOfBounds
  | some a => .ok a

variable {σ ι : Type} (iters : Iterators σ ι)

/-- `while (cursor > 0 && s_it.next() == OK)`, with `curNow`. -/
def skipLoop : Nat → ι → Nat → ι × Nat
  | 0, it, curNow => (it, curNow)
  | cursor + 1, it, curNow =>
      if (iters.next it).1 then skipLoop cursor (iters.next it).2 (curNow + 1) else ((iters.next it).2, curNow)

/-- What the key at the iterator adds to `matchKeys`: nothing, or itself and its value. -/
def visitKey (pattern : Bytes) (it : ι) : Except Fault (List (Bytes × Bytes)) := do
  let key ← getValue (iters.key it)
  let matched ← GlobRegex.globMatch pattern (cString key)
  if matched then do
    let value ← getValue (iters.readRange it)
    return [(cString key, cString value)]
  else return []

/-- The loop that fills `matchKeys`, with `curNow`. -/
def visitLoop (pattern : Bytes) (count : Int) (it : ι) (i curNow : Nat) (matchKeys : List (Bytes × Bytes)) :
    Except Fault (ι × Nat × List (Bytes × Bytes)) := do
  let found ← visitKey iters pattern it
  if (iters.next it).1 = true ∧ ((i + 2 : Nat) : Int) < count then
    visitLoop pattern count (iters.next it).2 (i + 2) (curNow + found.length) (matchKeys ++ found)
  else return ((iters.next it).2, curNow + found.length, matchKeys ++ found)
termination_by (count - i).toNat

/-- The cursor that is returned, and `matchKeys`, two by two. -/
structure ScanPage where
  cursor : Nat
  matchKeys : List (Bytes × Bytes)
  deriving DecidableEq

/-- `prefix`. -/
def scanStart (pattern : Bytes) : Bytes := if pattern.getLast? = some 42 then pattern.dropLast else pattern

/-- `scan`, after the options have been read. -/
def scanFrom (db : σ) (cursor count : Int) (pattern : Bytes) : Except Fault ScanPage := do
  let it ← getValue (iters.newWriteIterator db)
  if pattern = [] then .error .outOfBounds
  else do
    let skipped := skipLoop iters cursor.toNat (iters.seekHigherEq it (scanStart pattern)) 0
    let (it, curNow, matchKeys) ← visitLoop iters pattern count skipped.1 0 skipped.2 []
    return ⟨if (iters.next (iters.prev it)).1 then curNow else 0, matchKeys⟩

/-- `scan`; `none` is `Error_param`. -/
def scan (db : σ) (params : List Bytes) : Except Fault (Option ScanPage) :=
  if params.length % 2 ≠ 0 then .ok none
  else
    match params with
    | _ :: cursor :: options => do
        match ← parseScanOption options (-1) none with
        | none => return none
        | some (_, none) => throw .outOfBounds
        | some (count, some pattern) =>
            let page ← scanFrom iters db (readLong cursor 0) (if count < 0 then 5 else count) pattern
            return some page
    | _ => .error .outOfBounds

/-- An iterator over a list: the entries it has passed, the latest first, and those from its position on. -/
structure ScanIterator where
  passed : List (Bytes × Bytes)
  left : List (Bytes × Bytes)

namespace ScanIterator

def seekHigherEq (entries : List (Bytes × Bytes)) (key : Bytes) : ScanIterator :=
  ⟨(entries.takeWhile (·.1 < key)).reverse, entries.dropWhile (·.1 < key)⟩

/-- `next`, and whether it succeeds. -/
def next (it : ScanIterator) : Bool × ScanIterator :=
  match it.left with
  | [] => (false, it)
  | entry :: left => (decide (left ≠ []), ⟨entry :: it.passed, left⟩)

def prev (it : ScanIterator) : ScanIterator :=
  match it.passed with
  | [] => it
  | entry :: passed => ⟨passed, entry :: it.left⟩

/-- There is no key at the end. -/
def iterators : Iterators (List (Bytes × Bytes)) ScanIterator where
  newWriteIterator entries := some ⟨[], entries⟩
  seekHigherEq it := seekHigherEq (it.passed.reverse ++ it.left)
  next := next
  prev := prev
  key it := it.left.head?.map Prod.fst
  readRange it := it.left.head?.map Prod.snd

end ScanIterator

end Eraft
