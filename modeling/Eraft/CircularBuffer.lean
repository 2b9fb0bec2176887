import Eraft.Message
import Eraft.BaseRing

/-! `CircularBuffer` (`network/include/network/buffer.h`): a queue of bytes in a ring whose size is a power
of two. Positions are `size_t` and are kept below the size by a mask; one cell always stays free, so
that a full ring can be told from an empty one. -/

namespace Eraft

/-- What can stop a call: an assertion, an access outside of a buffer, an overflow of an `int`, or the
exception of a vector that would become too long. -/
inductive Fault where
  | assertion
  | outOfBounds
  | overflow
  | lengthError
  deriving DecidableEq, Repr

theorem ok_bind {α β : Type} (a : α) (f : α → Except Fault β) : (Except.ok a >>= f) = f a := rfl

theorem exists_of_bind {α β : Type} {x : Except Fault α} {f : α → Except Fault β} {b : β}
    (h : (x >>= f) = .ok b) : ∃ a, x = .ok a ∧ f a = .ok b := by
  cases x with
  | error e => cases h
  | ok a => exact ⟨a, rfl, h⟩

/-- `assert`. -/
def require (p : Prop) [Decidable p] : Except Fault Unit := if p then .ok () else .error .assertion

theorem require_of {p : Prop} [Decidable p] (h : p) : require p = .ok () := if_pos h

/-- `static_cast<int>` of a 64-bit integer. -/
def toInt (x : Int) : Int := x.bmod (2 ^ 32)

theorem toInt_of_lt {n : Nat} (h : n < 2 ^ 31) : toInt n = n := by
  rw [toInt, Int.bmod_eq_of_le] <;> omega

/-- `memcpy` to the position `p` of a buffer. -/
def store (buffer : Bytes) (p : Nat) (data : Bytes) : Except Fault Bytes :=
  if p + data.length ≤ buffer.length then .ok (Ring.put buffer p data) else .error .outOfBounds

theorem store_of_le {buffer data : Bytes} {p : Nat} (h : p + data.length ≤ buffer.length) :
    store buffer p data = .ok (Ring.put buffer p data) := if_pos h

/-- `memcpy` from the position `p` of a buffer. -/
def fetch (buffer : Bytes) (p n : Nat) : Except Fault Bytes :=
  if p + n ≤ buffer.length then .ok ((buffer.drop p).take n) else .error .outOfBounds

theorem fetch_of_le {buffer : Bytes} {p n : Nat} (h : p + n ≤ buffer.length) :
    fetch buffer p n = .ok ((buffer.drop p).take n) := if_pos h

/-- A part of a buffer: where it starts and how long it is (`iovec`). -/
structure Segment where
  base : Nat
  len : Nat
  deriving DecidableEq, Repr

/-- `BufferSequence::TotalBytes`. -/
def totalBytes (segments : List Segment) : Nat := (segments.map Segment.len).sum

/-- The bytes that the segments show. -/
def load (buffer : Bytes) (segments : List Segment) : Bytes :=
  segments.flatMap fun s => (buffer.drop s.base).take s.len

/-- The segments are filled one after the other, as far as the data goes (`readv`). -/
def fill (buffer : Bytes) : List Segment → Bytes → Except Fault Bytes
  | [], _ => .ok buffer
  | s :: segments, data => do
      let buffer ← store buffer s.base (data.take s.len)
      fill buffer segments (data.drop s.len)

theorem fill_cons {buffer data : Bytes} {p n : Nat} (segments : List Segment)
    (h : p + (data.take n).length ≤ buffer.length) : fill buffer (⟨p, n⟩ :: segments) data =
      fill (Ring.put buffer p (data.take n)) segments (data.drop n) := by
  rw [fill, store_of_le h]
  rfl

/-- The loop of `RoundUp2Power`. After 64 shifts `roundSize` is 0 for ever, here `none`. -/
def roundLoop (size : Nat) : Nat → Nat → Option Nat
  | 0, _ => none
  | fuel + 1, roundSize => if roundSize < size then roundLoop size fuel (roundSize * 2 % 2 ^ 64)
      else some roundSize

def roundUp2Power (size : Nat) : Option Nat := if size = 0 then some 0 else roundLoop size 65 1

structure CircularBuffer where
  maxSize : Nat
  readPos : Nat
  writePos : Nat
  buffer : Bytes
  deriving DecidableEq

namespace CircularBuffer

/-- `Buffer::CircularBuffer(maxSize)`; `none` if the size is too large to be rounded up. -/
def new (size : Nat) : Option CircularBuffer := do
  let maxSize ← roundUp2Power size
  return { maxSize := maxSize, readPos := 0, writePos := 0, buffer := List.replicate maxSize 0 }

variable (b : CircularBuffer)

/-- `InitCapacity`. -/
def initCapacity (size : Nat) : Except Fault CircularBuffer := do
  require (0 < size ∧ size ≤ 1024 * 1024 * 1024)
  match roundUp2Power size with
  | some maxSize =>
      let buffer := b.buffer.take maxSize ++ List.replicate (maxSize - b.buffer.length) 0
      return { b with maxSize := maxSize, buffer := buffer }
  | none => throw .lengthError

/-- `maxSize_ - 1`. -/
def mask : Nat := u64Sub b.maxSize 1

def isEmpty : Bool := b.writePos == b.readPos

def isFull : Bool := u64Add b.writePos 1 &&& b.mask == b.readPos

def readableSize : Nat := u64Sub b.writePos b.readPos &&& b.mask

def writeableSize : Nat := u64Sub (u64Sub b.maxSize b.readableSize) 1

/-- `GetDatum`: the readable bytes from `offset` on, at most `maxSize` of them, in one or two parts. -/
def getDatum (maxSize offset : Nat) : Except Fault (List Segment) :=
  if maxSize = 0 ∨ b.readableSize ≤ offset then .ok []
  else do
    require (b.readPos < b.maxSize)
    require (b.writePos < b.maxSize)
    let readPos := u64Add b.readPos offset &&& b.mask
    let writePos := b.writePos
    require (readPos ≠ writePos)
    if readPos < writePos then
      return [⟨readPos, if maxSize < writePos - readPos then maxSize else writePos - readPos⟩]
    else
      let first := if b.maxSize - readPos < maxSize then b.maxSize - readPos else maxSize
      let nLeft := maxSize - first
      if 0 < nLeft ∧ 0 < writePos then
        return [⟨readPos, first⟩, ⟨0, if writePos < nLeft then writePos else nLeft⟩]
      else return [⟨readPos, first⟩]

/-- `GetSpace`: the free bytes from `offset` on, in one or two parts; none if there is only one left. -/
def getSpace (offset : Nat) : Except Fault (List Segment) := do
  require (b.readPos < b.maxSize)
  require (b.writePos < b.maxSize)
  if b.writeableSize ≤ u64Add offset 1 then return []
  else
    let readPos := b.readPos
    let writePos := u64Add b.writePos offset &&& b.mask
    if writePos < readPos then
      require (0 < readPos - writePos - 1)
      return [⟨writePos, readPos - writePos - 1⟩]
    else if readPos = 0 then return [⟨writePos, b.maxSize - writePos - 1⟩]
    else if 1 < readPos then return [⟨writePos, b.maxSize - writePos⟩, ⟨0, readPos - 1⟩]
    else return [⟨writePos, b.maxSize - writePos⟩]

def adjustWritePtr (size : Nat) : CircularBuffer :=
  { b with writePos := u64Add b.writePos size &&& b.mask }

def adjustReadPtr (size : Nat) : CircularBuffer :=
  { b with readPos := u64Add b.readPos size &&& b.mask }

/-- `PushDataAt`. The branch is chosen with the offset, but the data is copied to `writePos_` itself. The
number of bytes left for the beginning of the ring is an `int`. -/
def pushDataAt (data : Bytes) (offset : Nat) : Except Fault (Bool × CircularBuffer) :=
  let nSize := data.length
  if nSize = 0 then .ok (true, b)
  else if b.writeableSize < u64Add offset nSize then .ok (false, b)
  else
    let readPos := b.readPos
    let writePos := u64Add b.writePos offset &&& b.mask
    if writePos < readPos then do
      require (nSize < readPos - writePos)
      let buffer ← store b.buffer b.writePos data
      return (true, { b with buffer := buffer })
    else do
      let availBytes1 := u64Sub b.maxSize b.writePos
      let availBytes2 := readPos
      require (1 + nSize ≤ u64Add availBytes1 availBytes2)
      if nSize + 1 ≤ availBytes1 then
        let buffer ← store b.buffer b.writePos data
        return (true, { b with buffer := buffer })
      else
        let buffer ← store b.buffer b.writePos (data.take availBytes1)
        let bytesLeft := toInt (nSize - availBytes1 : Nat)
        if 0 < bytesLeft then
          let buffer ← store buffer 0 ((data.drop availBytes1).take bytesLeft.toNat)
          return (true, { b with buffer := buffer })
        else return (true, { b with buffer := buffer })

def pushData (data : Bytes) : Except Fault (Bool × CircularBuffer) := do
  let (ok, b) ← b.pushDataAt data 0
  return if ok then (true, b.adjustWritePtr data.length) else (false, b)

/-- `PeekDataAt`, with the bytes that are copied; `given` is whether there is a buffer to copy them to. -/
def peekDataAt (given : Bool) (nSize offset : Nat) : Except Fault (Bool × Bytes) :=
  if given = false ∨ nSize = 0 then .ok (true, [])
  else if b.readableSize < u64Add nSize offset then .ok (false, [])
  else
    let writePos := b.writePos
    let readPos := u64Add b.readPos offset &&& b.mask
    if readPos < writePos then do
      require (nSize ≤ writePos - readPos)
      let data ← fetch b.buffer readPos nSize
      return (true, data)
    else do
      require (writePos < readPos)
      let availBytes1 := u64Sub b.maxSize readPos
      let availBytes2 := writePos
      require (nSize ≤ u64Add availBytes1 availBytes2)
      if nSize ≤ availBytes1 then
        let data ← fetch b.buffer readPos nSize
        return (true, data)
      else
        let data ← fetch b.buffer readPos availBytes1
        require (0 < nSize - availBytes1)
        let data' ← fetch b.buffer 0 (nSize - availBytes1)
        return (true, data ++ data')

/-- `PeekData`: unlike its name says, the bytes are taken. -/
def peekData (given : Bool) (nSize : Nat) : Except Fault (Bool × Bytes × CircularBuffer) := do
  let (ok, data) ← b.peekDataAt given nSize 0
  return if ok then (true, data, b.adjustReadPtr nSize) else (false, data, b)

/-! ### Rings in order -/

/-- The size is a power of two, and the positions are inside of the ring. -/
structure Valid : Prop where
  pow : ∃ k, k < 64 ∧ b.maxSize = 2 ^ k
  readPos : b.readPos < b.maxSize
  writePos : b.writePos < b.maxSize
  length : b.buffer.length = b.maxSize

/-- The readable bytes. -/
def content : Bytes := Ring.held b.buffer b.readPos b.readableSize

variable {b} {data : Bytes} {offset : Nat}

theorem Valid.pos (h : b.Valid) : 0 < b.maxSize := Nat.zero_lt_of_lt h.readPos

theorem Valid.maxSize_lt (h : b.Valid) : b.maxSize < 2 ^ 64 := by
  obtain ⟨k, hk, hsize⟩ := h.pow
  rw [hsize]
  exact Nat.pow_lt_pow_right (by decide) hk

theorem Valid.and_mask (h : b.Valid) (x : Nat) : x &&& b.mask = x % b.maxSize := by
  obtain ⟨k, _, hsize⟩ := h.pow
  rw [mask, u64Sub_of_le h.pos, hsize, Nat.and_two_pow_sub_one_eq_mod]

/-- A position that wraps around at `2 ^ 64` is at the same cell. -/
theorem Valid.mod_mod (h : b.Valid) (x : Nat) : x % 2 ^ 64 % b.maxSize = x % b.maxSize := by
  obtain ⟨k, hk, hsize⟩ := h.pow
  rw [hsize]
  exact Nat.mod_mod_of_dvd x (pow_dvd_pow 2 hk.le)

theorem Valid.u64Add_mask (h : b.Valid) (x y : Nat) : u64Add x y &&& b.mask = (x + y) % b.maxSize := by
  rw [h.and_mask, u64Add, h.mod_mod]

theorem Valid.readableSize_eq (h : b.Valid) :
    b.readableSize = Ring.dist b.maxSize b.readPos b.writePos := by
  have hr := h.readPos
  have hw := h.writePos
  have hlt := h.maxSize_lt
  rw [readableSize, h.and_mask]
  by_cases hle : b.readPos ≤ b.writePos
  · rw [u64Sub_of_le hle, Ring.dist_of_le hw hle, Nat.mod_eq_of_lt (by omega)]
  · rw [u64Sub, if_neg hle, Ring.dist_of_lt hr (Nat.lt_of_not_le hle)]
    obtain ⟨k, hk, hsize⟩ := h.pow
    have hdvd : b.maxSize ∣ 2 ^ 64 - b.maxSize := by
      rw [hsize]
      exact Nat.dvd_sub (pow_dvd_pow 2 hk.le) dvd_rfl
    obtain ⟨q, hq⟩ := hdvd
    rw [show b.writePos + 2 ^ 64 - b.readPos = b.writePos + b.maxSize - b.readPos + b.maxSize * q by omega,
      Nat.add_mul_mod_self_left, Nat.mod_eq_of_lt (by omega)]

theorem Valid.readableSize_lt (h : b.Valid) : b.readableSize < b.maxSize := by
  rw [h.readableSize_eq]
  exact Ring.dist_lt h.readPos

theorem Valid.writeableSize_eq (h : b.Valid) : b.writeableSize = b.maxSize - b.readableSize - 1 := by
  have hlt := h.readableSize_lt
  rw [writeableSize, u64Sub_of_le hlt.le, u64Sub_of_le (by omega)]

theorem Valid.length_content (h : b.Valid) : b.content.length = b.readableSize :=
  Ring.length_held (by rw [h.length]; exact h.readableSize_lt.le)

theorem Valid.isEmpty_iff (h : b.Valid) : b.isEmpty = true ↔ b.content = [] := by
  have hr := h.readPos
  have hw := h.writePos
  rw [← List.length_eq_zero_iff, h.length_content, h.readableSize_eq, Ring.dist_eq hr hw, isEmpty, beq_iff_eq]
  split_ifs <;> omega

/-- Taking from the ring. -/
theorem Valid.adjustReadPtr (h : b.Valid) {k : Nat} (hk : k ≤ b.readableSize) :
    (b.adjustReadPtr k).Valid ∧ (b.adjustReadPtr k).content = b.content.drop k := by
  have hpos : (b.adjustReadPtr k).readPos = (b.readPos + k) % b.maxSize := h.u64Add_mask _ _
  have hvalid : (b.adjustReadPtr k).Valid :=
    ⟨h.pow, by rw [hpos]; exact Nat.mod_lt _ h.pos, h.writePos, h.length⟩
  refine ⟨hvalid, ?_⟩
  have hsize : (b.adjustReadPtr k).readableSize = b.readableSize - k := by
    rw [h.readableSize_eq] at hk
    rw [hvalid.readableSize_eq, hpos, h.readableSize_eq]
    exact Ring.dist_add_left h.readPos h.writePos hk
  rw [content, hsize, hpos, content, Ring.drop_held hk (by rw [h.length]; exact h.readableSize_lt.le),
    ← h.length]
  exact Ring.held_mod

/-- Whatever is in the free cells, moving the position makes them readable. -/
theorem Valid.moveWritePos (h : b.Valid) {l : Bytes} (hl : l.length = b.maxSize) {n : Nat}
    (hroom : n ≤ b.writeableSize) : (CircularBuffer.adjustWritePtr { b with buffer := l } n).Valid ∧
      (CircularBuffer.adjustWritePtr { b with buffer := l } n).readableSize = b.readableSize + n := by
  have hlt := h.readableSize_lt
  have hpos : (CircularBuffer.adjustWritePtr { b with buffer := l } n).writePos = (b.writePos + n) % b.maxSize :=
    h.u64Add_mask _ _
  have hvalid : (CircularBuffer.adjustWritePtr { b with buffer := l } n).Valid :=
    ⟨h.pow, h.readPos, by rw [hpos]; exact Nat.mod_lt _ h.pos, hl⟩
  have hroom' : Ring.dist b.maxSize b.readPos b.writePos + n < b.maxSize := by
    rw [h.writeableSize_eq] at hroom
    rw [← h.readableSize_eq]
    omega
  refine ⟨hvalid, ?_⟩
  rw [hvalid.readableSize_eq, hpos, h.readableSize_eq]
  exact Ring.dist_add_right h.readPos h.writePos hroom'

/-- Data written behind the queue becomes a part of it when the position is moved. -/
theorem Valid.adjustWritePtr (h : b.Valid) (hroom : data.length ≤ b.writeableSize) :
    let b' := { b with buffer := Ring.putAround b.buffer b.writePos data }.adjustWritePtr data.length
    b'.Valid ∧ b'.content = b.content ++ data := by
  intro b'
  have hlt := h.readableSize_lt
  have hfree := h.writeableSize_eq
  have hw : b.writePos < b.buffer.length := by rw [h.length]; exact h.writePos
  have hl : (Ring.putAround b.buffer b.writePos data).length = b.maxSize :=
    (Ring.length_putAround hw (by rw [h.length]; omega)).trans h.length
  obtain ⟨hvalid, hsize⟩ := h.moveWritePos hl hroom
  refine ⟨hvalid, ?_⟩
  have hheld := Ring.held_putAround (d := data) (l := b.buffer) (r := b.readPos) (w := b.writePos)
    (by rw [h.length]; exact h.readPos) hw
    (by rw [h.length, ← h.readableSize_eq]; omega)
  rw [h.length, ← h.readableSize_eq] at hheld
  rw [content, hsize]
  exact hheld

/-- What does not fit behind the position goes to the beginning. -/
theorem store_rest {buffer data : Bytes} {p avail : Nat} (havail : p + avail = buffer.length)
    (hlt : avail < data.length) (hle : data.length ≤ buffer.length) :
    store (Ring.put buffer p (data.take avail)) 0 ((data.drop avail).take (data.length - avail)) =
      .ok (Ring.putAround buffer p data) := by
  have htake : (data.take avail).length = avail := by
    rw [List.length_take]
    omega
  have hdrop : (data.drop avail).take (data.length - avail) = data.drop avail := by
    rw [List.take_of_length_le]
    rw [List.length_drop]
  have hsecond : 0 + (data.drop avail).length ≤ (Ring.put buffer p (data.take avail)).length := by
    rw [Ring.length_put (by omega), List.length_drop]
    omega
  rw [hdrop, store_of_le hsecond, Ring.putAround, if_neg (by omega), ← havail, Nat.add_sub_cancel_left]

/-- How many of `n` bytes are copied: all, unless what is left for the beginning of the ring is not an
`int`. -/
def copied (b : CircularBuffer) (n offset : Nat) : Nat :=
  if b.maxSize ≤ b.writePos + offset ∨ n ≤ b.maxSize - b.writePos then n
  else b.maxSize - b.writePos + (toInt (n - (b.maxSize - b.writePos) : Nat)).toNat

theorem toInt_toNat_le (n : Nat) : (toInt n).toNat ≤ n := by
  rw [toInt, Int.bmod_def]
  omega

theorem copied_le (n : Nat) : b.copied n offset ≤ n := by
  unfold copied
  split_ifs with h
  · exact le_rfl
  · have hle := toInt_toNat_le (n - (b.maxSize - b.writePos))
    omega

/-- What does not fit behind the position goes to the beginning, as far as it is copied. -/
theorem store_part {buffer data : Bytes} {p avail left : Nat} (havail : p + avail = buffer.length)
    (hleft : 0 < left) (hdata : avail + left ≤ data.length) (hle : data.length ≤ buffer.length) :
    store (Ring.put buffer p (data.take avail)) 0 ((data.drop avail).take left) =
      .ok (Ring.putAround buffer p (data.take (avail + left))) := by
  have hlen : (data.take (avail + left)).length = avail + left := by
    rw [List.length_take, Nat.min_eq_left hdata]
  have hrest := @store_rest buffer (data.take (avail + left)) p avail havail (by omega) (by omega)
  rwa [List.take_take, Nat.min_eq_left (by omega), List.drop_take, hlen, Nat.add_sub_cancel_left,
    List.take_take, Nat.min_self] at hrest

/-- Before the wrap, as much of the data as is copied is written behind the queue. -/
theorem Valid.pushDataAt_before (h : b.Valid) (hpos : 0 < data.length)
    (hroom : offset + data.length ≤ b.writeableSize) (hwrap : b.writePos + offset < b.maxSize) :
    b.pushDataAt data offset = .ok (true,
      { b with buffer := Ring.putAround b.buffer b.writePos (data.take (b.copied data.length offset)) }) := by
  have hr := h.readPos
  have hw := h.writePos
  have hlen := h.length
  have hmax := h.maxSize_lt
  have hfree := h.writeableSize_eq
  have hadd : u64Add offset data.length = offset + data.length := Nat.mod_eq_of_lt (by omega)
  have hoffset : u64Add b.writePos offset &&& b.mask = b.writePos + offset := by
    rw [h.u64Add_mask, Nat.mod_eq_of_lt hwrap]
  rw [h.readableSize_eq, Ring.dist_eq hr hw] at hfree
  unfold CircularBuffer.pushDataAt copied
  dsimp only
  rw [if_neg (by omega), hadd, if_neg (by omega), hoffset]
  by_cases hbefore : b.writePos + offset < b.readPos
  · rw [if_neg (by omega)] at hfree
    rw [if_pos hbefore, require_of (by omega), store_of_le (by omega), if_pos (by omega), List.take_length,
      Ring.putAround, if_pos (by omega)]
    rfl
  · have hle : b.readPos ≤ b.writePos := by
      by_contra hlt
      rw [if_neg hlt] at hfree
      omega
    rw [if_pos hle] at hfree
    have havail : u64Sub b.maxSize b.writePos = b.maxSize - b.writePos := u64Sub_of_le hw.le
    have hboth : u64Add (b.maxSize - b.writePos) b.readPos = b.maxSize - b.writePos + b.readPos :=
      Nat.mod_eq_of_lt (by omega)
    have htake : (data.take (b.maxSize - b.writePos)).length ≤ b.maxSize - b.writePos := by
      rw [List.length_take]
      omega
    rw [if_neg hbefore, havail, hboth, require_of (by omega), ok_bind]
    by_cases hfit : data.length + 1 ≤ b.maxSize - b.writePos
    · rw [if_pos hfit, store_of_le (by omega), if_pos (by omega), List.take_length, Ring.putAround,
        if_pos (by omega)]
      rfl
    · rw [if_neg hfit, store_of_le (by omega), ok_bind]
      have hcut := toInt_toNat_le (data.length - (b.maxSize - b.writePos))
      generalize hleft : (toInt (data.length - (b.maxSize - b.writePos) : Nat)) = left at hcut
      have hcopied : (if b.maxSize ≤ b.writePos + offset ∨ data.length ≤ b.maxSize - b.writePos then data.length
          else b.maxSize - b.writePos + left.toNat) = b.maxSize - b.writePos + left.toNat := by
        split_ifs <;> omega
      rw [hcopied]
      by_cases hsome : 0 < left
      · rw [if_pos hsome, store_part (by omega) (by omega) (by omega) (by omega)]
        rfl
      · rw [if_neg hsome, Int.toNat_of_nonpos (by omega), Nat.add_zero, Ring.putAround, if_pos (by omega)]
        rfl

/-- Data that fits is written right behind the queue, if the number of bytes for the beginning of the ring
is an `int`. -/
theorem Valid.pushDataAt_zero (h : b.Valid) (hwrap : data.length - (b.maxSize - b.writePos) < 2 ^ 31)
    (hroom : data.length ≤ b.writeableSize) : b.pushDataAt data 0 =
      .ok (true, { b with buffer := Ring.putAround b.buffer b.writePos data }) := by
  rcases Nat.eq_zero_or_pos data.length with hnil | hpos
  · have hw := h.writePos
    have hlen := h.length
    unfold pushDataAt
    rw [if_pos hnil, Ring.putAround, if_pos (by omega), List.length_eq_zero_iff.mp hnil, Ring.put_nil]
  · have hall : b.copied data.length 0 = data.length := by
      unfold copied
      split_ifs
      · rfl
      · rw [toInt_of_lt hwrap, Int.toNat_natCast]
        omega
    rw [h.pushDataAt_before hpos (by omega) h.writePos, hall, List.take_length]

/-- `PushData` appends to the queue. -/
theorem Valid.pushData (h : b.Valid) (hwrap : data.length - (b.maxSize - b.writePos) < 2 ^ 31)
    (hroom : data.length ≤ b.writeableSize) :
    ∃ b', b.pushData data = .ok (true, b') ∧ b'.Valid ∧ b'.maxSize = b.maxSize ∧ b'.readPos = b.readPos ∧
      b'.content = b.content ++ data := by
  obtain ⟨hvalid, hcontent⟩ := h.adjustWritePtr hroom
  refine ⟨_, ?_, hvalid, rfl, rfl, hcontent⟩
  unfold CircularBuffer.pushData
  rw [h.pushDataAt_zero hwrap hroom]
  rfl

theorem Valid.isFull_iff (h : b.Valid) : b.isFull = true ↔ b.content.length = b.maxSize - 1 := by
  have hr := h.readPos
  have hw := h.writePos
  rw [h.length_content, h.readableSize_eq, Ring.dist_eq hr hw, isFull, beq_iff_eq, h.u64Add_mask,
    Ring.add_mod_eq hw (by omega)]
  split_ifs <;> omega

/-- Data that does not fit is refused. -/
theorem pushData_full (hfull : b.writeableSize < data.length) (hsize : data.length < 2 ^ 64) :
    b.pushData data = .ok (false, b) := by
  have hadd : u64Add 0 data.length = data.length := by rw [u64Add, Nat.zero_add, Nat.mod_eq_of_lt hsize]
  have hrefuse : b.pushDataAt data 0 = .ok (false, b) := by
    unfold pushDataAt
    dsimp only
    rw [if_neg (by omega), hadd, if_pos hfull]
  unfold CircularBuffer.pushData
  rw [hrefuse]
  rfl

/-- `PeekDataAt` copies the front of the queue. -/
theorem Valid.peekDataAt_zero (h : b.Valid) {n : Nat} (hn : n ≤ b.readableSize) :
    b.peekDataAt true n 0 = .ok (true, b.content.take n) := by
  have hr := h.readPos
  have hw := h.writePos
  have hlen := h.length
  have hmax := h.maxSize_lt
  have hlt := h.readableSize_lt
  have hadd : u64Add n 0 = n := Nat.mod_eq_of_lt (by omega)
  have hpos : u64Add b.readPos 0 &&& b.mask = b.readPos := by
    rw [h.u64Add_mask, Nat.add_zero, Nat.mod_eq_of_lt hr]
  rw [content, Ring.take_held hn]
  unfold peekDataAt
  by_cases hzero : n = 0
  · rw [if_pos (.inr hzero), hzero, Ring.held_zero]
  · rw [if_neg (by simp [hzero]), hadd, if_neg (by omega), hpos]
    rw [h.readableSize_eq, Ring.dist_eq hr hw] at hn
    dsimp only
    by_cases hbefore : b.readPos < b.writePos
    · rw [if_pos hbefore.le] at hn
      rw [if_pos hbefore, require_of hn, fetch_of_le (by omega), Ring.held_of_le (by omega)]
      rfl
    · have hbehind : b.writePos < b.readPos := by
        split_ifs at hn <;> omega
      rw [if_neg (by omega)] at hn
      have havail : u64Sub b.maxSize b.readPos = b.maxSize - b.readPos := u64Sub_of_le hr.le
      have hboth : u64Add (b.maxSize - b.readPos) b.writePos = b.maxSize - b.readPos + b.writePos :=
        Nat.mod_eq_of_lt (by omega)
      rw [if_neg hbefore, require_of hbehind, havail, hboth, require_of (by omega), ok_bind, ok_bind]
      by_cases hfit : n ≤ b.maxSize - b.readPos
      · rw [if_pos hfit, fetch_of_le (by omega), Ring.held_of_le (by omega)]
        rfl
      · have hend : (b.buffer.drop b.readPos).take (b.maxSize - b.readPos) = b.buffer.drop b.readPos :=
          List.take_of_length_le (by rw [List.length_drop, hlen])
        rw [if_neg hfit, fetch_of_le (by omega), require_of (by omega), ok_bind, ok_bind,
          fetch_of_le (by omega), hend, List.drop_zero, Ring.held_of_lt (by omega) (by omega) (by omega), hlen,
          show b.readPos + n - b.maxSize = n - (b.maxSize - b.readPos) by omega]
        rfl

/-- `PeekData` takes the front of the queue. -/
theorem Valid.peekData (h : b.Valid) {n : Nat} (hn : n ≤ b.readableSize) (given : Bool) :
    b.peekData given n = .ok (true, if given then b.content.take n else [], b.adjustReadPtr n) := by
  unfold CircularBuffer.peekData
  cases given with
  | false => rfl
  | true =>
      rw [h.peekDataAt_zero hn]
      rfl

theorem peekData_short {n : Nat} (hshort : b.readableSize < n) (hsize : n < 2 ^ 64) :
    b.peekData true n = .ok (false, [], b) := by
  have hadd : u64Add n 0 = n := Nat.mod_eq_of_lt hsize
  have hrefuse : b.peekDataAt true n 0 = .ok (false, []) := by
    unfold peekDataAt
    rw [if_neg (by simp; omega), hadd, if_pos hshort]
  unfold CircularBuffer.peekData
  rw [hrefuse]
  rfl

/-! ### Parts of the ring -/

theorem load_singleton (l : Bytes) (p n : Nat) : load l [⟨p, n⟩] = (l.drop p).take n := List.append_nil _

/-- The `n` cells from `p` on, in one or two parts. -/
def arc (cap p n : Nat) : List Segment :=
  if p + n ≤ cap then [⟨p, n⟩] else [⟨p, cap - p⟩, ⟨0, p + n - cap⟩]

section Arc

variable {cap p n i : Nat} {l : Bytes}

theorem totalBytes_arc (hp : p ≤ cap) : totalBytes (arc cap p n) = n := by
  unfold arc totalBytes
  split_ifs with h
  · exact Nat.add_zero n
  · show cap - p + (p + n - cap + 0) = n
    omega

theorem load_arc (hl : l.length = cap) (hp : p ≤ cap) (hn : n ≤ cap) :
    load l (arc cap p n) = Ring.held l p n := by
  unfold arc
  split_ifs with h
  · rw [Ring.held_of_le (by omega), load_singleton]
  · have hend : (l.drop p).take (cap - p) = l.drop p := List.take_of_length_le (by rw [List.length_drop, hl])
    rw [Ring.held_of_lt (by omega) (by omega) (by omega), load, List.flatMap_cons, List.flatMap_singleton, hl]
    dsimp only
    rw [hend, List.drop_zero]

theorem fill_arc {data : Bytes} (hl : l.length = cap) (hp : p ≤ cap) (hn : n ≤ cap) (hdata : data.length ≤ n) :
    fill l (arc cap p n) data = .ok (Ring.putAround l p data) := by
  unfold arc
  split_ifs with h
  · rw [fill_cons _ (by rw [List.take_of_length_le hdata]; omega), List.take_of_length_le hdata, fill,
      Ring.putAround, if_pos (by omega)]
  · by_cases hfit : data.length ≤ cap - p
    · rw [fill_cons _ (by rw [List.take_of_length_le hfit]; omega), List.take_of_length_le hfit,
        List.drop_of_length_le hfit, fill_cons _ (by rw [List.take_nil]; exact Nat.zero_le _), List.take_nil,
        Ring.put_nil, fill, Ring.putAround, if_pos (by omega)]
    · have htake : (data.take (cap - p)).length = cap - p := by
        rw [List.length_take]
        omega
      have hput : (Ring.put l p (data.take (cap - p))).length = l.length := Ring.length_put (by omega)
      have hdrop : (data.drop (cap - p)).length = data.length - (cap - p) := List.length_drop
      have hrest : (data.drop (cap - p)).take (p + n - cap) = data.drop (cap - p) :=
        List.take_of_length_le (by omega)
      rw [fill_cons _ (by omega), fill_cons _ (by rw [hrest]; omega), hrest, fill, Ring.putAround,
        if_neg (by omega), hl]

/-- The cells of the part are those less than `n` ahead of `p`. -/
theorem dist_lt_of_mem_arc {s : Segment} (hs : s ∈ arc cap p n) (hp : p < cap) (hn : n ≤ cap)
    (hle : s.base ≤ i) (hlt : i < s.base + s.len) : i < cap ∧ Ring.dist cap p i < n := by
  unfold arc at hs
  split_ifs at hs with h
  · cases List.mem_singleton.mp hs
    dsimp only at hle hlt
    rw [Ring.dist_of_le (by omega) hle]
    omega
  · rcases List.mem_cons.mp hs with rfl | hs
    · dsimp only at hle hlt
      rw [Ring.dist_of_le (by omega) hle]
      omega
    · cases List.mem_singleton.mp hs
      dsimp only at hle hlt
      rw [Ring.dist_of_lt hp (by omega)]
      omega

end Arc

/-- The part that `GetDatum` shows. -/
theorem Valid.getDatum_eq (h : b.Valid) {m offset : Nat} (hm : m ≠ 0) (hoff : offset < b.readableSize) :
    b.getDatum m offset =
      .ok (arc b.maxSize ((b.readPos + offset) % b.maxSize) (min m (b.readableSize - offset))) := by
  have hr := h.readPos
  have hw := h.writePos
  have hpos : (b.readPos + offset) % b.maxSize < b.maxSize := Nat.mod_lt _ h.pos
  have hleft : b.readableSize - offset =
      Ring.dist b.maxSize ((b.readPos + offset) % b.maxSize) b.writePos := by
    rw [h.readableSize_eq] at hoff ⊢
    exact (Ring.dist_add_left hr hw (by omega)).symm
  have hsome : 0 < b.readableSize - offset := by omega
  unfold CircularBuffer.getDatum
  rw [if_neg (by omega), require_of hr, require_of hw, h.u64Add_mask]
  simp only [bind, Except.bind, pure, Except.pure]
  generalize (b.readPos + offset) % b.maxSize = r at hpos hleft
  generalize b.readableSize - offset = n at hleft hsome
  rw [Ring.dist_eq hpos hw] at hleft
  have hne : r ≠ b.writePos := by
    rintro rfl
    rw [if_pos le_rfl] at hleft
    omega
  rw [require_of hne]
  dsimp only
  unfold arc
  by_cases hlt : r < b.writePos
  · rw [if_pos hlt.le] at hleft
    have hmin : (if m < b.writePos - r then m else b.writePos - r) = min m n := by
      split_ifs <;> omega
    rw [if_pos hlt, hmin, if_pos (by omega)]
  · rw [if_neg (by omega)] at hleft
    have hfirst : (if b.maxSize - r < m then b.maxSize - r else m) = min m (b.maxSize - r) := by
      split_ifs <;> omega
    rw [if_neg hlt, hfirst]
    by_cases hmore : 0 < m - min m (b.maxSize - r) ∧ 0 < b.writePos
    · have hsecond : (if b.writePos < m - min m (b.maxSize - r) then b.writePos
          else m - min m (b.maxSize - r)) = r + min m n - b.maxSize := by
        split_ifs <;> omega
      have hfull : min m (b.maxSize - r) = b.maxSize - r := by omega
      rw [if_pos hmore, hsecond, hfull, if_neg (by omega)]
    · have hmin : min m (b.maxSize - r) = min m n := by omega
      rw [if_neg hmore, hmin, if_pos (by omega)]

/-- **What `GetDatum` shows** in a ring of this size and with these positions, whatever is in its
cells. -/
theorem Valid.getDatum (h : b.Valid) (m offset : Nat) : ∃ segments, b.getDatum m offset = .ok segments ∧
    totalBytes segments = min m (b.readableSize - offset) ∧ ∀ l : Bytes, l.length = b.maxSize →
      load l segments = Ring.held l (b.readPos + offset) (min m (b.readableSize - offset)) := by
  by_cases hnone : m = 0 ∨ b.readableSize ≤ offset
  · have hzero : min m (b.readableSize - offset) = 0 := by omega
    rw [CircularBuffer.getDatum, if_pos hnone, hzero]
    exact ⟨[], rfl, rfl, fun l _ => Ring.held_zero.symm⟩
  · have hlt := h.readableSize_lt
    have hpos : (b.readPos + offset) % b.maxSize < b.maxSize := Nat.mod_lt _ h.pos
    refine ⟨_, h.getDatum_eq (by omega) (by omega), totalBytes_arc hpos.le, fun l hl => ?_⟩
    rw [load_arc hl hpos.le (by omega), ← hl, Ring.held_mod]

/-- All that is in the ring. -/
theorem Valid.getDatum_all (h : b.Valid) : ∃ segments, b.getDatum b.readableSize 0 = .ok segments ∧
    totalBytes segments = b.readableSize ∧ ∀ l : Bytes, l.length = b.maxSize →
      load l segments = Ring.held l b.readPos b.readableSize := by
  obtain ⟨segments, hok, htotal, hload⟩ := h.getDatum b.readableSize 0
  rw [Nat.sub_zero, Nat.min_self] at htotal hload
  exact ⟨segments, hok, htotal, hload⟩

/-- The part that `GetSpace` shows. -/
theorem Valid.getSpace_eq (h : b.Valid) {offset : Nat} (hroom : offset + 1 < b.writeableSize) :
    b.getSpace offset =
      .ok (arc b.maxSize ((b.writePos + offset) % b.maxSize) (b.writeableSize - offset)) := by
  have hr := h.readPos
  have hw := h.writePos
  have hfree := h.writeableSize_eq
  have hlt := h.maxSize_lt
  have hone : u64Add offset 1 = offset + 1 := Nat.mod_eq_of_lt (by omega)
  have hpos : (b.writePos + offset) % b.maxSize =
      if b.writePos + offset < b.maxSize then b.writePos + offset else b.writePos + offset - b.maxSize :=
    Ring.add_mod_eq hw (by omega)
  rw [h.readableSize_eq, Ring.dist_eq hr hw] at hfree
  unfold CircularBuffer.getSpace
  rw [require_of hr, require_of hw, h.u64Add_mask]
  simp only [bind, Except.bind, pure, Except.pure]
  rw [hone, if_neg (by omega), hpos]
  unfold arc
  generalize hw' : (if b.writePos + offset < b.maxSize then b.writePos + offset
    else b.writePos + offset - b.maxSize) = w'
  have hlen : b.writeableSize - offset =
      if w' < b.readPos then b.readPos - w' - 1 else b.maxSize - w' + b.readPos - 1 := by
    split_ifs at hfree hw' ⊢ <;> omega
  have hin : w' < b.maxSize := by split_ifs at hw' <;> omega
  by_cases hbefore : w' < b.readPos
  · rw [if_pos hbefore] at hlen
    rw [if_pos hbefore, require_of (by omega), hlen, if_pos (by omega)]
  · rw [if_neg hbefore] at hlen
    rw [if_neg hbefore, hlen]
    by_cases hzero : b.readPos = 0
    · rw [if_pos hzero, if_pos (by omega), hzero, Nat.add_zero]
    · rw [if_neg hzero]
      by_cases htwo : 1 < b.readPos
      · rw [if_pos htwo, if_neg (by omega),
          show w' + (b.maxSize - w' + b.readPos - 1) - b.maxSize = b.readPos - 1 by omega]
      · rw [if_neg htwo, if_pos (by omega), show b.maxSize - w' + b.readPos - 1 = b.maxSize - w' by omega]

theorem Valid.getSpace_none (h : b.Valid) {offset : Nat} (hroom : b.writeableSize ≤ offset + 1)
    (hsize : offset + 1 < 2 ^ 64) : b.getSpace offset = .ok [] := by
  have hone : u64Add offset 1 = offset + 1 := Nat.mod_eq_of_lt hsize
  unfold CircularBuffer.getSpace
  rw [require_of h.readPos, require_of h.writePos, ok_bind, ok_bind, hone, if_pos hroom]
  rfl

/-- **What `GetSpace` shows** is the free part of the ring, and filling it writes behind the queue. -/
theorem Valid.getSpace (h : b.Valid) (hroom : 1 < b.writeableSize) : ∃ segments,
    b.getSpace 0 = .ok segments ∧ totalBytes segments = b.writeableSize ∧
    ∀ data : Bytes, data.length ≤ b.writeableSize →
      fill b.buffer segments data = .ok (Ring.putAround b.buffer b.writePos data) := by
  have hw := h.writePos
  have hfree := h.writeableSize_eq
  have hspace := @Valid.getSpace_eq b h 0 hroom
  rw [Nat.add_zero, Nat.mod_eq_of_lt hw, Nat.sub_zero] at hspace
  exact ⟨_, hspace, totalBytes_arc hw.le, fun data hdata => fill_arc h.length hw.le (by omega) hdata⟩

theorem roundLoop_eq {size t : Nat} (hsize : size ≤ 2 ^ t) (ht : t < 64) (fuel k : Nat) (hk : k ≤ t)
    (hfuel : t < k + fuel) : ∃ j, j ≤ t ∧ size ≤ 2 ^ j ∧ roundLoop size fuel (2 ^ k) = some (2 ^ j) := by
  induction fuel generalizing k with
  | zero => omega
  | succ fuel ih =>
      unfold roundLoop
      split_ifs with hlt
      · have hkt : k ≠ t := by
          rintro rfl
          omega
        have hdouble : 2 ^ k * 2 % 2 ^ 64 = 2 ^ (k + 1) := by
          rw [← Nat.pow_succ]
          exact Nat.mod_eq_of_lt (Nat.pow_lt_pow_right (by decide) (by omega))
        rw [hdouble]
        exact ih (k + 1) (by omega) (by omega)
      · exact ⟨k, hk, Nat.le_of_not_lt hlt, rfl⟩

theorem roundUp2Power_eq {size t : Nat} (hpos : 0 < size) (hsize : size ≤ 2 ^ t) (ht : t < 64) :
    ∃ j, j ≤ t ∧ size ≤ 2 ^ j ∧ roundUp2Power size = some (2 ^ j) := by
  rw [roundUp2Power, if_neg (by omega)]
  exact roundLoop_eq hsize ht 65 0 (Nat.zero_le t) (by omega)

/-- A new ring has room for less than its size, and nothing in it. -/
theorem new_valid {size t : Nat} (hpos : 0 < size) (hsize : size ≤ 2 ^ t) (ht : t < 64) :
    ∃ b, new size = some b ∧ b.Valid ∧ b.maxSize ≤ 2 ^ t ∧ size ≤ b.maxSize ∧ b.content = [] := by
  obtain ⟨j, hj, hle, hround⟩ := roundUp2Power_eq hpos hsize ht
  have hnew : new size = some ⟨2 ^ j, 0, 0, List.replicate (2 ^ j) 0⟩ := by
    rw [new, hround]
    rfl
  have hvalid : CircularBuffer.Valid ⟨2 ^ j, 0, 0, List.replicate (2 ^ j) 0⟩ :=
    ⟨⟨j, by omega, rfl⟩, Nat.two_pow_pos j, Nat.two_pow_pos j, List.length_replicate⟩
  exact ⟨_, hnew, hvalid, Nat.pow_le_pow_right (by decide) hj, hle, hvalid.isEmpty_iff.mp rfl⟩

end CircularBuffer

end Eraft
