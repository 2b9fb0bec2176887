import Eraft.CircularBuffer

/-! `CircularBuffer` as a queue of bytes. A sequence of calls on a new ring gives the results that it would
give on a list, and leaves the bytes of that list to be read. Three narrow places have to be kept away
from: `PushData` keeps in an `int` how many bytes go to the beginning of the ring, `PeekData` without a
destination does not look at the size, and the test of `GetSpace` adds 1 to the offset. -/

namespace Eraft.CircularBuffer

/-- A call of a user: `PushData`; `PeekData`, with or without a destination; `GetDatum`, then
`AdjustReadPtr(k)`; `GetSpace`, then the data is put there and `AdjustWritePtr` called. -/
inductive RingOp where
  | push (data : Bytes)
  | peek (given : Bool) (nSize : Nat)
  | take (maxSize offset k : Nat)
  | put (data : Bytes)
  deriving DecidableEq

/-- What the user gets: whether the call succeeded, the bytes, or the size of the space. -/
inductive RingResult where
  | pushed (ok : Bool)
  | peeked (ok : Bool) (data : Bytes)
  | shown (data : Bytes)
  | space (size : Nat)
  deriving DecidableEq

variable {b b' : CircularBuffer} {q data : Bytes} {op : RingOp} {ops : List RingOp}

def exec (b : CircularBuffer) : RingOp → Except Fault (RingResult × CircularBuffer)
  | .push data => do
      let (ok, b) ← b.pushData data
      return (.pushed ok, b)
  | .peek given nSize => do
      let (ok, data, b) ← b.peekData given nSize
      return (.peeked ok data, b)
  | .take maxSize offset k => do
      let segments ← b.getDatum maxSize offset
      return (.shown (load b.buffer segments), b.adjustReadPtr k)
  | .put data => do
      let segments ← b.getSpace 0
      let buffer ← fill b.buffer segments data
      return (.space (totalBytes segments), { b with buffer := buffer }.adjustWritePtr data.length)

def execAll (b : CircularBuffer) : List RingOp → Except Fault (List RingResult × CircularBuffer)
  | [] => .ok ([], b)
  | op :: ops => do
      let (result, b) ← b.exec op
      let (results, b) ← b.execAll ops
      return (result :: results, b)

/-- The space that is shown when `free` bytes are free: a single one is not. -/
def spaceOf (free : Nat) : Nat := if free ≤ 1 then 0 else free

/-- The same calls on a queue of at most `cap` bytes. -/
def queueExec (cap : Nat) (q : Bytes) : RingOp → RingResult × Bytes
  | .push data => if q.length + data.length ≤ cap then (.pushed true, q ++ data) else (.pushed false, q)
  | .peek given nSize =>
      if nSize ≤ q.length then (.peeked true (if given then q.take nSize else []), q.drop nSize)
      else (.peeked false [], q)
  | .take maxSize offset k => (.shown ((q.drop offset).take maxSize), q.drop k)
  | .put data => (.space (spaceOf (cap - q.length)), q ++ data)

def queueExecAll (cap : Nat) (q : Bytes) : List RingOp → List RingResult × Bytes
  | [] => ([], q)
  | op :: ops =>
      let (result, q) := queueExec cap q op
      let (results, q) := queueExecAll cap q ops
      (result :: results, q)

/-- Sizes are `size_t`, and a user stays within what was shown. -/
def Proper (b : CircularBuffer) : RingOp → Prop
  | .push data => data.length < 2 ^ 64
  | .peek _ nSize => nSize < 2 ^ 64
  | .take maxSize offset k => maxSize < 2 ^ 64 ∧ offset < 2 ^ 64 ∧
      ∀ segments, b.getDatum maxSize offset = .ok segments → k ≤ totalBytes segments
  | .put data => ∀ segments, b.getSpace 0 = .ok segments → data.length ≤ totalBytes segments

/-- What the ring can do with its machine integers: less than `2 ^ 31` bytes of accepted data go to the
beginning of the ring, and bytes are not skipped that are not there. -/
def InRange (b : CircularBuffer) : RingOp → Prop
  | .push data => data.length ≤ b.writeableSize → data.length - (b.maxSize - b.writePos) < 2 ^ 31
  | .peek given nSize => given = true ∨ nSize ≤ b.readableSize
  | .take _ _ _ => True
  | .put _ => True

/-- All calls of the sequence are proper and in range when they are made. -/
def Admissible (b : CircularBuffer) : List RingOp → Prop
  | [] => True
  | op :: ops => b.Proper op ∧ b.InRange op ∧ ∀ result b', b.exec op = .ok (result, b') → b'.Admissible ops

/-- The cell holds a readable byte. -/
def ReadableAt (b : CircularBuffer) (i : Nat) : Prop := ∃ j < b.readableSize, i = (b.readPos + j) % b.maxSize

/-- The ring is the queue `q`. -/
structure IsQueue (b : CircularBuffer) (q : Bytes) : Prop where
  content : b.content = q
  length_le : q.length ≤ b.maxSize - 1
  readableSize : b.readableSize = q.length
  writeableSize : b.writeableSize = b.maxSize - 1 - q.length
  isEmpty : b.isEmpty = true ↔ q = []
  isFull : b.isFull = true ↔ q.length = b.maxSize - 1
  pushData : ∀ data : Bytes, data.length < 2 ^ 64 → b.writeableSize < data.length →
    b.pushData data = .ok (false, b)
  peekData : ∀ nSize, nSize < 2 ^ 64 → b.readableSize < nSize → b.peekData true nSize = .ok (false, [], b)
  getDatum : ∀ maxSize offset, maxSize < 2 ^ 64 → offset < 2 ^ 64 → ∃ segments,
    b.getDatum maxSize offset = .ok segments ∧ load b.buffer segments = (q.drop offset).take maxSize ∧
    totalBytes segments = min maxSize (b.readableSize - offset)
  getSpace : ∀ offset, offset + 1 < 2 ^ 64 → ∃ segments, b.getSpace offset = .ok segments ∧
    (b.writeableSize - offset ≤ 1 → segments = []) ∧
    totalBytes segments = spaceOf (b.writeableSize - offset) ∧
    ∀ s ∈ segments, ∀ i, s.base ≤ i → i < s.base + s.len → i < b.maxSize ∧ ¬b.ReadableAt i

/-- The part of the ring that `GetSpace` shows is not readable. -/
theorem Valid.not_readableAt (h : b.Valid) {offset i : Nat} {s : Segment} (hroom : offset + 1 < b.writeableSize)
    (hs : s ∈ arc b.maxSize ((b.writePos + offset) % b.maxSize) (b.writeableSize - offset)) (hle : s.base ≤ i)
    (hlt : i < s.base + s.len) : i < b.maxSize ∧ ¬b.ReadableAt i := by
  have hr := h.readPos
  have hw := h.writePos
  have hfree := h.writeableSize_eq
  have hreadable := h.readableSize_lt
  obtain ⟨hi, hdist⟩ := dist_lt_of_mem_arc hs (Nat.mod_lt _ h.pos) (by omega) hle hlt
  refine ⟨hi, ?_⟩
  rintro ⟨j, hj, rfl⟩
  -- both the cell and the write position are ahead of the read position, the cell by less
  rw [Ring.dist_eq (Nat.mod_lt _ h.pos) hi, Ring.add_mod_eq hw (by omega),
    Ring.add_mod_eq hr (by omega)] at hdist
  rw [h.readableSize_eq, Ring.dist_eq hr hw] at hfree hj
  split_ifs at hdist hfree hj <;> omega

theorem Valid.isQueue (h : b.Valid) : b.IsQueue b.content := by
  have hlen := h.length_content
  have hlt := h.readableSize_lt
  have hfree := h.writeableSize_eq
  refine ⟨rfl, by omega, hlen.symm, by omega, h.isEmpty_iff, h.isFull_iff,
    fun data hsize hfull => pushData_full hfull hsize,
    fun n hsize hshort => peekData_short hshort hsize, ?_, ?_⟩
  · intro m offset _ _
    obtain ⟨segments, hok, htotal, hload⟩ := h.getDatum m offset
    refine ⟨segments, hok, ?_, htotal⟩
    rw [hload b.buffer h.length, content]
    by_cases hoff : offset ≤ b.readableSize
    · rw [Ring.drop_held hoff (by rw [h.length]; exact hlt.le)]
      rcases Nat.le_total m (b.readableSize - offset) with hm | hm
      · rw [Nat.min_eq_left hm, Ring.take_held hm]
      · have hrest : (Ring.held b.buffer (b.readPos + offset) (b.readableSize - offset)).length ≤ m := by
          rw [Ring.length_held (by rw [h.length]; omega)]
          exact hm
        rw [Nat.min_eq_right hm, List.take_of_length_le hrest]
    · have hnone : b.content.drop offset = [] := List.drop_of_length_le (by omega)
      have hzero : min m (b.readableSize - offset) = 0 := by omega
      rw [← content, hnone, List.take_nil, hzero, Ring.held_zero]
  · intro offset hsize
    by_cases hroom : offset + 1 < b.writeableSize
    · refine ⟨_, h.getSpace_eq hroom, by omega, ?_, fun s hs i hle hlt => h.not_readableAt hroom hs hle hlt⟩
      rw [totalBytes_arc (Nat.mod_lt _ h.pos).le, spaceOf, if_neg (by omega)]
    · refine ⟨[], h.getSpace_none (Nat.le_of_not_lt hroom) hsize, fun _ => rfl, ?_,
        fun s hs => (List.not_mem_nil hs).elim⟩
      rw [spaceOf, if_pos (by omega)]
      rfl

/-- The space at the write position, and what filling it does. -/
theorem Valid.fillSpace (h : b.Valid) : ∃ segments, b.getSpace 0 = .ok segments ∧
    totalBytes segments = spaceOf b.writeableSize ∧ ∀ data : Bytes, data.length ≤ totalBytes segments →
      fill b.buffer segments data = .ok (Ring.putAround b.buffer b.writePos data) := by
  unfold spaceOf
  by_cases hroom : 1 < b.writeableSize
  · obtain ⟨segments, hok, htotal, hfill⟩ := h.getSpace hroom
    rw [if_neg (by omega)]
    exact ⟨segments, hok, htotal, fun data hdata => hfill data (htotal ▸ hdata)⟩
  · rw [if_pos (by omega)]
    refine ⟨[], h.getSpace_none (by omega) (by decide), rfl, fun data hdata => ?_⟩
    have hw := h.writePos
    have hlen := h.length
    obtain rfl : data = [] := List.length_eq_zero_iff.mp (Nat.le_zero.mp hdata)
    rw [Ring.putAround, if_pos (by rw [List.length_nil]; omega), Ring.put_nil, fill]

theorem Valid.exec_take (h : b.Valid) {m offset k : Nat} (hproper : b.Proper (.take m offset k)) :
    k ≤ b.readableSize ∧ b.exec (.take m offset k) =
      .ok (.shown ((b.content.drop offset).take m), b.adjustReadPtr k) := by
  obtain ⟨hmax, hoff, hk⟩ := hproper
  obtain ⟨segments, hok, hload, htotal⟩ := h.isQueue.getDatum m offset hmax hoff
  refine ⟨(hk segments hok).trans (by omega), ?_⟩
  rw [CircularBuffer.exec, hok, ok_bind, hload]
  rfl

theorem Valid.exec_put (h : b.Valid) (hproper : b.Proper (.put data)) :
    data.length ≤ b.writeableSize ∧ b.exec (.put data) = .ok (.space (spaceOf b.writeableSize),
      { b with buffer := Ring.putAround b.buffer b.writePos data }.adjustWritePtr data.length) := by
  obtain ⟨segments, hok, htotal, hfill⟩ := h.fillSpace
  have hdata := hproper segments hok
  constructor
  · rw [htotal, spaceOf] at hdata
    split_ifs at hdata <;> omega
  · rw [CircularBuffer.exec, hok, ok_bind, hfill data hdata, htotal]
    rfl

/-- **One call.** The ring gives the result of the queue, and is the queue afterwards. -/
theorem Valid.exec (h : b.Valid) (hproper : b.Proper op) (hrange : b.InRange op) :
    ∃ b', b.exec op = .ok ((queueExec (b.maxSize - 1) b.content op).1, b') ∧ b'.Valid ∧
      b'.maxSize = b.maxSize ∧ b'.content = (queueExec (b.maxSize - 1) b.content op).2 := by
  have hlen := h.length_content
  have hlt := h.readableSize_lt
  have hfree := h.writeableSize_eq
  cases op with
  | push data =>
      rw [CircularBuffer.exec, queueExec]
      by_cases hroom : data.length ≤ b.writeableSize
      · obtain ⟨b', hpush, hvalid, hmax, _, hcontent⟩ := h.pushData (hrange hroom) hroom
        rw [if_pos (by omega), hpush]
        exact ⟨b', rfl, hvalid, hmax, hcontent⟩
      · rw [if_neg (by omega), pushData_full (Nat.lt_of_not_le hroom) hproper]
        exact ⟨b, rfl, h, rfl, rfl⟩
  | peek given nSize =>
      rw [CircularBuffer.exec, queueExec]
      by_cases hn : nSize ≤ b.readableSize
      · obtain ⟨hvalid, hcontent⟩ := h.adjustReadPtr hn
        rw [if_pos (by omega), h.peekData hn]
        exact ⟨_, rfl, hvalid, rfl, hcontent⟩
      · have hgiven : given = true := hrange.resolve_right hn
        rw [if_neg (by omega), hgiven, peekData_short (Nat.lt_of_not_le hn) hproper]
        exact ⟨b, rfl, h, rfl, rfl⟩
  | take maxSize offset k =>
      obtain ⟨hle, hexec⟩ := h.exec_take hproper
      obtain ⟨hvalid, hcontent⟩ := h.adjustReadPtr hle
      exact ⟨_, hexec, hvalid, rfl, hcontent⟩
  | put data =>
      obtain ⟨hroom, hexec⟩ := h.exec_put hproper
      obtain ⟨hvalid, hcontent⟩ := h.adjustWritePtr hroom
      have hspace : b.maxSize - 1 - b.content.length = b.writeableSize := by omega
      rw [hexec, queueExec, hspace]
      exact ⟨_, rfl, hvalid, rfl, hcontent⟩

theorem Valid.execAll (h : b.Valid) (hops : b.Admissible ops) :
    ∃ b', b.execAll ops = .ok ((queueExecAll (b.maxSize - 1) b.content ops).1, b') ∧ b'.Valid ∧
      b'.maxSize = b.maxSize ∧ b'.content = (queueExecAll (b.maxSize - 1) b.content ops).2 := by
  induction ops generalizing b with
  | nil => exact ⟨b, rfl, h, rfl, rfl⟩
  | cons op ops ih =>
      obtain ⟨hproper, hrange, hrest⟩ := hops
      obtain ⟨b₁, hexec, hvalid, hmax, hcontent⟩ := h.exec hproper hrange
      obtain ⟨b₂, hexec₂, hvalid₂, hmax₂, hcontent₂⟩ := ih hvalid (hrest _ b₁ hexec)
      rw [hmax, hcontent] at hexec₂ hcontent₂
      refine ⟨b₂, ?_, hvalid₂, hmax₂.trans hmax, hcontent₂⟩
      unfold CircularBuffer.execAll
      rw [hexec, ok_bind]
      dsimp only
      rw [hexec₂]
      rfl

/-- **The ring is a queue** of one byte less than its size, after every sequence of calls that are in
range. -/
theorem ring_is_queue {k : Nat} (hk : k < 64) (hnew : new (2 ^ k) = some b) (hops : b.Admissible ops) :
    ∃ b', b.execAll ops = .ok ((queueExecAll (2 ^ k - 1) [] ops).1, b') ∧ b'.maxSize = 2 ^ k ∧
      b'.IsQueue (queueExecAll (2 ^ k - 1) [] ops).2 := by
  obtain ⟨b₀, hb₀, hvalid, hle, hge, hempty⟩ := new_valid (Nat.two_pow_pos k) (Nat.le_refl (2 ^ k)) hk
  cases hnew.symm.trans hb₀
  have hmax : b.maxSize = 2 ^ k := Nat.le_antisymm hle hge
  obtain ⟨b', hexec, hvalid', hmax', hcontent⟩ := hvalid.execAll hops
  rw [hmax, hempty] at hexec hcontent
  exact ⟨b', hexec, hmax'.trans hmax, hcontent ▸ hvalid'.isQueue⟩

theorem ring_is_queue_of_four : ∃ b b', new (2 ^ 2) = some b ∧
    b.execAll [.push [1, 2, 3], .peek true 2, .push [4, 5]] =
      .ok ([.pushed true, .peeked true [1, 2], .pushed true], b') ∧ b'.IsQueue [3, 4, 5] := by
  have hnew : new (2 ^ 2) = some ⟨4, 0, 0, [0, 0, 0, 0]⟩ := by decide +kernel
  have hfirst : CircularBuffer.exec ⟨4, 0, 0, [0, 0, 0, 0]⟩ (.push [1, 2, 3]) =
    .ok (.pushed true, ⟨4, 0, 3, [1, 2, 3, 0]⟩) := by decide +kernel
  have hsecond : CircularBuffer.exec ⟨4, 0, 3, [1, 2, 3, 0]⟩ (.peek true 2) =
    .ok (.peeked true [1, 2], ⟨4, 2, 3, [1, 2, 3, 0]⟩) := by decide +kernel
  have hops : Admissible ⟨4, 0, 0, [0, 0, 0, 0]⟩ [.push [1, 2, 3], .peek true 2, .push [4, 5]] := by
    refine ⟨(by decide : 3 < 2 ^ 64), fun _ => by decide, fun result b₁ h₁ => ?_⟩
    cases hfirst.symm.trans h₁
    refine ⟨(by decide : 2 < 2 ^ 64), .inl rfl, fun result b₂ h₂ => ?_⟩
    cases hsecond.symm.trans h₂
    exact ⟨(by decide : 2 < 2 ^ 64), fun _ => by decide, fun _ _ _ => trivial⟩
  obtain ⟨b', hexec, _, hqueue⟩ := ring_is_queue (by decide) hnew hops
  exact ⟨_, b', hnew, hexec, hqueue⟩

/-- If the number of bytes for the beginning of the ring is not an `int`, they are not written. -/
theorem Valid.pushData_truncated (h : b.Valid) (hempty : b.readPos = b.writePos)
    (hroom : data.length ≤ b.writeableSize) (hlong : b.maxSize - b.writePos < data.length)
    (hwrap : toInt (data.length - (b.maxSize - b.writePos) : Nat) ≤ 0) : b.pushData data = .ok (true,
      { b with buffer := Ring.put b.buffer b.writePos (data.take (b.maxSize - b.writePos)) }.adjustWritePtr
        data.length) := by
  have hw := h.writePos
  have hmax := h.maxSize_lt
  have hfree := h.writeableSize_eq
  have hadd : u64Add 0 data.length = data.length := by
    rw [u64Add, Nat.zero_add, Nat.mod_eq_of_lt (by omega)]
  have hpos : u64Add b.writePos 0 &&& b.mask = b.writePos := by
    rw [h.u64Add_mask, Nat.add_zero, Nat.mod_eq_of_lt hw]
  have havail : u64Sub b.maxSize b.writePos = b.maxSize - b.writePos := u64Sub_of_le hw.le
  have hboth : u64Add (b.maxSize - b.writePos) b.readPos = b.maxSize - b.writePos + b.readPos :=
    Nat.mod_eq_of_lt (by omega)
  have hfirst : b.writePos + (data.take (b.maxSize - b.writePos)).length ≤ b.buffer.length := by
    rw [List.length_take, h.length]
    omega
  have hat : b.pushDataAt data 0 =
      .ok (true, { b with buffer := Ring.put b.buffer b.writePos (data.take (b.maxSize - b.writePos)) }) := by
    unfold pushDataAt
    dsimp only
    rw [if_neg (by omega), hadd, if_neg (by omega), hpos, if_neg (by omega), havail, hboth, require_of (by omega),
      ok_bind, if_neg (by omega), store_of_le hfirst, ok_bind, if_neg (Int.not_lt.mpr hwrap)]
    rfl
  unfold CircularBuffer.pushData
  rw [hat]
  rfl

/-- A ring of `2 ^ 32` bytes whose positions are at the last cell. Of `2 ^ 31 + 1` bytes only the first is
written, and the next byte to be read is what was there before. -/
theorem Valid.pushData_lost (h : b.Valid) (hmax : b.maxSize = 2 ^ 32) (hr : b.readPos = 2 ^ 32 - 1)
    (hw : b.writePos = 2 ^ 32 - 1) (hlen : data.length = 2 ^ 31 + 1) :
    ∃ b', b.pushData data = .ok (true, b') ∧ b'.content.length = data.length ∧
      b'.content[1]? = b.buffer[0]? := by
  have hempty : b.readableSize = 0 := by
    rw [h.readableSize_eq, Ring.dist_of_le h.writePos (by omega), hr, hw, Nat.sub_self]
  have hfree := h.writeableSize_eq
  have hroom : data.length ≤ b.writeableSize := by omega
  have hsum : data.length - (b.maxSize - b.writePos) = 2 ^ 31 := by omega
  have hpush := h.pushData_truncated (hr.trans hw.symm) hroom (by omega) (by rw [hsum]; decide)
  have hfirst : b.writePos + (data.take (b.maxSize - b.writePos)).length ≤ b.buffer.length := by
    rw [List.length_take, h.length]
    omega
  obtain ⟨hvalid, hreadable⟩ := h.moveWritePos ((Ring.length_put hfirst).trans h.length) hroom
  rw [hempty, Nat.zero_add] at hreadable
  refine ⟨_, hpush, by rw [hvalid.length_content, hreadable], ?_⟩
  have hcell : (b.readPos + 1) % b.maxSize = 0 := by
    rw [hr, hmax]
    rfl
  generalize hn : data.length = n at hvalid hreadable
  rw [content, Ring.getElem?_held (by rw [hvalid.length]; exact hvalid.readableSize_lt.le) (by omega),
    hvalid.length]
  show (Ring.put b.buffer b.writePos _)[(b.readPos + 1) % b.maxSize]? = _
  rw [hcell, Ring.getElem?_put hfirst, if_neg (by omega)]

theorem new_positions {size : Nat} (hnew : new size = some b) : b.readPos = 0 ∧ b.writePos = 0 := by
  obtain ⟨maxSize, _, hb⟩ := Option.bind_eq_some_iff.mp hnew
  cases hb
  exact ⟨rfl, rfl⟩

/-- A ring that is read from its beginning holds what is in front of the write position. -/
theorem Valid.readableSize_of_zero (h : b.Valid) (hr : b.readPos = 0) : b.readableSize = b.writePos := by
  rw [h.readableSize_eq, hr, Ring.dist_of_le h.writePos (Nat.zero_le _), Nat.sub_zero]

/-- An empty ring is filled from its beginning. -/
theorem Valid.put_all (h : b.Valid) (hr : b.readPos = 0) (hw : b.writePos = 0) {old : Bytes}
    (hone : 1 < old.length) (hold : old.length + 1 = b.maxSize) : b.Proper (.put old) ∧ ∃ b₁ result,
      b.exec (.put old) = .ok (result, b₁) ∧ b₁.Valid ∧ b₁.maxSize = b.maxSize ∧ b₁.readPos = 0 ∧
      b₁.writePos = old.length ∧ b₁.buffer[0]? = old[0]? := by
  have hempty : b.readableSize = 0 := (h.readableSize_of_zero hr).trans hw
  have hfree := h.writeableSize_eq
  have hproper : b.Proper (.put old) := by
    intro segments hok
    obtain ⟨segments', hok', htotal, _⟩ := h.fillSpace
    cases hok'.symm.trans hok
    rw [htotal, spaceOf, if_neg (by omega)]
    omega
  obtain ⟨hroom, hexec⟩ := h.exec_put hproper
  obtain ⟨hvalid, _⟩ := h.adjustWritePtr hroom
  refine ⟨hproper, _, _, hexec, hvalid, rfl, hr, ?_, ?_⟩
  · refine (h.u64Add_mask _ _).trans ?_
    rw [hw, Nat.zero_add, Nat.mod_eq_of_lt (by omega)]
  · have hlen := h.length
    show (Ring.putAround b.buffer b.writePos old)[0]? = old[0]?
    rw [Ring.getElem?_putAround (by omega) (by omega) (by omega), hw, Ring.dist_of_le (by omega) le_rfl,
      Nat.sub_self, if_pos (by omega)]

/-- All that a ring holds is taken, which brings the read position to the write position. -/
theorem Valid.take_all (h : b.Valid) (hr : b.readPos = 0) {k n : Nat} (hk : b.writePos = k) (hle : k ≤ n)
    (hn : n < 2 ^ 64) : b.Proper (.take n 0 k) ∧ ∃ b₂ result, b.exec (.take n 0 k) = .ok (result, b₂) ∧
      b₂.Valid ∧ b₂.content = [] ∧ b₂.maxSize = b.maxSize ∧ b₂.readPos = k ∧ b₂.writePos = k ∧
      b₂.buffer = b.buffer := by
  have hall : b.readableSize = k := (h.readableSize_of_zero hr).trans hk
  have hproper : b.Proper (.take n 0 k) := by
    refine ⟨hn, by decide, fun segments hok => ?_⟩
    obtain ⟨segments', hok', htotal, _⟩ := h.getDatum n 0
    cases hok'.symm.trans hok
    rw [htotal, hall]
    omega
  obtain ⟨hread, hexec⟩ := h.exec_take hproper
  obtain ⟨hvalid, hcontent⟩ := h.adjustReadPtr hread
  refine ⟨hproper, _, _, hexec, hvalid, ?_, rfl, ?_, hk, rfl⟩
  · rw [hcontent, List.drop_of_length_le (by rw [h.length_content, hall])]
  · refine (h.u64Add_mask _ _).trans ?_
    rw [hr, Nat.zero_add, Nat.mod_eq_of_lt (hk ▸ h.writePos)]

/-- The ring of `2 ^ 32` bytes is filled with `old` and emptied, which takes its positions to the last
cell. -/
theorem new_filled {old : Bytes} (hnew : new (2 ^ 32) = some b) (hold : old.length = 2 ^ 32 - 1) :
    b.Admissible [.put old, .take (2 ^ 32) 0 (2 ^ 32 - 1)] ∧ ∃ b₂ results,
      b.execAll [.put old, .take (2 ^ 32) 0 (2 ^ 32 - 1)] = .ok (results, b₂) ∧ b₂.Valid ∧ b₂.content = [] ∧
      b₂.maxSize = 2 ^ 32 ∧ b₂.readPos = 2 ^ 32 - 1 ∧ b₂.writePos = 2 ^ 32 - 1 ∧ b₂.buffer[0]? = old[0]? := by
  obtain ⟨b₀, hb₀, hvalid, hle, hge, _⟩ := new_valid (Nat.two_pow_pos 32) (Nat.le_refl (2 ^ 32)) (by decide)
  cases hnew.symm.trans hb₀
  obtain ⟨hr, hw⟩ := new_positions hnew
  have hmax : b.maxSize = 2 ^ 32 := Nat.le_antisymm hle hge
  obtain ⟨hproper, b₁, result, hexec, hvalid₁, hmax₁, hr₁, hw₁, hcell⟩ :=
    hvalid.put_all hr hw (by omega) (by omega : old.length + 1 = b.maxSize)
  obtain ⟨hproper₁, b₂, result₁, hexec₁, hvalid₂, hempty, hmax₂, hr₂, hw₂, hbuffer⟩ :=
    hvalid₁.take_all hr₁ (hw₁.trans hold) (Nat.sub_le (2 ^ 32) 1) (by decide)
  have hadmissible : b.Admissible [.put old, .take (2 ^ 32) 0 (2 ^ 32 - 1)] := by
    refine ⟨hproper, trivial, fun result' b' h => ?_⟩
    cases hexec.symm.trans h
    exact ⟨hproper₁, trivial, fun _ _ _ => trivial⟩
  have hall : b.execAll [.put old, .take (2 ^ 32) 0 (2 ^ 32 - 1)] = .ok ([result, result₁], b₂) := by
    rw [execAll, hexec, ok_bind]
    dsimp only
    rw [execAll, hexec₁]
    rfl
  exact ⟨hadmissible, b₂, _, hall, hvalid₂, hempty, (hmax₂.trans hmax₁).trans hmax, hr₂, hw₂,
    (congrArg (·[0]?) hbuffer).trans hcell⟩

/-- **A large ring is not a queue**: the bytes that are pushed do not come out again. -/
theorem not_ring_is_queue : ∃ b b₂ b₃ ops results data, new (2 ^ 32) = some b ∧ b.Admissible ops ∧
    b.execAll ops = .ok (results, b₂) ∧ b₂.content = [] ∧ b₂.Proper (.push data) ∧
    b₂.exec (.push data) = .ok (.pushed true, b₃) ∧ b₃.content.length = data.length ∧ b₃.content ≠ data := by
  obtain ⟨old, hold, hzero⟩ : ∃ old : Bytes, old.length = 2 ^ 32 - 1 ∧ old[0]? = some 0 :=
    ⟨List.replicate (2 ^ 32 - 1) 0, List.length_replicate, List.getElem?_replicate_of_lt (by decide)⟩
  obtain ⟨data, hdata, hone⟩ : ∃ data : Bytes, data.length = 2 ^ 31 + 1 ∧ data[1]? = some 1 :=
    ⟨List.replicate (2 ^ 31 + 1) 1, List.length_replicate, List.getElem?_replicate_of_lt (by decide)⟩
  obtain ⟨b, hnew, _⟩ := new_valid (Nat.two_pow_pos 32) (Nat.le_refl (2 ^ 32)) (by decide)
  obtain ⟨hops, b₂, results, hexec, hvalid, hempty, hmax, hr, hw, hcell⟩ := new_filled hnew hold
  obtain ⟨b₃, hpush, hlen, hlost⟩ := hvalid.pushData_lost hmax hr hw hdata
  refine ⟨b, b₂, b₃, _, results, data, hnew, hops, hexec, hempty, ?_, ?_, hlen, fun heq => ?_⟩
  · show data.length < 2 ^ 64
    rw [hdata]
    decide
  · rw [exec, hpush]
    rfl
  · rw [heq, hone, hcell, hzero] at hlost
    exact absurd hlost (by decide)

end Eraft.CircularBuffer
