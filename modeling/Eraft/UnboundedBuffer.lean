import Eraft.CircularBuffer

/-! `UnboundedBuffer` (`network/src/unbounded_buffer.cc`): a queue of bytes in a vector that grows. What is
read leaves a gap at the beginning, which is closed when the room at the end is used up. -/

namespace Eraft

/-- `MAX_BUFFER_SIZE`, half of the largest `size_t`. It is also the `max_size()` of the vector. -/
def maxBufferSize : Nat := (2 ^ 64 - 1) / 2

structure UnboundedBuffer where
  readPos : Nat := 0
  writePos : Nat := 0
  buffer : Bytes := []
  deriving DecidableEq

namespace UnboundedBuffer

/-- The next size that the loop of `_AssureSpace` tries. -/
def nextSize (maxSize : Nat) : Nat := if maxSize < 64 then 64 else maxSize + maxSize / 2

theorem lt_nextSize (maxSize : Nat) : maxSize < nextSize maxSize := by
  unfold nextSize
  split_ifs <;> omega

/-- The loop of `_AssureSpace`, which resizes the vector until the data fits behind what is not read yet.
The vector of the last size is all that is left of it. -/
def assureLoop (nSize readPos writePos maxSize : Nat) : Except Fault Nat :=
  if u64Add (u64Sub maxSize writePos) readPos < nSize then
    if maxSize ≤ maxBufferSize then
      if nextSize maxSize ≤ maxBufferSize then assureLoop nSize readPos writePos (nextSize maxSize)
      else .error .lengthError
    else .ok maxSize
  else .ok maxSize
termination_by maxBufferSize - maxSize
decreasing_by
  have := lt_nextSize maxSize
  omega

variable (u : UnboundedBuffer)

def readableSize : Nat := u64Sub u.writePos u.readPos

def writeableSize : Nat := u64Sub u.buffer.length u.writePos

def isEmpty : Bool := u.readableSize == 0

def adjustWritePtr (nBytes : Nat) : UnboundedBuffer := { u with writePos := u64Add u.writePos nBytes }

def adjustReadPtr (nBytes : Nat) : UnboundedBuffer := { u with readPos := u64Add u.readPos nBytes }

/-- `_AssureSpace`. -/
def assureSpace (nSize : Nat) : Except Fault UnboundedBuffer :=
  if nSize ≤ u.writeableSize then .ok u
  else do
    let maxSize ← assureLoop nSize u.readPos u.writePos u.buffer.length
    let buffer := u.buffer ++ List.replicate (maxSize - u.buffer.length) 0
    if 0 < u.readPos then
      let dataSize := u.readableSize
      let buffer ← store buffer 0 ((buffer.drop u.readPos).take dataSize)
      return { readPos := 0, writePos := dataSize, buffer := buffer }
    else return { u with buffer := buffer }

def pushDataAt (data : Bytes) (offset : Nat) : Except Fault (Nat × UnboundedBuffer) :=
  let nSize := data.length
  if nSize = 0 then .ok (0, u)
  else if u.readableSize = maxBufferSize then .ok (0, u)
  else do
    let u ← u.assureSpace (u64Add nSize offset)
    require (u64Add nSize offset ≤ u.writeableSize)
    let buffer ← store u.buffer (u64Add u.writePos offset) data
    return (nSize, { u with buffer := buffer })

def pushData (data : Bytes) : Except Fault (Nat × UnboundedBuffer) := do
  let (nBytes, u) ← u.pushDataAt data 0
  return (nBytes, u.adjustWritePtr nBytes)

/-- `memcpy` from the position `p` of a buffer. -/
def fetch (buffer : Bytes) (p n : Nat) : Except Fault Bytes :=
  if p + n ≤ buffer.length then .ok ((buffer.drop p).take n) else .error .outOfBounds

/-- `PeekDataAt`: the bytes that are copied to the destination. -/
def peekDataAt (nSize offset : Nat) : Except Fault Bytes :=
  let dataSize := u.readableSize
  if nSize = 0 ∨ dataSize ≤ offset then .ok []
  else
    let nSize := if dataSize < u64Add nSize offset then u64Sub dataSize offset else nSize
    fetch u.buffer (u64Add u.readPos offset) nSize

def peekData (nSize : Nat) : Except Fault (Bytes × UnboundedBuffer) := do
  let data ← u.peekDataAt nSize 0
  return (data, u.adjustReadPtr data.length)

/-- `Shrink`. What the vector has allocated is an argument; when the function returns early, it stays. -/
def shrink (capacity : Nat) (tight : Bool) : Except Fault UnboundedBuffer := do
  require (capacity = u.buffer.length)
  if u.buffer = [] then
    require (u.readPos = 0)
    require (u.writePos = 0)
    return u
  else
    let dataSize := u.readableSize
    if tight = false ∧ u.buffer.length / 2 < dataSize then return u
    else
      let tmp ← fetch u.buffer u.readPos dataSize
      return { readPos := 0, writePos := dataSize, buffer := tmp }

def clear : UnboundedBuffer := { u with readPos := 0, writePos := 0 }

structure Valid : Prop where
  read_le : u.readPos ≤ u.writePos
  write_le : u.writePos ≤ u.buffer.length
  size_le : u.buffer.length ≤ maxBufferSize

/-- The readable bytes. -/
def content : Bytes := (u.buffer.take u.writePos).drop u.readPos

/-- The sizes a vector can get: by half from 64 on. The largest size that is allowed is not among
them. -/
def grownSizes : List Nat := 0 :: (List.range 98).map fun i => nextSize^[i] 64

theorem maxBufferSize_not_mem : maxBufferSize ∉ grownSizes := by decide +kernel

theorem nextSize_mem {n : Nat} (hn : n ∈ grownSizes) (hle : nextSize n ≤ maxBufferSize) :
    nextSize n ∈ grownSizes := by
  have hall : ∀ n ∈ grownSizes, nextSize n ≤ maxBufferSize → nextSize n ∈ grownSizes := by decide +kernel
  exact hall n hn hle

variable {u} {data : Bytes}

theorem Valid.new : Valid {} := ⟨le_rfl, le_rfl, Nat.zero_le _⟩

theorem Valid.readableSize_eq (h : u.Valid) : u.readableSize = u.writePos - u.readPos := u64Sub_of_le h.read_le

theorem Valid.writeableSize_eq (h : u.Valid) : u.writeableSize = u.buffer.length - u.writePos :=
  u64Sub_of_le h.write_le

theorem Valid.length_content (h : u.Valid) : u.content.length = u.readableSize := by
  rw [content, List.length_drop, List.length_take, Nat.min_eq_left h.write_le, h.readableSize_eq]

theorem Valid.isEmpty_iff (h : u.Valid) : u.isEmpty = true ↔ u.content = [] := by
  rw [← List.length_eq_zero_iff, h.length_content, isEmpty, beq_iff_eq]

theorem Valid.load_eq (h : u.Valid) : load u.buffer [⟨u.readPos, u.readableSize⟩] = u.content := by
  rw [CircularBuffer.load_singleton, h.readableSize_eq, content, List.drop_take]

theorem Valid.adjustReadPtr (h : u.Valid) {k : Nat} (hk : k ≤ u.readableSize) :
    (u.adjustReadPtr k).Valid ∧ (u.adjustReadPtr k).content = u.content.drop k := by
  have hread := h.read_le
  have hwrite := h.write_le
  have hsize : u.buffer.length ≤ (2 ^ 64 - 1) / 2 := h.size_le
  rw [h.readableSize_eq] at hk
  have hpos : (u.adjustReadPtr k).readPos = u.readPos + k := u64Add_of_lt (by omega)
  refine ⟨⟨?_, h.write_le, h.size_le⟩, ?_⟩
  · rw [hpos]
    show u.readPos + k ≤ u.writePos
    omega
  · rw [content, hpos, content, List.drop_drop]
    rfl

/-- The loop ends with room for the data, or the vector would be too long. -/
theorem assureLoop_spec {readPos writePos maxSize : Nat} (nSize : Nat) (hread : readPos ≤ writePos)
    (hwrite : writePos ≤ maxSize) (hsize : maxSize ≤ maxBufferSize) :
    (∃ size, assureLoop nSize readPos writePos maxSize = .ok size ∧ maxSize ≤ size ∧
      size ≤ maxBufferSize ∧ (maxSize ∈ grownSizes → size ∈ grownSizes) ∧
      nSize ≤ size - writePos + readPos) ∨
    (assureLoop nSize readPos writePos maxSize = .error .lengthError ∧
      2 ^ 62 < writePos - readPos + nSize) := by
  have hmax : maxSize ≤ (2 ^ 64 - 1) / 2 := hsize
  have hroom : u64Add (u64Sub maxSize writePos) readPos = maxSize - writePos + readPos := by
    rw [u64Sub_of_le hwrite, u64Add_of_lt (by omega)]
  unfold assureLoop
  rw [hroom]
  split_ifs with hneed hnext
  · rcases assureLoop_spec nSize hread (hwrite.trans (lt_nextSize maxSize).le) hnext with
      ⟨size, hok, hle, hmax', hmem, hfit⟩ | herr
    · exact .inl ⟨size, hok, (lt_nextSize maxSize).le.trans hle, hmax',
        fun hgrown => hmem (nextSize_mem hgrown hnext), hfit⟩
    · exact .inr herr
  · -- one and a half times the size is too much, so that what is needed is more than half of it
    refine .inr ⟨rfl, ?_⟩
    have hlong : (2 ^ 64 - 1) / 2 < nextSize maxSize := Nat.lt_of_not_le hnext
    unfold nextSize at hlong
    split_ifs at hlong <;> omega
  · exact .inl ⟨maxSize, rfl, le_rfl, hsize, id, Nat.le_of_not_lt hneed⟩
termination_by maxBufferSize - maxSize
decreasing_by
  have := lt_nextSize maxSize
  omega

/-- Growing the vector changes nothing but the room. -/
theorem Valid.grow (h : u.Valid) {size : Nat} (hle : u.buffer.length ≤ size) (hmax : size ≤ maxBufferSize) :
    (u.buffer ++ List.replicate (size - u.buffer.length) 0).length = size ∧
    Valid { u with buffer := u.buffer ++ List.replicate (size - u.buffer.length) 0 } ∧
    content { u with buffer := u.buffer ++ List.replicate (size - u.buffer.length) 0 } = u.content := by
  have hwrite := h.write_le
  have hlen : (u.buffer ++ List.replicate (size - u.buffer.length) 0).length = size := by
    rw [List.length_append, List.length_replicate]
    omega
  refine ⟨hlen, ⟨h.read_le, ?_, hlen.le.trans hmax⟩, ?_⟩
  · show u.writePos ≤ (u.buffer ++ List.replicate (size - u.buffer.length) 0).length
    omega
  · rw [content, List.take_append_of_le_length hwrite, content]

/-- Sliding the data to the front. -/
theorem Valid.slide (h : u.Valid) :
    store u.buffer 0 ((u.buffer.drop u.readPos).take u.readableSize) =
      .ok (Ring.put u.buffer 0 u.content) ∧
    (Ring.put u.buffer 0 u.content).length = u.buffer.length ∧
    Valid ⟨0, u.readableSize, Ring.put u.buffer 0 u.content⟩ ∧
    content ⟨0, u.readableSize, Ring.put u.buffer 0 u.content⟩ = u.content := by
  have hread := h.read_le
  have hwrite := h.write_le
  have hfits : 0 + u.content.length ≤ u.buffer.length := by
    rw [h.length_content, h.readableSize_eq]
    omega
  have hput : (Ring.put u.buffer 0 u.content).length = u.buffer.length := Ring.length_put hfits
  have hdata : (u.buffer.drop u.readPos).take u.readableSize = u.content := by
    rw [h.readableSize_eq, ← List.drop_take, content]
  refine ⟨?_, hput, ⟨Nat.zero_le _, ?_, hput ▸ h.size_le⟩, ?_⟩
  · rw [hdata, store_of_le hfits]
  · show u.readableSize ≤ (Ring.put u.buffer 0 u.content).length
    rw [hput, h.readableSize_eq]
    omega
  · show (Ring.put u.buffer 0 u.content).take u.readableSize = u.content
    rw [Ring.put, List.take_zero, List.nil_append, ← h.length_content, List.take_left]

/-- `_AssureSpace` keeps the content and makes room for the data. -/
theorem Valid.assureSpace (h : u.Valid) (nSize : Nat) :
    (∃ u', u.assureSpace nSize = .ok u' ∧ u'.Valid ∧
      (u.buffer.length ∈ grownSizes → u'.buffer.length ∈ grownSizes) ∧ u'.content = u.content ∧
      nSize ≤ u'.writeableSize) ∨
    (u.assureSpace nSize = .error .lengthError ∧ 2 ^ 62 < u.readableSize + nSize) := by
  have hread := h.read_le
  have hwrite := h.write_le
  unfold UnboundedBuffer.assureSpace
  by_cases hfit : nSize ≤ u.writeableSize
  · rw [if_pos hfit]
    exact .inl ⟨u, rfl, h, id, rfl, hfit⟩
  · rw [if_neg hfit]
    rcases assureLoop_spec nSize hread hwrite h.size_le with
      ⟨size, hok, hle, hmax, hmem, hneed⟩ | ⟨herr, hlong⟩
    · left
      obtain ⟨hlen, hvalid, hcontent⟩ := h.grow hle hmax
      rw [hok, ok_bind]
      dsimp only
      generalize u.buffer ++ List.replicate (size - u.buffer.length) (0 : UInt8) = grown at hlen hvalid hcontent
      by_cases hgap : 0 < u.readPos
      · obtain ⟨hstore, hput, hslid, hsame⟩ := hvalid.slide
        rw [hcontent] at hstore hput hslid hsame
        have hmoved : store grown 0 ((grown.drop u.readPos).take u.readableSize) =
          .ok (Ring.put grown 0 u.content) := hstore
        have hsize : (Ring.put grown 0 u.content).length = size := hput.trans hlen
        rw [if_pos hgap, hmoved, ok_bind]
        refine ⟨_, rfl, hslid, ?_, hsame, ?_⟩
        · rw [hsize]
          exact hmem
        · refine le_of_le_of_eq ?_ hslid.writeableSize_eq.symm
          show nSize ≤ (Ring.put grown 0 u.content).length - u.readableSize
          rw [hsize, h.readableSize_eq]
          omega
      · rw [if_neg hgap]
        refine ⟨_, rfl, hvalid, ?_, hcontent, ?_⟩
        · rw [hlen]
          exact hmem
        · rw [hvalid.writeableSize_eq, hlen]
          show nSize ≤ size - u.writePos
          omega
    · right
      rw [herr, h.readableSize_eq]
      exact ⟨rfl, hlong⟩

/-- Writing behind the content, where there is room. -/
theorem Valid.append (h : u.Valid) (hroom : data.length ≤ u.writeableSize) :
    store u.buffer u.writePos data = .ok (Ring.put u.buffer u.writePos data) ∧
    (Ring.put u.buffer u.writePos data).length = u.buffer.length ∧
    Valid (adjustWritePtr { u with buffer := Ring.put u.buffer u.writePos data } data.length) ∧
    content (adjustWritePtr { u with buffer := Ring.put u.buffer u.writePos data } data.length) =
      u.content ++ data := by
  have hread := h.read_le
  have hwrite := h.write_le
  have hmax : u.buffer.length ≤ (2 ^ 64 - 1) / 2 := h.size_le
  rw [h.writeableSize_eq] at hroom
  have hput : (Ring.put u.buffer u.writePos data).length = u.buffer.length := Ring.length_put (by omega)
  have hpos : u64Add u.writePos data.length = u.writePos + data.length := u64Add_of_lt (by omega)
  have htake : (u.buffer.take u.writePos).length = u.writePos := by
    rw [List.length_take, Nat.min_eq_left hwrite]
  refine ⟨store_of_le (by omega), hput, ⟨?_, ?_, ?_⟩, ?_⟩
  · show u.readPos ≤ u64Add u.writePos data.length
    omega
  · show u64Add u.writePos data.length ≤ (Ring.put u.buffer u.writePos data).length
    omega
  · show (Ring.put u.buffer u.writePos data).length ≤ maxBufferSize
    rw [hput]
    exact h.size_le
  · show ((Ring.put u.buffer u.writePos data).take (u64Add u.writePos data.length)).drop u.readPos = _
    rw [hpos, Ring.put, ← List.append_assoc, List.take_left' (by rw [List.length_append, htake]),
      List.drop_append_of_le_length (by rw [htake]; exact hread), content]

/-- **`PushData` appends**, or the vector would be too long. -/
theorem Valid.pushData_of_ne (h : u.Valid) (hne : u.readableSize ≠ maxBufferSize)
    (hdata : data.length < 2 ^ 64) :
    (∃ u', u.pushData data = .ok (data.length, u') ∧ u'.Valid ∧
      (u.buffer.length ∈ grownSizes → u'.buffer.length ∈ grownSizes) ∧ u'.content = u.content ++ data) ∨
    (u.pushData data = .error .lengthError ∧ 2 ^ 62 < u.readableSize + data.length) := by
  unfold UnboundedBuffer.pushData UnboundedBuffer.pushDataAt
  dsimp only
  by_cases hnil : data.length = 0
  · have hwrite := h.write_le
    have hmax : u.buffer.length ≤ (2 ^ 64 - 1) / 2 := h.size_le
    have hsame : u.adjustWritePtr 0 = u := by
      rw [adjustWritePtr, u64Add_of_lt (by omega), Nat.add_zero]
    rw [if_pos hnil, ok_bind]
    refine .inl ⟨u, ?_, h, id, ?_⟩
    · rw [hsame, hnil]
      rfl
    · rw [List.length_eq_zero_iff.mp hnil, List.append_nil]
  · have hadd : u64Add data.length 0 = data.length := u64Add_of_lt hdata
    rw [if_neg hnil, if_neg hne, hadd]
    rcases h.assureSpace data.length with ⟨u', hok, hvalid, hmem, hcontent, hroom⟩ | ⟨herr, hlong⟩
    · left
      obtain ⟨hstore, hput, hvalid', hcontent'⟩ := hvalid.append hroom
      have hwrite' := hvalid.write_le
      have hmax' : u'.buffer.length ≤ (2 ^ 64 - 1) / 2 := hvalid.size_le
      have hpos : u64Add u'.writePos 0 = u'.writePos := u64Add_of_lt (by omega)
      rw [hok, ok_bind, require_of hroom, ok_bind, hpos, hstore]
      refine ⟨_, rfl, hvalid', fun hgrown => ?_, hcontent ▸ hcontent'⟩
      show (Ring.put u'.buffer u'.writePos data).length ∈ grownSizes
      rw [hput]
      exact hmem hgrown
    · right
      rw [herr]
      exact ⟨rfl, hlong⟩

/-- A buffer that has only grown is never full. -/
theorem Valid.pushData (h : u.Valid) (hgrown : u.buffer.length ∈ grownSizes) (hdata : data.length < 2 ^ 64) :
    (∃ u', u.pushData data = .ok (data.length, u') ∧ u'.Valid ∧ u'.buffer.length ∈ grownSizes ∧
      u'.content = u.content ++ data) ∨
    (u.pushData data = .error .lengthError ∧ 2 ^ 62 < u.readableSize + data.length) := by
  have hne : u.readableSize ≠ maxBufferSize := by
    intro hfull
    have hall : u.buffer.length = maxBufferSize := by
      have hwrite := h.write_le
      have hle := h.size_le
      rw [h.readableSize_eq] at hfull
      omega
    exact maxBufferSize_not_mem (hall ▸ hgrown)
  rcases h.pushData_of_ne hne hdata with ⟨u', hok, hvalid, hmem, hcontent⟩ | herr
  · exact .inl ⟨u', hok, hvalid, hmem hgrown, hcontent⟩
  · exact .inr herr

theorem fetch_of_le {buffer : Bytes} {p n : Nat} (h : p + n ≤ buffer.length) :
    fetch buffer p n = .ok ((buffer.drop p).take n) := if_pos h

/-- Readable bytes are fetched from the content. -/
theorem Valid.fetch_content (h : u.Valid) {offset n : Nat} (hle : offset + n ≤ u.readableSize) :
    fetch u.buffer (u.readPos + offset) n = .ok ((u.content.drop offset).take n) := by
  have hread := h.read_le
  have hwrite := h.write_le
  rw [h.readableSize_eq] at hle
  rw [fetch_of_le (by omega), content, List.drop_drop, List.drop_take, List.take_take,
    Nat.min_eq_left (by omega)]

/-- **`PeekDataAt` shows what there is from the offset on**, unless the sum of its arguments is too large
for a `size_t`. -/
theorem Valid.peekDataAt (h : u.Valid) {nSize offset : Nat}
    (hsum : nSize = 0 ∨ u.readableSize ≤ offset ∨ nSize + offset < 2 ^ 64) :
    u.peekDataAt nSize offset = .ok ((u.content.drop offset).take nSize) := by
  have hread := h.read_le
  have hwrite := h.write_le
  have hmax : u.buffer.length ≤ (2 ^ 64 - 1) / 2 := h.size_le
  have hsize := h.readableSize_eq
  have hlen := h.length_content
  unfold UnboundedBuffer.peekDataAt
  dsimp only
  by_cases hnone : nSize = 0 ∨ u.readableSize ≤ offset
  · rw [if_pos hnone]
    rcases hnone with rfl | hpast
    · rw [List.take_zero]
    · rw [List.drop_of_length_le (by omega), List.take_nil]
  · rw [if_neg hnone]
    obtain ⟨hzero, hin⟩ := not_or.mp hnone
    have hadd : u64Add nSize offset = nSize + offset := u64Add_of_lt (by omega)
    rw [hadd, u64Add_of_lt (show u.readPos + offset < 2 ^ 64 by omega), u64Sub_of_le (by omega)]
    split_ifs with hover
    · rw [h.fetch_content (by omega), List.take_of_length_le, List.take_of_length_le]
      all_goals
        rw [List.length_drop]
        omega
    · exact h.fetch_content (by omega)

/-- Otherwise it reads outside of the buffer. -/
theorem Valid.peekDataAt_wrap (h : u.Valid) {nSize offset : Nat} (hn : nSize < 2 ^ 64)
    (hin : offset < u.readableSize) (hsum : 2 ^ 64 ≤ nSize + offset) :
    u.peekDataAt nSize offset = .error .outOfBounds := by
  have hread := h.read_le
  have hwrite := h.write_le
  have hmax : u.buffer.length ≤ (2 ^ 64 - 1) / 2 := h.size_le
  have hsize := h.readableSize_eq
  have hadd : u64Add nSize offset = nSize + offset - 2 ^ 64 := by
    rw [u64Add, Nat.mod_eq_sub_mod hsum, Nat.mod_eq_of_lt (by omega)]
  unfold UnboundedBuffer.peekDataAt
  dsimp only
  rw [if_neg (by omega), hadd, if_neg (by omega), u64Add_of_lt (by omega)]
  exact if_neg (by omega)

/-- **`PeekData` takes the oldest bytes**, as many as there are at most. -/
theorem Valid.peekData (h : u.Valid) {nSize : Nat} (hn : nSize < 2 ^ 64) :
    ∃ u', u.peekData nSize = .ok (u.content.take nSize, u') ∧ u'.Valid ∧ u'.buffer = u.buffer ∧
      u'.content = u.content.drop nSize := by
  have hpeek : u.peekDataAt nSize 0 = .ok (u.content.take nSize) := h.peekDataAt (.inr (.inr hn))
  have hle : (u.content.take nSize).length ≤ u.readableSize := by
    rw [List.length_take, h.length_content]
    exact Nat.min_le_right _ _
  obtain ⟨hvalid, hcontent⟩ := h.adjustReadPtr hle
  refine ⟨_, ?_, hvalid, rfl, ?_⟩
  · rw [UnboundedBuffer.peekData, hpeek, ok_bind]
    rfl
  · rw [hcontent, List.length_take]
    rcases Nat.le_total nSize u.content.length with hshort | hlong
    · rw [Nat.min_eq_left hshort]
    · rw [Nat.min_eq_right hlong, List.drop_length, List.drop_of_length_le hlong]

theorem Valid.clear (h : u.Valid) : u.clear.Valid ∧ u.clear.content = [] :=
  ⟨⟨le_rfl, Nat.zero_le _, h.size_le⟩, rfl⟩

/-- **`Shrink` keeps the content** if nothing more is allocated than the buffer needs. -/
theorem Valid.shrink (h : u.Valid) (tight : Bool) :
    ∃ u', u.shrink u.buffer.length tight = .ok u' ∧ u'.Valid ∧ u'.content = u.content := by
  have hread := h.read_le
  have hwrite := h.write_le
  have hsize := h.readableSize_eq
  unfold UnboundedBuffer.shrink
  rw [require_of rfl, ok_bind]
  by_cases hnil : u.buffer = []
  · rw [hnil, List.length_nil] at hwrite
    rw [if_pos hnil, require_of (by omega), require_of (by omega)]
    exact ⟨u, rfl, h, rfl⟩
  · rw [if_neg hnil]
    dsimp only
    split_ifs with hearly
    · exact ⟨u, rfl, h, rfl⟩
    · have hfetch : fetch u.buffer u.readPos u.readableSize = .ok u.content := by
        have hall : fetch u.buffer (u.readPos + 0) u.readableSize = .ok (u.content.take u.readableSize) :=
          h.fetch_content (by omega)
        rwa [Nat.add_zero, List.take_of_length_le h.length_content.le] at hall
      rw [hfetch, ← h.length_content]
      refine ⟨_, rfl, ⟨Nat.zero_le _, le_rfl, ?_⟩, ?_⟩
      · show u.content.length ≤ maxBufferSize
        have hmax := h.size_le
        rw [h.length_content]
        omega
      · exact List.take_length

theorem shrink_of_ne {capacity : Nat} (h : capacity ≠ u.buffer.length) (tight : Bool) :
    u.shrink capacity tight = .error .assertion := by
  rw [UnboundedBuffer.shrink, require, if_neg h]
  rfl

end UnboundedBuffer

end Eraft
