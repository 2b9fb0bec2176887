import Eraft.UnboundedBuffer

/-! `AsyncBuffer` (`network/src/async_buffer.cc`): what one thread writes another one sends. The writer uses
the ring, and a second buffer once the ring has no room; it goes on using it until the reader has
taken it over. The reader first sends what it has taken over, then the ring. Here a call is made while no
other one is going on, although `try_lock` may fail; calls that overlap are made of the same parts. -/

namespace Eraft

/-- A `BufferSequence` to be written: at most `kMaxIovec` blocks whose total is a `size_t`. -/
structure BufferSequence where
  buffers : List Bytes
  count_le : buffers.length ≤ 16
  total_lt : buffers.flatten.length < 2 ^ 64

/-- `Write(data, len)`. -/
def BufferSequence.single (data : Bytes) (h : data.length < 2 ^ 64) : BufferSequence where
  buffers := [data]
  count_le := by rw [List.length_singleton]; decide
  total_lt := by rwa [List.flatten_singleton]

theorem BufferSequence.flatten_single (data : Bytes) (h : data.length < 2 ^ 64) :
    (single data h).buffers.flatten = data := List.flatten_singleton

structure AsyncBuffer where
  buffer : CircularBuffer
  tmpBuf : UnboundedBuffer := {}
  backBytes : Nat := 0
  backBuf : UnboundedBuffer := {}

/-- What `ProcessBuffer` hands out: segments of `tmpBuf_` or of `buffer_`. -/
structure Shown where
  inTmp : Bool := false
  segments : List Segment := []

namespace AsyncBuffer

/-- `AsyncBuffer::AsyncBuffer`. -/
def new (size : Nat) : Option AsyncBuffer := (CircularBuffer.new size).map fun b => { buffer := b }

variable (a : AsyncBuffer)

/-- The blocks are pushed one after the other; what `PushData` returns is not looked at. -/
def pushRing (b : CircularBuffer) (blocks : List Bytes) : Except Fault CircularBuffer :=
  blocks.foldlM (fun b block => (b.pushData block).map Prod.snd) b

def pushBack (u : UnboundedBuffer) (blocks : List Bytes) : Except Fault UnboundedBuffer :=
  blocks.foldlM (fun u block => (u.pushData block).map Prod.snd) u

/-- The test of `Write`: the ring is not to be used. -/
def LacksSpace (len : Nat) : Prop := 0 < a.backBytes ∨ a.buffer.writeableSize < len

instance (len : Nat) : Decidable (a.LacksSpace len) := inferInstanceAs (Decidable (_ ∨ _))

/-- What `Write` does under the lock. -/
def writeBack (data : BufferSequence) : Except Fault AsyncBuffer := do
  let backBuf ← pushBack a.backBuf data.buffers
  let backBytes := u64Add a.backBytes data.buffers.flatten.length
  require (backBytes = backBuf.readableSize)
  return { a with backBuf := backBuf, backBytes := backBytes }

/-- What it does without the lock. -/
def writeRing (data : BufferSequence) : Except Fault AsyncBuffer := do
  require (a.backBytes = 0 ∧ data.buffers.flatten.length ≤ a.buffer.writeableSize)
  let buffer ← pushRing a.buffer data.buffers
  return { a with buffer := buffer }

/-- `Write`. The test is made again once the lock is taken. -/
def write (data : BufferSequence) : Except Fault AsyncBuffer :=
  if a.LacksSpace data.buffers.flatten.length then
    if a.LacksSpace data.buffers.flatten.length then a.writeBack data else a.writeRing data
  else a.writeRing data

/-- All of `tmpBuf_`. -/
def tmpShown : Shown := ⟨true, [⟨a.tmpBuf.readPos, a.tmpBuf.readableSize⟩]⟩

/-- The first `nLen` bytes of the ring. -/
def ringShown (nLen : Nat) : Except Fault Shown := do
  let segments ← a.buffer.getDatum nLen 0
  require (nLen = totalBytes segments)
  return ⟨false, segments⟩

/-- What `ProcessBuffer` does under the lock. -/
def exchange : AsyncBuffer := { a with backBytes := 0, tmpBuf := a.backBuf, backBuf := a.tmpBuf }

/-- `ProcessBuffer`; `locked` is the result of `try_lock`. -/
def processBuffer (locked : Bool) : Except Fault (Shown × AsyncBuffer) :=
  if a.tmpBuf.isEmpty = false then .ok (a.tmpShown, a)
  else if a.buffer.isEmpty = false then do
    let shown ← a.ringShown a.buffer.readableSize
    return (shown, a)
  else if 0 < a.backBytes ∧ locked = true then .ok (a.exchange.tmpShown, a.exchange)
  else .ok ({}, a)

/-- `Skip`. -/
def skip (size : Nat) : Except Fault AsyncBuffer :=
  if a.tmpBuf.isEmpty = false then do
    require (size ≤ a.tmpBuf.readableSize)
    return { a with tmpBuf := a.tmpBuf.adjustReadPtr size }
  else do
    require (size ≤ a.buffer.readableSize)
    return { a with buffer := a.buffer.adjustReadPtr size }

/-- The bytes that are shown, in the memory as it is now. -/
def bytes (shown : Shown) : Bytes :=
  load (if shown.inTmp then a.tmpBuf.buffer else a.buffer.buffer) shown.segments

/-- What was not skipped yet, in the order in which it is sent. -/
def unread : Bytes := a.tmpBuf.content ++ (a.buffer.content ++ a.backBuf.content)

structure Valid : Prop where
  buffer : a.buffer.Valid
  maxSize : a.buffer.maxSize ≤ 2 ^ 31
  tmpBuf : a.tmpBuf.Valid
  tmpSize : a.tmpBuf.buffer.length ∈ UnboundedBuffer.grownSizes
  backBuf : a.backBuf.Valid
  backSize : a.backBuf.buffer.length ∈ UnboundedBuffer.grownSizes
  backBytes : a.backBytes = a.backBuf.readableSize

/-- The bytes shown are the beginning of what is in `tmpBuf_`, or of what is in the ring while `tmpBuf_` is
empty. A part of the ring stays the same as long as the ring is read from the same position. -/
inductive Shows (shown : Shown) : Prop
  | nothing (h : shown.segments = [])
  | tmp (hin : shown.inTmp = true) (hne : a.tmpBuf.isEmpty = false)
      (h : shown.segments = [⟨a.tmpBuf.readPos, a.tmpBuf.readableSize⟩])
  | ring {n : Nat} (hin : shown.inTmp = false) (hempty : a.tmpBuf.isEmpty = true)
      (hn : n ≤ a.buffer.readableSize)
      (h : ∀ l : Bytes, l.length = a.buffer.maxSize → load l shown.segments = Ring.held l a.buffer.readPos n)

variable {a} {a' : AsyncBuffer} {shown : Shown} {data : BufferSequence}

theorem new_valid {size : Nat} (hpos : 0 < size) (hsize : size ≤ 2 ^ 31) (h : new size = some a) :
    a.Valid ∧ a.unread = [] := by
  obtain ⟨b, hb, hvalid, hmax, _, hcontent⟩ := CircularBuffer.new_valid hpos hsize (by decide)
  unfold new at h
  rw [hb] at h
  cases h
  refine ⟨⟨hvalid, hmax, .new, List.mem_cons_self, .new, List.mem_cons_self, rfl⟩, ?_⟩
  show [] ++ (b.content ++ []) = []
  rw [hcontent]
  rfl

theorem exists_new {size : Nat} (hpos : 0 < size) (hsize : size ≤ 2 ^ 31) : ∃ a, new size = some a := by
  obtain ⟨b, hb, _⟩ := CircularBuffer.new_valid hpos hsize (by decide)
  exact ⟨_, congrArg (Option.map _) hb⟩

/-- Nothing has been put aside. -/
theorem Valid.backBuf_nil (h : a.Valid) (hzero : ¬0 < a.backBytes) : a.backBuf.content = [] := by
  rw [← List.length_eq_zero_iff, h.backBuf.length_content, ← h.backBytes]
  exact Nat.eq_zero_of_not_pos hzero

theorem pushRing_spec {b : CircularBuffer} (h : b.Valid) (hsize : b.maxSize ≤ 2 ^ 31) {blocks : List Bytes}
    (hroom : blocks.flatten.length ≤ b.writeableSize) : ∃ b', pushRing b blocks = .ok b' ∧ b'.Valid ∧
      b'.maxSize = b.maxSize ∧ b'.readPos = b.readPos ∧ b'.content = b.content ++ blocks.flatten := by
  induction blocks generalizing b with
  | nil => exact ⟨b, rfl, h, rfl, rfl, (List.append_nil _).symm⟩
  | cons block blocks ih =>
      rw [List.flatten_cons, List.length_append] at hroom
      have hfree := h.writeableSize_eq
      obtain ⟨b₁, hpush, hvalid, hmax, hread, hcontent⟩ :=
        h.pushData (by omega : block.length - _ < 2 ^ 31) (by omega)
      have hroom₁ : blocks.flatten.length ≤ b₁.writeableSize := by
        have hlen := congrArg List.length hcontent
        rw [List.length_append, hvalid.length_content, h.length_content] at hlen
        rw [h.writeableSize_eq] at hroom
        rw [hvalid.writeableSize_eq]
        omega
      obtain ⟨b', hrest, hvalid', hmax', hread', hcontent'⟩ := ih hvalid (hmax ▸ hsize) hroom₁
      refine ⟨b', ?_, hvalid', hmax'.trans hmax, hread'.trans hread, ?_⟩
      · rw [pushRing, List.foldlM_cons, hpush]
        exact hrest
      · rw [hcontent', hcontent, List.append_assoc, List.flatten_cons]

theorem pushBack_spec {u : UnboundedBuffer} (h : u.Valid)
    (hgrown : u.buffer.length ∈ UnboundedBuffer.grownSizes) {blocks : List Bytes}
    (hblocks : blocks.flatten.length < 2 ^ 64) :
    (∃ u', pushBack u blocks = .ok u' ∧ u'.Valid ∧
      u'.buffer.length ∈ UnboundedBuffer.grownSizes ∧ u'.content = u.content ++ blocks.flatten) ∨
    (pushBack u blocks = .error .lengthError ∧ 2 ^ 62 < u.readableSize + blocks.flatten.length) := by
  induction blocks generalizing u with
  | nil => exact .inl ⟨u, rfl, h, hgrown, (List.append_nil _).symm⟩
  | cons block blocks ih =>
      rw [List.flatten_cons, List.length_append] at hblocks ⊢
      rcases h.pushData hgrown (by omega : block.length < 2 ^ 64) with
        ⟨u₁, hpush, hvalid, hgrown₁, hcontent⟩ | ⟨herr, hlong⟩
      · have hstep : pushBack u (block :: blocks) = pushBack u₁ blocks := by
          rw [pushBack, List.foldlM_cons, hpush]
          rfl
        have hlen := congrArg List.length hcontent
        rw [List.length_append, hvalid.length_content, h.length_content] at hlen
        rcases ih hvalid hgrown₁ (by omega) with ⟨u', hrest, hvalid', hgrown', hcontent'⟩ | ⟨herr, hlong⟩
        · refine .inl ⟨u', hstep.trans hrest, hvalid', hgrown', ?_⟩
          rw [hcontent', hcontent, List.append_assoc]
        · exact .inr ⟨hstep.trans herr, by omega⟩
      · refine .inr ⟨?_, by omega⟩
        rw [pushBack, List.foldlM_cons, herr]
        rfl

/-- Bytes that are put aside come after everything else. -/
theorem Valid.putAside (h : a.Valid) {u : UnboundedBuffer} {data : Bytes} (hvalid : u.Valid)
    (hgrown : u.buffer.length ∈ UnboundedBuffer.grownSizes) (hcontent : u.content = a.backBuf.content ++ data) :
    u64Add a.backBytes data.length = u.readableSize ∧
    AsyncBuffer.Valid { a with backBuf := u, backBytes := u64Add a.backBytes data.length } ∧
    unread { a with backBuf := u, backBytes := u64Add a.backBytes data.length } = a.unread ++ data := by
  have hlen := congrArg List.length hcontent
  rw [List.length_append, hvalid.length_content, h.backBuf.length_content, ← h.backBytes] at hlen
  have hbytes : u64Add a.backBytes data.length = u.readableSize := by
    have hwrite := hvalid.write_le
    have hsize : u.buffer.length ≤ (2 ^ 64 - 1) / 2 := hvalid.size_le
    have hread := hvalid.readableSize_eq
    rw [u64Add_of_lt (by omega), hlen]
  refine ⟨hbytes, ⟨h.buffer, h.maxSize, h.tmpBuf, h.tmpSize, hvalid, hgrown, hbytes⟩, ?_⟩
  show a.tmpBuf.content ++ (a.buffer.content ++ u.content) = a.unread ++ data
  rw [hcontent, unread, List.append_assoc, List.append_assoc]

/-- What is shown does not change with what is put aside. -/
theorem Shows.putAside (h : a.Shows shown) (u : UnboundedBuffer) (backBytes : Nat) :
    Shows { a with backBuf := u, backBytes := backBytes } shown := by
  cases h with
  | nothing h => exact .nothing h
  | tmp hin hne h => exact .tmp hin hne h
  | ring hin hempty hn h => exact .ring hin hempty hn h

/-- Nor with bytes that are added to the ring. -/
theorem Shows.putRing (h : a.Shows shown) {b : CircularBuffer} (hmax : b.maxSize = a.buffer.maxSize)
    (hread : b.readPos = a.buffer.readPos) (hmore : a.buffer.readableSize ≤ b.readableSize) :
    Shows { a with buffer := b } shown := by
  cases h with
  | nothing h => exact .nothing h
  | tmp hin hne h => exact .tmp hin hne h
  | ring hin hempty hn h =>
      refine .ring hin hempty (hn.trans hmore) fun l hl => ?_
      rw [h l (hl.trans hmax), ← hread]

/-- Bytes are put aside, unless the vector cannot hold them. -/
theorem Valid.writeBack (h : a.Valid) (data : BufferSequence) :
    (∃ a', a.writeBack data = .ok a' ∧ a'.Valid ∧ a'.unread = a.unread ++ data.buffers.flatten ∧
      a'.tmpBuf = a.tmpBuf ∧ a'.buffer = a.buffer ∧ a.backBytes ≤ a'.backBytes ∧
      ∀ shown, a.Shows shown → a'.Shows shown) ∨
    (a.writeBack data = .error .lengthError ∧ 2 ^ 62 < a.unread.length + data.buffers.flatten.length) := by
  unfold AsyncBuffer.writeBack
  rcases pushBack_spec h.backBuf h.backSize data.total_lt with
    ⟨u, hpush, hvalid, hgrown, hcontent⟩ | ⟨herr, hlong⟩
  · left
    obtain ⟨hbytes, hvalid', hunread⟩ := h.putAside hvalid hgrown hcontent
    have hlen := congrArg List.length hcontent
    rw [List.length_append, hvalid.length_content, h.backBuf.length_content, ← h.backBytes] at hlen
    rw [hpush, ok_bind]
    dsimp only
    rw [require_of hbytes]
    refine ⟨_, rfl, hvalid', hunread, rfl, rfl, ?_, fun shown hshown => hshown.putAside u _⟩
    show a.backBytes ≤ u64Add a.backBytes data.buffers.flatten.length
    omega
  · right
    rw [herr]
    refine ⟨rfl, ?_⟩
    rw [unread, List.length_append, List.length_append, h.backBuf.length_content]
    omega

/-- A block that fits goes to the ring; nothing has been put aside, so that the end of the ring is the end
of all. -/
theorem Valid.pushRing (h : a.Valid) (hzero : ¬0 < a.backBytes) {blocks : List Bytes}
    (hroom : blocks.flatten.length ≤ a.buffer.writeableSize) : ∃ b,
      AsyncBuffer.pushRing a.buffer blocks = .ok b ∧ AsyncBuffer.Valid { a with buffer := b } ∧
      unread { a with buffer := b } = a.unread ++ blocks.flatten ∧
      b.writeableSize + blocks.flatten.length = a.buffer.writeableSize ∧
      a.buffer.readableSize ≤ b.readableSize ∧
      ∀ shown, a.Shows shown → Shows { a with buffer := b } shown := by
  obtain ⟨b, hpush, hvalid, hmax, hread, hcontent⟩ := pushRing_spec h.buffer h.maxSize hroom
  have hlen := congrArg List.length hcontent
  rw [List.length_append, hvalid.length_content, h.buffer.length_content] at hlen
  refine ⟨b, hpush, ⟨hvalid, hmax ▸ h.maxSize, h.tmpBuf, h.tmpSize, h.backBuf, h.backSize, h.backBytes⟩, ?_, ?_,
    by omega, fun shown hshown => hshown.putRing hmax hread (by omega)⟩
  · show a.tmpBuf.content ++ (b.content ++ a.backBuf.content) = a.unread ++ _
    rw [hcontent, unread, h.backBuf_nil hzero, List.append_nil, List.append_nil, List.append_assoc]
  · have hfree := h.buffer.writeableSize_eq
    rw [hvalid.writeableSize_eq, hlen, hmax]
    omega

/-- **`Write` appends** to what is unread, and shows the reader the same bytes as before. -/
theorem Valid.write (h : a.Valid) (data : BufferSequence) :
    (∃ a', a.write data = .ok a' ∧ a'.Valid ∧ a'.unread = a.unread ++ data.buffers.flatten ∧
      ∀ shown, a.Shows shown → a'.Shows shown) ∨
    (a.write data = .error .lengthError ∧ 2 ^ 62 < a.unread.length + data.buffers.flatten.length) := by
  unfold AsyncBuffer.write
  by_cases hlacks : a.LacksSpace data.buffers.flatten.length
  · rw [if_pos hlacks, if_pos hlacks]
    rcases h.writeBack data with ⟨a', ha', hvalid, hunread, _, _, _, hshows⟩ | herr
    · exact .inl ⟨a', ha', hvalid, hunread, hshows⟩
    · exact .inr herr
  · left
    obtain ⟨hzero, hroom⟩ := not_or.mp hlacks
    obtain ⟨b, hpush, hvalid, hunread, _, _, hshows⟩ := h.pushRing hzero (Nat.le_of_not_lt hroom)
    rw [if_neg hlacks, writeRing, require_of (by omega), ok_bind, hpush]
    exact ⟨_, rfl, hvalid, hunread, hshows⟩

/-- What is shown is the beginning of what is unread. -/
theorem Shows.isPrefix (h : a.Shows shown) (hvalid : a.Valid) : a.bytes shown <+: a.unread := by
  cases h with
  | nothing h =>
      rw [bytes, h]
      exact List.nil_prefix
  | tmp hin _ h =>
      rw [bytes, h, hin, if_pos rfl, hvalid.tmpBuf.load_eq]
      exact List.prefix_append _ _
  | @ring n hin hempty hn h =>
      have hfront : Ring.held a.buffer.buffer a.buffer.readPos n <+: a.buffer.content := by
        rw [CircularBuffer.content, ← Ring.take_held hn]
        exact List.take_prefix _ _
      rw [bytes, hin, if_neg Bool.false_ne_true, h _ hvalid.buffer.length, unread,
        hvalid.tmpBuf.isEmpty_iff.mp hempty]
      exact hfront.trans (List.prefix_append _ _)

theorem Valid.bytes_tmp (h : a.Valid) : a.bytes a.tmpShown = a.tmpBuf.content := by
  rw [bytes, tmpShown, if_pos rfl, h.tmpBuf.load_eq]

/-- The buffers for what is read first and for what is put aside are exchanged while the first is empty. What
was put aside overtakes what is in the ring. -/
theorem Valid.exchange (h : a.Valid) (htmp : a.tmpBuf.content = []) : a.exchange.Valid ∧
    a.unread = a.buffer.content ++ a.backBuf.content ∧
    a.exchange.unread = a.backBuf.content ++ a.buffer.content := by
  have hzero : a.tmpBuf.readableSize = 0 := by rw [← h.tmpBuf.length_content, htmp, List.length_nil]
  refine ⟨⟨h.buffer, h.maxSize, h.backBuf, h.backSize, h.tmpBuf, h.tmpSize, hzero.symm⟩, ?_, ?_⟩
  · rw [unread, htmp, List.nil_append]
  · show a.backBuf.content ++ (a.buffer.content ++ a.tmpBuf.content) = _
    rw [htmp, List.append_nil]

/-- What `GetDatum` hands out of the ring is as long as it was asked for, and lies at its beginning. -/
theorem Valid.ringShown (h : a.Valid) (hempty : a.tmpBuf.isEmpty = true) {nLen : Nat}
    (hlen : nLen ≤ a.buffer.readableSize) : ∃ shown, a.ringShown nLen = .ok shown ∧ a.Shows shown ∧
      totalBytes shown.segments = nLen ∧ a.bytes shown = a.buffer.content.take nLen := by
  obtain ⟨segments, hdatum, htotal, hload⟩ := h.buffer.getDatum nLen 0
  rw [Nat.sub_zero, Nat.min_eq_left hlen] at htotal hload
  unfold AsyncBuffer.ringShown
  rw [hdatum, ok_bind, require_of htotal.symm]
  refine ⟨_, rfl, .ring rfl hempty hlen hload, htotal, ?_⟩
  show load a.buffer.buffer segments = _
  rw [hload _ h.buffer.length, CircularBuffer.content, Ring.take_held hlen]
  rfl

/-- **`ProcessBuffer` changes nothing in what is unread.** The sizes it hands out are those of the bytes
shown, and something is shown if there is something and the lock was free. -/
theorem Valid.processBuffer (h : a.Valid) (locked : Bool) : ∃ shown a',
    a.processBuffer locked = .ok (shown, a') ∧ a'.Valid ∧ a'.unread = a.unread ∧ a'.Shows shown ∧
      totalBytes shown.segments = (a'.bytes shown).length ∧
      (locked = true → a.unread ≠ [] → a'.bytes shown ≠ []) := by
  unfold AsyncBuffer.processBuffer
  by_cases htmp : a.tmpBuf.isEmpty = false
  · rw [if_pos htmp]
    have hne : a.tmpBuf.content ≠ [] := fun hnil =>
      Bool.false_ne_true (htmp.symm.trans (h.tmpBuf.isEmpty_iff.mpr hnil))
    refine ⟨_, _, rfl, h, rfl, .tmp rfl htmp rfl, ?_, fun _ _ => h.bytes_tmp ▸ hne⟩
    rw [h.bytes_tmp, h.tmpBuf.length_content]
    rfl
  · have hempty : a.tmpBuf.isEmpty = true := Bool.eq_true_of_not_eq_false htmp
    rw [if_neg htmp]
    by_cases hring : a.buffer.isEmpty = false
    · obtain ⟨shown, hdatum, hshows, htotal, hbytes⟩ := h.ringShown hempty le_rfl
      rw [← h.buffer.length_content, List.take_length] at hbytes
      have hne : a.buffer.content ≠ [] := fun hnil =>
        Bool.false_ne_true (hring.symm.trans (h.buffer.isEmpty_iff.mpr hnil))
      rw [if_pos hring, hdatum]
      refine ⟨_, _, rfl, h, rfl, hshows, ?_, fun _ _ => hbytes ▸ hne⟩
      rw [hbytes, h.buffer.length_content, htotal]
    · rw [if_neg hring]
      have htmpNil := h.tmpBuf.isEmpty_iff.mp hempty
      have hringNil := h.buffer.isEmpty_iff.mp (Bool.eq_true_of_not_eq_false hring)
      by_cases hback : 0 < a.backBytes ∧ locked = true
      · rw [if_pos hback]
        have hpos : 0 < a.backBuf.readableSize := h.backBytes ▸ hback.1
        obtain ⟨hvalid, hunread, hexchanged⟩ := h.exchange htmpNil
        rw [hringNil, List.nil_append] at hunread
        rw [hringNil, List.append_nil, ← hunread] at hexchanged
        have hlen := h.backBuf.length_content
        have hne : a.backBuf.content ≠ [] := List.ne_nil_of_length_pos (hlen ▸ hpos)
        refine ⟨_, _, rfl, hvalid, hexchanged, .tmp rfl (beq_eq_false_iff_ne.mpr hpos.ne') rfl, ?_,
          fun _ _ => hvalid.bytes_tmp ▸ hne⟩
        rw [hvalid.bytes_tmp]
        exact hlen.symm
      · rw [if_neg hback]
        refine ⟨_, _, rfl, h, rfl, .nothing rfl, rfl, fun hlocked hunread => (hunread ?_).elim⟩
        have hbackNil : a.backBuf.content = [] := h.backBuf_nil fun hpos => hback ⟨hpos, hlocked⟩
        rw [unread, htmpNil, hringNil, hbackNil]
        rfl

/-- **`Skip` removes** the first of the bytes shown, and takes no room from the writer. -/
theorem Valid.skip (h : a.Valid) (hshown : a.Shows shown) {size : Nat}
    (hsize : size ≤ (a.bytes shown).length) : ∃ a', a.skip size = .ok a' ∧ a'.Valid ∧
      a.unread = (a.bytes shown).take size ++ a'.unread ∧ a'.backBytes = a.backBytes ∧
      a.buffer.writeableSize ≤ a'.buffer.writeableSize := by
  -- a prefix that lies in one of the two buffers the reader uses is taken from that buffer
  have htake : (a.bytes shown).take size = a.unread.take size := by
    obtain ⟨rest, hrest⟩ := hshown.isPrefix h
    rw [← hrest, List.take_append_of_le_length hsize]
  unfold AsyncBuffer.skip
  by_cases htmp : a.tmpBuf.isEmpty = false
  · have hle : size ≤ a.tmpBuf.readableSize := by
      cases hshown with
      | nothing h =>
          rw [bytes, h] at hsize
          exact hsize.trans (Nat.zero_le _)
      | tmp hin _ hseg => rwa [bytes, hseg, hin, if_pos rfl, h.tmpBuf.load_eq, h.tmpBuf.length_content] at hsize
      | ring _ hempty => cases htmp.symm.trans hempty
    obtain ⟨hvalid, hcontent⟩ := h.tmpBuf.adjustReadPtr hle
    rw [if_pos htmp, require_of hle]
    refine ⟨_, rfl, ⟨h.buffer, h.maxSize, hvalid, h.tmpSize, h.backBuf, h.backSize, h.backBytes⟩, ?_, rfl,
      le_rfl⟩
    show a.unread = _ ++ ((a.tmpBuf.adjustReadPtr size).content ++ (a.buffer.content ++ a.backBuf.content))
    rw [htake, hcontent, unread, List.take_append_of_le_length (by rwa [h.tmpBuf.length_content]),
      ← List.append_assoc (List.take size a.tmpBuf.content), List.take_append_drop]
  · have hempty : a.tmpBuf.isEmpty = true := Bool.eq_true_of_not_eq_false htmp
    have hle : size ≤ a.buffer.readableSize := by
      cases hshown with
      | nothing h =>
          rw [bytes, h] at hsize
          exact hsize.trans (Nat.zero_le _)
      | tmp _ hne => exact absurd hne htmp
      | ring hin _ hn hseg =>
          have hlen := h.buffer.length
          have hlt := h.buffer.readableSize_lt
          rw [bytes, hin, if_neg Bool.false_ne_true, hseg _ hlen, Ring.length_held (by omega)] at hsize
          exact hsize.trans hn
    obtain ⟨hvalid, hcontent⟩ := h.buffer.adjustReadPtr hle
    rw [if_neg htmp, require_of hle]
    refine ⟨_, rfl, ⟨hvalid, h.maxSize, h.tmpBuf, h.tmpSize, h.backBuf, h.backSize, h.backBytes⟩, ?_, rfl, ?_⟩
    case refine_2 =>
      have hlen := congrArg List.length hcontent
      rw [List.length_drop, hvalid.length_content, h.buffer.length_content] at hlen
      have hmax : (a.buffer.adjustReadPtr size).maxSize = a.buffer.maxSize := rfl
      show a.buffer.writeableSize ≤ (a.buffer.adjustReadPtr size).writeableSize
      rw [h.buffer.writeableSize_eq, hvalid.writeableSize_eq, hlen, hmax]
      omega
    show a.unread = _ ++ (a.tmpBuf.content ++ ((a.buffer.adjustReadPtr size).content ++ a.backBuf.content))
    rw [htake, hcontent, unread, h.tmpBuf.isEmpty_iff.mp hempty, List.nil_append, List.nil_append,
      List.take_append_of_le_length (by rwa [h.buffer.length_content]),
      ← List.append_assoc (List.take size a.buffer.content), List.take_append_drop]

end AsyncBuffer

end Eraft
