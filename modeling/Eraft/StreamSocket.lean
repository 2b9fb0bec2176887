import Eraft.ProtoParser

/-! The receiving side of a connection: `StreamSocket::Recv` and `DoMsgParse`
(`network/src/stream_socket.cc`) with the packet handler of `Client` (`network/src/client.cc`). Bytes are
appended to a ring, and after each read all that is in the ring is given to the handler. Of an executed
command only its parameters are kept; the replies and the sending side are left out. -/

namespace Eraft

structure Client where
  parser : ProtoParser
  executed : List (List Bytes)
  deriving DecidableEq

namespace Client

/-- `Client::Client`. -/
def new : Client := { parser := ProtoParser.reset {}, executed := [] }

/-- `_HandlePacket`. `ParseRequest` moves `start` itself, so that `ptr - start` is never positive; after a
command the length of all that was given is returned. -/
def handlePacket (c : Client) (msg : Bytes) : Except Fault (Int × Client) := do
  let bytes := msg.length
  let ptr : Int := 0
  let (parseRet, start, parser) ← c.parser.parseRequest msg 0
  let c := { c with parser := parser }
  if parseRet ≠ .ok then return (toInt (ptr - start), c)
  else if parser.params = [] then return (toInt (ptr - start), c)
  else return (toInt bytes, { parser := parser.reset, executed := c.executed ++ [parser.params] })

end Client

/-- `writePos_` of an `AttachedBuffer`. -/
def attachedPos : List Segment → Nat
  | [] => 0
  | [part] => (toInt part.len % 2 ^ 64).toNat
  | datum => totalBytes datum

/-- `AttachedBuffer(datum)`: a view of one part of a ring, or a copy of two. -/
def attach (buffer : Bytes) (datum : List Segment) : Except Fault CircularBuffer :=
  let writePos := attachedPos datum
  match roundUp2Power (u64Add writePos 1) with
  | some maxSize => .ok { maxSize := maxSize, readPos := 0, writePos := writePos, buffer := load buffer datum }
  | none => .error .lengthError

structure StreamSocket where
  recvBuf : CircularBuffer
  client : Client

namespace StreamSocket

/-- A socket before its first read: the ring has no cells yet. -/
def new : StreamSocket :=
  { recvBuf := { maxSize := 0, readPos := 0, writePos := 0, buffer := [] }, client := .new }

variable (s : StreamSocket)

/-- The ring of `Recv`. -/
def openBuf : Except Fault CircularBuffer :=
  if s.recvBuf.maxSize = 0 then s.recvBuf.initCapacity (64 * 1024) else .ok s.recvBuf

/-- `Recv`, if `chunk` can be read; returned is how much of it was taken. -/
def recv (chunk : Bytes) : Except Fault (Nat × StreamSocket) := do
  let recvBuf ← s.openBuf
  let buffers ← recvBuf.getSpace 0
  if buffers = [] then return (0, { s with recvBuf := recvBuf })
  else
    let ret := min chunk.length (totalBytes buffers)
    let buffer ← fill recvBuf.buffer buffers chunk
    return (ret, { s with recvBuf := { recvBuf with buffer := buffer }.adjustWritePtr ret })

/-- The loop of `DoMsgParse`, of which there are at most as many rounds as bytes, and the last one. -/
def msgLoop : Nat → Bool → StreamSocket → Except Fault (Bool × StreamSocket)
  | 0, busy, s => .ok (busy, s)
  | rounds + 1, busy, s =>
      if s.recvBuf.isEmpty then .ok (busy, s)
      else do
        let datum ← s.recvBuf.getDatum s.recvBuf.readableSize 0
        let af ← attach s.recvBuf.buffer datum
        let (bodyLen, client) ← s.client.handlePacket (load af.buffer [⟨af.readPos, af.readableSize⟩])
        if 0 < bodyLen then
          msgLoop rounds true { recvBuf := s.recvBuf.adjustReadPtr bodyLen.toNat, client := client }
        else return (busy, { s with client := client })

def doMsgParse : Except Fault (Bool × StreamSocket) := msgLoop (s.recvBuf.readableSize + 1) false s

/-- A chunk arrives. -/
def deliver (chunk : Bytes) : Except Fault StreamSocket := do
  let (_, s) ← s.recv chunk
  let (_, s) ← s.doMsgParse
  return s

def deliverAll (chunks : List Bytes) : Except Fault StreamSocket := chunks.foldlM deliver s

end StreamSocket

/-- A connection as its packet handler sees it. -/
structure Inbox where
  unread : Bytes
  client : Client
  deriving DecidableEq

namespace Inbox

def new : Inbox := { unread := [], client := .new }

/-- All unread bytes are handled at once; they are all taken or all kept. -/
def deliver (w : Inbox) (chunk : Bytes) : Except Fault Inbox :=
  if w.unread ++ chunk = [] then .ok w
  else do
    let (bodyLen, client) ← w.client.handlePacket (w.unread ++ chunk)
    return { unread := if 0 < bodyLen then [] else w.unread ++ chunk, client := client }

end Inbox

variable {c c' : Client} {msg chunk : Bytes} {b : CircularBuffer}

/-- If anything is taken, then everything. -/
theorem Client.handlePacket_len {k : Int} (h : c.handlePacket msg = .ok (k, c'))
    (hsize : msg.length + 2 < 2 ^ 31) (hk : 0 < k) : k = msg.length := by
  unfold handlePacket at h
  obtain ⟨⟨ret, start, parser⟩, hparse, h⟩ := exists_of_bind h
  have hstart : start ≤ msg.length + 2 := ProtoParser.parseRequest_le (Nat.zero_le _) hparse
  have hneg : toInt (0 - start : Int) = -start := by
    rw [toInt, Int.bmod_eq_of_le] <;> omega
  dsimp only at h
  split_ifs at h
  · rw [← (Prod.mk.inj (Except.ok.inj h)).1, hneg] at hk
    omega
  · rw [← (Prod.mk.inj (Except.ok.inj h)).1, hneg] at hk
    omega
  · rw [← (Prod.mk.inj (Except.ok.inj h)).1]
    exact toInt_of_lt (by omega)

theorem attachedPos_eq {datum : List Segment} (h : totalBytes datum < 2 ^ 31) :
    attachedPos datum = totalBytes datum := by
  unfold attachedPos
  split
  · rfl
  · next part =>
      have hpart : totalBytes [part] = part.len := Nat.add_zero _
      rw [hpart] at h ⊢
      rw [toInt_of_lt h]
      omega
  · rfl

/-- **The handler is given what is in the ring.** -/
theorem CircularBuffer.Valid.attach (h : b.Valid) (hsize : b.maxSize ≤ 2 ^ 31) : ∃ datum af,
    b.getDatum b.readableSize 0 = .ok datum ∧ Eraft.attach b.buffer datum = .ok af ∧
    load af.buffer [⟨af.readPos, af.readableSize⟩] = b.content := by
  have hlt := h.readableSize_lt
  obtain ⟨datum, hdatum, htotal, hload⟩ := h.getDatum_all
  have hcontent : load b.buffer datum = b.content := hload b.buffer h.length
  obtain ⟨j, hj, hle, hround⟩ := @roundUp2Power_eq (b.readableSize + 1) 31 (Nat.succ_pos _) (by omega) (by decide)
  have hadd : u64Add b.readableSize 1 = b.readableSize + 1 := Nat.mod_eq_of_lt (by omega)
  have hpos : attachedPos datum = b.readableSize := by
    rw [attachedPos_eq (by omega), htotal]
  have hend : b.readableSize < 2 ^ j := hle
  have hview : CircularBuffer.Valid ⟨2 ^ j, 0, b.readableSize, List.replicate (2 ^ j) 0⟩ :=
    ⟨⟨j, by omega, rfl⟩, Nat.two_pow_pos j, hend, List.length_replicate⟩
  have hread : readableSize ⟨2 ^ j, 0, b.readableSize, load b.buffer datum⟩ = b.readableSize :=
    hview.readableSize_eq.trans (Ring.dist_of_le hend (Nat.zero_le _))
  refine ⟨datum, ⟨2 ^ j, 0, b.readableSize, load b.buffer datum⟩, hdatum, ?_, ?_⟩
  · rw [Eraft.attach, hpos, hadd, hround]
  · rw [hread, load_singleton, List.drop_zero, hcontent, List.take_of_length_le h.length_content.le]

/-! ### The ring holds what is unread -/

/-- The ring is in order and holds these bytes. -/
structure Holding (b : CircularBuffer) (bytes : Bytes) : Prop where
  valid : b.Valid
  size : b.maxSize = 64 * 1024
  content : b.content = bytes

structure Receives (s : StreamSocket) (w : Inbox) : Prop where
  client : s.client = w.client
  recvBuf : (s.recvBuf = StreamSocket.new.recvBuf ∧ w.unread = []) ∨ Holding s.recvBuf w.unread

variable {s s' : StreamSocket} {w w' : Inbox} {bytes : Bytes}

theorem Receives.new : Receives .new .new := ⟨rfl, .inl ⟨rfl, rfl⟩⟩

theorem Receives.content (h : Receives s w) : s.recvBuf.content = w.unread := by
  rcases h.recvBuf with ⟨hbuf, hunread⟩ | hbuf
  · rw [hbuf, hunread]
    rfl
  · exact hbuf.content

theorem Receives.openBuf (h : Receives s w) : ∃ b, s.openBuf = .ok b ∧ Holding b w.unread := by
  rcases h.recvBuf with ⟨hbuf, hunread⟩ | hbuf
  · obtain ⟨j, hj, hle, hround⟩ :=
      @CircularBuffer.roundUp2Power_eq (64 * 1024) 16 (by decide) (by decide) (by decide)
    have hround' : roundUp2Power (64 * 1024) = some (64 * 1024) := by
      rw [hround]
      exact congrArg some (le_antisymm (Nat.pow_le_pow_right (by decide) hj) hle)
    have hvalid : CircularBuffer.Valid ⟨64 * 1024, 0, 0, List.replicate (64 * 1024) 0⟩ :=
      ⟨⟨16, by decide, rfl⟩, by decide, by decide, List.length_replicate⟩
    refine ⟨_, ?_, hvalid, rfl, ?_⟩
    · have hclosed : StreamSocket.new.recvBuf.maxSize = 0 := rfl
      rw [StreamSocket.openBuf, hbuf, if_pos hclosed, CircularBuffer.initCapacity, require_of (by decide), ok_bind,
        hround']
      rfl
    · rw [hunread]
      exact hvalid.isEmpty_iff.mp rfl
  · refine ⟨s.recvBuf, if_neg ?_, hbuf⟩
    rw [hbuf.size]
    decide

/-- A chunk that fits is taken as a whole. -/
theorem Receives.recv (h : Receives s w) (hroom : (w.unread ++ chunk).length < 64 * 1024 - 2) :
    ∃ b, s.recv chunk = .ok (chunk.length, { s with recvBuf := b }) ∧ Holding b (w.unread ++ chunk) := by
  obtain ⟨b, hopen, hb⟩ := h.openBuf
  have hfree : b.writeableSize = 64 * 1024 - w.unread.length - 1 := by
    rw [hb.valid.writeableSize_eq, hb.size, ← hb.valid.length_content, hb.content]
  rw [List.length_append] at hroom
  have hfit : chunk.length ≤ b.writeableSize := by omega
  obtain ⟨segments, hspace, htotal, hfill⟩ := hb.valid.getSpace (by omega)
  have hsome : segments ≠ [] := by
    rintro rfl
    have hzero : 0 = b.writeableSize := htotal
    omega
  obtain ⟨hvalid, hcontent⟩ := hb.valid.adjustWritePtr hfit
  refine ⟨_, ?_, hvalid, hb.size, by rw [hcontent, hb.content]⟩
  rw [StreamSocket.recv, hopen, ok_bind, hspace, ok_bind, if_neg hsome, hfill chunk hfit, ok_bind, htotal,
    Nat.min_eq_left hfit]
  rfl

theorem Holding.isEmpty_iff (h : Holding b bytes) : b.isEmpty = true ↔ bytes = [] := by
  rw [h.valid.isEmpty_iff, h.content]

/-- Nothing is left in the ring after all of it was taken. -/
theorem Holding.adjustReadPtr (h : Holding b bytes) : Holding (b.adjustReadPtr bytes.length) [] := by
  have hlen : bytes.length = b.readableSize := by rw [← h.valid.length_content, h.content]
  obtain ⟨hvalid, hcontent⟩ := h.valid.adjustReadPtr hlen.le
  refine ⟨hvalid, h.size, ?_⟩
  rw [hcontent, h.content]
  exact List.drop_length

/-- One round of the loop. -/
theorem Holding.msgLoop_succ {rounds : Nat} {busy : Bool} {k : Int} (h : Holding s.recvBuf bytes)
    (hne : bytes ≠ []) (hpacket : s.client.handlePacket bytes = .ok (k, c)) :
    StreamSocket.msgLoop (rounds + 1) busy s =
      if 0 < k then StreamSocket.msgLoop rounds true ⟨s.recvBuf.adjustReadPtr k.toNat, c⟩
      else .ok (busy, { s with client := c }) := by
  have hsize := h.size
  obtain ⟨datum, af, hdatum, haf, hload⟩ := h.valid.attach (by omega)
  rw [h.content] at hload
  rw [StreamSocket.msgLoop, if_neg (fun hempty => hne (h.isEmpty_iff.mp hempty)), hdatum, ok_bind, haf, ok_bind,
    hload, hpacket, ok_bind]
  rfl

theorem Holding.msgLoop_empty {rounds : Nat} {busy : Bool} (h : Holding s.recvBuf []) :
    StreamSocket.msgLoop (rounds + 1) busy s = .ok (busy, s) := by
  rw [StreamSocket.msgLoop, if_pos (h.isEmpty_iff.mpr rfl)]

theorem Holding.doMsgParse {k : Int} (h : Holding s.recvBuf bytes) (hne : bytes ≠ [])
    (hpacket : s.client.handlePacket bytes = .ok (k, c)) :
    ∃ busy s', s.doMsgParse = .ok (busy, s') ∧ Receives s' ⟨if 0 < k then [] else bytes, c⟩ := by
  have hlen : bytes.length = s.recvBuf.readableSize := by rw [← h.valid.length_content, h.content]
  have hlt := h.valid.readableSize_lt
  have hsize := h.size
  rw [StreamSocket.doMsgParse, h.msgLoop_succ hne hpacket]
  by_cases hk : 0 < k
  · have hall : k.toNat = bytes.length := by
      rw [Client.handlePacket_len hpacket (by omega) hk, Int.toNat_natCast]
    have hrest := h.adjustReadPtr
    obtain ⟨rounds, hrounds⟩ : ∃ rounds, s.recvBuf.readableSize = rounds + 1 :=
      Nat.exists_eq_succ_of_ne_zero (by rw [← hlen]; exact List.length_pos_of_ne_nil hne |>.ne')
    rw [if_pos hk, if_pos hk, hrounds, hall]
    exact ⟨_, _, Holding.msgLoop_empty hrest, rfl, .inr hrest⟩
  · rw [if_neg hk, if_neg hk]
    exact ⟨_, _, rfl, rfl, .inr h⟩

/-- **The socket refines the inbox**, as long as there is room for the chunk. -/
theorem Receives.deliver (h : Receives s w) (hroom : (w.unread ++ chunk).length < 64 * 1024 - 2)
    (hw : w.deliver chunk = .ok w') : ∃ s', s.deliver chunk = .ok s' ∧ Receives s' w' := by
  obtain ⟨b, hrecv, hb⟩ := h.recv hroom
  rw [StreamSocket.deliver, hrecv, ok_bind]
  dsimp only
  unfold Inbox.deliver at hw
  split_ifs at hw with hempty
  · cases hw
    rw [hempty] at hb
    have hunread : w.unread = [] := (List.append_eq_nil_iff.mp hempty).1
    refine ⟨{ s with recvBuf := b }, ?_, h.client, .inr (hunread ▸ hb)⟩
    rw [StreamSocket.doMsgParse, Holding.msgLoop_empty hb]
    rfl
  · obtain ⟨⟨k, client⟩, hpacket, hw⟩ := exists_of_bind hw
    cases hw
    rw [← h.client] at hpacket
    obtain ⟨busy, s', hparse, hs'⟩ := @Holding.doMsgParse _ ⟨b, s.client⟩ _ k hb hempty hpacket
    refine ⟨s', ?_, hs'⟩
    rw [hparse]
    rfl

/-! ### Requests -/

/-- The beginning of the number of strings of a request, as far as the parser does not take it for the
whole number. -/
def Header (b : Bytes) : Prop := b.length ≤ 3 ∨ ∃ k < 2 ^ 31, b = 42 :: (decimal k ++ [13])

/-- Nothing but the beginning of a header, or one whole request. -/
def Framed (b : Bytes) : Prop := Header b ∨ ∃ strs, strs ≠ [] ∧ b = request strs

/-- After each chunk the unread bytes are framed. -/
def FramedRun (s : StreamSocket) : List Bytes → Prop
  | [] => True
  | chunk :: chunks => Framed (s.recvBuf.content ++ chunk) ∧
      ∀ s', s.deliver chunk = .ok s' → FramedRun s' chunks

/-- The same bytes begin with one request only. -/
theorem request_inj {strs strs' : List Bytes} {rest rest' : Bytes}
    (hlen : (request strs ++ rest).length < 2 ^ 31) (h : request strs ++ rest = request strs' ++ rest') :
    strs = strs' ∧ rest = rest' := by
  have hfirst := @ProtoParser.parseRequest_of_lt {} strs rest hlen
  rw [h] at hfirst hlen
  have hboth := hfirst.symm.trans (@ProtoParser.parseRequest_of_lt {} strs' rest' hlen)
  have hparams := congrArg ProtoParser.params (Prod.mk.inj (Prod.mk.inj (Except.ok.inj hboth)).2).2
  have hstrs : strs = strs' := by
    rw [ProtoParser.reading, ProtoParser.reading, List.append_nil, List.append_nil] at hparams
    exact hparams
  subst hstrs
  exact ⟨rfl, List.append_cancel_left h⟩

/-- The parser waits for the rest of a header, and is as before. -/
theorem Header.parseRequest {p : ProtoParser} {b : Bytes} (h : Header b) (hmark : b.head? = some 42) :
    ∃ ptr ≤ 1, p.reset.parseRequest b 0 = .ok (.wait, ptr, p.reset) := by
  have hwait : ∃ ptr ≤ 1, ProtoParser.parseMulti b 0 (-1) = .ok (.wait, ptr, -1) := by
    obtain ⟨tail, rfl⟩ : ∃ tail, b = 42 :: tail := List.head?_eq_some_iff.mp hmark
    rw [ProtoParser.parseMulti]
    split_ifs with hshort hfirst
    · exact ⟨0, Nat.zero_le 1, rfl⟩
    · exact absurd rfl hfirst
    · refine ⟨1, le_rfl, ?_⟩
      show getIntUntilCRLF 1 tail (-1) = _
      rcases h with h | ⟨k, hk, h⟩
      · exact if_pos (by rw [List.length_cons] at h; omega)
      · obtain rfl := (List.cons.inj h).2
        unfold getIntUntilCRLF
        split_ifs
        · rfl
        · rw [intLoop_decimal hk]
          rfl
  obtain ⟨ptr, hle, hmulti⟩ := hwait
  exact ⟨ptr, hle, ProtoParser.parseRequest_of_ne_ok (by decide) hmulti⟩

theorem Client.handlePacket_header {p : ProtoParser} (hp : c.parser = p.reset) (h : Header msg)
    (hmark : msg.head? = some 42) : ∃ k ≤ 0, c.handlePacket msg = .ok (k, c) := by
  obtain ⟨ptr, hptr, hparse⟩ := @Header.parseRequest p msg h hmark
  refine ⟨toInt (0 - ptr), ?_, ?_⟩
  · rw [toInt, Int.bmod_eq_of_le] <;> omega
  · rw [handlePacket, hp, hparse, ok_bind, ← hp]
    rfl

theorem Client.handlePacket_request {p : ProtoParser} {strs : List Bytes} (hp : c.parser = p.reset)
    (hne : strs ≠ []) (hlen : (request strs).length < 2 ^ 31) :
    c.handlePacket (request strs) = .ok (((request strs).length : Int),
      { parser := (ProtoParser.reading strs.length strs []).reset, executed := c.executed ++ [strs] }) := by
  have hparse := @ProtoParser.parseRequest_of_lt p strs [] (by rw [List.append_nil]; exact hlen)
  rw [List.append_nil] at hparse
  have hparams : (ProtoParser.reading strs.length strs []).params = strs := List.append_nil strs
  rw [handlePacket, hp, hparse, ok_bind]
  dsimp only
  rw [if_neg (not_not_intro rfl), hparams, if_neg hne, toInt_of_lt hlen]
  rfl

/-! ### Runs -/

/-- Some requests have been executed, and the unread bytes are the beginning of the next one's header. -/
structure Waiting (w : Inbox) (done todo : List (List Bytes)) (future : Bytes) : Prop where
  parser : ∃ p, w.client.parser = ProtoParser.reset p
  executed : w.client.executed = done
  header : Header w.unread
  bytes : w.unread ++ future = todo.flatMap request

variable {done todo : List (List Bytes)} {future : Bytes}

theorem head?_requests {b : Bytes} (hne : b ≠ []) (h : b ++ future = todo.flatMap request) :
    ∃ strs todo', todo = strs :: todo' ∧ b.head? = some 42 := by
  cases todo with
  | nil => exact absurd (List.append_eq_nil_iff.mp h).1 hne
  | cons strs todo' =>
      obtain ⟨x, tail, rfl⟩ := List.exists_cons_of_ne_nil hne
      refine ⟨strs, todo', rfl, ?_⟩
      rw [List.flatMap_cons, List.cons_append] at h
      exact congrArg some (List.cons.inj h).1

/-- A chunk that leaves no more than the beginning of a header or completes one request. -/
theorem Waiting.deliver (h : Waiting w done todo (chunk ++ future))
    (hsize : (todo.flatMap request).length < 2 ^ 31) (hframed : Framed (w.unread ++ chunk)) :
    ∃ w' done' todo', w.deliver chunk = .ok w' ∧ Waiting w' done' todo' future ∧
      done' ++ todo' = done ++ todo ∧ (todo'.flatMap request).length ≤ (todo.flatMap request).length := by
  obtain ⟨p, hp⟩ := h.parser
  have hbytes : w.unread ++ chunk ++ future = todo.flatMap request := by
    rw [List.append_assoc]
    exact h.bytes
  unfold Inbox.deliver
  by_cases hempty : w.unread ++ chunk = []
  · rw [if_pos hempty]
    rw [hempty, ← (List.append_eq_nil_iff.mp hempty).1] at hbytes
    exact ⟨w, done, todo, rfl, ⟨h.parser, h.executed, h.header, hbytes⟩, rfl, le_rfl⟩
  · rw [if_neg hempty]
    obtain ⟨strs, todo', rfl, hmark⟩ := head?_requests hempty hbytes
    rcases hframed with hheader | ⟨strs', hne, hwhole⟩
    · obtain ⟨k, hk, hpacket⟩ := Client.handlePacket_header hp hheader hmark
      refine ⟨⟨w.unread ++ chunk, w.client⟩, done, strs :: todo', ?_, ⟨h.parser, h.executed, hheader, hbytes⟩, rfl,
        le_rfl⟩
      rw [hpacket, ok_bind]
      dsimp only
      rw [if_neg (Int.not_lt.mpr hk)]
      rfl
    · rw [hwhole] at hbytes ⊢
      rw [← hbytes] at hsize
      rw [List.flatMap_cons] at hbytes
      obtain ⟨rfl, hfuture⟩ := request_inj hsize hbytes
      rw [List.length_append] at hsize
      have hpos : (0 : Int) < (request strs').length := by
        rw [request, multiBulk, List.cons_append, List.length_cons]
        omega
      rw [Client.handlePacket_request hp hne (by omega), ok_bind]
      dsimp only
      rw [if_pos hpos]
      refine ⟨_, done ++ [strs'], todo', rfl,
        ⟨⟨_, rfl⟩, congrArg (· ++ [strs']) h.executed, .inl (Nat.zero_le 3), hfuture⟩,
        List.append_assoc done [strs'] todo', ?_⟩
      rw [List.flatMap_cons, List.length_append]
      exact Nat.le_add_left _ _

/-- If nothing is to come, everything has been executed. -/
theorem Waiting.todo_eq_nil (h : Waiting w done todo []) (hsize : (todo.flatMap request).length < 2 ^ 31) :
    todo = [] := by
  have hbytes := h.bytes
  by_cases hempty : w.unread = []
  · cases todo with
    | nil => rfl
    | cons strs todo' =>
        rw [hempty, List.flatMap_cons] at hbytes
        cases hbytes
  · obtain ⟨strs, todo', rfl, hmark⟩ := head?_requests hempty hbytes
    obtain ⟨ptr, _, hwait⟩ := @Header.parseRequest {} _ h.header hmark
    rw [List.flatMap_cons] at hsize
    rw [List.append_nil, List.flatMap_cons] at hbytes
    rw [hbytes, ProtoParser.parseRequest_of_lt hsize] at hwait
    cases hwait

theorem Waiting.deliverAll {chunks : List Bytes} (h : Waiting w done todo chunks.flatten)
    (hs : Receives s w) (hsize : (todo.flatMap request).length < 64 * 1024 - 2) (hframed : FramedRun s chunks) :
    ∃ s', s.deliverAll chunks = .ok s' ∧ s'.client.executed = done ++ todo := by
  induction chunks generalizing s w done todo with
  | nil =>
      refine ⟨s, rfl, ?_⟩
      rw [h.todo_eq_nil (by omega), List.append_nil, hs.client, h.executed]
  | cons chunk chunks ih =>
      obtain ⟨hfirst, hrest⟩ := hframed
      rw [hs.content] at hfirst
      obtain ⟨w', done', todo', hw', hwaiting, hsum, hle⟩ := h.deliver (by omega) hfirst
      have hroom : (w.unread ++ chunk).length < 64 * 1024 - 2 := by
        have hlen := congrArg List.length h.bytes
        rw [List.flatten_cons, ← List.append_assoc, List.length_append] at hlen
        omega
      obtain ⟨s₁, hs₁, hrec⟩ := hs.deliver hroom hw'
      obtain ⟨s', hs', hexec⟩ := ih hwaiting hrec (by omega) (hrest s₁ hs₁)
      refine ⟨s', ?_, hexec.trans hsum⟩
      rw [StreamSocket.deliverAll, List.foldlM_cons, hs₁, ok_bind]
      exact hs'

/-- **Requests are executed once and in order** if every chunk either completes one request, with nothing
behind it, or leaves no more than the beginning of a header unread. -/
theorem requests_executed_once {reqs : List (List Bytes)} {chunks : List Bytes}
    (hsize : (reqs.flatMap request).length < 64 * 1024 - 2)
    (hchunks : chunks.flatten = reqs.flatMap request) (hframed : FramedRun .new chunks) :
    ∃ s, StreamSocket.new.deliverAll chunks = .ok s ∧ s.client.executed = reqs := by
  have hstart : Waiting .new [] reqs chunks.flatten := ⟨⟨{}, rfl⟩, rfl, .inl (Nat.zero_le 3), hchunks⟩
  exact hstart.deliverAll .new hsize hframed

theorem Receives.framedRun {chunks : List Bytes} (h : Receives s w)
    (hroom : (w.unread ++ chunk).length < 64 * 1024 - 2) (hw : w.deliver chunk = .ok w')
    (hframed : Framed (w.unread ++ chunk)) (hrest : ∀ s', Receives s' w' → FramedRun s' chunks) :
    FramedRun s (chunk :: chunks) := by
  obtain ⟨s', hs', hrec⟩ := h.deliver hroom hw
  refine ⟨by rw [h.content]; exact hframed, fun s'' hs'' => ?_⟩
  cases hs'.symm.trans hs''
  exact hrest s' hrec

/-- Two requests, the first of which arrives in three chunks. -/
theorem requests_executed_once_three : ∃ s, StreamSocket.new.deliverAll
      [[42, 49], [13], [10, 36, 49, 13, 10, 97, 13, 10], [42, 49, 13, 10, 36, 49, 13, 10, 98, 13, 10]] = .ok s ∧
    s.client.executed = [[[97]], [[98]]] := by
  have hmark : Inbox.new.deliver [42, 49] = .ok ⟨[42, 49], .new⟩ := by decide +kernel
  have hnumber : Inbox.deliver ⟨[42, 49], .new⟩ [13] = .ok ⟨[42, 49, 13], .new⟩ := by decide +kernel
  have hfirst : Inbox.deliver ⟨[42, 49, 13], .new⟩ [10, 36, 49, 13, 10, 97, 13, 10] =
      .ok ⟨[], { parser := { params := [[97]] }, executed := [[[97]]] }⟩ := by decide +kernel
  have hsecond : Inbox.deliver ⟨[], { parser := { params := [[97]] }, executed := [[[97]]] }⟩
      [42, 49, 13, 10, 36, 49, 13, 10, 98, 13, 10] =
      .ok ⟨[], { parser := { params := [[98]] }, executed := [[[97]], [[98]]] }⟩ := by decide +kernel
  refine requests_executed_once (by decide +kernel) (by decide +kernel) ?_
  refine Receives.new.framedRun (by decide) hmark (.inl (.inl (by decide))) fun s₁ h₁ => ?_
  refine h₁.framedRun (by decide) hnumber (.inl (.inl (by decide))) fun s₂ h₂ => ?_
  refine h₂.framedRun (by decide) hfirst (.inr ⟨[[97]], by decide, by decide +kernel⟩) fun s₃ h₃ => ?_
  exact h₃.framedRun (by decide) hsecond (.inr ⟨[[98]], by decide, by decide +kernel⟩) fun s₄ _ => trivial

/-- A request that arrives in two chunks is never executed: the parser goes on behind the first one, but
is given the request from its beginning again. -/
theorem not_requests_executed_once : ∃ (reqs : List (List Bytes)) (chunks : List Bytes) (s : StreamSocket),
    (∀ strs ∈ reqs, strs ≠ []) ∧ (reqs.flatMap request).length < 64 * 1024 - 2 ∧
    chunks.flatten = reqs.flatMap request ∧ StreamSocket.new.deliverAll chunks = .ok s ∧
    s.client.executed ≠ reqs := by
  have hpart : Inbox.new.deliver [42, 49, 13, 10, 36, 49] = .ok ⟨[42, 49, 13, 10, 36, 49],
      { parser := { multi := 1, params := [[]] }, executed := [] }⟩ := by decide +kernel
  have hrest : Inbox.deliver ⟨[42, 49, 13, 10, 36, 49],
      { parser := { multi := 1, params := [[]] }, executed := [] }⟩ [13, 10, 97, 13, 10] =
      .ok ⟨[42, 49, 13, 10, 36, 49, 13, 10, 97, 13, 10],
        { parser := { multi := 1, params := [[]] }, executed := [] }⟩ := by decide +kernel
  obtain ⟨s₁, hs₁, h₁⟩ := Receives.new.deliver (by decide) hpart
  obtain ⟨s₂, hs₂, h₂⟩ := h₁.deliver (by decide) hrest
  refine ⟨[[[97]]], [[42, 49, 13, 10, 36, 49], [13, 10, 97, 13, 10]], s₂, by decide, by decide +kernel,
    by decide +kernel, ?_, ?_⟩
  · rw [StreamSocket.deliverAll, List.foldlM_cons, hs₁, ok_bind, List.foldlM_cons, hs₂]
    rfl
  · rw [h₂.client]
    decide

end Eraft
