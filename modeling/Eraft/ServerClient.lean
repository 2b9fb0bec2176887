import Eraft.CommandExecute
import Eraft.SendThread
import Eraft.StreamSocket

/-! A client of the server, from its packets to the replies: `Client::_HandlePacket`
(`network/src/client.cc`) with `ExecuteCmd` and `SendPacket`, and `StreamSocket::DoMsgParse`
(`network/src/stream_socket.cc`) around it. -/

namespace Eraft

variable {σ ι : Type}

/-- The state of the engine and a client, with its `reply_` and the sending side of its socket. -/
structure Service (σ : Type) where
  db : σ
  client : Client
  reply : UnboundedBuffer
  socket : SendSocket

/-- `ReadAddr()` and `ReadableSize()`, which is a `size_t`. -/
def UnboundedBuffer.packet (reply : UnboundedBuffer) : Packet :=
  ⟨load reply.buffer [⟨reply.readPos, reply.readableSize % 2 ^ 64⟩], by
    rw [CircularBuffer.load_singleton, List.length_take]
    exact (Nat.min_le_left _ _).trans_lt (Nat.mod_lt _ (Nat.two_pow_pos 64))⟩

theorem UnboundedBuffer.Valid.packet {reply : UnboundedBuffer} (h : reply.Valid) :
    reply.packet.1 = reply.content := by
  have hread := h.readableSize_eq
  have hwrite := h.write_le
  have hsize : reply.buffer.length ≤ (2 ^ 64 - 1) / 2 := h.size_le
  show load reply.buffer [⟨reply.readPos, reply.readableSize % 2 ^ 64⟩] = reply.content
  rw [Nat.mod_eq_of_lt (by omega), h.load_eq]

namespace Service

variable (engine : Engine σ ι)

/-- `_HandlePacket`. -/
def handlePacket (v : Service σ) (msg : Bytes) : Except Fault (Int × Service σ) := do
  let bytes := msg.length
  let ptr : Int := 0
  let (parseRet, start, parser) ← v.client.parser.parseRequest msg 0
  let v := { v with client := { v.client with parser := parser } }
  if parseRet ≠ .ok then return (toInt (ptr - start), v)
  else if parser.params = [] then return (toInt (ptr - start), v)
  else
    let (_, db, reply) ← executeCmd engine v.db parser.params v.reply
    let socket ← v.socket.sendPacket reply.packet
    -- `_Reset`
    return (toInt bytes, {
      db := db
      client := { parser := parser.reset, executed := v.client.executed ++ [parser.params] }
      reply := reply.clear
      socket := socket })

/-- The loop of `DoMsgParse`, of which there are at most as many rounds as bytes, and the last one. -/
def msgLoop : Nat → CircularBuffer → Service σ → Except Fault (CircularBuffer × Service σ)
  | 0, recvBuf, v => .ok (recvBuf, v)
  | rounds + 1, recvBuf, v =>
      if recvBuf.isEmpty then .ok (recvBuf, v)
      else do
        let datum ← recvBuf.getDatum recvBuf.readableSize 0
        let af ← attach recvBuf.buffer datum
        let (bodyLen, v) ← v.handlePacket engine (load af.buffer [⟨af.readPos, af.readableSize⟩])
        if 0 < bodyLen then msgLoop rounds (recvBuf.adjustReadPtr bodyLen.toNat) v
        else return (recvBuf, v)

/-- `DoMsgParse`. -/
def doMsgParse (recvBuf : CircularBuffer) (v : Service σ) : Except Fault (CircularBuffer × Service σ) :=
  msgLoop engine (recvBuf.readableSize + 1) recvBuf v

/-- A client between two packets. -/
structure Idle (v : Service σ) : Prop where
  parser : ∃ p, v.client.parser = ProtoParser.reset p
  reply : Holds v.reply []
  socket : v.socket.Ordered False

end Service

/-- What a client may have sent beyond the requests that were executed: nothing, the beginning of the
number of strings, or one whole request. -/
inductive Sendable : Bytes → Prop
  | nothing : Sendable []
  | header {b : Bytes} (hmark : b.head? = some 42) (h : Header b) : Sendable b
  | whole {strs : List Bytes} (hne : strs ≠ []) : Sendable (request strs)

namespace Service

variable {engine : Engine σ ι} {v v' : Service σ} {msg : Bytes} {strs : List Bytes} {r : Reply} {db : σ}
  {b : CircularBuffer}

/-- Of a request only the beginning of a header is there. -/
theorem Idle.handlePacket_header (h : v.Idle) (hmark : msg.head? = some 42) (hheader : Header msg) :
    ∃ k ≤ 0, v.handlePacket engine msg = .ok (k, v) := by
  obtain ⟨p, hp⟩ := h.parser
  obtain ⟨ptr, hptr, hparse⟩ := @Header.parseRequest p msg hheader hmark
  refine ⟨toInt (0 - ptr), ?_, ?_⟩
  · rw [toInt, Int.bmod_eq_of_le] <;> omega
  · rw [handlePacket, hp, hparse, ok_bind, ← hp]
    rfl

/-- What a client is after the request `strs`, which the engine answered with `r`. -/
structure Served (v : Service σ) (strs : List Bytes) (r : Reply) (db : σ) (v' : Service σ) : Prop where
  db : v'.db = db
  executed : v'.client.executed = v.client.executed ++ [strs]
  queued : v'.socket.queued = v.socket.queued ++ r.bytes
  accepted : v'.socket.accepted = v.socket.accepted
  flags : v'.socket.epollOut = v.socket.epollOut ∧ v'.socket.invalid = v.socket.invalid
  idle : v'.Idle

/-- **A request is answered with one packet**, and the client is ready for the next one. -/
theorem Idle.handlePacket_request (h : v.Idle) (hne : strs ≠ []) (hlen : (request strs).length < 2 ^ 31)
    (hans : answer engine v.db strs = .ok (r, db))
    (hfit : v.socket.sendBuf.unread.length + r.bytes.length ≤ 2 ^ 62) :
    ∃ v', v.handlePacket engine (request strs) = .ok (((request strs).length : Int), v') ∧
      v.Served strs r db v' := by
  obtain ⟨p, hp⟩ := h.parser
  have hparse := @ProtoParser.parseRequest_of_lt p strs [] (by rw [List.append_nil]; exact hlen)
  rw [List.append_nil] at hparse
  have hparams : (ProtoParser.reading strs.length strs []).params = strs := List.append_nil strs
  obtain ⟨hproper, hwrite⟩ := Answered.executeCmd h.reply r db hans
  obtain ⟨reply, hexec, hreply⟩ := hwrite (by rw [List.nil_append]; omega)
  have hdata : reply.packet.1 = r.bytes := by
    rw [hreply.valid.packet, hreply.content, List.nil_append]
  have hsome : reply.packet.1 ≠ [] := hdata ▸ hproper.bytes_ne_nil
  rcases h.socket.sendPacket reply.packet with ⟨socket, hsend, hsocket⟩ | ⟨_, hlong⟩
  · have hqueued : socket.queued = v.socket.queued ++ r.bytes ∧ socket.accepted = v.socket.accepted ∧
        socket.epollOut = v.socket.epollOut ∧ socket.invalid = v.socket.invalid := by
      rw [SendSocket.sendPacket, if_neg hsome] at hsend
      obtain ⟨sendBuf, _, hsend⟩ := exists_of_bind hsend
      cases hsend
      rw [hdata]
      exact ⟨rfl, rfl, rfl, rfl⟩
    refine ⟨⟨db, ⟨(ProtoParser.reading strs.length strs []).reset, v.client.executed ++ [strs]⟩,
      reply.clear, socket⟩, ?_, rfl, rfl, hqueued.1, hqueued.2.1, hqueued.2.2, ⟨_, rfl⟩, hreply.clear, hsocket⟩
    rw [handlePacket, hp, hparse, ok_bind]
    dsimp only
    rw [if_neg (not_not_intro rfl), hparams, if_neg hne, hexec, ok_bind]
    dsimp only
    rw [hsend, ok_bind, toInt_of_lt hlen]
    rfl
  · rw [hdata] at hlong
    omega

/-- One round of the loop. -/
theorem msgLoop_succ {rounds : Nat} {k : Int} (h : Holding b msg) (hne : msg ≠ [])
    (hpacket : v.handlePacket engine msg = .ok (k, v')) :
    msgLoop engine (rounds + 1) b v =
      if 0 < k then msgLoop engine rounds (b.adjustReadPtr k.toNat) v' else .ok (b, v') := by
  have hsize := h.size
  obtain ⟨datum, af, hdatum, haf, hload⟩ := h.valid.attach (by omega)
  rw [h.content] at hload
  rw [msgLoop, if_neg (fun hempty => hne (h.isEmpty_iff.mp hempty)), hdatum, ok_bind, haf, ok_bind,
    hload, hpacket, ok_bind]
  rfl

theorem msgLoop_empty {rounds : Nat} (h : Holding b []) : msgLoop engine (rounds + 1) b v = .ok (b, v) := by
  rw [msgLoop, if_pos (h.isEmpty_iff.mpr rfl)]

/-- What `DoMsgParse` does: nothing yet, or it answers the one request that is there. -/
inductive Parsed (engine : Engine σ ι) (b : CircularBuffer) (v : Service σ) (unread : Bytes) (b' : CircularBuffer)
    (v' : Service σ) : Prop
  | wait (hnone : ∀ strs, unread ≠ request strs) (hb : b' = b) (hv : v' = v)
  | served {strs : List Bytes} {r : Reply} {db : σ} (hunread : unread = request strs)
      (hans : answer engine v.db strs = .ok (r, db)) (hv : v.Served strs r db v')
      (hb : Holding b' [])

theorem length_request_pos (strs : List Bytes) : 0 < (request strs).length := by
  rw [request, multiBulk, List.cons_append, List.length_cons]
  exact Nat.succ_pos _

/-- The beginning of a header is no request. -/
theorem not_header_request (strs : List Bytes) : ¬Header (request strs) := by
  rintro (hshort | ⟨k, _, heq⟩)
  · have hpos := @decimal_pos strs.length
    simp only [request, multiBulk, crlf, List.length_append, List.length_cons, List.length_nil] at hshort
    omega
  · have hline : decimal strs.length ++ 13 :: (10 :: strs.flatMap bulk) = decimal k ++ 13 :: [] := by
      rw [← (List.cons.inj heq).2]
      simp [crlf]
    exact List.cons_ne_nil _ _ (Code.append_sep_inj (decimal_not_cr _) (decimal_not_cr _) hline).2

/-- **`DoMsgParse` takes a request as a whole or leaves it.** -/
theorem Idle.doMsgParse {unread : Bytes} (h : v.Idle) (hb : Receives ⟨b, v.client⟩ ⟨unread, v.client⟩)
    (hsend : Sendable unread)
    (hans : ∀ strs, unread = request strs → ∃ r db, answer engine v.db strs = .ok (r, db) ∧
      v.socket.sendBuf.unread.length + r.bytes.length ≤ 2 ^ 62) :
    ∃ b' v', v.doMsgParse engine b = .ok (b', v') ∧ Parsed engine b v unread b' v' := by
  have hnil : ∀ strs, [] ≠ request strs := fun strs heq =>
    (length_request_pos strs).ne (congrArg List.length heq)
  rcases hb.recvBuf with ⟨hnew, hempty⟩ | hb
  · obtain rfl : b = StreamSocket.new.recvBuf := hnew
    obtain rfl : unread = [] := hempty
    exact ⟨_, v, rfl, .wait hnil rfl rfl⟩
  have hlen : unread.length = b.readableSize := by rw [← hb.valid.length_content, hb.content]
  have hlt := hb.valid.readableSize_lt
  have hsize : b.maxSize = 64 * 1024 := hb.size
  dsimp only at hb hlt
  unfold Service.doMsgParse
  cases hsend with
  | nothing => exact ⟨b, v, msgLoop_empty hb, .wait hnil rfl rfl⟩
  | header hmark hheader =>
      have hne : unread ≠ [] := by
        rintro rfl
        cases hmark
      obtain ⟨k, hk, hpacket⟩ : ∃ k ≤ 0, v.handlePacket engine unread = .ok (k, v) :=
        h.handlePacket_header hmark hheader
      refine ⟨b, v, ?_, .wait (fun strs heq => not_header_request strs (heq ▸ hheader)) rfl rfl⟩
      rw [msgLoop_succ hb hne hpacket, if_neg (Int.not_lt.mpr hk)]
  | @whole strs hne =>
      obtain ⟨r, db, hans, hfit⟩ := hans strs rfl
      have hpos := length_request_pos strs
      obtain ⟨v', hpacket, hv'⟩ := h.handlePacket_request hne (by omega) hans hfit
      have hempty := hb.adjustReadPtr
      obtain ⟨rounds, hrounds⟩ : ∃ rounds, b.readableSize = rounds + 1 :=
        Nat.exists_eq_succ_of_ne_zero (by omega)
      refine ⟨_, v', ?_, .served rfl hans hv' hempty⟩
      rw [msgLoop_succ hb (List.ne_nil_of_length_pos hpos) hpacket, if_pos (by omega), hrounds,
        Int.toNat_natCast]
      exact msgLoop_empty hempty

end Service

end Eraft
