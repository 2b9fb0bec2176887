import Eraft.ServerClient

/-! The server with all its threads. One thread reads from the sockets into their rings, the main thread
goes round the clients, parses what is there and executes it (`network/src/task_manager.cc`), and a third
one sends the replies; new connections come in at any time. A read, the visit of one client and a round of
the sending thread are single steps, in any order; what can happen when a visit and a round overlap on one
socket is in `AsyncSession`. -/

open Runs

namespace Eraft

/-- A connection, apart from the sending side of its socket; `received` is all that was read from it. -/
structure Connection where
  stream : StreamSocket := .new
  reply : UnboundedBuffer := {}
  received : Bytes := []

/-- A connection is known by its place in `conns` and in the sockets of the sending thread. Beside the state
stand the requests that were executed, each with its connection. -/
structure Server (σ : Type) where
  db : σ
  conns : List Connection := []
  thread : SendThread := {}
  newTasks : List Nat := []
  tcpSockets : List Nat := []
  executed : List (Nat × List Bytes) := []

inductive ServerAction where
  | accept
  /-- `readv` gives this chunk. -/
  | recv (id : Nat) (chunk : Bytes)
  /-- `readv` fails, or the other side has closed. -/
  | hangUp (id : Nat)
  | addTasks (locked : Bool)
  | visit (id : Nat)
  | send (round : Round)

namespace Server

variable {σ ι : Type} (engine : Engine σ ι) (s : Server σ)

/-- `NewConnection`, with `AddSocket` and `AddTask`. -/
def accept : Except Fault (Server σ) := do
  let thread ← s.thread.addSocket
  return { s with
    thread := thread, conns := s.conns ++ [{}], newTasks := s.newTasks ++ [s.conns.length] }

/-- `OnReadable`. -/
def recv (id : Nat) (chunk : Bytes) : Except Fault (Server σ) :=
  match s.conns[id]? with
  | none => .ok s
  | some conn => do
      let (ret, stream) ← conn.stream.recv chunk
      return { s with conns := s.conns.set id {
        conn with stream := stream, received := conn.received ++ chunk.take ret } }

/-- `OnReadable` fails, and `OnError` follows. -/
def hangUp (id : Nat) : Server σ :=
  { s with thread := { s.thread with sockets := s.thread.sockets.modify id SendSocket.onError } }

/-- The first part of `TaskManager::DoMsgParse`. -/
def addTasks (locked : Bool) : Server σ :=
  if 0 < s.newTasks.length ∧ locked = true then
    { s with
      tcpSockets := s.newTasks.foldl (fun sockets id => if id ∈ sockets then sockets else sockets ++ [id])
        s.tcpSockets
      newTasks := [] }
  else s

/-- `TaskManager::DoMsgParse` comes to a client. -/
def visit (id : Nat) : Except Fault (Server σ) :=
  match s.conns[id]?, s.thread.sockets[id]? with
  | some conn, some socket =>
      if socket.invalid = true then .ok { s with tcpSockets := s.tcpSockets.erase id }
      else do
        let (recvBuf, v) ← Service.doMsgParse engine conn.stream.recvBuf
          { db := s.db, client := conn.stream.client, reply := conn.reply, socket := socket }
        let new := v.client.executed.drop conn.stream.client.executed.length
        return { s with
          db := v.db
          conns := s.conns.set id { conn with
            stream := { recvBuf := recvBuf, client := v.client }, reply := v.reply }
          thread := { s.thread with sockets := s.thread.sockets.set id v.socket }
          executed := s.executed ++ new.map (id, ·) }
  | _, _ => .ok s

def exec : ServerAction → Except Fault (Server σ)
  | .accept => s.accept
  | .recv id chunk => s.recv id chunk
  | .hangUp id => .ok (s.hangUp id)
  | .addTasks locked => .ok (s.addTasks locked)
  | .visit id => s.visit engine id
  | .send round => do
      let thread ← s.thread.run round
      return { s with thread := thread }

/-- What the surroundings may do. A chunk fits into the ring and leaves there no more than the beginning of a
header or one whole request; for a request that is complete there is an answer, and memory for it; and
no `writev` takes more than an `int` can count. -/
def Enabled : ServerAction → Prop
  | .accept => True
  | .recv id chunk => ∀ conn, s.conns[id]? = some conn →
      Sendable (conn.stream.recvBuf.content ++ chunk) ∧
        (conn.stream.recvBuf.content ++ chunk).length < 64 * 1024 - 2
  | .hangUp _ => True
  | .addTasks _ => True
  | .visit id => id ∈ s.tcpSockets ∧ ∀ conn socket strs, s.conns[id]? = some conn →
      s.thread.sockets[id]? = some socket → conn.stream.recvBuf.content = request strs →
        ∃ r db, answer engine s.db strs = .ok (r, db) ∧
          socket.sendBuf.unread.length + r.bytes.length ≤ 2 ^ 62
  | .send round => SendThread.Counted (.run round)

def Next (s : Server σ) (action : ServerAction) (s' : Server σ) : Prop :=
  s.Enabled engine action ∧ s.exec engine action = .ok s'

/-- The runs that begin with the engine in the state `db` and no connection. -/
abbrev ServerRun (db : σ) : List (Move (Server σ) ServerAction) → Server σ → Prop :=
  Run (· = { db := db }) (Next engine)

end Server

/-- A request with its reply. -/
structure Exchange where
  id : Nat
  request : List Bytes
  reply : Reply

/-- The exchanges are the answers of one engine to one request after the other. -/
inductive Sequential {σ ι : Type} (engine : Engine σ ι) (start : σ) : List Exchange → σ → Prop
  | nil : Sequential engine start [] start
  | snoc {log : List Exchange} {db db' : σ} {x : Exchange} (h : Sequential engine start log db)
      (hans : answer engine db x.request = .ok (x.reply, db')) : Sequential engine start (log ++ [x]) db'

def requestsOf (id : Nat) (log : List Exchange) : List (List Bytes) :=
  (log.filter fun x => x.id = id).map Exchange.request

def repliesOf (id : Nat) (log : List Exchange) : List Reply :=
  (log.filter fun x => x.id = id).map Exchange.reply

/-- A connection on which these requests were executed. -/
structure Listening (conn : Connection) (done : List (List Bytes)) : Prop where
  parser : ∃ p, conn.stream.client.parser = ProtoParser.reset p
  executed : conn.stream.client.executed = done
  reply : Holds conn.reply []
  receives : Receives conn.stream ⟨conn.stream.recvBuf.content, conn.stream.client⟩
  sendable : Sendable conn.stream.recvBuf.content
  received : conn.received = done.flatMap request ++ conn.stream.recvBuf.content

/-- The server after the exchanges `log`. -/
structure Consistent {σ ι : Type} (engine : Engine σ ι) (start : σ) (s : Server σ) (log : List Exchange) :
    Prop where
  db : Sequential engine start log s.db
  executed : log.map (fun x => (x.id, x.request)) = s.executed
  conn : ∀ id conn, s.conns[id]? = some conn → Listening conn (requestsOf id log)
  ordered : ∀ socket ∈ s.thread.sockets, socket.Ordered False
  queued : ∀ id socket, s.thread.sockets[id]? = some socket →
    socket.queued = (repliesOf id log).flatMap Reply.bytes
  length : s.conns.length = s.thread.sockets.length
  places : ∀ x ∈ log, x.id < s.conns.length

end Eraft
