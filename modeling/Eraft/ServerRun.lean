import Eraft.Server

/-! Every client of the server sees one map, whatever the engine is. The invariant is that the server is where it
would be if all requests had been executed one after the other, and that of the replies of each client the kernel
has taken a beginning. -/

open Runs

namespace Eraft

/-! ### The sending thread queues nothing -/

namespace SendSocket

theorem send_queued {s s' : SendSocket} {locked sent : Bool} {answer : Writev}
    (h : s.send locked answer = .ok (sent, s')) : s'.queued = s.queued := by
  unfold SendSocket.send at h
  split_ifs at h
  · cases h
    rfl
  · obtain ⟨⟨shown, sendBuf⟩, _, h⟩ := exists_of_bind h
    dsimp only at h
    split_ifs at h
    · cases h
      rfl
    · obtain ⟨a, _, h⟩ := exists_of_bind h
      cases h
      rfl
    · obtain ⟨a, _, h⟩ := exists_of_bind h
      cases h
      rfl

end SendSocket

namespace SendThread

variable {round : Round} {w w' : SendThread} {sockets sockets' : List SendSocket} {s s' : SendSocket} {id : Nat}

theorem map_queued_set (hid : sockets[id]? = some s) (h : s'.queued = s.queued) :
    (sockets.set id s').map SendSocket.queued = sockets.map SendSocket.queued := by
  obtain ⟨hlt, rfl⟩ := List.getElem?_eq_some_iff.mp hid
  rw [List.map_set, h, ← List.map_set, List.set_getElem_self]

theorem map_queued_modify {f : SendSocket → SendSocket} (hf : ∀ s, (f s).queued = s.queued) :
    (sockets.modify id f).map SendSocket.queued = sockets.map SendSocket.queued := by
  refine List.ext_getElem? fun j => ?_
  rw [List.getElem?_map, List.getElem?_map, List.getElem?_modify]
  cases sockets[j]? with
  | none => rfl
  | some s =>
      show some (if id = j then f s else s).queued = some s.queued
      split_ifs
      · rw [hf]
      · rfl

theorem tryAddNewTasks_queued (w : SendThread) (round : Round) :
    (w.tryAddNewTasks round).sockets.map SendSocket.queued = w.sockets.map SendSocket.queued := by
  unfold tryAddNewTasks
  split_ifs
  · refine List.foldlRecOn (motive := fun w' : SendThread => w'.sockets.map SendSocket.queued =
      w.sockets.map SendSocket.queued) w.newTasks (addTask round) (b := { w with newTasks := [] }) rfl ?_
    intro w' hw' id _
    unfold addTask
    split_ifs
    · rw [← hw']
      exact map_queued_modify fun _ => rfl
    · exact hw'
  · rfl

theorem sendLoop_queued {tasks tasks' : List Nat} {nOut : Nat}
    (h : sendLoop round tasks sockets = .ok (tasks', nOut, sockets')) :
    sockets'.map SendSocket.queued = sockets.map SendSocket.queued := by
  induction tasks generalizing sockets tasks' nOut with
  | nil =>
      cases h
      rfl
  | cons id rest ih =>
      unfold sendLoop at h
      cases hid : sockets[id]? with
      | none =>
          rw [hid] at h
          exact ih h
      | some s =>
          rw [hid] at h
          obtain ⟨⟨sent, s'⟩, hsend, h⟩ := exists_of_bind h
          have hqueued : (if sent = true then s' else s'.onError).queued = s.queued := by
            rw [← SendSocket.send_queued hsend]
            split_ifs <;> rfl
          change (if (if sent = true then s' else s'.onError).invalid = true then _ else _) = _ at h
          generalize (if sent = true then s' else s'.onError) = s₁ at h hqueued
          by_cases hinvalid : s₁.invalid = true
          · rw [if_pos hinvalid] at h
            exact (ih h).trans (map_queued_set hid hqueued)
          · rw [if_neg hinvalid] at h
            obtain ⟨⟨tasks₁, nOut₁, sockets₁⟩, hrest, h⟩ := exists_of_bind h
            cases h
            exact (ih hrest).trans (map_queued_set hid hqueued)

theorem run_queued (h : w.run round = .ok w') :
    w'.sockets.map SendSocket.queued = w.sockets.map SendSocket.queued := by
  unfold SendThread.run at h
  obtain ⟨⟨tasks, nOut, sockets⟩, hloop, h⟩ := exists_of_bind h
  have hsent := (sendLoop_queued hloop).trans (tryAddNewTasks_queued w round)
  dsimp only at h
  split_ifs at h
  · cases h
    exact hsent
  · cases h
    refine List.foldlRecOn (motive := fun sockets' : List SendSocket => sockets'.map SendSocket.queued =
      w.sockets.map SendSocket.queued) _ _ hsent ?_
    intro sockets' hsockets' id _
    refine (map_queued_modify fun s => ?_).trans hsockets'
    split_ifs <;> rfl

end SendThread

variable {σ ι : Type} {engine : Engine σ ι} {start : σ} {s s' : Server σ} {log : List Exchange} {x : Exchange}
  {id : Nat} {chunk : Bytes} {conn : Connection} {done : List (List Bytes)}

theorem requestsOf_snoc : requestsOf id (log ++ [x]) =
    if x.id = id then requestsOf id log ++ [x.request] else requestsOf id log := by
  unfold requestsOf
  rw [List.filter_append, List.filter_singleton]
  by_cases h : x.id = id
  · simp [h]
  · simp [h]

theorem repliesOf_snoc : repliesOf id (log ++ [x]) =
    if x.id = id then repliesOf id log ++ [x.reply] else repliesOf id log := by
  unfold repliesOf
  rw [List.filter_append, List.filter_singleton]
  by_cases h : x.id = id
  · simp [h]
  · simp [h]

theorem requestsOf_of_forall_ne (h : ∀ x ∈ log, x.id ≠ id) : requestsOf id log = [] := by
  rw [requestsOf, List.filter_eq_nil_iff.mpr fun x hx => by simpa using h x hx, List.map_nil]

theorem repliesOf_of_forall_ne (h : ∀ x ∈ log, x.id ≠ id) : repliesOf id log = [] := by
  rw [repliesOf, List.filter_eq_nil_iff.mpr fun x hx => by simpa using h x hx, List.map_nil]

theorem Listening.new : Listening {} [] :=
  ⟨⟨{}, rfl⟩, rfl, .empty, .new, .nothing, rfl⟩

/-- Bytes that were read are unread at first. -/
theorem Listening.recv (h : Listening conn done) (hsend : Sendable (conn.stream.recvBuf.content ++ chunk))
    (hroom : (conn.stream.recvBuf.content ++ chunk).length < 64 * 1024 - 2) :
    ∃ stream, conn.stream.recv chunk = .ok (chunk.length, stream) ∧
      Listening { conn with stream := stream, received := conn.received ++ chunk } done := by
  obtain ⟨b, hrecv, hb⟩ := h.receives.recv hroom
  refine ⟨_, hrecv, h.parser, h.executed, h.reply, ?_, ?_, ?_⟩
  · show Receives ⟨b, conn.stream.client⟩ ⟨b.content, conn.stream.client⟩
    exact ⟨rfl, .inr ⟨hb.valid, hb.size, rfl⟩⟩
  · show Sendable b.content
    rw [hb.content]
    exact hsend
  · show conn.received ++ chunk = done.flatMap request ++ b.content
    rw [hb.content, h.received, List.append_assoc]

/-! ### The steps -/

theorem set_of_getElem? {α : Type*} {l : List α} {i : Nat} {a : α} (h : l[i]? = some a) : l.set i a = l := by
  obtain ⟨hlt, rfl⟩ := List.getElem?_eq_some_iff.mp h
  exact List.set_getElem_self hlt

/-- What holds at every place of a list, after one place has changed. -/
theorem forall_getElem?_set {α : Type*} {P : Nat → α → Prop} {l : List α} {j : Nat} {b : α}
    (h : ∀ i a, j ≠ i → l[i]? = some a → P i a) (hb : P j b) : ∀ i a, (l.set j b)[i]? = some a → P i a := by
  intro i a hi
  rw [List.getElem?_set] at hi
  split_ifs at hi with heq
  · cases hi
    exact heq ▸ hb
  · exact h i a heq hi

/-- And after one was added. -/
theorem forall_getElem?_concat {α : Type*} {P : Nat → α → Prop} {l : List α}
    (h : ∀ i a, l[i]? = some a → P i a) {b : α} (hb : P l.length b) :
    ∀ i a, (l ++ [b])[i]? = some a → P i a := by
  intro i a hi
  rw [List.getElem?_append] at hi
  split_ifs at hi with hlt
  · exact h i a hi
  · rw [List.getElem?_singleton] at hi
    split_ifs at hi with hzero
    cases hi
    obtain rfl : i = l.length := by omega
    exact hb

namespace Consistent

theorem accept (h : Consistent engine start s log) :
    ∃ s', s.accept = .ok s' ∧ Consistent engine start s' log := by
  obtain ⟨a, ha⟩ := AsyncBuffer.exists_new (by decide : 0 < 128 * 1024) (by decide)
  have hne : ∀ x ∈ log, x.id ≠ s.conns.length := fun x hx => (h.places x hx).ne
  have hadd : s.thread.addSocket = .ok { s.thread with
      sockets := s.thread.sockets ++ [{ sendBuf := a }]
      newTasks := s.thread.newTasks ++ [s.thread.sockets.length] } := by
    rw [SendThread.addSocket, ha]
  refine ⟨{ s with
    thread := { s.thread with
      sockets := s.thread.sockets ++ [{ sendBuf := a }]
      newTasks := s.thread.newTasks ++ [s.thread.sockets.length] }
    conns := s.conns ++ [{}], newTasks := s.newTasks ++ [s.conns.length] },
    by rw [Server.accept, hadd]; rfl, h.db, h.executed, ?_, ?_, ?_, ?_, ?_⟩
  · refine forall_getElem?_concat h.conn ?_
    rw [requestsOf_of_forall_ne hne]
    exact .new
  · exact List.forall_mem_append.mpr ⟨h.ordered, List.forall_mem_singleton.mpr (.new ha)⟩
  · refine forall_getElem?_concat h.queued ?_
    rw [← h.length, repliesOf_of_forall_ne hne]
    rfl
  · simp only [List.length_append, h.length, List.length_singleton]
  · intro x hx
    rw [List.length_append]
    exact (h.places x hx).trans_le (Nat.le_add_right _ _)

theorem recv (h : Consistent engine start s log) (hok : s.Enabled engine (.recv id chunk)) :
    ∃ s', s.recv id chunk = .ok s' ∧ Consistent engine start s' log := by
  unfold Server.recv
  cases hconn : s.conns[id]? with
  | none => exact ⟨s, rfl, h⟩
  | some conn =>
      obtain ⟨hsend, hroom⟩ := hok conn hconn
      obtain ⟨stream, hrecv, hlisten⟩ := (h.conn id conn hconn).recv hsend hroom
      dsimp only
      rw [hrecv, ok_bind]
      refine ⟨_, rfl, h.db, h.executed, forall_getElem?_set (fun i c _ => h.conn i c) ?_,
        h.ordered, h.queued, ?_, ?_⟩
      · rw [List.take_length]
        exact hlisten
      · exact (List.length_set ..).trans h.length
      · exact fun x hx => (h.places x hx).trans_eq (List.length_set ..).symm

/-- A change of the sockets that queues nothing. -/
theorem thread (h : Consistent engine start s log) {thread : SendThread}
    (hordered : ∀ socket ∈ thread.sockets, socket.Ordered False)
    (hqueued : thread.sockets.map SendSocket.queued = s.thread.sockets.map SendSocket.queued) :
    Consistent engine start { s with thread := thread } log := by
  refine ⟨h.db, h.executed, h.conn, hordered, fun id socket hid => ?_, ?_, h.places⟩
  · have hsame := congrArg (·[id]?) hqueued
    simp only [List.getElem?_map] at hsame
    rw [hid] at hsame
    obtain ⟨old, hold, heq⟩ := Option.map_eq_some_iff.mp hsame.symm
    rw [← heq, h.queued id old hold]
  · have hlen := congrArg List.length hqueued
    rw [List.length_map, List.length_map] at hlen
    exact h.length.trans hlen.symm

theorem hangUp (h : Consistent engine start s log) (id : Nat) : Consistent engine start (s.hangUp id) log :=
  h.thread (SendThread.forall_mem_modify h.ordered id fun _ hs => ⟨hs.sendBuf, hs.order, nofun⟩)
    (SendThread.map_queued_modify fun _ => rfl)

theorem addTasks (h : Consistent engine start s log) (locked : Bool) :
    Consistent engine start (s.addTasks locked) log := by
  unfold Server.addTasks
  split_ifs
  · exact ⟨h.db, h.executed, h.conn, h.ordered, h.queued, h.length, h.places⟩
  · exact h

theorem send (h : Consistent engine start s log) {round : Round} (hround : SendThread.Counted (.run round)) :
    ∃ thread, s.thread.run round = .ok thread ∧ Consistent engine start { s with thread := thread } log := by
  obtain ⟨thread, hrun, hordered⟩ := SendThread.run_ordered h.ordered hround nofun
  exact ⟨thread, hrun, h.thread hordered (SendThread.run_queued hrun)⟩

/-- The server after a request was executed. -/
theorem served {socket : SendSocket} {strs : List Bytes} {r : Reply} {db : σ} {v : Service σ}
    {b : CircularBuffer} (h : Consistent engine start s log) (hconn : s.conns[id]? = some conn)
    (hsocket : s.thread.sockets[id]? = some socket) (hunread : conn.stream.recvBuf.content = request strs)
    (hans : answer engine s.db strs = .ok (r, db))
    (hv : Service.Served ⟨s.db, conn.stream.client, conn.reply, socket⟩ strs r db v)
    (hb : Holding b []) :
    Consistent engine start { s with
      db := v.db
      conns := s.conns.set id { conn with stream := ⟨b, v.client⟩, reply := v.reply }
      thread := { s.thread with sockets := s.thread.sockets.set id v.socket }
      executed := s.executed ++
        (v.client.executed.drop conn.stream.client.executed.length).map (id, ·) } (log ++ [⟨id, strs, r⟩]) := by
  have hlisten := h.conn id conn hconn
  have hnew : v.client.executed.drop conn.stream.client.executed.length = [strs] := by
    rw [hv.executed]
    exact List.drop_left
  refine ⟨?_, ?_, ?_, ?_, ?_, ?_, ?_⟩
  · exact h.db.snoc (hv.db ▸ hans)
  · rw [hnew, List.map_append, h.executed]
    rfl
  · refine forall_getElem?_set (fun i c hne hi => ?_) ?_
    · rw [requestsOf_snoc, if_neg hne]
      exact h.conn i c hi
    · rw [requestsOf_snoc, if_pos rfl]
      refine ⟨hv.idle.parser, ?_, hv.idle.reply, ⟨rfl, .inr ⟨hb.valid, hb.size, rfl⟩⟩, ?_, ?_⟩
      · exact hv.executed.trans (congrArg (· ++ [strs]) hlisten.executed)
      · show Sendable b.content
        rw [hb.content]
        exact .nothing
      · show conn.received = _ ++ b.content
        rw [hb.content, hlisten.received, hunread, List.append_nil, List.flatMap_append, List.flatMap_singleton]
  · exact SendThread.forall_mem_set h.ordered id hv.idle.socket
  · refine forall_getElem?_set (fun i c hne hi => ?_) ?_
    · rw [repliesOf_snoc, if_neg hne]
      exact h.queued i c hi
    · rw [repliesOf_snoc, if_pos rfl, List.flatMap_append, List.flatMap_singleton, ← h.queued id socket hsocket]
      exact hv.queued
  · rw [List.length_set, List.length_set]
    exact h.length
  · intro x hx
    rw [List.length_set]
    rcases List.mem_append.mp hx with hx | hx
    · exact h.places x hx
    · rw [List.mem_singleton.mp hx]
      exact (List.getElem?_eq_some_iff.mp hconn).1

/-- **A visit executes one request at most**, and then the answer is queued for the client it came from. -/
theorem visit (h : Consistent engine start s log) (hok : s.Enabled engine (.visit id)) :
    ∃ s' log', s.visit engine id = .ok s' ∧ log <+: log' ∧ Consistent engine start s' log' ∧
      ∀ conn socket strs, s.conns[id]? = some conn → s.thread.sockets[id]? = some socket →
        socket.invalid = false → conn.stream.recvBuf.content = request strs →
          s'.executed = s.executed ++ [(id, strs)] := by
  unfold Server.visit
  cases hconn : s.conns[id]? with
  | none => exact ⟨s, log, rfl, List.prefix_rfl, h, nofun⟩
  | some conn =>
  cases hsocket : s.thread.sockets[id]? with
  | none => exact ⟨s, log, rfl, List.prefix_rfl, h, nofun⟩
  | some socket =>
  dsimp only
  have hlisten := h.conn id conn hconn
  by_cases hinvalid : socket.invalid = true
  · rw [if_pos hinvalid]
    refine ⟨_, log, rfl, List.prefix_rfl,
      ⟨h.db, h.executed, h.conn, h.ordered, h.queued, h.length, h.places⟩, ?_⟩
    rintro _ _ strs ⟨⟩ ⟨⟩ hvalid
    rw [hinvalid] at hvalid
    cases hvalid
  have hidle : Service.Idle ⟨s.db, conn.stream.client, conn.reply, socket⟩ :=
    ⟨hlisten.parser, hlisten.reply, h.ordered socket (List.mem_of_getElem? hsocket)⟩
  obtain ⟨b, v, hparse, hparsed⟩ := hidle.doMsgParse hlisten.receives hlisten.sendable
    fun strs hstrs => hok.2 conn socket strs hconn hsocket hstrs
  rw [if_neg hinvalid, hparse, ok_bind]
  cases hparsed with
  | wait hnone hb hv =>
      subst hb hv
      refine ⟨s, log, ?_, List.prefix_rfl, h, ?_⟩
      · dsimp only
        rw [set_of_getElem? hconn, set_of_getElem? hsocket, List.drop_length, List.map_nil, List.append_nil]
        rfl
      · rintro _ _ strs ⟨⟩ ⟨⟩ _ hstrs
        exact absurd hstrs (hnone strs)
  | @served strs r db hunread hans hv hb =>
      have h' := h.served hconn hsocket hunread hans hv hb
      refine ⟨_, _, rfl, List.prefix_append log _, h', ?_⟩
      rintro _ _ strs' ⟨⟩ ⟨⟩ _ hstrs
      rw [← h'.executed, List.map_append, h.executed]
      obtain ⟨rfl, _⟩ := request_delimited strs strs' trivial trivial [] []
        (congrArg (· ++ []) (hunread.symm.trans hstrs))
      rfl

/-- **Every step keeps the server consistent**, and comes to its end. -/
theorem exec (h : Consistent engine start s log) {action : ServerAction} (hok : s.Enabled engine action) :
    ∃ s' log', s.exec engine action = .ok s' ∧ log <+: log' ∧ Consistent engine start s' log' := by
  cases action with
  | accept =>
      obtain ⟨s', hs', h'⟩ := h.accept
      exact ⟨s', log, hs', List.prefix_rfl, h'⟩
  | recv id chunk =>
      obtain ⟨s', hs', h'⟩ := h.recv hok
      exact ⟨s', log, hs', List.prefix_rfl, h'⟩
  | hangUp id => exact ⟨_, log, rfl, List.prefix_rfl, h.hangUp id⟩
  | addTasks locked => exact ⟨_, log, rfl, List.prefix_rfl, h.addTasks locked⟩
  | visit id =>
      obtain ⟨s', log', hs', hlog, h', _⟩ := h.visit hok
      exact ⟨s', log', hs', hlog, h'⟩
  | send round =>
      obtain ⟨thread, hrun, h'⟩ := h.send hok
      refine ⟨_, log, ?_, List.prefix_rfl, h'⟩
      rw [Server.exec, hrun]
      rfl

theorem executed_mono {log' : List Exchange} (h : Consistent engine start s log)
    (h' : Consistent engine start s' log') (hlog : log <+: log') : s.executed <+: s'.executed := by
  rw [← h.executed, ← h'.executed]
  exact hlog.map _

end Consistent

theorem Sequential.proper {db : σ} (h : Sequential engine start log db) :
    ∀ x ∈ log, x.reply.Proper := by
  induction h with
  | nil => exact nofun
  | snoc _ hans ih =>
      exact List.forall_mem_append.mpr ⟨ih, List.forall_mem_singleton.mpr
        (Answered.executeCmd Holds.empty _ _ hans).1⟩

namespace Server

variable {moves : List (Move (Server σ) ServerAction)}

theorem ServerRun.consistent (hrun : ServerRun engine start moves s) :
    ∃ log, Consistent engine start s log ∧ ∀ s₁ ∈ moments moves s, s₁.executed <+: s.executed := by
  induction hrun with
  | start h =>
      subst h
      refine ⟨[], ⟨.nil, rfl, nofun, nofun, nofun, rfl, nofun⟩, fun s₁ hs₁ => ?_⟩
      rw [List.mem_singleton.mp hs₁]
  | step hrun hnext ih =>
      obtain ⟨log, h, hmono⟩ := ih
      obtain ⟨s', log', hs', hlog, h'⟩ := h.exec hnext.1
      obtain rfl := Except.ok.inj (hs'.symm.trans hnext.2)
      refine ⟨log', h', List.forall_mem_cons.mpr ⟨List.prefix_rfl, fun s₁ hs₁ => ?_⟩⟩
      exact (hmono s₁ hs₁).trans (h.executed_mono h' hlog)

/-- **All clients see one map.** At any moment there is a log of all the requests that were executed, in
their order, in which every reply is the answer of one engine to which the requests are given one after
the other. The bytes that came from a client are its requests in the log, each executed once, and at most
one that waits. What the kernel has taken for it is the beginning of its replies in the log, and nothing
else can be read from it. A request that was executed stays where it is in the order; a step that the
surroundings allow comes to its end, and a visit executes the request that waits. -/
theorem clients_see_one_map (hrun : ServerRun engine start moves s) :
    (∃ log, Sequential engine start log s.db ∧ log.map (fun x => (x.id, x.request)) = s.executed ∧
      ∀ id conn socket, s.conns[id]? = some conn → s.thread.sockets[id]? = some socket →
        (∃ unread, Sendable unread ∧ conn.received = (requestsOf id log).flatMap request ++ unread) ∧
        socket.accepted <+: (repliesOf id log).flatMap Reply.bytes ∧
        ∀ replies, (∀ r ∈ replies, r.Proper) → replies.flatMap Reply.bytes <+: socket.accepted →
          replies <+: repliesOf id log) ∧
    (∀ s₁ ∈ moments moves s, s₁.executed <+: s.executed) ∧
    (∀ action, s.Enabled engine action → ∃ s', s.exec engine action = .ok s') ∧
    ∀ id conn socket strs, s.Enabled engine (.visit id) → s.conns[id]? = some conn →
      s.thread.sockets[id]? = some socket → socket.invalid = false →
      conn.stream.recvBuf.content = request strs →
        ∃ s', s.visit engine id = .ok s' ∧ s'.executed = s.executed ++ [(id, strs)] := by
  obtain ⟨log, h, hmono⟩ := ServerRun.consistent hrun
  refine ⟨⟨log, h.db, h.executed, fun id conn socket hconn hsocket => ?_⟩, hmono, fun action hok => ?_,
    fun id conn socket strs hok hconn hsocket hvalid hstrs => ?_⟩
  · have hlisten := h.conn id conn hconn
    have haccepted : socket.accepted <+: (repliesOf id log).flatMap Reply.bytes := by
      rw [← h.queued id socket hsocket, ← (h.ordered socket (List.mem_of_getElem? hsocket)).order]
      exact List.prefix_append _ _
    refine ⟨⟨_, hlisten.sendable, hlisten.received⟩, haccepted, fun replies hproper hpre => ?_⟩
    refine Reply.delimited.isPrefix (fun _ hr => hr.bytes_ne_nil) hproper (fun r hr => ?_)
      (hpre.trans haccepted)
    obtain ⟨x, hx, rfl⟩ := List.mem_map.mp hr
    exact h.db.proper x (List.mem_of_mem_filter hx)
  · obtain ⟨s', _, hs', _⟩ := h.exec hok
    exact ⟨s', hs'⟩
  · obtain ⟨s', _, hs', _, _, hexecuted⟩ := h.visit hok
    exact ⟨s', hs', hexecuted conn socket strs hconn hsocket hvalid hstrs⟩

/-- One connection, which has sent one whole request. -/
theorem exists_received (engine : Engine σ ι) (start : σ) {strs : List Bytes} (hne : strs ≠ [])
    (hlen : (request strs).length < 64 * 1024 - 2) : ∃ moves conn a,
      ServerRun engine start moves {
        db := start
        conns := [conn]
        thread := { sockets := [{ sendBuf := a }], newTasks := [0] }
        tcpSockets := [0] } ∧
      Listening conn [] ∧ conn.stream.recvBuf.content = request strs ∧
      AsyncBuffer.new (128 * 1024) = some a := by
  obtain ⟨a, ha⟩ := AsyncBuffer.exists_new (by decide : 0 < 128 * 1024) (by decide)
  have hsend : Sendable (({} : Connection).stream.recvBuf.content ++ request strs) := .whole hne
  obtain ⟨stream, hrecv, hlisten⟩ := Listening.new.recv hsend hlen
  -- the connection, the task of the main thread, and the bytes
  let s₁ : Server σ := {
    db := start
    conns := [{}]
    thread := { sockets := [{ sendBuf := a }], newTasks := [0] }
    newTasks := [0] }
  let s₂ : Server σ := { s₁ with tcpSockets := [0], newTasks := [] }
  let s₃ : Server σ := { s₂ with conns := [{ stream := stream, received := request strs }] }
  have h₁ : Next engine { db := start } .accept s₁ := by
    refine ⟨trivial, ?_⟩
    show Server.accept { db := start } = _
    rw [Server.accept, SendThread.addSocket, ha]
    rfl
  have h₂ : Next engine s₁ (.addTasks true) s₂ := ⟨trivial, rfl⟩
  have h₃ : Next engine s₂ (.recv 0 (request strs)) s₃ := by
    refine ⟨fun conn hconn => ?_, ?_⟩
    · cases hconn
      exact ⟨hsend, hlen⟩
    · show (StreamSocket.recv _ (request strs) >>= _) = _
      rw [hrecv, ok_bind]
      dsimp only
      rw [List.take_length]
      rfl
  have hstart : ServerRun engine start [] { db := start } := .start rfl
  exact ⟨_, _, a, ((hstart.step h₁).step h₂).step h₃, hlisten, hlisten.received.symm, ha⟩

/-- The request is visited, and a round of the sending thread takes a byte of the reply. -/
theorem exists_sent {strs : List Bytes} {r : Reply} {db : σ} (hne : strs ≠ [])
    (hlen : (request strs).length < 64 * 1024 - 2) (hans : answer engine start strs = .ok (r, db))
    (hfit : r.bytes.length ≤ 2 ^ 62) : ∃ moves s conn socket, ServerRun engine start moves s ∧
      s.executed = [(0, strs)] ∧ s.conns[0]? = some conn ∧ s.thread.sockets[0]? = some socket ∧
      socket.accepted ≠ [] := by
  obtain ⟨moves, conn, a, hrun, hlisten, hcontent, ha⟩ := exists_received engine start hne hlen
  have hnil := (AsyncBuffer.new_valid (by decide) (by decide) ha).2
  have hsame : ∀ strs', conn.stream.recvBuf.content = request strs' → strs' = strs := by
    intro strs' heq
    exact (request_delimited strs' strs trivial trivial [] [] (congrArg (· ++ []) (heq.symm.trans hcontent))).1
  have hanswer : ∀ strs', conn.stream.recvBuf.content = request strs' → ∃ r db,
      answer engine start strs' = .ok (r, db) ∧ a.unread.length + r.bytes.length ≤ 2 ^ 62 := by
    intro strs' heq
    rw [hsame strs' heq, hnil]
    exact ⟨r, db, hans, by rwa [List.length_nil, Nat.zero_add]⟩
  have hidle : (⟨start, conn.stream.client, conn.reply, { sendBuf := a }⟩ : Service σ).Idle :=
    ⟨hlisten.parser, hlisten.reply, .new ha⟩
  obtain ⟨b, v, hparse, hparsed⟩ := hidle.doMsgParse hlisten.receives hlisten.sendable hanswer
  cases hparsed with
  | wait hnone => exact absurd hcontent (hnone strs)
  | @served strs' r' db' hunread hans' hv hb =>
  cases hsame strs' hunread
  have hnew : v.client.executed.drop conn.stream.client.executed.length = [strs] := by
    rw [hv.executed]
    exact List.drop_left
  let s₀ : Server σ := {
    db := start
    conns := [conn]
    thread := { sockets := [{ sendBuf := a }], newTasks := [0] }
    tcpSockets := [0] }
  let s : Server σ := {
    db := v.db
    conns := [{ conn with stream := ⟨b, v.client⟩, reply := v.reply }]
    thread := { sockets := [v.socket], newTasks := [0] }
    tcpSockets := [0]
    executed := [(0, strs)] }
  have hvisit : Next engine s₀ (.visit 0) s := by
    refine ⟨⟨List.mem_cons_self, fun conn' socket strs' hconn hsocket heq => ?_⟩, ?_⟩
    · cases hconn
      cases hsocket
      exact hanswer strs' heq
    · show (Service.doMsgParse engine conn.stream.recvBuf _ >>= _) = _
      rw [hparse, ok_bind]
      dsimp only
      rw [hnew]
      rfl
  have hunsent : v.socket.sendBuf.unread ≠ [] := by
    have horder := hv.idle.socket.order
    rw [hv.accepted, hv.queued] at horder
    rw [show v.socket.sendBuf.unread = r'.bytes from horder]
    exact (Answered.executeCmd Holds.empty _ _ hans').1.bytes_ne_nil
  obtain ⟨socket, thread, hsent, hsockets, haccepted⟩ :=
    SendThread.run_shortRound hv.idle.socket hv.flags.1 hv.flags.2 hunsent
  have hround : Next engine s (.send SendThread.shortRound) { s with thread := thread } := by
    refine ⟨fun _ => (by decide : 1 < 2 ^ 31), ?_⟩
    show (SendThread.run { sockets := [v.socket], newTasks := [0] } SendThread.shortRound >>= _) = _
    rw [hsent]
    rfl
  have hsocket : thread.sockets[0]? = some socket := by rw [hsockets]; rfl
  exact ⟨_, _, _, socket, (hrun.step hvisit).step hround, rfl, rfl, hsocket, haccepted⟩

/-- `SET` on the first connection, with a name in capital letters; of the reply the kernel has taken the first
byte. -/
theorem clients_see_one_map_of_set : ∃ moves s socket, ServerRun listEngine [] moves s ∧
    s.executed = [(0, [ascii "SET", [107], [118]])] ∧ s.thread.sockets[0]? = some socket ∧
    socket.accepted ≠ [] ∧ ∃ log, Sequential listEngine [] log s.db ∧
      log.map (fun x => (x.id, x.request)) = s.executed ∧
      socket.accepted <+: (repliesOf 0 log).flatMap Reply.bytes := by
  have hans : answer listEngine [] [ascii "SET", [107], [118]] = .ok (.ok, [([107], [118])]) := rfl
  obtain ⟨moves, s, conn, socket, hrun, hexecuted, hconn, hsocket, haccepted⟩ :=
    exists_sent (List.cons_ne_nil _ _) (by decide +kernel) hans (by decide)
  obtain ⟨⟨log, hseq, hlog, hclient⟩, _⟩ := clients_see_one_map hrun
  exact ⟨moves, s, socket, hrun, hexecuted, hsocket, haccepted, log, hseq, hlog,
    (hclient 0 conn socket hconn hsocket).2.1⟩

end Server

end Eraft
